import OnyxKernel.Proc.Signals

/-!
# Masks and handlers over a run

What holds of the masks, the pending signals and the saved frame of a process after any sequence of signals
and calls without an `execve`.
-/

namespace Proc

open Infra Onyx Function

variable {cur : Nat} {k : Kernel} {v w u : Observed} {p : Process} {entered : Option (TrapFrame × UInt32)}

/-- The signals that `SIGCONT` cancels. -/
def stops : UInt32 := sigBit sigStop ||| sigBit sigTstp

theorem sigBit_lacks_job {sig : Nat} (hlt : ¬ (sig = 0 ∨ 32 ≤ sig)) (hcont : sig ≠ sigCont)
    (hstop : ¬ (sig = sigStop ∨ sig = sigTstp)) :
    Lacks (sigBit sig) (sigBit sigCont) ∧ Lacks (sigBit sig) stops := by
  have hall : ∀ i : Fin 32, i.1 ≠ sigCont → ¬ (i.1 = sigStop ∨ i.1 = sigTstp) →
      Lacks (sigBit i.1) (sigBit sigCont) ∧ Lacks (sigBit i.1) stops := by decide
  exact hall ⟨sig, by omega⟩ hcont hstop

/-- The masks and the pending signals are in order. If `entered` is given, a handler is active that was
entered with this frame and this mask in force. -/
structure Proper (entered : Option (TrapFrame × UInt32)) (p : Process) : Prop where
  mask : Lacks p.signalMask protectedMask
  handlerMasks : ∀ i, Lacks (p.signalHandlerMasks i) protectedMask
  exclusive : Lacks p.pendingSignals (sigBit sigCont) ∨ Lacks p.pendingSignals stops
  saved : p.inSignalHandler = true → Lacks p.savedMask protectedMask
  entry : ∀ e, entered = some e → p.inSignalHandler = true ∧ e = (p.savedTf, p.savedMask)

/-- Neither an `execve` nor, with `active`, the end of the handler. -/
def SigStep.stays (active : Bool) : SigStep → Bool
  | .execve _ => false
  | .sigreturn => !active
  | _ => true

section

variable {entered : Option (TrapFrame × UInt32)} (h : Proper entered p) {q : Process}
include h

theorem Proper.withMask (hq : ∃ m, q = { p with signalMask := m } ∧
    (Lacks p.signalMask protectedMask → Lacks m protectedMask)) : Proper entered q := by
  obtain ⟨m, rfl, hm⟩ := hq
  exact { h with mask := hm h.mask }

theorem Proper.sigaction {signum : Nat} {act : Option (Nat × UInt32)}
    (hq : Proc.sigaction signum act p = .ok q) : Proper entered q := by
  unfold Proc.sigaction at hq
  split at hq
  · cases hq
  split at hq
  · cases hq
  cases act <;> cases hq
  · exact h
  · refine { h with handlerMasks := fun i => ?_ }
    simp only [update_apply]
    split
    · exact lacks_and_not
    · exact h.handlerMasks i

theorem Proper.signalSend {signal : Nat} (hq : Proc.signalSend signal p = .ok q) : Proper entered q := by
  unfold Proc.signalSend at hq
  split at hq <;> cases hq
  rename_i hlt
  refine { h with exclusive := ?_ }
  simp only
  split
  · subst signal
    exact .inr (lacks_and_not.or (by decide : Lacks (sigBit sigCont) stops))
  rename_i hcont
  split
  · rename_i hstop
    refine .inl (lacks_and_not.or ?_)
    rcases hstop with rfl | rfl <;> decide
  · obtain ⟨hc, hs⟩ := sigBit_lacks_job hlt hcont ‹_›
    exact h.exclusive.imp (·.or hc) (·.or hs)

theorem Proper.signalCheck : Proper entered (Proc.signalCheck p) := by
  rcases signalCheck_spec p with ⟨i, hi⟩ | ⟨taken, state, hp⟩
  · rw [hi.entered]
    refine ⟨lacks_and_not, h.handlerMasks, h.exclusive.imp (·.and) (·.and), fun _ => h.mask, fun e he => ?_⟩
    cases (h.entry e he).1.symm.trans hi.alone
  · rw [hp]
    exact { h with exclusive := h.exclusive.imp (·.and) (·.and) }

end

section

variable (h : Proper entered (w.kernel.proc cur))
include h

theorem Proper.put
    {r : Except Errno Process} (hr : ∀ q, r = .ok q → Proper entered q) :
    Proper entered ((w.put cur r).kernel.proc cur) := by
  cases r with
  | error e => exact h
  | ok q =>
    rw [Observed.put, proc_update_self]
    exact hr q rfl

theorem Proper.after
    {a : SigStep} (ha : a.stays entered.isSome = true) : Proper entered ((w.after cur a).kernel.proc cur) := by
  cases a with
  | execve x => cases ha
  | trap regs | advance ret =>
    refine h.put fun q hq => ?_
    cases hq
    exact { h with }
  | sigaction signum act =>
    simp only [Observed.after]
    split
    · exact h
    · rw [proc_update_self]
      exact h.sigaction ‹_›
  | sigprocmask how newMask => exact h.put fun q hq => h.withMask (sigprocmask_mask hq)
  | sigmask how sig => exact h.put fun q hq => h.withMask (sysSigmask_mask hq)
  | sigreturn =>
    refine h.put fun q hq => ?_
    cases hq
    unfold Proc.sigreturn
    split
    · exact h
    · rename_i hin
      refine { h with mask := h.saved (by simpa using hin), saved := by simp, entry := fun e he => ?_ }
      rw [he] at ha
      cases ha
  | signalSend signal => exact h.put fun q hq => h.signalSend hq
  | signalCheck =>
    refine h.put fun q hq => ?_
    cases hq
    exact h.signalCheck

theorem Proper.reach
    (hrun : (signals cur).Reach (fun _ a => a.stays entered.isSome = true) w u) :
    Proper entered (u.kernel.proc cur) :=
  hrun.invariant (I := fun u => Proper entered (u.kernel.proc cur)) h fun hv ha hstep => by
    cases hstep
    exact hv.after ha

end

/-- In every run without an `execve`. `signal_check` enters no handler, or one for a signal that is not
blocked and while none is active; until the next `sigreturn` it enters no other one, and that `sigreturn`
loads the frame and the mask in force when the handler was entered. -/
theorem signals_transparent (h0 : Proper none (k.proc cur))
    (hrun : (signals cur).Reach (fun _ a => a.stays false = true) (observe k) v) :
    let p := v.kernel.proc cur
    (Lacks p.signalMask protectedMask ∧ ∀ i, Lacks (p.signalHandlerMasks i) protectedMask) ∧
      (Lacks p.pendingSignals (sigBit sigCont) ∨ Lacks p.pendingSignals stops) ∧
      (KeepsFrame p (signalCheck p) ∨ ∃ i, Enters i p (signalCheck p) ∧
        ∀ u, (signals cur).Reach (fun _ a => a.stays true = true) (v.after cur .signalCheck) u →
          let q := u.kernel.proc cur
          KeepsFrame q (signalCheck q) ∧ (sigreturn q).tf = p.tf ∧ (sigreturn q).signalMask = p.signalMask) := by
  have hv := h0.reach (w := observe k) hrun
  refine ⟨⟨hv.mask, hv.handlerMasks⟩, hv.exclusive, ?_⟩
  obtain ⟨i, hi⟩ | hkeeps := signalCheck_spec (v.kernel.proc cur)
  swap
  · exact .inl hkeeps
  refine .inr ⟨i, hi, fun u hu => ?_⟩
  have hstart : Proper (some ((v.kernel.proc cur).tf, (v.kernel.proc cur).signalMask))
      ((v.after cur .signalCheck).kernel.proc cur) := by
    refine { hv.after (a := .signalCheck) rfl with entry := fun e he => ?_ }
    cases he
    simp [Observed.after, Observed.put, proc_update_self, hi.entered, enterHandler]
  obtain ⟨hactive, hsaved⟩ := (hstart.reach hu).entry _ rfl
  obtain ⟨htf, hmask⟩ := Prod.mk.inj hsaved
  refine ⟨(signalCheck_spec _).resolve_left ?_, ?_⟩
  · rintro ⟨j, hj⟩
    cases hactive.symm.trans hj.alone
  · simp [Proc.sigreturn, hactive, htf, hmask]

/-- As `alloc_proc` and `create_user` leave it, before and after `publish_ready`. -/
theorem newUser_proper (n : NewUser) (state : ProcState) : Proper none { n.process with state } :=
  ⟨UInt32.zero_and, fun _ => UInt32.zero_and, .inl UInt32.zero_and, nofun, nofun⟩

/-- A second signal waits for the end of the handler of the first. -/
theorem signals_transparent_two_signals : ∃ v u,
    (signals 0).Reach (fun _ a => a.stays false = true) (observe (sampleKernel 1)) v ∧
      (signals 0).Reach (fun _ a => a.stays true = true) (v.after 0 .signalCheck) u ∧
      (u.kernel.proc 0).tf.sepc = 0x11004 ∧ (sigreturn (u.kernel.proc 0)).tf = (v.kernel.proc 0).tf := by
  obtain ⟨v, hv, hin, hnext⟩ : ∃ v,
      (signals 0).Reach (fun _ a => a.stays false = true) (observe (sampleKernel 1)) v ∧
      (v.kernel.proc 0).inSignalHandler ≠ (signalCheck (v.kernel.proc 0)).inSignalHandler ∧
      ((signals 0).play (fun _ a => a.stays true = true)
        (v.after 0 .signalCheck) [.signalSend 12, .signalCheck, .advance 0]).any
          (fun u => (u.kernel.proc 0).tf.sepc = 0x11004) = true :=
    Machine.exists_reach_of_play [.sigaction 10 (some (0x11000, 0xFFFFFFFF)),
      .sigaction 12 (some (0x12000, 0)), .sigmask 0 4, .signalSend 10] (by decide +kernel)
  obtain ⟨u, hu, hsepc⟩ := Machine.exists_reach_of_play _ hnext
  obtain ⟨-, -, ⟨taken, state, hp⟩ | ⟨i, -, hhandler⟩⟩ := signals_transparent (newUser_proper _ _) hv
  · rw [hp] at hin
    exact absurd rfl hin
  · exact ⟨v, u, hv, hu, hsepc, (hhandler u hu).2.1⟩

end Proc
