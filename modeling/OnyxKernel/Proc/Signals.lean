import Mathlib.Data.Nat.Bitwise
import OnyxKernel.Proc.Family

/-!
# Signals and `execve`

`proc/signals` for one process: `sigaction`, `sigprocmask`, `signal_send`, the delivery in
`signal_check` and `sigreturn`. The trap frame carries `satp`, so a frame saved before an `execve`
names the address space that the `execve` left.
-/

namespace Proc

open Infra Onyx Mm Function

/-! ## Signals of one process -/

def sigKill : Nat := 9
def sigChld : Nat := 17
def sigCont : Nat := 18
def sigStop : Nat := 19
def sigTstp : Nat := 20
def sigWinch : Nat := 28

/-- `1u32 << signal` -/
def sigBit (signal : Nat) : UInt32 := 1 <<< UInt32.ofNat signal

def protectedMask : UInt32 := sigBit sigKill ||| sigBit sigStop

/-- `sigaction` with the handler and the mask read from the user's structure, if one is given. -/
def sigaction (signum : Nat) (act : Option (Nat × UInt32)) (p : Process) : Except Errno Process :=
  if h : signum = 0 ∨ 32 ≤ signum then .error .inval
  else if signum = sigKill ∨ signum = sigStop then .error .inval
  else
    let i : Fin 32 := ⟨signum, by omega⟩
    match act with
    | none => .ok p
    | some (handler, extraMask) => .ok
      { p with
        signalHandlers := update p.signalHandlers i handler
        signalHandlerMasks := update p.signalHandlerMasks i (extraMask &&& ~~~protectedMask) }

/-- `sigprocmask` with the new mask. -/
def sigprocmask (how : Nat) (newMask : UInt32) (p : Process) : Except Errno Process :=
  match how with
  | 0 => .ok { p with signalMask := p.signalMask ||| (newMask &&& ~~~protectedMask) }
  | 1 => .ok { p with signalMask := p.signalMask &&& ~~~(newMask &&& ~~~protectedMask) }
  | 2 => .ok { p with signalMask := newMask &&& ~~~protectedMask }
  | _ => .error .inval

def sigreturn (p : Process) : Process :=
  if p.inSignalHandler = false then p
  else { p with inSignalHandler := false, signalMask := p.savedMask, tf := p.savedTf }

def sysSigmask (how sig : Nat) (p : Process) : Except Errno Process :=
  if 32 ≤ sig then .error .inval
  else if (sig = sigKill ∨ sig = sigStop) ∧ how = 0 then .ok p
  else match how with
    | 0 => .ok { p with signalMask := p.signalMask ||| sigBit sig }
    | 1 => .ok { p with signalMask := p.signalMask &&& ~~~sigBit sig }
    | 2 => .ok { p with signalMask := if sig = sigKill ∨ sig = sigStop then 0 else sigBit sig }
    | _ => .error .inval

/-- `signal_send`; the run queue is not part of this model. -/
def signalSend (signal : Nat) (p : Process) : Except Errno Process :=
  if signal = 0 ∨ 32 ≤ signal then .error .inval
  else
    let pending :=
      if signal = sigCont then p.pendingSignals &&& ~~~(sigBit sigStop ||| sigBit sigTstp)
      else if signal = sigStop ∨ signal = sigTstp then p.pendingSignals &&& ~~~sigBit sigCont
      else p.pendingSignals
    let resume := match p.state with
      | .waiting => true
      | .stopped => signal = sigCont || signal = sigKill
      | _ => false
    .ok
      { p with
        pendingSignals := pending ||| sigBit signal
        state := if resume then .ready else p.state }

def nextSignal (p : Process) : Option (Fin 32) :=
  (List.finRange 32).find? fun i =>
    0 < i.1 && p.pendingSignals &&& ~~~p.signalMask &&& sigBit i.1 ≠ 0

def defaultAction (signum : Nat) (p : Process) : Process :=
  if signum = sigTstp then { p with state := .stopped }
  else if signum = sigCont ∨ signum = sigChld ∨ signum = sigWinch then p
  else { p with state := .exited }

def enterHandler (i : Fin 32) (p : Process) : Process :=
  { p with
    savedTf := p.tf
    inSignalHandler := true
    savedMask := p.signalMask
    signalMask := (p.signalMask ||| p.signalHandlerMasks i) &&& ~~~protectedMask
    tf := { p.tf with
      sepc := p.signalHandlers i
      a0 := i.1
      sp := (p.tf.sp + (2 ^ 64 - 256)) % 2 ^ 64 / 16 * 16 } }

/-- `signal_check`. A process that dies here is left in `Exited`. -/
def signalCheck (p : Process) : Process :=
  if p.pendingSignals &&& sigBit sigKill ≠ 0 then
    { p with pendingSignals := p.pendingSignals &&& ~~~sigBit sigKill, state := .exited }
  else if p.pendingSignals &&& sigBit sigStop ≠ 0 then
    { p with pendingSignals := p.pendingSignals &&& ~~~sigBit sigStop, state := .stopped }
  else if p.inSignalHandler = true then p
  else match nextSignal p with
    | none => p
    | some i =>
      let p := { p with pendingSignals := p.pendingSignals &&& ~~~sigBit i.1 }
      if p.signalHandlers i = 0 then defaultAction i.1 p
      else if p.signalHandlers i = 1 then p
      else enterHandler i p

/-! ## Runs -/

/-- What happens to a process: it enters the kernel with any registers, or the kernel does something
for it. -/
inductive SigStep
  | trap (regs : TrapFrame)
  | advance (ret : Nat)
  | execve (x : ExecArgs)
  | sigaction (signum : Nat) (act : Option (Nat × UInt32))
  | sigprocmask (how : Nat) (newMask : UInt32)
  | sigmask (how sig : Nat)
  | sigreturn
  | signalSend (signal : Nat)
  | signalCheck

/-- The kernel, and for the process: the number of its `execve` calls so far, and that number when
the saved frame was saved and when each handler was installed. -/
structure Observed where
  kernel : Kernel
  image : Nat
  savedIn : Nat
  handlerIn : Nat → Nat

def Observed.put (w : Observed) (cur : Nat) (r : Except Errno Process) : Observed :=
  match r with
  | .ok p => { w with kernel := w.kernel.update cur fun _ => p }
  | .error _ => w

def Observed.after (cur : Nat) (w : Observed) : SigStep → Observed
  -- `trap_entry` saves the registers and the `satp` in force, which is that of the last frame.
  | .trap regs => w.put cur (.ok
      { w.kernel.proc cur with tf := { regs with satp := (w.kernel.proc cur).tf.satp } })
  -- The end of `exceptions::handle` for a system call other than `sigreturn` and `exit`.
  | .advance ret => w.put cur (.ok
      { w.kernel.proc cur with
        tf := { (w.kernel.proc cur).tf with a0 := ret, sepc := (w.kernel.proc cur).tf.sepc + 4 } })
  | .execve x =>
    match sysExecve cur x w.kernel with
    | (.ok _, k) => { w with kernel := k, image := w.image + 1 }
    | (.error _, k) => { w with kernel := k }
  | .sigaction signum act =>
    match Proc.sigaction signum act (w.kernel.proc cur) with
    | .error _ => w
    | .ok p =>
      { w with
        kernel := w.kernel.update cur fun _ => p
        handlerIn := if act.isSome then update w.handlerIn signum w.image else w.handlerIn }
  | .sigprocmask how newMask => w.put cur (Proc.sigprocmask how newMask (w.kernel.proc cur))
  | .sigmask how sig => w.put cur (sysSigmask how sig (w.kernel.proc cur))
  | .sigreturn => w.put cur (.ok (Proc.sigreturn (w.kernel.proc cur)))
  | .signalSend signal => w.put cur (Proc.signalSend signal (w.kernel.proc cur))
  | .signalCheck =>
    let p := w.kernel.proc cur
    let q := Proc.signalCheck p
    { w.put cur (.ok q) with
      savedIn := if p.inSignalHandler = false ∧ q.inSignalHandler = true then w.image else w.savedIn }

/-- The steps of process `cur`. -/
def signals (cur : Nat) : Machine Observed SigStep where
  step w a := some (w.after cur a)

/-- The start of a run; everything installed or saved so far belongs to the first image. -/
def observe (k : Kernel) : Observed := { kernel := k, image := 0, savedIn := 0, handlerIn := fun _ => 0 }

/-! ## The invariant -/

/-- Frames and handlers that can still be loaded were recorded in the current image, and the frame
in force is one of the current root. -/
structure Current (cur : Nat) (w : Observed) : Prop where
  frame : (w.kernel.proc cur).inSignalHandler = true →
    w.savedIn = w.image ∧ (w.kernel.proc cur).savedTf.satp = satpOf (w.kernel.proc cur).rootPa
  handlers : ∀ i, 1 < (w.kernel.proc cur).signalHandlers i → w.handlerIn i.1 = w.image
  satp : (w.kernel.proc cur).tf.satp = satpOf (w.kernel.proc cur).rootPa

variable {cur : Nat} {w : Observed}

/-! ### Sets of signals -/

/-- No signal of `m` is in `x`. -/
def Lacks (x m : UInt32) : Prop := x &&& m = 0

instance (x m : UInt32) : Decidable (Lacks x m) := inferInstanceAs (Decidable (x &&& m = 0))

section

variable {x y m : UInt32} {how sig : Nat} {p q : Process}

theorem lacks_and_not : Lacks (x &&& ~~~m) m := by
  simp [Lacks, UInt32.and_assoc]

theorem Lacks.and (h : Lacks x m) : Lacks (x &&& y) m := by
  unfold Lacks at *
  rw [UInt32.and_assoc, UInt32.and_comm y, ← UInt32.and_assoc, h, UInt32.zero_and]

theorem Lacks.or (hx : Lacks x m) (hy : Lacks y m) : Lacks (x ||| y) m := by
  unfold Lacks at *
  rw [← UInt32.toNat_inj, UInt32.toNat_and] at *
  rw [UInt32.toNat_or, Nat.and_or_distrib_right, hx, hy]
  rfl

theorem sigBit_lacks_protected (hlt : ¬ 32 ≤ sig) (hne : ¬ (sig = sigKill ∨ sig = sigStop)) :
    Lacks (sigBit sig) protectedMask := by
  have hall : ∀ i : Fin 32, ¬ (i.1 = sigKill ∨ i.1 = sigStop) → Lacks (sigBit i.1) protectedMask := by decide
  exact hall ⟨sig, Nat.lt_of_not_le hlt⟩ hne

theorem sigprocmask_mask {newMask : UInt32} (h : sigprocmask how newMask p = .ok q) : ∃ m,
    q = { p with signalMask := m } ∧ (Lacks p.signalMask protectedMask → Lacks m protectedMask) := by
  unfold sigprocmask at h
  split at h <;> cases h
  · exact ⟨_, rfl, fun hp => hp.or lacks_and_not⟩
  · exact ⟨_, rfl, fun hp => hp.and⟩
  · exact ⟨_, rfl, fun _ => lacks_and_not⟩

theorem sysSigmask_mask (h : sysSigmask how sig p = .ok q) : ∃ m,
    q = { p with signalMask := m } ∧ (Lacks p.signalMask protectedMask → Lacks m protectedMask) := by
  unfold sysSigmask at h
  split at h
  · cases h
  rename_i hlt
  split at h
  · cases h
    exact ⟨_, rfl, id⟩
  rename_i hsig
  split at h <;> cases h
  · exact ⟨_, rfl, fun hp => hp.or (sigBit_lacks_protected hlt fun hs => hsig ⟨hs, rfl⟩)⟩
  · exact ⟨_, rfl, fun hp => hp.and⟩
  · refine ⟨_, rfl, fun _ => ?_⟩
    split
    · exact UInt32.zero_and
    · exact sigBit_lacks_protected hlt ‹_›

end

theorem defaultAction_state (signum : Nat) (p : Process) : ∃ state, defaultAction signum p = { p with state } := by
  unfold defaultAction
  split
  · exact ⟨_, rfl⟩
  split
  · exact ⟨p.state, rfl⟩
  · exact ⟨_, rfl⟩

/-! ### What `signal_check` does -/

theorem lacks_or_has (x : UInt32) (i : Fin 32) : Lacks x (sigBit i.1) ∨ x &&& sigBit i.1 = sigBit i.1 := by
  have hbit : ∀ i : Fin 32, (sigBit i.1).toNat = 2 ^ i.1 := by decide
  unfold Lacks
  rw [← UInt32.toNat_inj, ← UInt32.toNat_inj, UInt32.toNat_and, hbit, Nat.and_two_pow]
  cases x.toNat.testBit i.1 <;> simp

theorem nextSignal_spec {p : Process} {i : Fin 32} (h : nextSignal p = some i) :
    ¬ Lacks p.pendingSignals (sigBit i.1) ∧ Lacks p.signalMask (sigBit i.1) := by
  have hnext : p.pendingSignals &&& ~~~p.signalMask &&& sigBit i.1 ≠ 0 := by
    have hfound := List.find?_some h
    simp only [Bool.and_eq_true, decide_eq_true_eq] at hfound
    exact hfound.2
  refine ⟨fun hp => hnext hp.and, (lacks_or_has p.signalMask i).resolve_right fun hm => hnext ?_⟩
  rw [← hm, ← UInt32.and_assoc, show _ &&& p.signalMask = 0 from lacks_and_not, UInt32.zero_and]

/-- `q` is `p` at the start of the handler of `i`: a pending signal that was not blocked, while no handler
was active. -/
structure Enters (i : Fin 32) (p q : Process) : Prop where
  pending : ¬ Lacks p.pendingSignals (sigBit i.1)
  unblocked : Lacks p.signalMask (sigBit i.1)
  alone : p.inSignalHandler = false
  handler : 1 < p.signalHandlers i
  entered : q = enterHandler i { p with pendingSignals := p.pendingSignals &&& ~~~sigBit i.1 }

/-- No handler is entered: only pending signals are taken and the state changes. -/
def KeepsFrame (p q : Process) : Prop :=
  ∃ taken state, q = { p with pendingSignals := p.pendingSignals &&& ~~~taken, state }

theorem signalCheck_spec (p : Process) : (∃ i, Enters i p (signalCheck p)) ∨ KeepsFrame p (signalCheck p) := by
  have hsame : KeepsFrame p p := ⟨0, p.state, by simp⟩
  unfold signalCheck
  split
  · exact .inr ⟨_, _, rfl⟩
  split
  · exact .inr ⟨_, _, rfl⟩
  split
  · exact .inr hsame
  rename_i hin
  split
  · exact .inr hsame
  rename_i i hi
  simp only
  split
  · obtain ⟨state, hd⟩ := defaultAction_state i.1 { p with pendingSignals := p.pendingSignals &&& ~~~sigBit i.1 }
    exact .inr ⟨_, state, hd⟩
  split
  · exact .inr ⟨_, p.state, rfl⟩
  · obtain ⟨hpending, hmask⟩ := nextSignal_spec hi
    exact .inl ⟨i, hpending, hmask, by simpa using hin, by omega, rfl⟩

/-- An `execve` is made outside a handler and with no handler installed. -/
def execsWithoutHandlers (cur : Nat) (w : Observed) : SigStep → Prop
  | .execve _ => (w.kernel.proc cur).inSignalHandler = false ∧
      ∀ i, (w.kernel.proc cur).signalHandlers i ≤ 1
  | _ => True

instance (cur : Nat) (w : Observed) (a : SigStep) : Decidable (execsWithoutHandlers cur w a) := by
  unfold execsWithoutHandlers
  split <;> infer_instance

section

variable (h : Current cur w)
include h

theorem Current.put {p : Process}
    (hroot : p.rootPa = (w.kernel.proc cur).rootPa)
    (hhandlers : p.signalHandlers = (w.kernel.proc cur).signalHandlers)
    (hsaved : p.inSignalHandler = true → (w.kernel.proc cur).inSignalHandler = true ∧
      p.savedTf = (w.kernel.proc cur).savedTf)
    (hsatp : p.tf.satp = satpOf p.rootPa) : Current cur (w.put cur (.ok p)) := by
  refine ⟨fun hin => ?_, fun i hi => ?_, ?_⟩
  · simp only [Observed.put, proc_update_self] at hin ⊢
    rw [(hsaved hin).2, hroot]
    exact h.frame (hsaved hin).1
  · simp only [Observed.put, proc_update_self, hhandlers] at hi
    exact h.handlers i hi
  · simp only [Observed.put, proc_update_self]
    exact hsatp

theorem Current.putMask {r : Except Errno Process}
    (hr : ∀ q, r = .ok q → ∃ m, q = { w.kernel.proc cur with signalMask := m } ∧
      (Lacks (w.kernel.proc cur).signalMask protectedMask → Lacks m protectedMask)) : Current cur (w.put cur r) := by
  cases r with
  | error e => exact h
  | ok q =>
    obtain ⟨m, rfl, -⟩ := hr q rfl
    exact h.put rfl rfl (fun hin => ⟨hin, rfl⟩) h.satp

theorem Current.sigaction (signum : Nat) (act : Option (Nat × UInt32)) :
    Current cur (w.after cur (.sigaction signum act)) := by
  simp only [Observed.after]
  split
  · exact h
  rename_i p hp
  unfold Proc.sigaction at hp
  split at hp
  · cases hp
  split at hp
  · cases hp
  cases act with
  | none =>
    simp only [Except.ok.injEq] at hp
    subst hp
    exact h.put rfl rfl (fun hin => ⟨hin, rfl⟩) h.satp
  | some a =>
    simp only [Except.ok.injEq] at hp
    subst hp
    refine ⟨fun hin => ?_, fun i hi => ?_, ?_⟩
    · simp only [proc_update_self] at hin ⊢
      exact h.frame hin
    · simp only [proc_update_self, Option.isSome_some, if_true] at hi ⊢
      by_cases hs : i.1 = signum
      · rw [hs, update_self]
      · rw [update_of_ne fun he => hs (by rw [he])] at hi
        rw [update_of_ne hs]
        exact h.handlers i hi
    · simp only [proc_update_self]
      exact h.satp

theorem Current.signalCheck : Current cur (w.after cur .signalCheck) := by
  simp only [Observed.after]
  rcases signalCheck_spec (w.kernel.proc cur) with ⟨i, hi⟩ | ⟨taken, state, hp⟩
  · rw [hi.entered, if_pos ⟨hi.alone, rfl⟩]
    refine ⟨fun _ => ⟨rfl, ?_⟩, fun i hi => h.handlers i ?_, ?_⟩
    · simpa [Observed.put, proc_update_self, enterHandler] using h.satp
    · simpa [Observed.put, proc_update_self, enterHandler] using hi
    · simpa [Observed.put, proc_update_self, enterHandler] using h.satp
  · rw [hp, if_neg (by simp)]
    exact h.put rfl rfl (fun hin => ⟨hin, rfl⟩) h.satp

theorem Current.execve (x : ExecArgs)
    (hok : execsWithoutHandlers cur w (.execve x)) : Current cur (w.after cur (.execve x)) := by
  obtain ⟨k', -, -, ⟨⟨e, he⟩, hcur⟩ | ⟨r, c, he, -, hcur⟩⟩ := sysExecve_cases cur x w.kernel
  · simp only [Observed.after, he]
    refine ⟨?_, ?_, ?_⟩
    · simp only [hcur]
      exact h.frame
    · simp only [hcur]
      exact h.handlers
    · simp only [hcur]
      exact h.satp
  · simp only [Observed.after, he]
    refine ⟨fun hin => ?_, fun i hi => ?_, ?_⟩
    · simp only [hcur, Process.exec, hok.1, Bool.false_eq_true] at hin
    · simp only [hcur, Process.exec] at hi
      exact absurd (hok.2 i) (by omega)
    · simp only [hcur, Process.exec]

theorem Current.after (a : SigStep) (hok : execsWithoutHandlers cur w a) : Current cur (w.after cur a) := by
  cases a with
  | trap regs | advance ret => exact h.put rfl rfl (fun hin => ⟨hin, rfl⟩) h.satp
  | execve x => exact h.execve x hok
  | sigaction signum act => exact h.sigaction signum act
  | sigprocmask how newMask => exact h.putMask fun _ => sigprocmask_mask
  | sigmask how sig => exact h.putMask fun _ => sysSigmask_mask
  | sigreturn =>
    simp only [Observed.after, Proc.sigreturn]
    split
    · exact h.put rfl rfl (fun hin => ⟨hin, rfl⟩) h.satp
    · rename_i hin
      exact h.put rfl rfl nofun (h.frame (by simpa using hin)).2
  | signalSend signal =>
    simp only [Observed.after, Proc.signalSend]
    split
    · exact h
    · exact h.put rfl rfl (fun hin => ⟨hin, rfl⟩) h.satp
  | signalCheck => exact h.signalCheck

end

/-- In every run from a process whose frames are of its root, in which each `execve` is made outside
a handler and with no handler installed: a frame that `sigreturn` would load was saved after the last
`execve`, `signal_check` enters no handler or one that was installed after it, and the frame in force has
the `satp` of the current root. -/
theorem exec_starts_clean (k : Kernel) (cur : Nat)
    (hsatp : (k.proc cur).tf.satp = satpOf (k.proc cur).rootPa)
    (hsaved : (k.proc cur).inSignalHandler = true →
      (k.proc cur).savedTf.satp = satpOf (k.proc cur).rootPa) (w : Observed)
    (h : (signals cur).Reach (execsWithoutHandlers cur) (observe k) w) :
    ((w.kernel.proc cur).inSignalHandler = true → w.savedIn = w.image ∧
        (sigreturn (w.kernel.proc cur)).tf.satp = satpOf (w.kernel.proc cur).rootPa) ∧
      (KeepsFrame (w.kernel.proc cur) (signalCheck (w.kernel.proc cur)) ∨
        ∃ i, Enters i (w.kernel.proc cur) (signalCheck (w.kernel.proc cur)) ∧ w.handlerIn i.1 = w.image) ∧
      (w.kernel.proc cur).tf.satp = satpOf (w.kernel.proc cur).rootPa := by
  have hinv : Current cur w := by
    refine h.invariant ⟨fun hin => ⟨rfl, hsaved hin⟩, fun _ _ => rfl, hsatp⟩ ?_
    intro v a v' hv hok hstep
    cases hstep
    exact hv.after a hok
  refine ⟨fun hin => ⟨(hinv.frame hin).1, ?_⟩, ?_, hinv.satp⟩
  · rw [Proc.sigreturn, if_neg (by simp [hin])]
    exact (hinv.frame hin).2
  · obtain ⟨i, hi⟩ | hkeeps := signalCheck_spec (w.kernel.proc cur)
    · exact .inr ⟨i, hi, hinv.handlers i hi.handler⟩
    · exact .inl hkeeps

/-- A signal handled before the `execve` and one after it. -/
theorem exec_starts_clean_sampleKernel :
    ∃ w, (signals 0).Reach (execsWithoutHandlers 0) (observe (sampleKernel 1)) w ∧
      (w.kernel.proc 0).rootPa = 0x80400 ∧ (w.kernel.proc 0).inSignalHandler = true ∧
      w.savedIn = 1 ∧ (w.kernel.proc 0).tf.satp = satpOf 0x80400 := by
  refine Machine.exists_reach_imp (P := fun w => (w.kernel.proc 0).rootPa = 0x80400 ∧
    (w.kernel.proc 0).inSignalHandler = true ∧ w.image = 1)
    [.sigaction 10 (some (0x11000, 0)), .signalSend 10, .signalCheck, .sigreturn,
      .sigaction 10 (some (0, 0)), .execve (execSmall Onx.onxFlagsRing1),
      .sigaction 12 (some (0x12000, 0)), .signalSend 12, .signalCheck] (by decide +kernel) ?_
  rintro w h ⟨hroot, hin, himage⟩
  obtain ⟨h1, -, h3⟩ := exec_starts_clean (sampleKernel 1) 0 rfl nofun w h
  exact ⟨hroot, hin, (h1 hin).1.trans himage, by rw [h3, hroot]⟩

/-- A process calls `execve` in a handler, and `sigreturn` takes it back to the old root. -/
theorem sigreturn_loads_old_root :
    ∃ w, (signals 0).Reach (fun _ _ => True) (observe (sampleKernel 1)) w ∧
      w.image = 1 ∧ (w.kernel.proc 0).rootPa = 0x80400 ∧
      (w.kernel.proc 0).tf.satp = satpOf 0x80300 :=
  Machine.exists_reach_of_play [.sigaction 10 (some (0x11000, 0)), .signalSend 10, .signalCheck,
    .execve (execSmall Onx.onxFlagsRing1), .sigreturn] (by decide +kernel)

end Proc
