import OnyxKernel.Proc.ExitWait

/-!
# Processes that the scheduler does not find

A process that waits or has exited and is on no run queue stays so, whatever the harts do, until a step
stores a state in it or queues it by name: a stop, a signal, or the exit of a child.
-/

namespace Sched

open Infra Proc Function List

variable {n : Nat} {t t' : Table n} {p q : Nat} {h : Fin n} {st st' : ProcState}

/-- `q` is in a state that the scheduler does not look for, and on no queue. -/
structure Rests (q : Nat) (st : ProcState) (t : Table n) : Prop where
  state : (t.node q).state = st
  off : ∀ h, q ∉ t.rq h

section

variable (hr : Rests q st t)
include hr

theorem Rests.congr (hstate : (t'.node q).state = (t.node q).state) (hrq : t'.rq = t.rq) : Rests q st t' :=
  ⟨hstate.trans hr.state, hrq ▸ hr.off⟩

theorem Rests.setState (hne : q ≠ p) (st' : ProcState) : Rests q st (t.setState p st') :=
  hr.congr (by rw [setState_of_ne t p st' hne]) rfl

theorem Rests.store (st' : ProcState) : Rests q st' (t.setState q st') := ⟨setState_self .., hr.off⟩

theorem Rests.enqueue (hne : q ≠ p) (h : Fin n) : Rests q st (t.enqueue h p) :=
  ⟨((requeued_enqueue t h p).state q).trans hr.state, fun h' hq => (mem_enqueue hq).elim (hr.off h') hne⟩

theorem Rests.dequeue {x : Option Nat} (hd : t.dequeue h = (x, t')) :
    Rests q st t' ∧ ∀ p, x = some p → q ≠ p :=
  ⟨⟨((requeued_dequeue hd).state q).trans hr.state, fun h' hq => hr.off h' ((mem_dequeue hd).1 h' q hq)⟩,
    fun p hp he => hr.off h (he ▸ (mem_dequeue hd).2 p hp)⟩

theorem Rests.remove (h : Fin n) (p : Nat) : Rests q st (t.remove h p) := by
  unfold Table.remove
  split_ifs
  · exact hr
  · refine ⟨((requeued_set ..).state q).trans hr.state, fun h' => ?_⟩
    rw [setQueue_rq]
    split_ifs
    · exact fun hq => hr.off h (mem_of_mem_erase hq)
    · exact hr.off h'
  · exact hr

theorem Rests.foldl_remove (p : Nat) (l : List (Fin n)) : Rests q st (l.foldl (fun t h => t.remove h p) t) := by
  induction l generalizing t with
  | nil => exact hr
  | cons h l ih => exact ih (hr.remove h p)

omit hr in
theorem rests_across (q : Nat) (h : Fin n) (hst : st ∉ [.ready, .running, .creating]) :
    Across h (q ≠ ·) (Rests q st) where
  ready hne hr := hr.setState hne .ready
  running hne hr := hr.setState hne .running
  setCurrent _ hr := hr.congr rfl rfl
  enqueue h' hne hr := hr.enqueue hne h'
  dequeue hd hr := hr.dequeue hd
  found hr hp := by
    rintro rfl
    exact hst (hr.state ▸ hp)
  reparent _ hr := hr.congr (reparent_state ..) rfl
  unlink _ hr := hr.congr rfl rfl

end

/-! ## Steps -/

/-- The processes in which a step stores a state, or that it puts on a queue, wherever they are. `exit`
stores the exit code when `disconnect_waiter` is through. -/
def Harts.disturbs (w : Harts n) (a : Act n) : List Nat :=
  match w.pc a.hart, a with
  | .run, .stop h => (w.table.current h).toList
  | .wake p, .sigStore _ | .link p, .sigLink _ | .exitPublished p _, .exitCode _ => [p]
  | .exitCoded p, .exitFinal _ => p :: ((w.table.setState p .exited).sleepingParent p).toList
  | _, _ => []

variable {w u : Harts n} {a : Act n}

/-- A process that waits, or that exits and is still to be taken off the lists. -/
def Down (w : Harts n) (q : Nat) : Prop :=
  Rests q .waiting w.table ∨ Rests q .exited w.table ∧ ∃ h code, w.pc h = .exitPublished q code

/-- The process that a hart has yet to take off the lists. -/
def Pc.published : Pc → Option Nat
  | .exitPublished p _ => some p
  | _ => none

/-- A step of a hart that is not in `exit` of `q` any more or not yet. -/
theorem Down.go (hd : Down w q) {pc : Pc} (hpc : ∀ code, w.pc h ≠ .exitPublished q code)
    (hkeep : ∀ st, st ∉ [.ready, .running, .creating] → Rests q st w.table → Rests q st t) :
    Down (w.go h pc t) q := by
  rcases hd with hw | ⟨he, h', code, hp⟩
  · exact .inl (hkeep _ (by decide) hw)
  · exact .inr ⟨hkeep _ (by decide) he, h', code, go_of_pc hp (hpc code)⟩

theorem Down.step (hd : Down w q) (hq : q ∉ w.disturbs a) (hstep : (harts n).step w a = some u) : Down u q := by
  have hother : ∀ {h : Fin n} {pc : Pc}, w.pc h = pc → pc.published = none →
      ∀ code, w.pc h ≠ .exitPublished q code := fun hpc hnone code he => by
    simp [← hpc, he, Pc.published] at hnone
  cases step_inv hstep with
  | nothing hpc => exact hd
  | trap hpc | skipped hpc | free hpc | exitFree hpc | sigFind hpc | dropStolen hpc | sigRead hpc =>
    exact hd.go (hother hpc rfl) fun _ _ hr => hr
  | @exitFind h c p code hpc =>
    have hgo : Down (w.go h (.exitFound p code) w.table) q := hd.go (hother hpc rfl) fun _ _ hr => hr
    exact hgo
  | @reported h p a pid nohang hpc =>
    have hgo : Down (w.go h (.reap a) (w.table.unlink a)) q :=
      hd.go (hother hpc rfl) fun _ _ hr => hr.congr rfl rfl
    exact hgo
  | @waiting h p pid nohang hpc hcur =>
    by_cases hqp : q = p
    · subst hqp
      exact .inl (hd.elim (·.store _) (·.1.store _))
    · exact hd.go (hother hpc rfl) fun _ _ hr => hr.setState hqp .waiting
  | @stop h p hpc hcur =>
    have hqp : q ≠ p := fun he => hq (by simp [Harts.disturbs, Act.hart, hpc, hcur, he])
    exact hd.go (hother hpc rfl) fun _ _ hr => hr.setState hqp .stopped
  | publish hpc => exact hd.go (hother hpc rfl) fun _ hst hr => (rests_across q _ hst).publishReady hr _
  | yielded hpc => exact hd.go (hother hpc rfl) fun _ hst hr => (rests_across q _ hst).yieldFirst hr _
  | tried hpc => exact hd.go (hother hpc rfl) fun _ hst hr => (rests_across q _ hst).stealFrom hr _
  | @runStolen h p hpc hready =>
    refine hd.go (hother hpc rfl) fun _ hst hr => (rests_across q h hst).run hr ?_
    exact (rests_across q h hst).found hr (by simp [hready])
  | settle hpc => exact hd.go (hother hpc rfl) fun _ hst hr => (rests_across q _ hst).settle hr
  | @sigStore h p hpc =>
    have hqp : q ≠ p := fun he => hq (by simp [Harts.disturbs, Act.hart, hpc, he])
    exact hd.go (hother hpc rfl) fun _ _ hr => hr.setState hqp .ready
  | @sigLink h p hpc =>
    have hqp : q ≠ p := fun he => hq (by simp [Harts.disturbs, Act.hart, hpc, he])
    exact hd.go (hother hpc rfl) fun _ _ hr => hr.enqueue hqp h
  | @exitPublish h p code hpc =>
    by_cases hqp : q = p
    · subst hqp
      refine .inr ⟨?_, h, code, update_self ..⟩
      exact (hd.elim (·.store _) (·.1.store _)).foldl_remove q _
    · exact hd.go (hother hpc rfl) fun _ _ hr => (hr.setState hqp .exited).foldl_remove p _
  | @exitCode h p code hpc =>
    have hqp : q ≠ p := fun he => hq (by simp [Harts.disturbs, Act.hart, hpc, he])
    refine hd.go (fun c he => ?_) fun _ _ hr => hr.congr (setNode_field _ p q Node.state rfl) rfl
    cases hpc.symm.trans he
    exact hqp rfl
  | @exitFinal h p hpc =>
    have hno : q ∉ p :: ((w.table.setState p .exited).sleepingParent p).toList := by
      simpa [Harts.disturbs, Act.hart, hpc] using hq
    refine hd.go (hother hpc rfl) fun _ hst hr => (rests_across q h hst).exitFinal
      (hr.setState (ne_of_not_mem_cons hno) .exited) fun a ha he => hno ?_
    simp [ha, he]

end Sched
