import Mathlib.Tactic.SplitIfs
import OnyxKernel.Proc.Sched

/-!
# Every process is at one place

A process is the current process of a hart, or on a run queue, or in the hands of a hart that has
taken it from a queue or is about to put it on one, or at none of these places. That is the abstract
view of the scheduler: the sections of the code move a process from one place to another.

`Located` ties the view to the tables. It does not survive a wake-up of a process that is still
current on a hart.
-/

namespace Sched

open Infra Proc Function List

inductive Place (n : Nat)
  | out
  | cur (h : Fin n)
  | queue (h : Fin n)
  | hand (h : Fin n)
  deriving DecidableEq

def Pc.hand : Pc → Option Nat
  | .stolen p | .link p => some p
  | _ => none

variable {n : Nat} {L : List Nat} {t t' : Table n} {hand : Fin n → Option Nat} {place : Nat → Place n}
  {p q : Nat} {h : Fin n}

/-- The tables agree with the places of the processes, all of which are in `L`. -/
structure Located (L : List Nat) (t : Table n) (hand : Fin n → Option Nat) (place : Nat → Place n) : Prop where
  current : ∀ h p, t.current h = some p ↔ place p = .cur h
  queue : ∀ h p, p ∈ t.rq h ↔ place p = .queue h
  nodup : ∀ h, (t.rq h).Nodup
  flag : ∀ p, (t.node p).onRq = true ↔ ∃ h, place p = .queue h
  hand : ∀ h p, hand h = some p ↔ place p = .hand h
  ready : ∀ p, (∃ h, place p = .queue h ∨ place p = .hand h) → (t.node p).state = .ready
  made : ∀ h p, place p = .cur h → (t.node p).state ≠ .creating
  known : ∀ p, place p ≠ .out → p ∈ L

/-! ## Fields of the updated tables -/

section Fields

variable (t : Table n) (p q : Nat) (h : Fin n)

@[simp] theorem setCurrent_rq (c : Option Nat) : (t.setCurrent h c).rq = t.rq := rfl
@[simp] theorem setCurrent_node (c : Option Nat) : (t.setCurrent h c).node = t.node := rfl
@[simp] theorem setQueue_current (l : List Nat) : (t.setQueue h l).current = t.current := rfl
@[simp] theorem setOnRq_rq (b : Bool) : (t.setOnRq p b).rq = t.rq := rfl
@[simp] theorem setOnRq_current (b : Bool) : (t.setOnRq p b).current = t.current := rfl

theorem setQueue_rq (l : List Nat) (h' : Fin n) : (t.setQueue h l).rq h' = if h' = h then l else t.rq h' :=
  update_apply ..

/-- A field that the new node has as the old one had it. -/
theorem setNode_field {β : Type} (f : Node → β) {v : Node} (hf : f v = f (t.node p)) :
    f ((t.setNode p v).node q) = f (t.node q) := by
  by_cases hq : q = p
  · subst hq
    exact (congrArg f (update_self ..)).trans hf
  · exact congrArg f (update_of_ne hq _ _)

section

variable (st : ProcState)
include st

theorem setState_self : ((t.setState p st).node p).state = st := by
  simp [Table.setState, Table.setNode]

theorem setState_of_ne {q : Nat} (hq : q ≠ p) : (t.setState p st).node q = t.node q := update_of_ne hq _ _

@[simp] theorem setState_onRq : ((t.setState p st).node q).onRq = (t.node q).onRq := setNode_field t p q Node.onRq rfl

@[simp] theorem setState_pid : ((t.setState p st).node q).pid = (t.node q).pid := setNode_field t p q Node.pid rfl

end

@[simp] theorem setOnRq_state (b : Bool) : ((t.setOnRq p b).node q).state = (t.node q).state :=
  setNode_field t p q Node.state rfl

theorem setOnRq_self (b : Bool) : ((t.setOnRq p b).node p).onRq = b := by
  simp [Table.setOnRq, Table.setNode]

theorem setOnRq_of_ne (b : Bool) {q : Nat} (hq : q ≠ p) : ((t.setOnRq p b).node q).onRq = (t.node q).onRq :=
  congrArg Node.onRq (update_of_ne hq _ _)

end Fields

/-! ## Moves -/

/-- What the tables say of a process that is at `x`. -/
structure Fits (L : List Nat) (t : Table n) (hand : Fin n → Option Nat) (q : Nat) (x : Place n) : Prop where
  current : ∀ h, t.current h = some q ↔ x = .cur h
  queue : ∀ h, q ∈ t.rq h ↔ x = .queue h
  flag : (t.node q).onRq = true ↔ ∃ h, x = .queue h
  hand : ∀ h, hand h = some q ↔ x = .hand h
  ready : (∃ h, x = .queue h ∨ x = .hand h) → (t.node q).state = .ready
  made : ∀ h, x = .cur h → (t.node q).state ≠ .creating
  known : x ≠ .out → q ∈ L

theorem Fits.congr {hand' : Fin n → Option Nat} {x : Place n} (hf : Fits L t hand q x)
    (hflag : (t'.node q).onRq = (t.node q).onRq) (hstate : (t'.node q).state = (t.node q).state)
    (hcur : ∀ h, t'.current h = some q ↔ t.current h = some q) (hrq : ∀ h, q ∈ t'.rq h ↔ q ∈ t.rq h)
    (hhand : ∀ h, hand' h = some q ↔ hand h = some q) : Fits L t' hand' q x where
  current h := (hcur h).trans (hf.current h)
  queue h := (hrq h).trans (hf.queue h)
  flag := hflag ▸ hf.flag
  hand h := (hhand h).trans (hf.hand h)
  ready := hstate ▸ hf.ready
  made := hstate ▸ hf.made
  known := hf.known

theorem located_of_fits (hf : ∀ q, Fits L t hand q (place q)) (hnodup : ∀ h, (t.rq h).Nodup) :
    Located L t hand place :=
  ⟨fun h q => (hf q).current h, fun h q => (hf q).queue h, hnodup, fun q => (hf q).flag,
    fun h q => (hf q).hand h, fun q => (hf q).ready, fun h q => (hf q).made h, fun q => (hf q).known⟩

theorem update_some_iff {f : Fin n → Option Nat} (hf : f h = none) (h' : Fin n) (q : Nat) :
    update f h (some p) h' = some q ↔ h' = h ∧ q = p ∨ f h' = some q := by
  by_cases he : h' = h
  · subst he
    simp [hf, eq_comm]
  · simp [he]

theorem update_none_iff {f : Fin n → Option Nat} (h' : Fin n) (q : Nat) :
    update f h none h' = some q ↔ h' ≠ h ∧ f h' = some q := by
  by_cases he : h' = h <;> simp [he]

section

variable (hl : Located L t hand place)
include hl

theorem Located.fits (q : Nat) : Fits L t hand q (place q) :=
  ⟨fun h => hl.current h q, fun h => hl.queue h q, hl.flag q, fun h => hl.hand h q, hl.ready q,
    fun h => hl.made h q, hl.known q⟩

omit hl in
/-- One process goes to another place. -/
theorem located_move {x : Place n} (hself : Fits L t hand p x)
    (hothers : ∀ q ≠ p, Fits L t hand q (place q)) (hnodup : ∀ h, (t.rq h).Nodup) :
    Located L t hand (update place p x) := by
  refine located_of_fits (fun q => ?_) hnodup
  by_cases hq : q = p
  · subst hq
    rwa [update_self]
  · rw [update_of_ne hq]
    exact hothers q hq

theorem Located.detach (h : Fin n) :
    Located L (t.setCurrent h none) hand fun p => if place p = .cur h then .out else place p := by
  have hcur : ∀ h' q, (t.setCurrent h none).current h' = some q ↔ _ := update_none_iff
  refine located_of_fits (fun q => ?_) hl.nodup
  split_ifs with hc
  · have hf := hc ▸ hl.fits q
    refine ⟨fun h' => ?_, fun h' => by simpa using hf.queue h', by simpa using hf.flag,
      fun h' => by simpa using hf.hand h', nofun, nofun, nofun⟩
    rw [hcur, hf.current]
    simp [eq_comm]
  · refine (hl.fits q).congr rfl rfl (fun h' => ?_) (fun _ => Iff.rfl) fun _ => Iff.rfl
    rw [hcur]
    refine ⟨And.right, fun hq => ⟨?_, hq⟩⟩
    rintro rfl
    exact hc ((hl.current h' q).mp hq)

theorem Located.attach (hnone : t.current h = none) (hout : place p = .out)
    (hmade : (t.node p).state ≠ .creating) (hp : p ∈ L) :
    Located L (t.setCurrent h (some p)) hand (update place p (.cur h)) := by
  have hf : Fits L t hand p .out := hout ▸ hl.fits p
  have hcur : ∀ h' q, (t.setCurrent h (some p)).current h' = some q ↔ _ := update_some_iff hnone
  refine located_move ⟨fun h' => ?_, fun h' => by simpa using hf.queue h', by simpa using hf.flag,
    fun h' => by simpa using hf.hand h', nofun, fun _ _ => hmade, fun _ => hp⟩ (fun q hq => ?_) hl.nodup
  · rw [hcur, hf.current]
    simp [eq_comm]
  · refine (hl.fits q).congr rfl rfl (fun h' => ?_) (fun _ => Iff.rfl) fun _ => Iff.rfl
    simp [hcur, hq]

theorem Located.setState {st : ProcState}
    (hready : ∀ h, place p = .queue h ∨ place p = .hand h → st = .ready)
    (hmade : ∀ h, place p = .cur h → st ≠ .creating) : Located L (t.setState p st) hand place := by
  refine { hl with flag := fun q => ?_, ready := fun q hq => ?_, made := fun h' q hq => ?_ }
  · rw [setState_onRq]
    exact hl.flag q
  · by_cases he : q = p
    · subst he
      obtain ⟨h', hq⟩ := hq
      rw [setState_self]
      exact hready h' hq
    · rw [setState_of_ne t p st he]
      exact hl.ready q hq
  · by_cases he : q = p
    · subst he
      rw [setState_self]
      exact hmade h' hq
    · rw [setState_of_ne t p st he]
      exact hl.made h' q hq

theorem Located.setState_out (hout : place p = .out) (st : ProcState) : Located L (t.setState p st) hand place := by
  refine hl.setState (fun h hp => ?_) fun h hp => ?_
  · rw [hout] at hp
    rcases hp with hp | hp <;> cases hp
  · rw [hout] at hp
    cases hp

theorem Located.onRq_of_ne (hq : ∀ h, place p ≠ .queue h) : (t.node p).onRq = false := by
  rw [← Bool.not_eq_true, hl.flag p]
  rintro ⟨h, hp⟩
  exact hq h hp

theorem Located.enqueue (hout : place p = .out) (hready : (t.node p).state = .ready) (hp : p ∈ L)
    (h : Fin n) : Located L (t.enqueue h p) hand (update place p (.queue h)) := by
  have hf : Fits L t hand p .out := hout ▸ hl.fits p
  have hnot : ∀ h', p ∉ t.rq h' := fun h' hm => nomatch (hf.queue h').mp hm
  have hrq : ∀ h' q, q ∈ ((t.setOnRq p true).setQueue h (t.rq h ++ [p])).rq h' ↔
      h' = h ∧ q = p ∨ q ∈ t.rq h' := by
    intro h' q
    rw [setQueue_rq]
    split_ifs with he
    · simp [he, or_comm]
    · simp [he]
  rw [Table.enqueue, hl.onRq_of_ne (by simp [hout]), if_neg Bool.false_ne_true]
  refine located_move ⟨fun h' => by simpa using hf.current h', fun h' => ?_,
    iff_of_true (setOnRq_self ..) ⟨h, rfl⟩, fun h' => by simpa using hf.hand h',
    fun _ => (setOnRq_state t p p true).trans hready, nofun, fun _ => hp⟩ (fun q hq => ?_) fun h' => ?_
  · simp [hrq, hnot, eq_comm]
  · exact (hl.fits q).congr (setOnRq_of_ne t p true hq) (setOnRq_state t p q true) (fun _ => Iff.rfl)
      (fun h' => by simp [hrq, hq]) fun _ => Iff.rfl
  · rw [setQueue_rq]
    split_ifs with he
    · exact nodup_append.mpr ⟨hl.nodup h, pairwise_singleton _ p, fun a ha b hb hab =>
        hnot h (by rw [mem_singleton] at hb; exact hb ▸ hab ▸ ha)⟩
    · exact hl.nodup h'

theorem Located.dequeue (hd : t.dequeue h = (some p, t')) :
    Located L t' hand (update place p .out) ∧ place p = .queue h ∧
      (t'.node p).state = .ready := by
  unfold Table.dequeue at hd
  split at hd
  · cases hd
  rename_i q l hrq
  cases hd
  have hpl : place p = .queue h := (hl.queue h p).mp (hrq ▸ mem_cons_self)
  have hf : Fits L t hand p (.queue h) := hpl ▸ hl.fits p
  have hnd : (p :: l).Nodup := hrq ▸ hl.nodup h
  refine ⟨located_move ⟨fun h' => by simpa using hf.current h', fun h' => ?_,
    by simp [Table.setQueue, setOnRq_self], fun h' => by simpa using hf.hand h', nofun, nofun, nofun⟩
    (fun q hq => ?_) fun h' => ?_, hpl, (setOnRq_state t p p false).trans (hf.ready ⟨h, .inl rfl⟩)⟩
  · refine iff_of_false ?_ nofun
    rw [setQueue_rq]
    split_ifs with he
    · exact (nodup_cons.mp hnd).1
    · exact fun hm => he (Place.queue.inj ((hf.queue h').mp hm)).symm
  · refine (hl.fits q).congr (setOnRq_of_ne t p false hq) (setOnRq_state t p q false) (fun _ => Iff.rfl)
      (fun h' => ?_) fun _ => Iff.rfl
    rw [setQueue_rq]
    split_ifs with he
    · rw [he, hrq, mem_cons, or_iff_right hq]
    · rfl
  · rw [setQueue_rq]
    split_ifs
    · exact (nodup_cons.mp hnd).2
    · exact hl.nodup h'

theorem Located.grab (hout : place p = .out) (hready : (t.node p).state = .ready) (hp : p ∈ L)
    (hfree : hand h = none) : Located L t (update hand h (some p)) (update place p (.hand h)) := by
  have hf : Fits L t hand p .out := hout ▸ hl.fits p
  refine located_move ⟨fun h' => by simpa using hf.current h', fun h' => by simpa using hf.queue h',
    by simpa using hf.flag, fun h' => ?_, fun _ => hready, nofun, fun _ => hp⟩ (fun q hq => ?_) hl.nodup
  · rw [update_some_iff hfree, hf.hand]
    simp [eq_comm]
  · exact (hl.fits q).congr rfl rfl (fun _ => Iff.rfl) (fun _ => Iff.rfl) fun h' => by simp [update_some_iff hfree, hq]

theorem Located.letGo (hh : hand h = some p) : Located L t (update hand h none) (update place p .out) := by
  have hf : Fits L t hand p (.hand h) := (hl.hand h p).mp hh ▸ hl.fits p
  refine located_move ⟨fun h' => by simpa using hf.current h', fun h' => by simpa using hf.queue h',
    by simpa using hf.flag, fun h' => ?_, nofun, nofun, nofun⟩ (fun q hq => ?_) hl.nodup
  · rw [update_none_iff, hf.hand]
    simp [eq_comm]
  · refine (hl.fits q).congr rfl rfl (fun _ => Iff.rfl) (fun _ => Iff.rfl) fun h' => ?_
    rw [update_none_iff]
    refine ⟨And.right, fun hq' => ⟨?_, hq'⟩⟩
    rintro rfl
    exact hq (Option.some.inj (hq'.symm.trans hh))

end

/-! ## The sections of `sched_yield` -/

/-- A node but for its flag. -/
def Node.off (v : Node) : Node := { v with onRq := false }

/-- What the operations on the queues leave as it was. -/
structure Requeued (t t' : Table n) : Prop where
  current : t'.current = t.current
  allProcs : t'.allProcs = t.allProcs
  off : ∀ q, (t'.node q).off = (t.node q).off

theorem Requeued.refl (t : Table n) : Requeued t t := ⟨rfl, rfl, fun _ => rfl⟩

theorem Requeued.trans {t'' : Table n} (h1 : Requeued t t') (h2 : Requeued t' t'') : Requeued t t'' :=
  ⟨h2.current.trans h1.current, h2.allProcs.trans h1.allProcs, fun q => (h2.off q).trans (h1.off q)⟩

theorem Requeued.field {β : Type} (hr : Requeued t t') (f : Node → β) (hf : ∀ v : Node, f v.off = f v) (q : Nat) :
    f (t'.node q) = f (t.node q) := by
  rw [← hf, hr.off, hf]

theorem Requeued.state (hr : Requeued t t') : ∀ q, (t'.node q).state = (t.node q).state :=
  hr.field Node.state fun _ => rfl

theorem requeued_set (t : Table n) (p : Nat) (b : Bool) (h : Fin n) (l : List Nat) :
    Requeued t ((t.setOnRq p b).setQueue h l) := ⟨rfl, rfl, fun q => setNode_field t p q Node.off rfl⟩

theorem requeued_enqueue (t : Table n) (h : Fin n) (p : Nat) : Requeued t (t.enqueue h p) := by
  unfold Table.enqueue
  split
  · exact .refl t
  · exact requeued_set ..

theorem requeued_dequeue {x : Option Nat} (hd : t.dequeue h = (x, t')) : Requeued t t' := by
  unfold Table.dequeue at hd
  split at hd <;> cases hd
  · exact .refl t
  · exact requeued_set ..

theorem mem_enqueue {h' : Fin n} (hq : q ∈ (t.enqueue h p).rq h') : q ∈ t.rq h' ∨ q = p := by
  unfold Table.enqueue at hq
  split at hq
  · exact .inl hq
  · rw [setQueue_rq] at hq
    split_ifs at hq with he
    · exact (mem_append.mp hq).imp (he ▸ ·) mem_singleton.mp
    · exact .inl hq

/-- What is taken was on the queue, and so was what stays. -/
theorem mem_dequeue {x : Option Nat} (hd : t.dequeue h = (x, t')) :
    (∀ h' q, q ∈ t'.rq h' → q ∈ t.rq h') ∧ ∀ p, x = some p → p ∈ t.rq h := by
  unfold Table.dequeue at hd
  split at hd <;> cases hd
  · exact ⟨fun _ _ => id, nofun⟩
  · rename_i p l hrq
    refine ⟨fun h' q hq => ?_, fun r hr => Option.some.inj hr ▸ hrq ▸ mem_cons_self⟩
    rw [setQueue_rq] at hq
    split_ifs at hq with he
    · exact he ▸ hrq ▸ mem_cons_of_mem _ hq
    · exact hq

theorem requeued_foldl_remove (p : Nat) : ∀ (l : List (Fin n)) (t : Table n),
    Requeued t (l.foldl (fun t h => t.remove h p) t)
  | [], t => .refl t
  | h :: l, t => by
    refine Requeued.trans ?_ (requeued_foldl_remove p l _)
    simp only [Table.remove]
    split_ifs
    · exact .refl t
    · exact requeued_set ..
    · exact .refl t

theorem enqueue_setCurrent (t : Table n) (h h' : Fin n) (p : Nat) (c : Option Nat) :
    (t.enqueue h p).setCurrent h' c = (t.setCurrent h' c).enqueue h p := by
  unfold Table.enqueue
  rw [setCurrent_node]
  split <;> rfl

theorem dequeue_setCurrent {x : Option Nat} (hd : t.dequeue h = (x, t')) (h' : Fin n) (c : Option Nat) :
    (t.setCurrent h' c).dequeue h = (x, t'.setCurrent h' c) := by
  unfold Table.dequeue at hd ⊢
  rw [setCurrent_rq]
  split at hd <;> cases hd <;> rfl

theorem setCurrent_setCurrent (t : Table n) (h : Fin n) (c c' : Option Nat) :
    (t.setCurrent h c).setCurrent h c' = t.setCurrent h c' := by
  simp [Table.setCurrent]

theorem setCurrent_eq_self {c : Option Nat} (hc : t.current h = c) : t.setCurrent h c = t := by
  subst hc
  simp [Table.setCurrent]

theorem setCurrent_self (t : Table n) (h : Fin n) (c : Option Nat) : (t.setCurrent h c).current h = c := update_self ..

theorem Located.run (hl : Located L (t.setCurrent h none) hand place) (hout : place p = .out)
    (hp : p ∈ L) : Located L (t.run h p) hand (update place p (.cur h)) := by
  have hstate := hl.setState_out hout .running
  have hrun := hstate.attach (setCurrent_self t h none) hout (by rw [setState_self]; nofun) hp
  have heq : ((t.setCurrent h none).setState p .running).setCurrent h (some p) = t.run h p :=
    setCurrent_setCurrent (t.setState p .running) h none (some p)
  rwa [heq] at hrun

/-- After the first lines of `sched_yield` a preempted process is on the queue of its hart; one that
was not running is at no place once the hart has let go of it. -/
theorem Located.save (hl : Located L t hand place) (h : Fin n) :
    ∃ place', Located L ((t.save h).setCurrent h none) hand place' ∧
      (t.save h).current = t.current ∧
      ∀ p, t.current h = some p → p ∈ L ∧ ((t.save h).node p).state ≠ .creating ∧
        (place' p = .queue h ∨ place' p = .out) := by
  have hd := hl.detach h
  unfold Table.save
  cases hcur : t.current h with
  | none => exact ⟨_, hd, rfl, nofun⟩
  | some p =>
    have hpl : place p = .cur h := (hl.current h p).mp hcur
    have hp : p ∈ L := hl.known p (by rw [hpl]; nofun)
    have hout : (if place p = .cur h then .out else place p) = Place.out := if_pos hpl
    simp only
    split
    · have hst := (hd.setState_out hout .ready).enqueue hout (setState_self _ p .ready) hp h
      rw [show (t.setCurrent h none).setState p .ready = (t.setState p .ready).setCurrent h none from rfl,
        ← enqueue_setCurrent] at hst
      refine ⟨_, hst, (requeued_enqueue ..).current, fun q hq => ?_⟩
      cases hq
      refine ⟨hp, ?_, .inl (update_self ..)⟩
      rw [(requeued_enqueue ..).state, setState_self]
      nofun
    · refine ⟨_, hd, rfl, fun q hq => ?_⟩
      cases hq
      exact ⟨hp, hl.made h p hpl, .inr hout⟩

theorem dequeue_none (hd : t.dequeue h = (none, t')) : t' = t ∧ t.rq h = [] := by
  unfold Table.dequeue at hd
  split at hd
  · rename_i hrq
    cases hd
    exact ⟨rfl, hrq⟩
  · cases hd

theorem Located.resume_of_empty (hl : Located L (t.setCurrent h none) hand place)
    (hempty : t.rq h = [])
    (hc : ∀ p, t.current h = some p → p ∈ L ∧
      (t.node p).state ≠ .creating ∧ (place p = .queue h ∨ place p = .out)) :
    ∃ place', Located L t hand place' := by
  cases hcur : t.current h with
  | none =>
    rw [setCurrent_eq_self hcur] at hl
    exact ⟨place, hl⟩
  | some p =>
    obtain ⟨hp, hmade, hq | hout⟩ := hc p hcur
    · rw [← hl.queue, setCurrent_rq, hempty] at hq
      cases hq
    · have hback := hl.attach (setCurrent_self t h none) hout hmade hp
      rw [setCurrent_setCurrent, setCurrent_eq_self hcur] at hback
      exact ⟨_, hback⟩

section

variable (hl : Located L t hand place)
include hl

theorem Located.yieldFirst (h : Fin n) (remote : Bool) :
    ∃ place', Located L (t.yieldFirst h remote).2 hand place' := by
  obtain ⟨pl, h1, hcur, hp⟩ := hl.save h
  have hp' : ∀ p, (t.save h).current h = some p → p ∈ L ∧ ((t.save h).node p).state ≠ .creating ∧
      (pl p = .queue h ∨ pl p = .out) := fun p hc => hp p (hcur ▸ hc)
  unfold Table.yieldFirst
  rcases hd : (t.save h).dequeue h with ⟨x, t2⟩
  simp only [hd]
  cases x with
  | none =>
    obtain ⟨rfl, hempty⟩ := dequeue_none hd
    exact h1.resume_of_empty hempty hp'
  | some q =>
    obtain ⟨h2, hq, hready⟩ := h1.dequeue (dequeue_setCurrent hd h none)
    have hqL : q ∈ L := h1.known q (by rw [hq]; nofun)
    have hqout : update pl q .out q = .out := update_self ..
    have hc2 := (requeued_dequeue hd).current
    have hready' : (t2.node q).state = .ready := hready
    simp only [ne_eq, hready', not_true_eq_false, if_false]
    by_cases hself : t2.current h = some q
    · rw [if_pos hself]
      have hrun := h2.run hqout hqL
      rw [Table.run, setCurrent_eq_self (t := t2.setState q .running) hself] at hrun
      exact ⟨_, hrun⟩
    rw [if_neg hself]
    by_cases htarget : t2.target h q = h
    · rw [if_pos htarget]
      exact ⟨_, h2.run hqout hqL⟩
    · -- The process goes to the hart it is pinned to, or back.
      rw [if_neg htarget]
      have h3 := h2.enqueue hqout hready hqL (if remote = true then t2.target h q else h)
      rw [← enqueue_setCurrent] at h3
      rcases hd' : (t2.enqueue (if remote = true then t2.target h q else h) q).dequeue h with ⟨y, t4⟩
      cases y with
      | none =>
        obtain ⟨rfl, hempty⟩ := dequeue_none hd'
        refine h3.resume_of_empty hempty fun p hpc => ?_
        rw [(requeued_enqueue ..).current, hc2] at hpc
        obtain ⟨hpL, hmade, hpl⟩ := hp' p hpc
        have hne : p ≠ q := fun he => hself (by rw [hc2, hpc, he])
        refine ⟨hpL, ?_, ?_⟩
        · rwa [(requeued_enqueue ..).state, (requeued_dequeue hd).state]
        · rwa [update_of_ne hne, update_of_ne hne]
      | some r =>
        obtain ⟨h4, hr, -⟩ := h3.dequeue (dequeue_setCurrent hd' h none)
        exact ⟨_, h4.run (update_self ..) (h3.known r (by rw [hr]; nofun))⟩

theorem Located.setState_current (hc : t.current h = some p)
    {st : ProcState} (hst : st ≠ .creating) : Located L (t.setState p st) hand place := by
  have hpl : place p = .cur h := (hl.current h p).mp hc
  refine hl.setState (fun h' hq => ?_) fun _ _ => hst
  rw [hpl] at hq
  rcases hq with hq | hq <;> cases hq

theorem Located.settle (h : Fin n) : ∃ place', Located L (t.settle h) hand place' := by
  unfold Table.settle
  rcases hd : t.dequeue h with ⟨x, t2⟩
  cases x with
  | some r =>
    have hdet := hl.detach h
    obtain ⟨h2, hr, -⟩ := hdet.dequeue (dequeue_setCurrent hd h none)
    exact ⟨_, h2.run (update_self ..) (hdet.known r (by rw [hr]; nofun))⟩
  | none =>
    obtain ⟨rfl, -⟩ := dequeue_none hd
    simp only
    cases hcur : t2.current h with
    | none => exact ⟨place, hl⟩
    | some p =>
      simp only
      split
      · exact ⟨_, hl.detach h⟩
      · exact ⟨place, hl.setState_current hcur nofun⟩
      · exact ⟨place, hl⟩

theorem Located.stealFrom {h v : Fin n} (hfree : hand h = none) :
    ∃ place', Located L (t.stealFrom h v).2
      (update hand h (t.stealFrom h v).1) place' := by
  unfold Table.stealFrom
  rcases hd : t.dequeue v with ⟨x, t2⟩
  have hkeep : update hand h none = hand := by rw [← hfree, update_eq_self]
  cases x with
  | none =>
    obtain ⟨rfl, -⟩ := dequeue_none hd
    exact ⟨place, hkeep.symm ▸ hl⟩
  | some p =>
    obtain ⟨h2, hp, hready⟩ := hl.dequeue hd
    have hpL : p ∈ L := hl.known p (by rw [hp]; nofun)
    simp only
    split_ifs
    · exact ⟨_, hkeep.symm ▸ h2.enqueue (update_self ..) hready hpL v⟩
    · exact ⟨_, h2.grab (update_self ..) hready hpL hfree⟩

end

/-! ## What a section of a hart leaves alone -/

/-- The parent that `wakeParent` wakes. -/
def Table.sleepingParent (t : Table n) (p : Nat) : Option Nat :=
  (t.parentOf p).filter fun a => (t.node a).state = .waiting

theorem wakeParent_eq (t : Table n) (h : Fin n) (p : Nat) : t.wakeParent h p =
    (t.sleepingParent p).elim t fun a => (t.setState a .ready).enqueue h a := by
  unfold Table.wakeParent Table.sleepingParent
  cases t.parentOf p with
  | none => rfl
  | some a => by_cases hw : (t.node a).state = .waiting <;> simp [Option.filter, hw]

/-- A field other than the parent. -/
theorem reparent_field {β : Type} (f : Node → β) (hf : ∀ v : Node, f { v with parentPid := 1 } = f v)
    (t : Table n) (pid q : Nat) : f ((t.reparent pid).node q) = f (t.node q) := by
  simp only [Table.reparent]
  split_ifs
  · exact hf _
  · rfl

theorem reparent_state (t : Table n) (pid q : Nat) : ((t.reparent pid).node q).state = (t.node q).state :=
  reparent_field Node.state (fun _ => rfl) t pid q

/-- A property that is kept by the moves the sections of hart `h` are made of. They move a process that
was found on a queue, or in a state they look for. -/
structure Across (h : Fin n) (free : Nat → Prop) (I : Table n → Prop) : Prop where
  ready : ∀ {t p}, free p → I t → I (t.setState p .ready)
  running : ∀ {t p}, free p → I t → I (t.setState p .running)
  setCurrent : ∀ {t c}, (∀ p, c = some p → free p) → I t → I (t.setCurrent h c)
  enqueue : ∀ {t p} h', free p → I t → I (t.enqueue h' p)
  dequeue : ∀ {t t' h' x}, t.dequeue h' = (x, t') → I t → I t' ∧ ∀ p, x = some p → free p
  found : ∀ {t p}, I t → (t.node p).state ∈ [.ready, .running, .creating] → free p
  reparent : ∀ {t} pid, I t → I (t.reparent pid)
  unlink : ∀ {t} p, I t → I (t.unlink p)

section

variable {free : Nat → Prop} {I : Table n → Prop} (hI : Across h free I) (ht : I t)
include hI ht

theorem Across.run (hp : free p) : I (t.run h p) :=
  hI.setCurrent (fun _ he => Option.some.inj he ▸ hp) (hI.running hp ht)

theorem Across.wake (hp : free p) (h' : Fin n) : I ((t.setState p .ready).enqueue h' p) :=
  hI.enqueue h' hp (hI.ready hp ht)

theorem Across.save : I (t.save h) := by
  unfold Table.save
  split
  · exact ht
  · split
    · exact hI.wake ht (hI.found ht (by simp [*])) h
    · exact ht

theorem Across.yieldFirst (remote : Bool) : I (t.yieldFirst h remote).2 := by
  unfold Table.yieldFirst
  rcases hd : (t.save h).dequeue h with ⟨x, t2⟩
  obtain ⟨h2, hx⟩ := hI.dequeue hd (hI.save ht)
  simp only [hd]
  cases x with
  | none => exact h2
  | some q =>
    have hq := hx q rfl
    simp only
    by_cases hnot : (t2.node q).state ≠ .ready
    · rw [if_pos hnot]
      exact h2
    rw [if_neg hnot]
    by_cases hself : t2.current h = some q
    · rw [if_pos hself]
      exact hI.running hq h2
    rw [if_neg hself]
    by_cases htarget : t2.target h q = h
    · rw [if_pos htarget]
      exact hI.run h2 hq
    rw [if_neg htarget]
    have h3 := hI.enqueue (if remote = true then t2.target h q else h) hq h2
    rcases hd' : (t2.enqueue (if remote = true then t2.target h q else h) q).dequeue h with ⟨y, t4⟩
    obtain ⟨h4, hy⟩ := hI.dequeue hd' h3
    cases y with
    | none => exact h4
    | some r => exact hI.run h4 (hy r rfl)

theorem Across.settle : I (t.settle h) := by
  unfold Table.settle
  rcases hd : t.dequeue h with ⟨x, t2⟩
  obtain ⟨h2, hx⟩ := hI.dequeue hd ht
  cases x with
  | some r => exact hI.run h2 (hx r rfl)
  | none =>
    simp only
    split
    · exact h2
    · split
      · exact hI.setCurrent nofun h2
      · exact hI.running (hI.found h2 (by simp [*])) h2
      · exact h2

theorem Across.stealFrom (v : Fin n) : I (t.stealFrom h v).2 := by
  unfold Table.stealFrom
  rcases hd : t.dequeue v with ⟨x, t2⟩
  obtain ⟨h2, hx⟩ := hI.dequeue hd ht
  cases x with
  | none => exact h2
  | some p =>
    simp only
    split
    · exact hI.enqueue v (hx p rfl) h2
    · exact h2

theorem Across.publishReady (pid : Nat) : I (t.publishReady h pid) := by
  unfold Table.publishReady
  split
  · exact ht
  · split
    · exact hI.wake ht (hI.found ht (by simp [*])) h
    · exact ht

theorem Across.wakeParent (hfree : ∀ a, t.sleepingParent p = some a → free a) : I (t.wakeParent h p) := by
  rw [wakeParent_eq]
  cases ha : t.sleepingParent p with
  | none => exact ht
  | some a => exact hI.wake ht (hfree a ha) h

omit ht in
theorem Across.exitFinal (ht : I (t.setState p .exited))
    (hfree : ∀ a, (t.setState p .exited).sleepingParent p = some a → free a) : I (t.exitFinal h p) := by
  have hleft := hI.reparent (t.node p).pid (hI.wakeParent ht hfree)
  unfold Table.exitFinal
  simp only
  split
  · exact hI.unlink p hleft
  · exact hleft

end

/-- The other harts keep their processes, pids stay, and no process is added. -/
structure Keeps (h : Fin n) (t t' : Table n) : Prop where
  others : ∀ h', h' ≠ h → t'.current h' = t.current h'
  pids : ∀ q, (t'.node q).pid = (t.node q).pid
  listed : t'.allProcs.Sublist t.allProcs

theorem Keeps.refl (h : Fin n) (t : Table n) : Keeps h t t := ⟨fun _ _ => rfl, fun _ => rfl, .refl _⟩

theorem Keeps.trans {t'' : Table n} (h1 : Keeps h t t') (h2 : Keeps h t' t'') : Keeps h t t'' :=
  ⟨fun h' hne => (h2.others h' hne).trans (h1.others h' hne), fun q => (h2.pids q).trans (h1.pids q),
    h2.listed.trans h1.listed⟩

theorem keeps_setState (h : Fin n) (t : Table n) (p : Nat) (st : ProcState) : Keeps h t (t.setState p st) :=
  ⟨fun _ _ => rfl, fun q => setState_pid t p q st, .refl _⟩

theorem Requeued.keeps (hr : Requeued t t') (h : Fin n) : Keeps h t t' :=
  ⟨fun h' _ => congrFun hr.current h', hr.field Node.pid fun _ => rfl, hr.allProcs ▸ .refl _⟩

theorem keeps_across (h : Fin n) (t : Table n) : Across h (fun _ => True) (Keeps h t) where
  ready _ hk := hk.trans (keeps_setState h _ _ .ready)
  running _ hk := hk.trans (keeps_setState h _ _ .running)
  setCurrent _ hk := hk.trans ⟨fun _ hne => update_of_ne hne _ _, fun _ => rfl, .refl _⟩
  enqueue h' _ hk := hk.trans ((requeued_enqueue _ h' _).keeps h)
  dequeue hd hk := ⟨hk.trans ((requeued_dequeue hd).keeps h), fun _ _ => trivial⟩
  found _ _ := trivial
  reparent _ hk := hk.trans ⟨fun _ _ => rfl, reparent_field Node.pid (fun _ => rfl) _ _, .refl _⟩
  unlink _ hk := hk.trans ⟨fun _ _ => rfl, fun _ => rfl, erase_sublist⟩

/-! ## `exit`, `wait` and the others -/

theorem Located.congr (hl : Located L t hand place) (hrq : t'.rq = t.rq) (hcur : t'.current = t.current)
    (hstate : ∀ q, (t'.node q).state = (t.node q).state) (hflag : ∀ q, (t'.node q).onRq = (t.node q).onRq) :
    Located L t' hand place := by
  refine located_of_fits (fun q => (hl.fits q).congr (hflag q) (hstate q) (fun h => ?_) (fun h => ?_)
    fun _ => Iff.rfl) fun h => ?_
  · rw [hcur]
  · rw [hrq]
  · rw [hrq]
    exact hl.nodup h

theorem foldl_remove_eq_self (hf : (t.node p).onRq = false) : ∀ l : List (Fin n),
    l.foldl (fun t h => t.remove h p) t = t
  | [] => rfl
  | h :: l => by
    rw [foldl_cons, Table.remove, if_pos hf]
    exact foldl_remove_eq_self hf l

/-- A running process is on no queue, so that `exit` has none to take it from. -/
theorem Located.exitPublish_eq (hl : Located L t hand place) (hc : t.current h = some p) :
    t.exitPublish p = t.setState p .exited :=
  foldl_remove_eq_self (by rw [setState_onRq]; exact hl.onRq_of_ne (by simp [(hl.current h p).mp hc])) _

theorem Located.out_of_state (hl : Located L t hand place) (hready : (t.node p).state ≠ .ready)
    (hcur : ∀ h, t.current h ≠ some p) : place p = .out := by
  cases hp : place p with
  | out => rfl
  | cur h => exact absurd ((hl.current h p).mpr hp) (hcur h)
  | queue h => exact absurd (hl.ready p ⟨h, .inl hp⟩) hready
  | hand h => exact absurd (hl.ready p ⟨h, .inr hp⟩) hready

theorem Located.wake (hl : Located L t hand place) (hout : place p = .out) (hp : p ∈ L) (h : Fin n) :
    Located L ((t.setState p .ready).enqueue h p) hand (update place p (.queue h)) :=
  (hl.setState_out hout .ready).enqueue hout (setState_self t p .ready) hp h

theorem byPid_mem {pid : Nat} (hb : t.byPid pid = some p) :
    p ∈ t.allProcs ∧ (t.node p).pid = pid ∧ (t.node p).state ≠ .free := by
  refine ⟨mem_of_find?_eq_some hb, ?_⟩
  simpa using find?_some hb

theorem Located.publishReady (hl : Located L t hand place) (hlisted : ∀ q ∈ t.allProcs, q ∈ L)
    (h : Fin n) (pid : Nat) : ∃ place', Located L (t.publishReady h pid) hand place' := by
  unfold Table.publishReady
  cases hb : t.byPid pid with
  | none => exact ⟨place, hl⟩
  | some p =>
    simp only
    split
    · rename_i hcreating
      have hout : place p = .out := by
        refine hl.out_of_state (by rw [hcreating]; nofun) fun h' hc => ?_
        exact hl.made h' p ((hl.current h' p).mp hc) hcreating
      exact ⟨_, hl.wake hout (hlisted p (byPid_mem hb).1) h⟩
    · exact ⟨place, hl⟩

theorem publishReady_current (h : Fin n) (t : Table n) (pid : Nat) : (t.publishReady h pid).current = t.current := by
  unfold Table.publishReady
  split
  · rfl
  · split
    · exact (requeued_enqueue ..).current
    · rfl

theorem Located.wakeParent (hl : Located L t hand place) (hlisted : ∀ q ∈ t.allProcs, q ∈ L) (h : Fin n)
    (hparked : ∀ a, t.sleepingParent p = some a → ∀ h', t.current h' ≠ some a) :
    ∃ place', Located L (t.wakeParent h p) hand place' := by
  rw [wakeParent_eq]
  cases ha : t.sleepingParent p with
  | none => exact ⟨place, hl⟩
  | some a =>
    obtain ⟨hparent, hwait⟩ := Option.filter_eq_some_iff.mp ha
    have hout : place a = .out := hl.out_of_state (by simp_all) (hparked a ha)
    have hmem : a ∈ t.allProcs := by
      unfold Table.parentOf at hparent
      split at hparent
      · exact (byPid_mem hparent).1
      · cases hparent
    exact ⟨_, hl.wake hout (hlisted a hmem) h⟩

theorem wakeParent_current (h : Fin n) (t : Table n) (p : Nat) : (t.wakeParent h p).current = t.current := by
  rw [wakeParent_eq]
  cases t.sleepingParent p with
  | none => rfl
  | some a => exact (requeued_enqueue ..).current

theorem Located.exitFinal (hl : Located L t hand place) (hlisted : ∀ q ∈ t.allProcs, q ∈ L)
    (hc : t.current h = some p)
    (hparked : ∀ a, (t.setState p .exited).sleepingParent p = some a → ∀ h', t.current h' ≠ some a) :
    ∃ place', Located L (t.exitFinal h p) hand place' := by
  have h1 : Located L (t.setState p .exited) hand place := hl.setState_current hc nofun
  obtain ⟨pl, h2⟩ := h1.wakeParent hlisted h hparked
  have h3 : Located L (((t.setState p .exited).wakeParent h p).reparent (t.node p).pid) hand pl :=
    h2.congr rfl rfl (fun q => reparent_state _ _ q) fun q => reparent_field Node.onRq (fun _ => rfl) _ _ q
  unfold Table.exitFinal
  simp only
  split
  · exact ⟨pl, h3.congr rfl rfl (fun _ => rfl) fun _ => rfl⟩
  · exact ⟨pl, h3⟩

theorem keeps_exitFinal (h : Fin n) (t : Table n) (p : Nat) : Keeps h t (t.exitFinal h p) :=
  (keeps_across h t).exitFinal (keeps_setState h t p .exited) fun _ _ => trivial

theorem exitFinal_current (h : Fin n) (t : Table n) (p : Nat) : (t.exitFinal h p).current = t.current := by
  unfold Table.exitFinal
  simp only
  split <;> exact wakeParent_current h (t.setState p .exited) p

/-! ## Runs -/

/-- The process that `exit` is working on. -/
def Pc.exiting : Pc → Option Nat
  | .exitFound p _ | .exitPublished p _ | .exitCoded p | .exitFree p => some p
  | _ => none

/-- The process that `signal_send` has found. -/
def Pc.signalled : Pc → Option Nat
  | .sigFound p _ | .wake p => some p
  | _ => none

/-- Every process is at one place, and `exit` works on the process of its own hart. `L` are the
processes there were at the start, which have different pids. -/
structure Orderly (L : List Nat) (w : Harts n) : Prop where
  located : ∃ place, Located L w.table (fun h => (w.pc h).hand) place
  own : ∀ h p, (w.pc h).exiting = some p → w.table.current h = some p
  listed : ∀ p ∈ w.table.allProcs, p ∈ L
  signalled : ∀ h p, (w.pc h).signalled = some p → p ∈ L
  pids : ∀ a ∈ L, ∀ b ∈ L, (w.table.node a).pid = (w.table.node b).pid → a = b

variable {w u : Harts n} {pc : Pc}

/-- A step of hart `h` to a table that keeps what concerns the other harts. -/
theorem Orderly.go (ho : Orderly L w) (hk : Keeps h w.table t)
    (hl : ∃ place, Located L t (update (fun h => (w.pc h).hand) h pc.hand) place)
    (hown : ∀ p, pc.exiting = some p → t.current h = some p)
    (hsig : ∀ p, pc.signalled = some p → p ∈ L) : Orderly L (w.go h pc t) := by
  have hpc : ∀ h', (w.go h pc t).pc h' = if h' = h then pc else w.pc h' := fun h' =>
    update_apply ..
  refine ⟨?_, fun h' p hp => ?_, fun p hp => ho.listed p (hk.listed.subset hp), fun h' p hp => ?_,
    fun a ha b hb hab => ho.pids a ha b hb ?_⟩
  · obtain ⟨place, hl⟩ := hl
    refine ⟨place, ?_⟩
    have hhand : (fun h' => ((w.go h pc t).pc h').hand) = update (fun h => (w.pc h).hand) h pc.hand := by
      funext h'
      rw [hpc, update_apply]
      split <;> rfl
    rw [hhand]
    exact hl
  · rw [hpc] at hp
    split_ifs at hp with he
    · subst he
      exact hown p hp
    · exact (hk.others h' he).trans (ho.own h' p hp)
  · rw [hpc] at hp
    split_ifs at hp with he
    · exact hsig p hp
    · exact ho.signalled h' p hp
  · rw [← hk.pids a, ← hk.pids b]
    exact hab

theorem Orderly.go_empty (ho : Orderly L w) (hk : Keeps h w.table t) (hempty : (w.pc h).hand = none)
    (hpc : pc.hand = none) (hl : ∃ place, Located L t (fun h => (w.pc h).hand) place)
    (hown : ∀ p, pc.exiting = some p → t.current h = some p)
    (hsig : ∀ p, pc.signalled = some p → p ∈ L) : Orderly L (w.go h pc t) := by
  refine ho.go hk ?_ hown hsig
  rw [hpc, ← hempty, update_eq_self]
  exact hl

def Harts.wakes (w : Harts n) (a : Act n) : Option Nat :=
  match w.pc a.hart, a with
  | .wake p, .sigStore _ => some p
  | .exitCoded p, .exitFinal _ => (w.table.setState p .exited).sleepingParent p
  | _, _ => none

/-- A process that a step wakes is asleep, and no hart still has it as its current process. -/
def wakesParked (w : Harts n) (a : Act n) : Bool :=
  (w.wakes a).all fun p =>
    ((w.table.node p).state = .waiting || (w.table.node p).state = .stopped) &&
      decide (∀ h, w.table.current h ≠ some p)

theorem parked_of_wakes {a : Act n} (hok : wakesParked w a = true) (hp : w.wakes a = some p) :
    (w.table.node p).state ≠ .ready ∧ (w.table.node p).state ≠ .exited ∧
      ∀ h, w.table.current h ≠ some p := by
  rw [wakesParked, hp, Option.all_some, Bool.and_eq_true, Bool.or_eq_true] at hok
  simp only [decide_eq_true_eq] at hok
  obtain ⟨hstate | hstate, hcur⟩ := hok
  all_goals
    rw [hstate]
    exact ⟨nofun, nofun, hcur⟩

theorem zombie_mem {me : Nat} {pid : UInt64} {a : Nat} (hz : t.zombie me pid = some a) :
    a ∈ t.allProcs ∧ (t.node a).parentPid = me ∧ (t.node a).state = .exited := by
  refine ⟨mem_of_find?_eq_some hz, ?_⟩
  have hs := find?_some hz
  simp only [decide_eq_true_eq] at hs
  exact ⟨hs.1, hs.2.1⟩

theorem Orderly.step {a : Act n} (ho : Orderly L w) (hok : wakesParked w a = true)
    (hstep : (harts n).step w a = some u) : Orderly L u := by
  have hhand : ∀ {h : Fin n} {pc}, w.pc h = pc → (w.pc h).hand = pc.hand := fun hpc => by rw [hpc]
  obtain ⟨place, hl⟩ := ho.located
  cases step_inv hstep with
  | trap hpc | skipped hpc | free hpc | exitFree hpc =>
    exact ho.go_empty (.refl ..) (hhand hpc) rfl ho.located nofun nofun
  | @reported h p a pid nohang hpc hcur hz =>
    have hgo : Orderly L (w.go h (.reap a) (w.table.unlink a)) :=
      ho.go_empty ⟨fun _ _ => rfl, fun _ => rfl, erase_sublist⟩ (hhand hpc) rfl
        ⟨place, hl.congr rfl rfl (fun _ => rfl) fun _ => rfl⟩ nofun nofun
    exact { hgo with }
  | nothing hpc => exact ho
  | waiting hpc hcur | stop hpc hcur =>
    exact ho.go_empty (keeps_setState ..) (hhand hpc) rfl ⟨place, hl.setState_current hcur nofun⟩ nofun nofun
  | @sigFind h p pid signal hpc hb =>
    refine ho.go_empty (.refl ..) (hhand hpc) rfl ho.located nofun fun q hq => ?_
    cases hq
    exact ho.listed p (byPid_mem hb).1
  | @exitFind h c p code hpc hcur hb =>
    -- The pid leads back to the process that calls `exit`.
    obtain ⟨hmem, hpid, -⟩ := byPid_mem hb
    have hcL : c ∈ L := hl.known c (by rw [(hl.current h c).mp hcur]; nofun)
    obtain rfl : p = c := ho.pids p (ho.listed p hmem) c hcL hpid
    have hgo : Orderly L (w.go h (.exitFound p code) w.table) := by
      refine ho.go_empty (.refl ..) (hhand hpc) rfl ho.located (fun q hq => ?_) nofun
      cases hq
      exact hcur
    exact { hgo with }
  | publish hpc =>
    exact ho.go_empty ((keeps_across ..).publishReady (.refl ..) ..)
      (hhand hpc) rfl (hl.publishReady ho.listed ..) nofun nofun
  | @yielded h remote hpc =>
    refine ho.go_empty ((keeps_across ..).yieldFirst (.refl ..) ..) (hhand hpc) ?_ (hl.yieldFirst ..) (fun p hp => ?_)
      fun p hp => ?_
    · split <;> rfl
    · split at hp <;> cases hp
    · split at hp <;> cases hp
  | @tried h i hpc =>
    obtain ⟨place', hl'⟩ := hl.stealFrom (h := h) (v := Harts.victim h i) (hhand hpc)
    refine ho.go ((keeps_across ..).stealFrom (.refl ..) ..) ⟨place', ?_⟩ (fun p hp => ?_) fun p hp => ?_
    · cases hx : (w.table.stealFrom h (Harts.victim h i)).1 with
      | none | some p => rwa [hx] at hl'
    · cases hx : (w.table.stealFrom h (Harts.victim h i)).1 <;> rw [hx] at hp <;> cases hp
    · cases hx : (w.table.stealFrom h (Harts.victim h i)).1 <;> rw [hx] at hp <;> cases hp
  | @runStolen h p hpc hready =>
    have hpl : place p = .hand h := (hl.hand h p).mp (hhand hpc)
    have hgone := (hl.letGo (hhand hpc)).detach h
    have hout : (if update place p .out p = .cur h then .out else update place p .out p) = Place.out := by
      rw [update_self]
      rfl
    exact ho.go ((keeps_across ..).run (.refl ..) trivial)
      ⟨_, hgone.run hout (hl.known p (by rw [hpl]; nofun))⟩ nofun nofun
  | @dropStolen h p hpc hready =>
    have hpl : place p = .hand h := (hl.hand h p).mp (hhand hpc)
    exact absurd (hl.ready p ⟨h, .inr hpl⟩) hready
  | settle hpc => exact ho.go_empty ((keeps_across ..).settle (.refl ..)) (hhand hpc) rfl (hl.settle _) nofun nofun
  | @sigRead h p signal hpc =>
    refine ho.go_empty (.refl ..) (hhand hpc) ?_ ho.located (fun q hq => ?_) fun q hq => ?_
    · split <;> rfl
    · split at hq <;> cases hq
    · split at hq
      · cases hq
        exact ho.signalled h p (by rw [hpc]; rfl)
      · cases hq
  | @sigStore h p hpc =>
    have hw : w.wakes (.sigStore h) = some p := by
      simp only [Harts.wakes, Act.hart, hpc]
    obtain ⟨hstate, -, hcur⟩ := parked_of_wakes hok hw
    have hout := hl.out_of_state hstate hcur
    have hpL : p ∈ L := ho.signalled h p (by rw [hpc]; rfl)
    exact ho.go (keeps_setState ..) ⟨_, (hl.setState_out hout .ready).grab hout (setState_self ..) hpL
      (hhand hpc)⟩ nofun nofun
  | @sigLink h p hpc =>
    have hpl : place p = .hand h := (hl.hand h p).mp (hhand hpc)
    exact ho.go ((requeued_enqueue ..).keeps h) ⟨_, (hl.letGo (hhand hpc)).enqueue (update_self ..)
      (hl.ready p ⟨h, .inr hpl⟩) (hl.known p (by rw [hpl]; nofun)) h⟩ nofun nofun
  | @exitPublish h p code hpc =>
    have hcur : w.table.current h = some p := ho.own h p (by rw [hpc]; rfl)
    rw [hl.exitPublish_eq hcur]
    refine ho.go_empty (keeps_setState ..) (hhand hpc) rfl ⟨place, hl.setState_current hcur nofun⟩
      (fun q hq => ?_) nofun
    cases hq
    exact hcur
  | @exitCode h p code hpc =>
    have hcur : w.table.current h = some p := ho.own h p (by rw [hpc]; rfl)
    refine ho.go_empty ⟨fun _ _ => rfl, fun q => setNode_field _ p q Node.pid rfl, .refl _⟩ (hhand hpc) rfl
      ⟨place, hl.congr rfl rfl (fun q => setNode_field _ p q Node.state rfl)
        fun q => setNode_field _ p q Node.onRq rfl⟩ (fun q hq => ?_) nofun
    cases hq
    exact hcur
  | @exitFinal h p hpc =>
    have hcur : w.table.current h = some p := ho.own h p (by rw [hpc]; rfl)
    have hw : w.wakes (.exitFinal h) = (w.table.setState p .exited).sleepingParent p := by
      simp only [Harts.wakes, Act.hart, hpc]
    refine ho.go_empty (keeps_exitFinal ..) (hhand hpc) ?_ (hl.exitFinal ho.listed hcur fun a ha =>
      (parked_of_wakes hok (hw.trans ha)).2.2) (fun q hq => ?_) fun q hq => ?_
    · split <;> rfl
    · split at hq
      · cases hq
        rw [exitFinal_current]
        exact hcur
      · cases hq
    · split at hq <;> cases hq

/-- No call is under way: each hart runs a process of its own or idles, and the queues hold the
processes that are ready. -/
structure Start (w : Harts n) : Prop where
  pc : ∀ h, w.pc h = .run
  running : ∀ h p, w.table.current h = some p →
    p ∈ w.table.allProcs ∧ (w.table.node p).state = .running ∧ ∀ h', w.table.current h' = some p → h' = h
  queued : ∀ h p, p ∈ w.table.rq h →
    p ∈ w.table.allProcs ∧ (w.table.node p).state = .ready ∧ ∀ h', p ∈ w.table.rq h' → h' = h
  nodup : ∀ h, (w.table.rq h).Nodup
  flag : ∀ p, (w.table.node p).onRq = true ↔ ∃ h, p ∈ w.table.rq h
  pids : ∀ a ∈ w.table.allProcs, ∀ b ∈ w.table.allProcs, (w.table.node a).pid = (w.table.node b).pid → a = b

open Classical in
/-- The place of a process while no call is under way. -/
noncomputable def startPlace (t : Table n) (p : Nat) : Place n :=
  if hc : ∃ h, t.current h = some p then .cur hc.choose
  else if hq : ∃ h, p ∈ t.rq h then .queue hq.choose
  else .out

theorem Start.place_cur (h0 : Start w) (h : Fin n) (p : Nat) :
    w.table.current h = some p ↔ startPlace w.table p = .cur h := by
  unfold startPlace
  constructor
  · intro hc
    have hex : ∃ h, w.table.current h = some p := ⟨h, hc⟩
    rw [dif_pos hex, (h0.running h p hc).2.2 _ hex.choose_spec]
  · intro hp
    split_ifs at hp with hc hq
    cases hp
    exact hc.choose_spec

theorem Start.place_queue (h0 : Start w) (h : Fin n) (p : Nat) :
    p ∈ w.table.rq h ↔ startPlace w.table p = .queue h := by
  unfold startPlace
  constructor
  · intro hq
    have hnot : ¬∃ h, w.table.current h = some p := by
      rintro ⟨h', hc⟩
      have hrun := (h0.running h' p hc).2.1
      rw [(h0.queued h p hq).2.1] at hrun
      cases hrun
    have hex : ∃ h, p ∈ w.table.rq h := ⟨h, hq⟩
    rw [dif_neg hnot, dif_pos hex, (h0.queued h p hq).2.2 _ hex.choose_spec]
  · intro hp
    split_ifs at hp with hc hq
    cases hp
    exact hq.choose_spec

theorem Start.orderly (h0 : Start w) : Orderly w.table.allProcs w := by
  have hpc : ∀ h, (w.pc h).hand = none ∧ (w.pc h).exiting = none ∧ (w.pc h).signalled = none :=
    fun h => by rw [h0.pc h]; exact ⟨rfl, rfl, rfl⟩
  refine ⟨⟨startPlace w.table, h0.place_cur, h0.place_queue, h0.nodup, fun p => ?_, fun h p => ?_,
    fun p hp => ?_, fun h p hp => ?_, fun p hp => ?_⟩, fun h p hp => ?_, fun _ => id, fun h p hp => ?_, h0.pids⟩
  · exact (h0.flag p).trans (exists_congr fun h => h0.place_queue h p)
  · rw [(hpc h).1]
    refine ⟨nofun, fun hp => ?_⟩
    unfold startPlace at hp
    split_ifs at hp
  · obtain ⟨h, hp | hp⟩ := hp
    · exact (h0.queued h p ((h0.place_queue h p).mpr hp)).2.1
    · unfold startPlace at hp
      split_ifs at hp
  · rw [(h0.running h p ((h0.place_cur h p).mpr hp)).2.1]
    nofun
  · cases hx : startPlace w.table p with
    | out => exact absurd hx hp
    | cur h => exact (h0.running h p ((h0.place_cur h p).mpr hx)).1
    | queue h => exact (h0.queued h p ((h0.place_queue h p).mpr hx)).1
    | hand h =>
      unfold startPlace at hx
      split_ifs at hx
  · rw [(hpc h).2.1] at hp
    cases hp
  · rw [(hpc h).2.2] at hp
    cases hp

/-- The frame of its process is saved from the first section of `sched_yield` on. -/
def Pc.saved : Pc → Bool
  | .steal _ | .stolen _ => true
  | _ => false

def Harts.executes (w : Harts n) (h : Fin n) (p : Nat) : Prop := w.table.current h = some p ∧ (w.pc h).saved = false

/-- In every run in which only parked processes are woken, a process is current on at most one hart,
and one that is ready and on a queue is not executed. -/
theorem runs_on_one_hart {w₀ : Harts n} (h0 : Start w₀)
    (hrun : (harts n).Reach (fun v a => wakesParked v a = true) w₀ w) :
    (∀ h h' p, w.table.current h = some p → w.table.current h' = some p → h = h') ∧
      ∀ h h' p, (w.table.node p).state = .ready → p ∈ w.table.rq h → ¬w.executes h' p := by
  have ho : Orderly w₀.table.allProcs w := hrun.invariant h0.orderly fun ho hok hstep => ho.step hok hstep
  obtain ⟨place, hl⟩ := ho.located
  constructor
  · intro h h' p hc hc'
    rw [hl.current] at hc hc'
    exact Place.cur.inj (hc.symm.trans hc')
  · intro h h' p _ hq hx
    have hc := (hl.current h' p).mp hx.1
    rw [hl.queue, hc] at hq
    cases hq

/-! ## Two harts -/

def sampleNode (pid parentPid : Nat) (state : ProcState) (onRq : Bool) : Node :=
  { pid, parentPid, state, exitCode := 0, noCldwait := false, onRq, affinity := -1 }

/-- The process at 1 runs on hart 0 and its child at 2 on hart 1; the process at 3 is on the queue of
hart 0 if `busy` is set, and asleep otherwise. -/
def twoHarts (busy : Bool) : Harts 2 where
  table :=
    { node := fun
        | 1 => sampleNode 10 1 .running false
        | 2 => sampleNode 11 10 .running false
        | 3 => sampleNode 12 1 (if busy then .ready else .waiting) busy
        | _ => sampleNode 0 0 .free false
      allProcs := [3, 2, 1]
      rq := fun h => if h = 0 && busy then [3] else []
      current := fun h => some (h.val + 1) }
  pc _ := .run
  exits _ := none
  reports := []

theorem twoHarts_start (busy : Bool) : Start (twoHarts busy) := by
  have hcur : ∀ {h : Fin 2} {p}, (twoHarts busy).table.current h = some p → p = h.val + 1 :=
    fun hp => (Option.some.inj hp).symm
  have hrq : ∀ {h : Fin 2} {p}, p ∈ (twoHarts busy).table.rq h → busy = true ∧ h = 0 ∧ p = 3 := by
    intro h p hp
    have hp : p ∈ if (h = 0 && busy) = true then [3] else [] := hp
    split_ifs at hp with hc
    · simp only [Bool.and_eq_true, decide_eq_true_eq] at hc
      exact ⟨hc.2, hc.1, mem_singleton.mp hp⟩
    · cases hp
  refine ⟨fun _ => rfl, fun h p hp => ?_, fun h p hp => ?_, fun h => ?_, fun p => ?_, ?_⟩
  · obtain rfl := hcur hp
    refine ⟨?_, ?_, fun h' hp' => ?_⟩
    · revert h
      cases busy <;> decide
    · revert h
      cases busy <;> decide
    · have := hcur hp'
      omega
  · obtain ⟨rfl, rfl, rfl⟩ := hrq hp
    exact ⟨by decide, rfl, fun h' hp' => (hrq hp').2.1⟩
  · revert h
    cases busy <;> decide
  · constructor
    · intro hf
      match p with
      | 0 | 1 | 2 => cases busy <;> cases hf
      | 3 =>
        cases busy
        · cases hf
        · exact ⟨0, by decide⟩
      | _ + 4 => cases busy <;> cases hf
    · rintro ⟨h, hp⟩
      obtain ⟨rfl, rfl, rfl⟩ := hrq hp
      rfl
  · cases busy <;> decide

/-- The steps of a whole `exit` on a hart. -/
def exitActs (h : Fin n) (code : Int) : List (Act n) := [.exitFind h code, .exitPublish h, .exitCode h, .exitFinal h]

/-- The parent is parked before its child exits, and then runs on the other hart. -/
theorem runs_on_one_hart_twoHarts : ∃ w,
    (harts 2).Reach (fun v a => wakesParked v a = true) (twoHarts true) w ∧
      w.table.current 0 = some 3 ∧ w.table.current 1 = some 1 ∧
      ∀ h h' p, w.table.current h = some p → w.table.current h' = some p → h = h' := by
  refine Machine.exists_reach_imp (P := fun w => w.table.current 0 = some 3 ∧ w.table.current 1 = some 1)
    ([.wait 0 0 false, .yieldFirst 0 false] ++ exitActs 1 7 ++ [.yieldFirst 1 false]) (by decide) ?_
  rintro w hrun ⟨h0, h1⟩
  exact ⟨h0, h1, (runs_on_one_hart (twoHarts_start true) hrun).1⟩

/-- The parent has published `Waiting` and not yet entered `sched_yield` when its child exits: it is
put on a queue while hart 0 executes it, and then both harts have it as their process. -/
theorem parent_on_two_harts : ∃ v w,
    (harts 2).Reach Machine.always (twoHarts false) v ∧ (harts 2).Reach Machine.always v w ∧
      (v.table.node 1).state = .ready ∧ 1 ∈ v.table.rq 1 ∧ v.executes 0 1 ∧
      w.table.current 0 = some 1 ∧ w.table.current 1 = some 1 := by
  obtain ⟨v, hrun, hready, hq, hcur, hsaved, hnext⟩ : ∃ v, (harts 2).Reach Machine.always (twoHarts false) v ∧
      (v.table.node 1).state = .ready ∧ 1 ∈ v.table.rq 1 ∧ v.table.current 0 = some 1 ∧
      (v.pc 0).saved = false ∧ (((harts 2).step v (.yieldFirst 1 false)).any fun w =>
        w.table.current 0 = some 1 ∧ w.table.current 1 = some 1) = true :=
    Machine.exists_reach_of_play ([.wait 0 0 false] ++ exitActs 1 7) (by decide)
  obtain ⟨w, hstep, hboth⟩ := Option.any_eq_true .. |>.mp hnext
  exact ⟨v, w, hrun, Machine.Reach.refl.step trivial hstep, hready, hq, ⟨hcur, hsaved⟩, of_decide_eq_true hboth⟩

end Sched
