import Mathlib.Data.List.GetD
import Mathlib.Logic.Function.Basic
import OnyxKernel.Infra.Machine

/-!
# The rings of the xHCI driver

`alloc_ring`, `enqueue_trb`, `alloc_event_ring` and `poll_event`, with a controller that follows the cycle bits.
The link of `alloc_ring` does not toggle, so that the controller goes through the ring again with its first
cycle state, and `alloc_event_ring` begins with the cycle state of an entry that nobody has written.
-/

namespace Xhci

open Infra Function

structure Trb where
  params : Vector UInt32 4
  deriving DecidableEq

def trbLink : UInt32 := 6

def trbC : UInt32 := 1

def trbTypeFlags (t : UInt32) : UInt32 := (t &&& 0x3F) <<< 10

namespace Trb

def zero : Trb := ⟨#v[0, 0, 0, 0]⟩

def setCycle (t : Trb) (c : Bool) : Trb :=
  ⟨t.params.set 3 (if c then t.params[3] ||| trbC else t.params[3] &&& ~~~trbC)⟩

def cycle (t : Trb) : Bool := t.params[3] &&& trbC ≠ 0

def isLink (t : Trb) : Bool := (t.params[3] >>> 10) &&& 0x3F = trbLink

/-- The toggle flag of a link. -/
def toggles (t : Trb) : Bool := t.params[3] &&& 2 ≠ 0

theorem cycle_setCycle (t : Trb) : (t.setCycle true).cycle = true := by
  simp only [cycle, setCycle, trbC, if_true, Vector.getElem_set_self, decide_eq_true_eq]
  intro h
  have hbit := congrArg (fun x : UInt32 => x.toBitVec.getLsbD 0) h
  simp at hbit

theorem isLink_setCycle (t : Trb) : (t.setCycle true).isLink = t.isLink := by
  simp only [isLink, setCycle, trbC, if_true, Vector.getElem_set_self]
  have hshift : (t.params[3] ||| 1) >>> 10 = t.params[3] >>> 10 := by
    apply UInt32.toBitVec_inj.mp
    simp [BitVec.ushiftRight_or_distrib]
  rw [hshift]

end Trb

/-- A `TrbRing`, with the memory at its base. The pages of `alloc_n` are zero. -/
structure TrbRing where
  entries : Nat → Trb
  size : Nat
  enqueue : Nat
  cycle : Bool

def allocRing (pa : UInt64) (nentries : Nat) : TrbRing where
  entries := update (fun _ => .zero) (nentries - 1)
    ⟨#v[pa.toUInt32, (pa >>> 32).toUInt32, 0, trbC ||| trbTypeFlags trbLink]⟩
  size := nentries
  enqueue := 0
  cycle := true

def enqueueTrb (r : TrbRing) (trb : Trb) : TrbRing :=
  let r := { r with entries := update r.entries r.enqueue (trb.setCycle r.cycle), enqueue := r.enqueue + 1 }
  if r.size - 1 ≤ r.enqueue then { r with enqueue := 0, cycle := !r.cycle } else r

structure EventRing where
  entries : Nat → Trb
  size : Nat
  dequeue : Nat
  cycle : Bool

def allocEventRing (nentries : Nat) : EventRing := ⟨fun _ => .zero, nentries, 0, false⟩

def pollEvent (er : EventRing) : Option Trb × EventRing :=
  if er.size ≤ er.dequeue then (none, er)
  else if (er.entries er.dequeue).cycle ≠ er.cycle then (none, er)
  else
    (some (er.entries er.dequeue),
      if er.size ≤ er.dequeue + 1 then { er with dequeue := 0, cycle := !er.cycle }
      else { er with dequeue := er.dequeue + 1 })

/-! ## The controller -/

/-- A place in a ring, and the cycle state there. -/
structure Place where
  index : Nat
  cycle : Bool

/-- Driver and controller. What was enqueued, consumed, posted and polled is recorded; no code reads it. -/
structure Rings where
  ring : TrbRing
  consumer : Place
  events : EventRing
  producer : Place
  enqueued : List Trb
  consumed : List Trb
  posted : List Trb
  polled : List Trb

inductive Act
  | enqueue (trb : Trb)
  | consume
  | post (trb : Trb)
  | poll

/-- The controller takes an entry that has its own cycle bit. A link leads back to the first one. -/
def Rings.consume (w : Rings) : Option Rings :=
  let t := w.ring.entries w.consumer.index
  if t.cycle ≠ w.consumer.cycle then none
  else if t.isLink then some { w with consumer := ⟨0, w.consumer.cycle ^^ t.toggles⟩ }
  else some { w with consumer := ⟨w.consumer.index + 1, w.consumer.cycle⟩, consumed := w.consumed ++ [t] }

def Rings.step (w : Rings) : Act → Option Rings
  | .enqueue trb => some { w with ring := enqueueTrb w.ring trb, enqueued := w.enqueued ++ [trb] }
  | .consume => w.consume
  | .post trb =>
    let ⟨i, c⟩ := w.producer
    some { w with
      events := { w.events with entries := update w.events.entries i (trb.setCycle c) }
      producer := if w.events.size ≤ i + 1 then ⟨0, !c⟩ else ⟨i + 1, c⟩
      posted := w.posted ++ [trb] }
  | .poll =>
    match pollEvent w.events with
    | (none, _) => some w
    | (some t, events) => some { w with events, polled := w.polled ++ [t] }

def rings : Machine Rings Act := ⟨Rings.step⟩

def start (pa : UInt64) (n : Nat) : Rings :=
  ⟨allocRing pa n, ⟨0, true⟩, allocEventRing n, ⟨0, true⟩, [], [], [], []⟩

/-- The ring is not filled up to its link, the driver enqueues no link, and it does not poll. -/
def early (w : Rings) : Act → Bool
  | .enqueue trb => w.enqueued.length + 2 < w.ring.size && !trb.isLink
  | .poll => false
  | _ => true

/-- What the controller will find in the ring. -/
def Rings.written (w : Rings) : List Trb := w.enqueued.map (·.setCycle true)

open List

variable {n : Nat} {w u : Rings} {a : Act}

structure InStep (n : Nat) (w : Rings) : Prop where
  size : w.ring.size = n
  enqueue : w.ring.enqueue = w.enqueued.length
  cycle : w.ring.cycle = true
  room : w.enqueued.length + 1 < n
  entries : ∀ k, k + 1 < n → w.ring.entries k = w.written.getD k .zero
  consumer : w.consumer = ⟨w.consumed.length, true⟩
  consumed : w.consumed <+: w.written
  plain : ∀ t ∈ w.enqueued, t.isLink = false
  polled : w.polled = []

/-- The controller takes the next of the entries it has not seen. -/
theorem InStep.consume (h : InStep n w) : (w.consumed = w.written ∧ w.consume = none) ∨
    ∃ t, w.consumed ++ [t] <+: w.written ∧
      w.consume = some { w with consumer := ⟨w.consumed.length + 1, true⟩, consumed := w.consumed ++ [t] } := by
  obtain ⟨rest, hrest⟩ := h.consumed
  have hlen : w.consumed.length ≤ w.enqueued.length := by
    have := congrArg length hrest
    simp only [Rings.written, length_append, length_map] at this
    omega
  have hentry := h.entries w.consumed.length (by have := h.room; omega)
  rw [← hrest] at hentry
  simp only [Rings.consume, h.consumer, hentry]
  cases rest with
  | nil => exact .inl ⟨by simpa using hrest, by simp [Trb.cycle, Trb.zero]⟩
  | cons t rest =>
    obtain ⟨x, hx, rfl⟩ : ∃ x ∈ w.enqueued, x.setCycle true = t := mem_map.mp (by
      show t ∈ w.written
      simp [← hrest])
    refine .inr ⟨_, ⟨rest, by simpa using hrest⟩, ?_⟩
    simp [Trb.cycle_setCycle, Trb.isLink_setCycle, h.plain x hx]

theorem InStep.step (h : InStep n w) (hok : early w a = true) (hstep : rings.step w a = some u) : InStep n u := by
  cases a with
  | enqueue trb =>
    cases hstep
    simp only [early, Bool.and_eq_true, decide_eq_true_eq, Bool.not_eq_true', h.size] at hok
    have hring : enqueueTrb w.ring trb = { w.ring with
        entries := update w.ring.entries w.enqueued.length (trb.setCycle true)
        enqueue := w.enqueued.length + 1 } := by
      simp only [enqueueTrb, h.size, h.enqueue, h.cycle, if_neg (show ¬ n - 1 ≤ w.enqueued.length + 1 by omega)]
    have hwritten : w.written.length = w.enqueued.length := length_map ..
    refine ⟨by rw [hring, h.size], by simp [hring], by rw [hring, h.cycle], by simp; omega, fun k hk => ?_,
      h.consumer, ?_, fun t ht => ?_, h.polled⟩
    · rw [hring, Rings.written, map_append]
      show update w.ring.entries w.enqueued.length _ k = (w.written ++ [trb.setCycle true]).getD k .zero
      rw [update_apply, h.entries k hk]
      rcases Nat.lt_trichotomy k w.enqueued.length with hlt | rfl | hgt
      · rw [if_neg (by omega), getD_append _ _ _ _ (by omega)]
      · rw [if_pos rfl, ← hwritten, getD_append_right _ _ _ _ (Nat.le_refl _), Nat.sub_self]
        rfl
      · rw [if_neg (by omega), getD_eq_default _ _ (by omega), getD_eq_default _ _ (by simp; omega)]
    · exact h.consumed.trans (by simp [Rings.written])
    · rcases mem_append.mp ht with ht | ht
      · exact h.plain t ht
      · obtain rfl := mem_singleton.mp ht
        exact hok.2
  | consume =>
    rcases h.consume with ⟨-, hnone⟩ | ⟨t, hpre, hsome⟩
    · cases hnone.symm.trans hstep
    · cases hsome.symm.trans hstep
      exact { h with consumer := by simp, consumed := hpre }
  | post trb =>
    cases hstep
    exact { h with }
  | poll => cases hok

/-- As long as the ring is not filled up to its link and nobody polls, the controller sees what was enqueued, in
order and each once. -/
theorem rings_in_step {pa : UInt64} (hn : 2 ≤ n)
    (hrun : rings.Reach (fun v a => early v a = true) (start pa n) w) :
    w.consumed <+: w.written ∧ (w.consume = none ↔ w.consumed = w.written) ∧ w.polled = [] := by
  have h0 : InStep n (start pa n) := by
    refine ⟨rfl, rfl, rfl, by simp [start]; omega, fun k hk => ?_, rfl, prefix_rfl, nofun, rfl⟩
    simp [start, allocRing, Rings.written, show k ≠ n - 1 by omega]
  have h := hrun.invariant h0 fun hv hok hstep => hv.step hok hstep
  refine ⟨h.consumed, ?_, h.polled⟩
  rcases h.consume with ⟨heq, hnone⟩ | ⟨t, hpre, hsome⟩
  · exact iff_of_true hnone heq
  · refine iff_of_false (by rw [hsome]; nofun) fun heq => ?_
    have hle := hpre.length_le
    rw [heq, length_append, length_singleton] at hle
    omega

/-- A normal transfer, a setup stage and a no-op. -/
def threeTrbs : List Trb := [⟨#v[1, 0, 8, 0x400]⟩, ⟨#v[2, 7, 8, 0x800]⟩, ⟨#v[3, 0, 0, 0x5C00]⟩]

theorem rings_in_step_three : ∃ w, rings.Reach (fun v a => early v a = true) (start 0 8) w ∧
    w.consumed = threeTrbs.map (·.setCycle true) ∧ w.consume = none := by
  refine Machine.exists_reach_imp
    (P := fun w => w.consumed = threeTrbs.map (·.setCycle true) ∧ w.written = w.consumed)
    [.enqueue ⟨#v[1, 0, 8, 0x400]⟩, .enqueue ⟨#v[2, 7, 8, 0x800]⟩, .consume, .post .zero,
      .enqueue ⟨#v[3, 0, 0, 0x5C00]⟩, .consume, .consume] (by decide) ?_
  rintro w hrun ⟨hseen, hall⟩
  exact ⟨hseen, (rings_in_step (by decide) hrun).2.1.mpr hall.symm⟩

/-- A poll before anything is posted returns an event, and the controller takes the one entry again and again. -/
theorem event_out_of_nothing : ∃ w, rings.Reach Machine.always (start 0 2) w ∧
    w.posted = [] ∧ w.polled = [.zero] ∧ w.enqueued.length = 1 ∧ w.consumed.length = 2 :=
  Machine.exists_reach_of_play [.poll, .enqueue .zero, .consume, .consume, .consume] (by decide)

end Xhci
