import Mathlib.Data.Finset.Max
import OnyxKernel.Infra.Machine

/-!
# Spin locks and circular waits

Parties run programs that take and release locks; what they do in between is left out, except that it
decides which way a program goes. A program can announce with `mark` that it enters a region. Within
a region, a lock may be taken while others are held only if it ranks above them; the rank may differ
from region to region.

A circular wait is a set of parties that each hold a lock and spin on one that a party of the set
holds. If all waiting parties are in the same region there is none.
-/

namespace Infra.Locks

open Infra Function

variable {ι ℓ μ φ : Type} [DecidableEq ι] [DecidableEq ℓ]

inductive Prog (ℓ μ : Type)
  | ret
  | mark (m : μ) (k : Prog ℓ μ)
  | lock (l : ℓ) (k : Prog ℓ μ)
  | tryLock (l : ℓ) (yes no : Prog ℓ μ)
  | unlock (l : ℓ) (k : Prog ℓ μ)
  | either (a b : Prog ℓ μ)

structure Party (ℓ μ : Type) where
  prog : Prog ℓ μ
  held : List ℓ
  region : μ

structure World (ι ℓ μ : Type) where
  party : ι → Party ℓ μ
  owner : ℓ → Option ι

/-- A party starts a function, or takes the next step of its program; `left` decides where the
program leaves a choice. -/
inductive Act (ι φ : Type)
  | call (i : ι) (f : φ)
  | next (i : ι) (left : Bool)
  deriving DecidableEq, Repr

namespace World

variable (w : World ι ℓ μ)

def set (i : ι) (p : Party ℓ μ) : World ι ℓ μ := { w with party := update w.party i p }

/-- Party `i` gets lock `l` and goes on with `k`. -/
def take (i : ι) (l : ℓ) (k : Prog ℓ μ) : World ι ℓ μ :=
  { party := update w.party i { w.party i with prog := k, held := l :: (w.party i).held }
    owner := update w.owner l (some i) }

/-- Party `i` gives lock `l` back and goes on with `k`. -/
def give (i : ι) (l : ℓ) (k : Prog ℓ μ) : World ι ℓ μ :=
  { party := update w.party i { w.party i with prog := k, held := (w.party i).held.erase l }
    owner := update w.owner l none }

def next (i : ι) (left : Bool) : Option (World ι ℓ μ) :=
  match (w.party i).prog with
  | .ret => none
  | .mark m k => some (w.set i { w.party i with prog := k, region := m })
  | .lock l k => if w.owner l = none then some (w.take i l k) else none
  | .tryLock l yes no =>
    if w.owner l = none then some (w.take i l yes) else some (w.set i { w.party i with prog := no })
  | .unlock l k => some (w.give i l k)
  | .either a b => some (w.set i { w.party i with prog := if left = true then a else b })

end World

/-- The parties run the functions of `body`. -/
def machine (body : ι → φ → Prog ℓ μ) : Machine (World ι ℓ μ) (Act ι φ) where
  step w
    | .call i f =>
      match (w.party i).prog with
      | .ret => some (w.set i { w.party i with prog := body i f })
      | _ => none
    | .next i left => w.next i left

def idle (m : μ) : World ι ℓ μ where
  party _ := { prog := .ret, held := [], region := m }
  owner _ := none

/-! ## Programs that respect a rank -/

/-- Within a region a lock is taken only above those held, what is given back is held, and nothing is
held at the end. -/
def WellNested (rank : μ → ℓ → Nat) (rest : μ) : μ → List ℓ → Prog ℓ μ → Prop
  | m, held, .ret => held = [] ∧ m = rest
  | _, held, .mark m k => WellNested rank rest m held k
  | m, held, .lock l k => (∀ l' ∈ held, rank m l' < rank m l) ∧ WellNested rank rest m (l :: held) k
  | m, held, .tryLock l yes no =>
    WellNested rank rest m (l :: held) yes ∧ WellNested rank rest m held no
  | m, held, .unlock l k => l ∈ held ∧ WellNested rank rest m (held.erase l) k
  | m, held, .either a b => WellNested rank rest m held a ∧ WellNested rank rest m held b

/-- Every party is in a program that respects the rank, and holds the locks that it owns. -/
structure Sound (rank : μ → ℓ → Nat) (rest : μ) (w : World ι ℓ μ) : Prop where
  nested : ∀ i, WellNested rank rest (w.party i).region (w.party i).held (w.party i).prog
  owner : ∀ i l, w.owner l = some i ↔ l ∈ (w.party i).held
  nodup : ∀ i, (w.party i).held.Nodup

variable {rank : μ → ℓ → Nat} {rest : μ} {w u : World ι ℓ μ} {i : ι} {l : ℓ} {k : Prog ℓ μ}

omit [DecidableEq ι] in
theorem sound_idle : Sound rank rest (idle rest : World ι ℓ μ) :=
  ⟨fun _ => ⟨rfl, rfl⟩, fun _ _ => ⟨nofun, nofun⟩, fun _ => List.nodup_nil⟩

section

variable (hs : Sound rank rest w)
include hs

theorem Sound.set {p : Party ℓ μ} (hheld : p.held = (w.party i).held)
    (hp : WellNested rank rest p.region p.held p.prog) : Sound rank rest (w.set i p) := by
  have hparty : ∀ j, (w.set i p).party j = if j = i then p else w.party j := fun j =>
    update_apply ..
  refine ⟨fun j => ?_, fun j l => ?_, fun j => ?_⟩
  · rw [hparty]
    split
    · exact hp
    · exact hs.nested j
  · rw [hparty]
    refine (hs.owner j l).trans ?_
    split
    · rename_i he
      rw [hheld, he]
    · rfl
  · rw [hparty]
    split
    · rw [hheld]
      exact hs.nodup i
    · exact hs.nodup j

theorem Sound.take (hfree : w.owner l = none)
    (hk : WellNested rank rest (w.party i).region (l :: (w.party i).held) k) :
    Sound rank rest (w.take i l k) := by
  have hparty : ∀ j, (w.take i l k).party j =
      if j = i then { w.party i with prog := k, held := l :: (w.party i).held } else w.party j :=
    fun j => update_apply ..
  have hnot : ∀ j, l ∉ (w.party j).held := fun j hm => by
    rw [← hs.owner, hfree] at hm
    cases hm
  refine ⟨fun j => ?_, fun j l' => ?_, fun j => ?_⟩
  · rw [hparty]
    split
    · exact hk
    · exact hs.nested j
  · rw [hparty]
    by_cases hl : l' = l
    · subst hl
      have hown : (w.take i l' k).owner l' = some i := update_self ..
      rw [hown]
      split
      · rename_i he
        simp [he]
      · rename_i he
        simp [hnot j, Ne.symm he]
    · have hown : (w.take i l k).owner l' = w.owner l' := update_of_ne hl _ _
      rw [hown, hs.owner]
      split
      · rename_i he
        simp [he, hl]
      · rfl
  · rw [hparty]
    split
    · exact List.nodup_cons.mpr ⟨hnot i, hs.nodup i⟩
    · exact hs.nodup j

theorem Sound.give (hl : l ∈ (w.party i).held)
    (hk : WellNested rank rest (w.party i).region ((w.party i).held.erase l) k) :
    Sound rank rest (w.give i l k) := by
  have hparty : ∀ j, (w.give i l k).party j =
      if j = i then { w.party i with prog := k, held := (w.party i).held.erase l } else w.party j :=
    fun j => update_apply ..
  have howner : w.owner l = some i := (hs.owner i l).mpr hl
  refine ⟨fun j => ?_, fun j l' => ?_, fun j => ?_⟩
  · rw [hparty]
    split
    · exact hk
    · exact hs.nested j
  · rw [hparty]
    by_cases hll : l' = l
    · subst hll
      have hown : (w.give i l' k).owner l' = none := update_self ..
      rw [hown]
      refine ⟨nofun, fun hm => ?_⟩
      split at hm
      · exact absurd hm (hs.nodup i).not_mem_erase
      · rename_i he
        rw [← hs.owner, howner] at hm
        exact absurd (Option.some.inj hm).symm he
    · have hown : (w.give i l k).owner l' = w.owner l' := update_of_ne hll _ _
      rw [hown, hs.owner]
      split
      · rename_i he
        rw [he]
        exact (List.mem_erase_of_ne hll).symm
      · rfl
  · rw [hparty]
    split
    · exact (hs.nodup i).erase l
    · exact hs.nodup j

theorem Sound.step {body : ι → φ → Prog ℓ μ} {a : Act ι φ}
    (hbody : ∀ i f, WellNested rank rest rest [] (body i f)) (hstep : (machine body).step w a = some u) :
    Sound rank rest u := by
  cases a with
  | call i f =>
    simp only [machine] at hstep
    split at hstep
    · rename_i hret
      cases hstep
      have hnest := hs.nested i
      rw [hret] at hnest
      refine hs.set rfl ?_
      rw [hnest.1, hnest.2]
      exact hbody i f
    · cases hstep
  | next i left =>
    have hnest := hs.nested i
    simp only [machine, World.next] at hstep
    cases hprog : (w.party i).prog with rw [hprog] at hstep hnest
    | ret => cases hstep
    | mark m k =>
      cases hstep
      exact hs.set rfl hnest
    | lock l k =>
      simp only at hstep
      split at hstep
      · rename_i hfree
        cases hstep
        exact hs.take hfree hnest.2
      · cases hstep
    | tryLock l yes no =>
      simp only at hstep
      split at hstep
      · rename_i hfree
        cases hstep
        exact hs.take hfree hnest.1
      · cases hstep
        exact hs.set rfl hnest.2
    | unlock l k =>
      cases hstep
      exact hs.give hnest.1 hnest.2
    | either a b =>
      cases hstep
      refine hs.set rfl ?_
      cases left
      · exact hnest.2
      · exact hnest.1

/-! ## Circular waits -/

def Prog.wanted : Prog ℓ μ → Option ℓ
  | .lock l _ => some l
  | _ => none

/-- Party `i` holds a lock and spins on `l`. -/
def World.waits (w : World ι ℓ μ) (i : ι) (l : ℓ) : Prop :=
  (w.party i).held ≠ [] ∧ (w.party i).prog.wanted = some l

omit [DecidableEq ι] in
theorem Sound.rank_lt (hw : w.waits i l) {l' : ℓ} (hl : l' ∈ (w.party i).held) :
    rank (w.party i).region l' < rank (w.party i).region l := by
  have hnest := hs.nested i
  have hwant := hw.2
  cases hprog : (w.party i).prog with
  | lock l₀ k =>
    rw [hprog] at hwant hnest
    cases hwant
    exact hnest.1 l' hl
  | _ =>
    rw [hprog] at hwant
    cases hwant

/-- Each party of the set holds a lock and spins on one that a party of the set holds. -/
def World.CircularWait (w : World ι ℓ μ) (s : Finset ι) : Prop :=
  s.Nonempty ∧ ∀ i ∈ s, ∃ l, w.waits i l ∧ ∃ j ∈ s, w.owner l = some j

omit [DecidableEq ι] in
theorem Sound.not_circularWait {s : Finset ι} (m : μ)
    (hregion : ∀ i ∈ s, (w.party i).region = m) : ¬w.CircularWait s := by
  rintro ⟨hne, hwait⟩
  have : Nonempty ℓ := (hwait _ hne.choose_spec).nonempty
  choose! l hl using hwait
  -- Take the party that spins on the highest lock; whoever owns that lock spins on a higher one.
  obtain ⟨i, hi, hmax⟩ := s.exists_max_image (fun i => rank m (l i)) hne
  obtain ⟨-, j, hj, howner⟩ := hl i hi
  have hlt := hs.rank_lt (hl j hj).1 ((hs.owner j (l i)).mp howner)
  rw [hregion j hj] at hlt
  exact absurd (hmax j hj) (Nat.not_le.mpr hlt)

end

end Infra.Locks
