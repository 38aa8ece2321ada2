import Mathlib.Data.Nat.Bitwise
import OnyxKernel.Infra.Radix
import OnyxKernel.Mm.Vmm

/-!
# Address spaces

A page table is a radix tree of depth 3 (`sv39`). Its entries hold the tables they point to and, at
the last level, the user pages that the allocator manages. `Space` is the invariant of a process
root: the tree property over the frames in use, and what the leaves of the upper levels look like.
With `exact` it says in addition that no page is lost and that the ledger of the allocator is in order.
-/

namespace Mm

open Infra Onyx StateProg Nat

/-! ## Bits of entries -/

variable {c : Nat}

theorem shiftLeft_and_low (f : Nat) (hc : c < 1024) : f <<< 10 &&& c = 0 := by
  refine eq_of_testBit_eq fun i => ?_
  rw [testBit_and, testBit_shiftLeft, zero_testBit]
  by_cases hi : 10 ≤ i
  · have hlt : c < 2 ^ i := lt_of_lt_of_le hc (Nat.pow_le_pow_right (n := 2) (by omega) hi)
    rw [testBit_lt_two_pow hlt, Bool.and_false]
  · simp [hi]

theorem pte_and_low (flags f : Nat) (hc : c < 1024) : (flags ||| f <<< 10) &&& c = flags &&& c := by
  rw [and_or_distrib_right, shiftLeft_and_low f hc, or_zero]

theorem ppnOf_eq (pte : Nat) : ppnOf pte = pte / 1024 % 2 ^ 44 := by
  refine eq_of_testBit_eq fun i => ?_
  have hmask : ptePpnMask = (2 ^ 44 - 1) <<< 10 := rfl
  have h1024 : (1024 : Nat) = 2 ^ 10 := rfl
  rw [ppnOf, hmask, h1024, testBit_shiftRight, testBit_and, testBit_shiftLeft,
    testBit_two_pow_sub_one, testBit_mod_two_pow, testBit_div_two_pow]
  have hsub : 10 + i - 10 = i := by omega
  rw [hsub, add_comm 10 i]
  exact Bool.and_comm _ _

theorem ppnOf_pte {flags f : Nat} (hflags : flags < 1024) (hf : f < 2 ^ 44) : ppnOf (flags ||| f <<< 10) = f := by
  have hor : flags ||| f <<< 10 = f * 1024 + flags := by
    rw [Nat.or_comm, ← Nat.shiftLeft_add_eq_or_of_lt hflags, Nat.shiftLeft_eq]
  rw [ppnOf_eq, hor]
  omega

theorem ppnOf_tablePte {f : Nat} (hf : f < 2 ^ 44) : ppnOf (tablePte f) = f := ppnOf_pte (by decide) hf

theorem tablePte_and (f : Nat) (hc : c < 1024) : tablePte f &&& c = pteV &&& c := pte_and_low _ _ hc

theorem subLeaf_and (pte level : Nat) (j : Fin 512) (hc : c < 1024) :
    subLeaf pte level j &&& c = (pteV ||| pte) &&& c := by
  rw [subLeaf, pte_and_low _ _ hc, Nat.and_or_distrib_right, Nat.and_or_distrib_right, Nat.and_assoc]
  congr 2
  have hmask : pteFlagsMask = 2 ^ 10 - 1 := rfl
  rw [hmask, Nat.and_comm, Nat.and_two_pow_sub_one_eq_mod, Nat.mod_eq_of_lt hc]

theorem ppnOf_subLeaf {pte level : Nat} (hlevel : level = 1 ∨ level = 2) (j : Fin 512)
    (h : ppnOf pte + 512 ^ level ≤ 2 ^ 44) :
    ppnOf (subLeaf pte level j) = ppnOf pte + j.1 * 512 ^ (level - 1) := by
  have hframe : ((ppnOf pte <<< 12) + j.1 * 1 <<< (if level = 2 then 21 else 12)) >>> 12 =
      ppnOf pte + j.1 * 512 ^ (level - 1) := by
    rw [shiftRight_eq_div_pow, shiftLeft_eq, shiftLeft_eq]
    rcases hlevel with rfl | rfl
    · simp only [reduceEqDiff, if_false]
      omega
    · simp only [if_true, Nat.add_one_sub_one, Nat.pow_one]
      omega
  have hlt : ppnOf pte + j.1 * 512 ^ (level - 1) < 2 ^ 44 := by
    rcases hlevel with rfl | rfl
    · simp only [pow_one] at h ⊢
      omega
    · simp only [Nat.add_one_sub_one, Nat.pow_one, Nat.reducePow] at h ⊢
      omega
  have hflags : pteV ||| (pte &&& pteFlagsMask) < 1024 :=
    or_lt_two_pow (n := 10) (by decide) (lt_of_le_of_lt and_le_right (by decide))
  rw [subLeaf, hframe, ppnOf_pte hflags hlt]

/-! ## The tree -/

def IsUser (pte : Nat) : Prop := pte &&& pteV ≠ 0 ∧ pte &&& pteU ≠ 0

instance (pte : Nat) : Decidable (IsUser pte) := inferInstanceAs (Decidable (_ ∧ _))

def pteKind (pte : Nat) : Kind Nat :=
  if pte &&& pteV = 0 then .empty
  else if pte &&& pteLeaf ≠ 0 then .leaf
  else .table (ppnOf pte)

def sv39 : Radix Nat (Fin 512) Nat where
  kind := pteKind
  depth := 3

/-- The frame that an entry holds: a table, or at the last level a user page of the allocator that
is not lent. -/
def pteHeld (base total : Nat) (lent : Nat → Bool) (n pte : Nat) : Option Nat :=
  if n < 2 then
    match pteKind pte with
    | .table f => some f
    | _ => none
  else if IsUser pte ∧ base ≤ ppnOf pte ∧ ppnOf pte < base + total ∧ lent (ppnOf pte) = false then
    some (ppnOf pte)
  else none

def MmState.holding (s : MmState) (lent : Nat → Bool) : sv39.Holding where
  held := pteHeld s.base s.total lent
  held_table := by
    intro n e f he hn
    have hn2 : n < 2 := lt_of_succ_lt_succ hn
    rw [pteHeld, if_pos hn2, show pteKind e = .table f from he]

def blockOffset : List (Fin 512) → Nat
  | [] => 0
  | i :: q => i.1 * 512 ^ q.length + blockOffset q

/-- The frame and the flags that a leaf gives to the page at `q` below it. -/
def leafPage (e : Nat × List (Fin 512)) : Nat × Nat := (ppnOf e.1 + blockOffset e.2, e.1 &&& pteFlagsMask)

/-- The translation of a page as the hardware makes it. -/
def look (s : MmState) (root : Nat) (q : List (Fin 512)) : Option (Nat × Nat) := (sv39.find s.mem root q).map leafPage

/-- What an address space has to respect. -/
structure Terms where
  /-- The pages in use before it was made. -/
  foreign : Nat → Prop
  /-- Pages of the allocator that it may show to user mode but does not own: framebuffers. -/
  lent : Nat → Bool
  lent_foreign : ∀ f, lent f = true → foreign f
  /-- What an entry open to user mode looks like. -/
  entry : Nat → Nat → Prop
  /-- No page may get lost. -/
  exact : Prop

/-- Superpage leaves stay inside the physical address space, and those open to user mode cover no
page of the allocator that is not lent. -/
def Fine (w : Terms) (s : MmState) (n pte : Nat) : Prop :=
  n < 2 → pteKind pte = .leaf →
    ppnOf pte + 512 ^ (2 - n) ≤ 2 ^ 44 ∧
    (IsUser pte → ∀ k < 512 ^ (2 - n), isManaged s (ppnOf pte + k) = true → w.lent (ppnOf pte + k) = true)

/-- The address space under `root`. Its frames are in use and none of the `other` frames. -/
structure Space (w : Terms) (other : Nat → Prop) (root : Nat) (s : MmState) : Prop where
  tree : sv39.Tree (s.holding w.lent) s.mem root fun f => s.Used f ∧ ¬ other f
  full : w.exact → sv39.Full (s.holding w.lent) s.mem root fun f => s.Used f ∧ ¬ other f
  fine : ∀ {p : List (Fin 512)} {t : Nat} (i : Fin 512), p.length < 3 →
    sv39.descend s.mem root p = some t → Fine w s p.length (s.mem t i)
  user : ∀ {p : List (Fin 512)} {t : Nat} {i : Fin 512}, p.length < 3 →
    sv39.descend s.mem root p = some t → IsUser (s.mem t i) → w.entry p.length (s.mem t i)
  others : ∀ f, other f → s.Used f
  foreign : ∀ f, w.foreign f → other f
  ledger : w.exact → Ledger w.foreign s
  bound : s.base + s.total ≤ 2 ^ 44

def Splits (Q : Nat → Nat → Prop) : Prop :=
  ∀ n pte j, n < 2 → IsUser pte → Q n pte → Q (n + 1) (subLeaf pte (2 - n) j)

section

variable {s : MmState} {pte : Nat}

theorem pteKind_zero : pteKind 0 = .empty := rfl

theorem pteKind_tablePte {f : Nat} (hf : f < 2 ^ 44) : pteKind (tablePte f) = .table f := by
  have hv : tablePte f &&& pteV ≠ 0 := by rw [tablePte_and f (by decide)]; decide
  have hleaf : tablePte f &&& pteLeaf = 0 := by rw [tablePte_and f (by decide)]; rfl
  rw [pteKind, if_neg hv, if_neg (by simp [hleaf]), ppnOf_tablePte hf]

theorem not_isUser_tablePte (f : Nat) : ¬ IsUser (tablePte f) := fun h =>
  h.2 (by rw [tablePte_and f (by decide)]; rfl)

theorem subLeaf_valid (pte level : Nat) (j : Fin 512) : subLeaf pte level j &&& pteV ≠ 0 := by
  rw [subLeaf_and pte level j (by decide), and_or_distrib_right]
  have hle : pteV &&& pteV ≤ pteV &&& pteV ||| pte &&& pteV := left_le_or
  have hone : pteV &&& pteV = 1 := rfl
  omega

theorem subLeaf_and_of_valid (hv : pte &&& pteV ≠ 0) (level : Nat) (j : Fin 512) {c : Nat}
    (hc : c < 1024) : subLeaf pte level j &&& c = pte &&& c := by
  have hbit : pteV ||| pte = pte := by
    refine eq_of_testBit_eq fun i => ?_
    have hv0 : pte.testBit 0 = true := by
      by_contra hc
      refine hv ?_
      rw [pteV, and_one_is_mod]
      simpa [testBit_zero] using hc
    rw [testBit_or, pteV]
    cases i with
    | zero => simp [hv0]
    | succ i => simp [testBit_succ]
  rw [subLeaf_and pte level j hc, hbit]

section

variable (h : pteKind pte = .leaf)
include h

theorem valid_of_leaf : pte &&& pteV ≠ 0 := by
  intro hv
  rw [pteKind, if_pos hv] at h
  cases h

theorem pteKind_subLeaf (level : Nat) (j : Fin 512) : pteKind (subLeaf pte level j) = .leaf := by
  have hv := valid_of_leaf h
  have hleaf : pte &&& pteLeaf ≠ 0 := by
    intro hl
    rw [pteKind, if_neg hv, if_neg (by simp [hl])] at h
    cases h
  rw [pteKind, if_neg (subLeaf_valid pte level j), if_pos]
  rw [subLeaf_and_of_valid hv level j (by decide)]
  exact hleaf

theorem isUser_subLeaf (level : Nat) (j : Fin 512) : IsUser (subLeaf pte level j) ↔ IsUser pte := by
  have hv := valid_of_leaf h
  rw [IsUser, IsUser, subLeaf_and_of_valid hv level j (by decide), subLeaf_and_of_valid hv level j (by decide)]

theorem leafPage_subLeaf {level : Nat} (hlevel : level = 1 ∨ level = 2)
    (hfit : ppnOf pte + 512 ^ level ≤ 2 ^ 44) (j : Fin 512) {q : List (Fin 512)}
    (hq : q.length + 1 = level) : leafPage (subLeaf pte level j, q) = leafPage (pte, j :: q) := by
  have hlen : level - 1 = q.length := by omega
  rw [leafPage, leafPage, ppnOf_subLeaf hlevel j hfit, blockOffset, hlen,
    subLeaf_and_of_valid (valid_of_leaf h) level j (by decide)]
  simp only [add_assoc]

end

end

end Mm
