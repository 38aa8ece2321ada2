import Mathlib.Data.List.Range

/-!
# Enumeration by a cursor

A table of `m` slots, some of them empty, is read through a call that takes a cursor and gives the
first item at or behind it. A reader who adds one to the cursor after each item sees every item once
exactly when the occupied slots are an initial segment.
-/

namespace Infra.Cursor

open List

variable {α β : Type} (f : Nat → Option α) (stop : Nat → Bool) (m : Nat)

/-- The first item among the `n` slots from `k` on, before a slot where the search stops. -/
def nextFrom : (n k : Nat) → Option α
  | 0, _ => none
  | n + 1, k => if stop k then none else (f k).or (nextFrom n (k + 1))

def collect : (fuel k : Nat) → List α
  | 0, _ => []
  | fuel + 1, k =>
    match nextFrom f stop (m - k) k with
    | none => []
    | some a => a :: collect fuel (k + 1)

variable {f stop m} (hstop : ∀ k a, f k = some a → ∀ j ≤ k, stop j = false)
    (hm : ∀ k a, f k = some a → k < m)
include hstop

theorem nextFrom_eq_none_iff {n k : Nat} :
    nextFrom f stop n k = none ↔ ∀ j, k ≤ j → j < k + n → f j = none := by
  induction n generalizing k with
  | zero => simp only [nextFrom, true_iff]; omega
  | succ n ih =>
    by_cases hk : stop k = true
    · simp only [nextFrom, hk, if_true, true_iff]
      intro j hj _
      by_contra hc
      obtain ⟨a, ha⟩ := Option.ne_none_iff_exists'.mp hc
      simp [hstop j a ha k hj] at hk
    · simp only [nextFrom, hk, Bool.false_eq_true, if_false, Option.or_eq_none_iff, ih]
      constructor
      · rintro ⟨h0, hrest⟩ j hj hlt
        rcases Nat.eq_or_lt_of_le hj with rfl | hj
        · exact h0
        · exact hrest j hj (by omega)
      · exact fun h => ⟨h k le_rfl (by omega), fun j hj hlt => h j (by omega) (by omega)⟩

include hm

theorem nextFrom_rest_eq_none_iff {k : Nat} :
    nextFrom f stop (m - k) k = none ↔ ∀ j, k ≤ j → f j = none := by
  rw [nextFrom_eq_none_iff hstop]
  refine ⟨fun h j hj => ?_, fun h j hj _ => h j hj⟩
  by_contra hc
  obtain ⟨a, ha⟩ := Option.ne_none_iff_exists'.mp hc
  have := hm j a ha
  exact hc (h j hj (by omega))

theorem filterMap_eq_nil {k : Nat} (h : nextFrom f stop (m - k) k = none) : (range' k (m - k)).filterMap f = [] := by
  simp only [filterMap_eq_nil_iff, mem_range'_1]
  exact fun j hj => (nextFrom_rest_eq_none_iff hstop hm).mp h j hj.1

/-- Without a hole every call finds the item at the cursor. -/
theorem collect_eq (hdown : ∀ k, (f (k + 1)).isSome → (f k).isSome) {fuel k : Nat}
    (hfuel : m < k + fuel) (hk : k ≤ m) :
    collect f stop m fuel k = (range' k (m - k)).filterMap f := by
  induction fuel generalizing k with
  | zero => omega
  | succ fuel ih =>
    cases hf : f k with
    | some a =>
      have hlt := hm k a hf
      obtain ⟨n, hn⟩ : ∃ n, m - k = n + 1 := ⟨m - k - 1, by omega⟩
      have hrest := ih (k := k + 1) (by omega) (by omega)
      rw [show m - (k + 1) = n by omega] at hrest
      simp [collect, hn, nextFrom, hstop k a hf k le_rfl, hf, hrest, range'_succ]
    | none =>
      have hnext : nextFrom f stop (m - k) k = none := by
        rw [nextFrom_rest_eq_none_iff hstop hm]
        intro j hj
        induction j, hj using Nat.le_induction with
        | base => exact hf
        | succ j _ ihj => simpa [ihj] using hdown j
      rw [collect, hnext, filterMap_eq_nil hstop hm hnext]

/-- A call over a hole is one call too many. -/
theorem length_collect {fuel k : Nat} (hfuel : m < k + fuel) (hk : k ≤ m) :
    ((range' k (m - k)).filterMap f).length ≤ (collect f stop m fuel k).length ∧
    ((collect f stop m fuel k).length = ((range' k (m - k)).filterMap f).length →
      ∀ j, k ≤ j → (f (j + 1)).isSome → (f j).isSome) := by
  induction fuel generalizing k with
  | zero => omega
  | succ fuel ih =>
    cases hnext : nextFrom f stop (m - k) k with
    | none =>
      have hnone := (nextFrom_rest_eq_none_iff hstop hm).mp hnext
      simp only [collect, hnext, filterMap_eq_nil hstop hm hnext]
      exact ⟨le_rfl, fun _ j hj hsome => by simp [hnone (j + 1) (by omega)] at hsome⟩
    | some a =>
      have hlt : k < m := by
        by_contra hc
        rw [show m - k = 0 by omega] at hnext
        cases hnext
      have hrest := ih (k := k + 1) (by omega) hlt
      have hrange : range' k (m - k) = k :: range' (k + 1) (m - (k + 1)) := by
        rw [← range'_succ]
        congr 1
        omega
      simp only [collect, hnext, hrange, length_cons]
      cases hf : f k with
      | none =>
        rw [filterMap_cons_none hf]
        exact ⟨by omega, fun h => by omega⟩
      | some b =>
        rw [filterMap_cons_some hf, length_cons]
        refine ⟨by omega, fun h j hj hsome => ?_⟩
        rcases Nat.eq_or_lt_of_le hj with rfl | hj
        · simp [hf]
        · exact hrest.2 (by omega) j hj hsome

theorem collect_perm_iff (g : α → β) {fuel : Nat} (hfuel : m < fuel) :
    ((collect f stop m fuel 0).map g).Perm (((range m).filterMap f).map g) ↔
      ∀ k, (f (k + 1)).isSome → (f k).isSome := by
  have hfuel : m < 0 + fuel := by omega
  rw [range_eq_range']
  constructor
  · intro hp k
    have hlen := hp.length_eq
    rw [length_map, length_map] at hlen
    exact (length_collect hstop hm hfuel m.zero_le).2 hlen k k.zero_le
  · intro hdown
    rw [collect_eq hstop hm hdown hfuel m.zero_le, Nat.sub_zero]

end Infra.Cursor
