import Mathlib.Logic.Function.Basic

/-!
# Singly linked lists

Nodes of type `α` carry one link, `next`. `Chain next cur l` says that the links lead from `cur`
through exactly the nodes of `l` to the null link. A node has one link, so two chains that are both
to stay whole have no node in common.

`walk` follows links and `unlink` takes a node out in one pass with a trailing pointer; both count
down a bound.
-/

namespace Infra

open List Function

variable {α : Type}

/-- The links from `cur` pass through the nodes of the list, in order, and end. -/
def Chain (next : α → Option α) : Option α → List α → Prop
  | cur, [] => cur = none
  | cur, p :: l => cur = some p ∧ Chain next (next p) l

/-- The first `k` nodes from `cur`. -/
def walk (next : α → Option α) : Nat → Option α → List α
  | 0, _ => []
  | _ + 1, none => []
  | k + 1, some p => p :: walk next k (next p)

variable {next next' : α → Option α} {cur : Option α} {l : List α} {p : α}

theorem walk_none (next : α → Option α) (k : Nat) : walk next k none = [] := by
  cases k <;> rfl

theorem Chain.walk_eq (h : Chain next cur l) {k : Nat} (hk : l.length ≤ k) : walk next k cur = l := by
  induction l generalizing cur k with
  | nil =>
    obtain rfl := h
    exact walk_none next k
  | cons p l ih =>
    obtain ⟨rfl, h⟩ := h
    obtain ⟨k, rfl⟩ : ∃ j, k = j + 1 := ⟨k - 1, by simp only [length_cons] at hk; omega⟩
    exact congrArg (p :: ·) (ih h (Nat.le_of_succ_le_succ hk))

theorem Chain.congr (h : Chain next cur l) (he : ∀ p ∈ l, next' p = next p) : Chain next' cur l := by
  induction l generalizing cur with
  | nil => exact h
  | cons p l ih =>
    refine ⟨h.1, ?_⟩
    rw [he p mem_cons_self]
    exact ih h.2 fun q hq => he q (mem_cons_of_mem p hq)

section

variable [DecidableEq α]

theorem Chain.update (h : Chain next cur l) (hp : p ∉ l) (v : Option α) : Chain (update next p v) cur l :=
  h.congr fun _ hq => update_of_ne (ne_of_mem_of_not_mem hq hp) _ _

theorem Chain.push (h : Chain next cur l) (hp : p ∉ l) : Chain (Function.update next p cur) (some p) (p :: l) := by
  refine ⟨rfl, ?_⟩
  rw [update_self]
  exact h.update hp cur

theorem Chain.splice {d m l' : List α} {r : α} {cur' : Option α} (h : Chain next cur (d ++ r :: m))
    (h' : Chain next cur' l') (hd : r ∉ d) (hl : r ∉ l') :
    Chain (Function.update next r cur') cur (d ++ r :: l') := by
  induction d generalizing cur with
  | nil =>
    refine ⟨h.1, ?_⟩
    rw [update_self]
    exact h'.update hl cur'
  | cons q d ih =>
    obtain ⟨hq, hd⟩ := not_or.mp (mt mem_cons.mpr hd)
    refine ⟨h.1, ?_⟩
    rw [update_of_ne (Ne.symm hq)]
    exact ih h.2 hd

/-- One pass over a chain that takes `p` out; `prev` trails behind `cur`. -/
def unlink (p : α) : Nat → Option α → Option α → Option α →
    (α → Option α) → Option α × (α → Option α)
  | 0, _, _, head, next => (head, next)
  | _ + 1, _, none, head, next => (head, next)
  | k + 1, prev, some c, head, next =>
    if c = p then
      match prev with
      | none => unlink p k none (next c) (next c) next
      | some r => unlink p k (some r) (next c) head (update next r (next c))
    else unlink p k (some c) (next c) head next

theorem unlink_skip {c : α} (hc : c ≠ p) (k : Nat) (prev head : Option α) :
    unlink p (k + 1) prev (some c) head next = unlink p k (some c) (next c) head next := by
  cases prev <;> rw [unlink, if_neg hc]

theorem unlink_absent (h : Chain next cur l) (hp : p ∉ l) (k : Nat) (prev head : Option α) :
    unlink p k prev cur head next = (head, next) := by
  induction l generalizing cur k prev with
  | nil =>
    obtain rfl := h
    cases k <;> rfl
  | cons c l ih =>
    obtain ⟨rfl, h⟩ := h
    obtain ⟨hc, hl⟩ := not_or.mp (mt mem_cons.mpr hp)
    cases k with
    | zero => rfl
    | succ k =>
      rw [unlink_skip (Ne.symm hc)]
      exact ih h hl k _

/-- The pass in the middle: `d` is behind, without `p`, and `prev` is its last node. -/
theorem unlink_chain {head : Option α} {d : List α} (hall : Chain next head (d ++ l))
    (hcur : Chain next cur l) (hn : (d ++ l).Nodup) (hp : p ∉ d) {k : Nat} (hk : l.length ≤ k) :
    Chain (unlink p k d.getLast? cur head next).2 (unlink p k d.getLast? cur head next).1
        (d ++ l.erase p) ∧
      ∀ q, q ∉ d ++ l → (unlink p k d.getLast? cur head next).2 q = next q := by
  induction l generalizing cur d k with
  | nil =>
    obtain rfl := hcur
    have he : unlink p k d.getLast? none head next = (head, next) := by cases k <;> rfl
    rw [he]
    exact ⟨hall, fun _ _ => rfl⟩
  | cons c l ih =>
    obtain ⟨rfl, hrest⟩ := hcur
    obtain ⟨k, rfl⟩ : ∃ j, k = j + 1 := ⟨k - 1, by simp only [length_cons] at hk; omega⟩
    have hcl : c ∉ l := (nodup_cons.mp (nodup_append.mp hn).2.1).1
    by_cases hc : c = p
    · subst hc
      rw [erase_cons_head]
      rcases eq_nil_or_concat d with rfl | ⟨d, r, rfl⟩
      · rw [getLast?_nil, unlink, if_pos rfl, unlink_absent hrest hcl]
        exact ⟨hrest, fun _ _ => rfl⟩
      · -- The link of the last node behind skips `c`.
        rw [concat_eq_append] at *
        rw [append_assoc, singleton_append] at hall hn ⊢
        have hr := nodup_cons.mp (nodup_append.mp hn).2.1
        have hrl : r ∉ l := fun hm => hr.1 (mem_cons_of_mem c hm)
        have hrd : r ∉ d := fun hm =>
          (nodup_append.mp hn).2.2 r hm r mem_cons_self rfl
        rw [getLast?_concat, unlink, if_pos rfl, unlink_absent (hrest.update hrl (next c)) hcl]
        refine ⟨hall.splice hrest hrd hrl, fun q hq => update_of_ne ?_ _ _⟩
        rintro rfl
        exact hq (mem_append_left _ (mem_append_right d mem_cons_self))
    · rw [erase_cons_tail (by simpa using hc), unlink_skip hc,
        ← getLast?_concat (l := d) (a := c), append_cons d c l, append_cons d c (l.erase p)]
      rw [append_cons] at hall hn
      refine ih hall hrest hn ?_ (Nat.le_of_succ_le_succ hk)
      rw [mem_append, mem_singleton]
      rintro (hm | rfl)
      · exact hp hm
      · exact hc rfl

/-- `unlink` from the head takes `p` out of a chain, and touches no other node's link. -/
theorem Chain.unlink {head : Option α} (h : Chain next head l) (hn : l.Nodup) {k : Nat}
    (hk : l.length ≤ k) :
    Chain (unlink p k none head head next).2 (unlink p k none head head next).1 (l.erase p) ∧
      ∀ q, q ∉ l → (Infra.unlink p k none head head next).2 q = next q :=
  unlink_chain (d := []) h h hn not_mem_nil hk

end

end Infra
