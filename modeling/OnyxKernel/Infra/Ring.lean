import Mathlib.Data.Nat.ModEq

/-!
# Ring buffers

A ring of `cap` cells is a function on indices; what it holds is described by where it starts and how
many cells are taken, and an index is reduced only when a cell is touched. So the start may run past
the capacity: rings that reduce their head and rings that let it run are both covered.
-/

namespace Infra

namespace Ring

variable {α : Type} {cap : Nat}

/-- The `n` cells from `head` on, in order. -/
def held (cap : Nat) (buf : Nat → α) (head n : Nat) : List α := (List.range n).map fun i => buf ((head + i) % cap)

/-- One item after the other into the cells from `start` on. -/
def store (cap : Nat) : (Nat → α) → Nat → List α → Nat → α
  | buf, _, [] => buf
  | buf, start, b :: rest => store cap (Function.update buf (start % cap) b) (start + 1) rest

section

variable (buf : Nat → α)

@[simp]
theorem length_held (head n : Nat) : (held cap buf head n).length = n := by
  simp [held]

theorem held_zero (head : Nat) : held cap buf head 0 = [] := rfl

theorem held_mod (head n : Nat) : held cap buf (head % cap) n = held cap buf head n := by
  simp [held]

theorem store_mod (start : Nat) (items : List α) : store cap buf (start % cap) items = store cap buf start items := by
  induction items generalizing buf start with
  | nil => rfl
  | cons b rest ih =>
    rw [store, store, Nat.mod_mod, ← ih _ (start % cap + 1), ← ih _ (start + 1), Nat.mod_add_mod]

theorem held_succ (head n : Nat) : held cap buf head (n + 1) = buf (head % cap) :: held cap buf (head + 1) n := by
  simp only [held, List.range_succ_eq_map, List.map_cons, List.map_map, Nat.add_zero]
  congr 1
  apply List.map_congr_left
  intro i _
  show buf ((head + (i + 1)) % cap) = buf ((head + 1 + i) % cap)
  rw [Nat.add_right_comm, Nat.add_assoc]

theorem held_add (head n k : Nat) : held cap buf head (n + k) = held cap buf head n ++ held cap buf (head + n) k := by
  induction n generalizing head with
  | zero => rw [held_zero, Nat.zero_add, Nat.add_zero, List.nil_append]
  | succ n ih =>
    rw [Nat.add_right_comm, held_succ, ih, held_succ, List.cons_append, Nat.add_assoc, Nat.add_comm 1 n]

theorem held_drop (head : Nat) {n k : Nat} (hk : k ≤ n) :
    held cap buf (head + k) (n - k) = (held cap buf head n).drop k := by
  have hsplit : held cap buf head (k + (n - k)) = _ := held_add buf head k (n - k)
  rw [Nat.add_sub_cancel' hk] at hsplit
  rw [hsplit, List.drop_left' (length_held buf head k)]

theorem held_take (head : Nat) {n k : Nat} (hk : k ≤ n) : held cap buf head k = (held cap buf head n).take k := by
  have hsplit : held cap buf head (k + (n - k)) = _ := held_add buf head k (n - k)
  rw [Nat.add_sub_cancel' hk] at hsplit
  rw [hsplit, List.take_left' (length_held buf head k)]

theorem held_update {head n : Nat} (hn : n < cap) (b : α) :
    held cap (Function.update buf ((head + n) % cap) b) head n = held cap buf head n := by
  apply List.map_congr_left
  intro i hi
  have hi : i < n := List.mem_range.mp hi
  apply Function.update_of_ne
  intro heq
  have hmod : i ≡ n [MOD cap] := Nat.ModEq.add_left_cancel' head heq
  exact absurd (hmod.eq_of_lt_of_lt (by omega) hn) (by omega)

theorem held_update_next {head n : Nat} (hn : n < cap) (b : α) :
    held cap (Function.update buf ((head + n) % cap) b) head (n + 1) = held cap buf head n ++ [b] := by
  rw [held_add, held_update _ hn]
  simp [held]

theorem held_store (head : Nat) {n : Nat} (items : List α) (hroom : n + items.length ≤ cap) :
    held cap (store cap buf (head + n) items) head (n + items.length) = held cap buf head n ++ items := by
  induction items generalizing buf n with
  | nil => simp [store]
  | cons b rest ih =>
    rw [List.length_cons] at hroom
    have hnext := ih (Function.update buf ((head + n) % cap) b) (n := n + 1) (by omega)
    rw [store, List.length_cons, Nat.add_comm rest.length, ← Nat.add_assoc, Nat.add_assoc head, hnext,
      held_update_next _ (by omega)]
    simp

end

theorem held_tail {buf : Nat → α} {head n : Nat} {b : α} {rest : List α} (h : held cap buf head n = b :: rest) :
    held cap buf ((head + 1) % cap) (n - 1) = rest := by
  cases n with
  | zero => cases h
  | succ n =>
    rw [held_succ] at h
    rw [held_mod]
    exact (List.cons.inj h).2

end Ring

end Infra
