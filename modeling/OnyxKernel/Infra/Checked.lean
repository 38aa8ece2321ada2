import Mathlib.Algebra.Order.Ring.Int

/-!
# Checked machine arithmetic

Arithmetic of a program that stops when a result leaves its type: `none` is the stop. `Fine x P` says that a
computation does not stop and that its result satisfies `P`; there is one rule for each operation, and the
loops of a program are taken through `bind`.
-/

namespace Checked

/-- `a + b` in `w` bits. -/
def add (w a b : Nat) : Option Nat := if a + b < 2 ^ w then some (a + b) else none

/-- `a - b`, unsigned. -/
def sub (a b : Nat) : Option Nat := if b ≤ a then some (a - b) else none

/-- `a * b` in `w` bits. -/
def mul (w a b : Nat) : Option Nat := if a * b < 2 ^ w then some (a * b) else none

/-- `a + b` in signed 64 bits. -/
def addI64 (a b : Int) : Option Int :=
  if -2 ^ 63 ≤ a + b ∧ a + b < 2 ^ 63 then some (a + b) else none

def saturatingAdd (w a b : Nat) : Nat := min (a + b) (2 ^ w - 1)

def saturatingMul (w a b : Nat) : Nat := min (a * b) (2 ^ w - 1)

theorem saturatingAdd_le (w a b : Nat) : saturatingAdd w a b ≤ a + b := min_le_left _ _

theorem saturatingMul_le (w a b : Nat) : saturatingMul w a b ≤ a * b := min_le_left _ _

/-! ## Computations that do not stop -/

/-- The computation gives a value, and the value satisfies `P`. -/
def Fine {α : Type*} (x : Option α) (P : α → Prop) : Prop := ∃ a, x = some a ∧ P a

universe u

variable {α β : Type u} {x : Option α} {P Q : α → Prop}

theorem Fine.ne_none (h : Fine x P) : x ≠ none := by
  obtain ⟨a, rfl, -⟩ := h
  simp

theorem Fine.mono (h : Fine x P) (hle : ∀ a, P a → Q a) : Fine x Q := by
  obtain ⟨a, ha, hP⟩ := h
  exact ⟨a, ha, hle a hP⟩

theorem Fine.self (h : Fine x P) : Fine x fun a => x = some a ∧ P a := by
  obtain ⟨a, ha, hP⟩ := h
  exact ⟨a, ha, ha, hP⟩

theorem fine_some {a : α} (h : P a) : Fine (some a) P := ⟨a, rfl, h⟩

theorem fine_pure {a : α} (h : P a) : Fine (pure a) P := ⟨a, rfl, h⟩

theorem Fine.bind {f : α → Option β} {R : β → Prop} (h : Fine x P) (hf : ∀ a, P a → Fine (f a) R) :
    Fine (x >>= f) R := by
  obtain ⟨a, rfl, hP⟩ := h
  exact hf a hP

theorem fine_ite {c : Prop} [Decidable c] {y z : Option α} (hy : c → Fine y P) (hz : ¬c → Fine z P) :
    Fine (if c then y else z) P := by
  split
  · exact hy ‹_›
  · exact hz ‹_›

section Operations

variable {w a b : Nat}

theorem fine_add (h : a + b < 2 ^ w) : Fine (add w a b) (· = a + b) := ⟨a + b, if_pos h, rfl⟩

theorem fine_sub (h : b ≤ a) : Fine (sub a b) (· = a - b) := ⟨a - b, if_pos h, rfl⟩

theorem fine_mul (h : a * b < 2 ^ w) : Fine (mul w a b) (· = a * b) := ⟨a * b, if_pos h, rfl⟩

theorem fine_addI64 {a b : Int} (hlow : -2 ^ 63 ≤ a + b) (hhigh : a + b < 2 ^ 63) :
    Fine (addI64 a b) (· = a + b) := ⟨a + b, if_pos ⟨hlow, hhigh⟩, rfl⟩

theorem mul_eq_none_iff : mul w a b = none ↔ 2 ^ w ≤ a * b := by
  unfold mul
  split <;> simp <;> omega

theorem addI64_eq_none_iff {a b : Int} : addI64 a b = none ↔ a + b < -2 ^ 63 ∨ 2 ^ 63 ≤ a + b := by
  unfold addI64
  split <;> simp <;> omega

end Operations

end Checked
