import Mathlib.Data.List.Induction

/-!
# Block devices as write histories

A device is a function from block numbers to contents. What a program did to it is the list of its
block writes in order; a crash between two block writes leaves a prefix of that list applied.
-/

namespace Infra

variable {β : Type} {ws : List (Nat × β)}

abbrev Disk (β : Type) := Nat → β

def applyWrites : List (Nat × β) → Disk β → Disk β
  | [], d => d
  | w :: ws, d => applyWrites ws (Function.update d w.1 w.2)

@[simp] theorem applyWrites_nil (d : Disk β) : applyWrites [] d = d := rfl

@[simp] theorem applyWrites_cons (w : Nat × β) (ws : List (Nat × β)) (d : Disk β) :
    applyWrites (w :: ws) d = applyWrites ws (Function.update d w.1 w.2) := rfl

theorem applyWrites_append (ws vs : List (Nat × β)) (d : Disk β) :
    applyWrites (ws ++ vs) d = applyWrites vs (applyWrites ws d) := by
  induction ws generalizing d with
  | nil => rfl
  | cons w ws ih => exact ih _

theorem applyWrites_concat (ws : List (Nat × β)) (w : Nat × β) (d : Disk β) :
    applyWrites (ws ++ [w]) d = Function.update (applyWrites ws d) w.1 w.2 := by
  rw [applyWrites_append]
  rfl

theorem applyWrites_of_not_mem {b : Nat} (h : ∀ w ∈ ws, w.1 ≠ b) (d : Disk β) : applyWrites ws d b = d b := by
  induction ws generalizing d with
  | nil => rfl
  | cons w ws ih =>
    have hw : w.1 ≠ b := h w List.mem_cons_self
    rw [applyWrites_cons, ih fun v hv => h v (List.mem_cons_of_mem _ hv)]
    exact Function.update_of_ne (Ne.symm hw) _ _

/-- The content of the last write to `b`, if there is one. -/
def lastWrite (ws : List (Nat × β)) (b : Nat) : Option β := ((ws.filter fun w => w.1 = b).map Prod.snd).getLast?

theorem lastWrite_concat (ws : List (Nat × β)) (w : Nat × β) (b : Nat) :
    lastWrite (ws ++ [w]) b = if w.1 = b then some w.2 else lastWrite ws b := by
  unfold lastWrite
  rw [List.filter_append, List.map_append]
  split
  · rename_i hw
    simp [hw]
  · rename_i hw
    simp [hw]

theorem lastWrite_append (ws vs : List (Nat × β)) (b : Nat) :
    lastWrite (ws ++ vs) b = (lastWrite vs b).or (lastWrite ws b) := by
  unfold lastWrite
  rw [List.filter_append, List.map_append, List.getLast?_append]

theorem lastWrite_eq_none_iff {b : Nat} : lastWrite ws b = none ↔ ∀ w ∈ ws, w.1 ≠ b := by
  unfold lastWrite
  rw [List.getLast?_eq_none_iff, List.map_eq_nil_iff, List.filter_eq_nil_iff]
  simp

end Infra
