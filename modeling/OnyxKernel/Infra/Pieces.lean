import Mathlib.Data.List.Basic

/-!
# Text cut at a separator

`pieces sep` cuts a list at every `sep`. The end of the list closes the last piece unless that is empty, as in
a loop that looks for the next separator while something is left. `closed sep` is the way back: every piece
followed by a separator. `splitFirst` cuts at the first separator only.
-/

namespace Infra

open List

variable {α : Type} {sep : α} {l rest : List α} {ls : List (List α)}

def closed (sep : α) (ls : List (List α)) : List α := ls.flatMap (· ++ [sep])

@[simp] theorem closed_nil : closed sep [] = [] := rfl

@[simp] theorem closed_cons : closed sep (l :: ls) = l ++ sep :: closed sep ls := by
  simp [closed]

variable [DecidableEq α]

def pieces (sep : α) : List α → List (List α)
  | [] => []
  | a :: as =>
    if a = sep then [] :: pieces sep as
    else match pieces sep as with
      | [] => [[a]]
      | l :: ls => (a :: l) :: ls

@[simp] theorem pieces_nil : pieces sep [] = [] := rfl

theorem pieces_append_sep : ∀ {l : List α}, sep ∉ l → pieces sep (l ++ sep :: rest) = l :: pieces sep rest
  | [], _ => by simp [pieces]
  | a :: as, h => by
    have ha : a ≠ sep := fun he => h (he ▸ mem_cons_self)
    have has : sep ∉ as := fun hc => h (mem_cons_of_mem _ hc)
    rw [cons_append, pieces, if_neg ha, pieces_append_sep has]

theorem pieces_of_free : ∀ {l : List α}, sep ∉ l → l ≠ [] → pieces sep l = [l]
  | [a], h, _ => by
    have ha : a ≠ sep := fun he => h (he ▸ mem_cons_self)
    simp [pieces, ha]
  | a :: b :: as, h, _ => by
    have ha : a ≠ sep := fun he => h (he ▸ mem_cons_self)
    have has : sep ∉ b :: as := fun hc => h (mem_cons_of_mem _ hc)
    rw [pieces, if_neg ha, pieces_of_free has (cons_ne_nil b as)]

theorem pieces_closed_append (h : ∀ l ∈ ls, sep ∉ l) :
    pieces sep (closed sep ls ++ rest) = ls ++ pieces sep rest := by
  induction ls with
  | nil => rfl
  | cons l ls ih =>
    have hl := h l mem_cons_self
    have hls := ih fun l' hl' => h l' (mem_cons_of_mem _ hl')
    rw [closed_cons, append_assoc, cons_append, pieces_append_sep hl, hls, cons_append]

theorem pieces_closed (h : ∀ l ∈ ls, sep ∉ l) : pieces sep (closed sep ls) = ls := by
  simpa using (pieces_closed_append h : pieces sep (closed sep ls ++ []) = ls ++ pieces sep [])

/-- Closing the pieces of a text gives it back, with a separator after the last piece if it had none. -/
theorem take_closed_pieces : ∀ text : List α, (closed sep (pieces sep text)).take text.length = text
  | [] => rfl
  | a :: as => by
    have ih := take_closed_pieces as
    unfold pieces
    by_cases ha : a = sep
    · rw [if_pos ha, closed_cons, nil_append, length_cons, take_succ_cons, ih, ha]
    · rw [if_neg ha]
      cases hp : pieces sep as with
      | nil =>
        rw [hp, closed_nil, take_nil] at ih
        rw [← ih]
        rfl
      | cons p ps =>
        rw [hp, closed_cons] at ih
        rw [closed_cons, cons_append, length_cons, take_succ_cons, ih]

theorem free_of_mem_pieces : ∀ {text l : List α}, l ∈ pieces sep text → sep ∉ l
  | [], _, h => by cases h
  | a :: as, l, h => by
    have ih : ∀ l' ∈ pieces sep as, sep ∉ l' := fun l' hl' => free_of_mem_pieces hl'
    unfold pieces at h
    by_cases ha : a = sep
    · rw [if_pos ha] at h
      rcases mem_cons.mp h with rfl | h
      · exact not_mem_nil
      · exact ih l h
    · rw [if_neg ha] at h
      cases hp : pieces sep as with
      | nil =>
        simp only [hp, mem_singleton] at h
        subst h
        simpa using Ne.symm ha
      | cons p ps =>
        simp only [hp, mem_cons] at h ih
        rcases h with rfl | h
        · simp only [mem_cons, not_or]
          exact ⟨Ne.symm ha, ih p (.inl rfl)⟩
        · exact ih l (.inr h)

/-! ## The first separator -/

def splitFirst (sep : α) : List α → Option (List α × List α)
  | [] => none
  | a :: as => if a = sep then some ([], as) else (splitFirst sep as).map fun p => (a :: p.1, p.2)

theorem splitFirst_append : ∀ {l : List α}, sep ∉ l → splitFirst sep (l ++ sep :: rest) = some (l, rest)
  | [], _ => by simp [splitFirst]
  | a :: as, h => by
    have ha : a ≠ sep := fun he => h (he ▸ mem_cons_self)
    have has : sep ∉ as := fun hc => h (mem_cons_of_mem _ hc)
    rw [cons_append, splitFirst, if_neg ha, splitFirst_append has]
    rfl

theorem splitFirst_eq_some : ∀ {text : List α} {p : List α × List α}, splitFirst sep text = some p →
    text = p.1 ++ sep :: p.2 ∧ sep ∉ p.1
  | [], p, h => by cases h
  | a :: as, p, h => by
    unfold splitFirst at h
    by_cases ha : a = sep
    · rw [if_pos ha] at h
      obtain rfl := Option.some.inj h
      exact ⟨by rw [ha]; rfl, not_mem_nil⟩
    · rw [if_neg ha, Option.map_eq_some_iff] at h
      obtain ⟨q, hq, rfl⟩ := h
      obtain ⟨h1, h2⟩ := splitFirst_eq_some hq
      refine ⟨by rw [h1]; rfl, ?_⟩
      simp only [mem_cons, not_or]
      exact ⟨Ne.symm ha, h2⟩

end Infra
