import Mathlib.Logic.Basic

/-!
# State machines and the states they reach

An action of a machine is refused in a state or leads to one next state; interleavings of several
parties are sequences of actions. `Reach ok s t` says that `t` is reached from `s` by actions each
taken in a state where `ok` allows it. An invariant has to survive one such action.

`play` runs a list of actions, so that a run on concrete data is found by evaluation.
-/

namespace Infra

/-- A machine with states `σ` and actions `α`. -/
structure Machine (σ α : Type) where
  step : σ → α → Option σ

namespace Machine

variable {σ α : Type} (M : Machine σ α)

def always : σ → α → Prop := fun _ _ => True

instance (s : σ) (a : α) : Decidable (always s a) := .isTrue trivial

/-- The states reached by actions that `ok` allows where they are taken. -/
inductive Reach (ok : σ → α → Prop) (s : σ) : σ → Prop
  | refl : Reach ok s s
  | step {t u : σ} {a : α} : Reach ok s t → ok t a → M.step t a = some u → Reach ok s u

variable {M} {ok ok' : σ → α → Prop} {s t u : σ}

theorem Reach.trans (h : M.Reach ok s t) (h' : M.Reach ok t u) : M.Reach ok s u := by
  induction h' with
  | refl => exact h
  | step _ hok hstep ih => exact ih.step hok hstep

theorem Reach.mono (h : M.Reach ok s t) (hok : ∀ v a, ok v a → ok' v a) : M.Reach ok' s t := by
  induction h with
  | refl => exact .refl
  | step _ ha hstep ih => exact ih.step (hok _ _ ha) hstep

/-- What every allowed action keeps holds in every state reached. -/
theorem Reach.invariant {I : σ → Prop} (h : M.Reach ok s t) (h0 : I s)
    (hstep : ∀ {v a w}, I v → ok v a → M.step v a = some w → I w) : I t := by
  induction h with
  | refl => exact h0
  | step _ hok hs ih => exact hstep ih hok hs

/-! ## Properties of every action of a run -/

variable (M) in
/-- `P` holds of each action of a list, in the state where it is taken. A refused action ends the run. -/
def Along (P : σ → α → Prop) : σ → List α → Prop
  | _, [] => True
  | s, a :: as => P s a ∧ ∀ t, M.step s a = some t → Along P t as

theorem along_congr {P Q : σ → α → Prop} :
    ∀ {as : List α} {s : σ}, (∀ v, ∀ a ∈ as, P v a ↔ Q v a) → (M.Along P s as ↔ M.Along Q s as)
  | [], _, _ => Iff.rfl
  | a :: as, s, h => by
    have hrest : ∀ t, M.Along P t as ↔ M.Along Q t as := fun t =>
      along_congr fun v b hb => h v b (List.mem_cons_of_mem a hb)
    simp only [Along, h s a List.mem_cons_self, hrest]

instance decidableAlong {P : σ → α → Prop} [∀ v a, Decidable (P v a)] :
    (s : σ) → (as : List α) → Decidable (M.Along P s as)
  | _, [] => .isTrue trivial
  | s, a :: as =>
    match h : M.step s a with
    | none => decidable_of_iff (P s a) (by simp [Along, h])
    | some t =>
      have := decidableAlong (P := P) t as
      decidable_of_iff (P s a ∧ M.Along P t as) (by simp [Along, h])

/-! ## Runs on concrete data -/

variable (M) in
/-- The state after a list of actions, if none is refused or disallowed. -/
def play (ok : σ → α → Bool) : σ → List α → Option σ
  | s, [] => some s
  | s, a :: as => if ok s a = true then (M.step s a).bind fun t => play ok t as else none

theorem reach_of_play {test : σ → α → Bool} (htest : ∀ v a, test v a = true → ok v a) :
    ∀ {as : List α} {s : σ}, M.play test s as = some t → M.Reach ok s t
  | [], s, h => by
    cases h
    exact .refl
  | a :: as, s, h => by
    unfold play at h
    split at h
    · rename_i hok
      obtain ⟨v, hv, hrest⟩ := Option.bind_eq_some_iff.mp h
      exact Reach.trans (Reach.refl.step (htest s a hok) hv) (reach_of_play htest hrest)
    · cases h

section

variable [∀ v a, Decidable (ok v a)] {P Q : σ → Prop} [DecidablePred P] (as : List α)
  (h : (M.play (fun v a => ok v a) s as).any (fun t => P t) = true)
include h

/-- A run found by evaluation, and what can be decided in its last state. -/
theorem exists_reach_of_play : ∃ t, M.Reach ok s t ∧ P t := by
  obtain ⟨t, hplay, hP⟩ := Option.any_eq_true .. |>.mp h
  exact ⟨t, reach_of_play (fun _ _ => of_decide_eq_true) hplay, of_decide_eq_true hP⟩

theorem exists_reach_imp (hQ : ∀ t, M.Reach ok s t → P t → Q t) : ∃ t, M.Reach ok s t ∧ Q t := by
  obtain ⟨t, ht, hP⟩ := exists_reach_of_play as h
  exact ⟨t, ht, hQ t ht hP⟩

end

end Machine

end Infra
