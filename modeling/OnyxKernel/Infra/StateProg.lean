import Mathlib.Logic.Basic

/-!
# Programs with state and an error exit

`StateProg σ ε α` is kernel code that works on a state `σ` and returns `Ok a` or `Err e`. The state
is kept on both exits: an early `?` return leaves every change made before it in place.

`wp p Q E s` says that running `p` from `s` ends in `Q` if it returns a value and in `E` if it
returns an error. Proofs about a function go through `wp_seq` with the specification of each callee,
so a callee is never unfolded twice. The loops `forUpTo` and `findUpTo` have an invariant rule each.
-/

namespace Infra

/-- A program over the state `σ` that returns `α` or fails with `ε`. -/
structure StateProg (σ ε α : Type) where
  run : σ → Except ε α × σ

namespace StateProg

variable {σ ε α β : Type}

def ret (a : α) : StateProg σ ε α where
  run s := (.ok a, s)

def bind (p : StateProg σ ε α) (f : α → StateProg σ ε β) : StateProg σ ε β where
  run s := match p.run s with
    | (.ok a, s') => (f a).run s'
    | (.error e, s') => (.error e, s')

instance : Monad (StateProg σ ε) where
  pure := ret
  bind := bind

def fail (e : ε) : StateProg σ ε α where
  run s := (.error e, s)

def get : StateProg σ ε σ where
  run s := (.ok s, s)

def gets (f : σ → α) : StateProg σ ε α where
  run s := (.ok (f s), s)

def modify (f : σ → σ) : StateProg σ ε Unit where
  run s := (.ok (), f s)

def guard (c : Bool) (e : ε) : StateProg σ ε Unit := if c then ret () else fail e

def onlyIf (c : Prop) [Decidable c] (p : StateProg σ ε Unit) : StateProg σ ε Unit :=
  if c then p else ret ()

def mapError (g : ε → ε) (p : StateProg σ ε α) : StateProg σ ε α where
  run s := match p.run s with
    | (.ok a, s') => (.ok a, s')
    | (.error e, s') => (.error (g e), s')

/-- The program, with `c` run before an error is returned. -/
def onError (p : StateProg σ ε α) (c : StateProg σ ε Unit) : StateProg σ ε α where
  run s := match p.run s with
    | (.ok a, s') => (.ok a, s')
    | (.error e, s') => (.error e, (c.run s').2)

/-- The program `q` if `p` fails, from where `p` stopped. -/
def orElse (p q : StateProg σ ε α) : StateProg σ ε α where
  run s := match p.run s with
    | (.ok a, s') => (.ok a, s')
    | (.error _, s') => q.run s'

/-- The body for each of `n` consecutive indices from `i` on, stopping at the first error. -/
def forUpTo : (n i : Nat) → (Nat → StateProg σ ε Unit) → StateProg σ ε Unit
  | 0, _, _ => ret ()
  | n + 1, i, body => body i >>= fun _ => forUpTo n (i + 1) body

/-- The first result among `n` consecutive indices from `i` on. -/
def findUpTo : (n i : Nat) → (Nat → StateProg σ ε (Option α)) → StateProg σ ε (Option α)
  | 0, _, _ => ret none
  | n + 1, i, body => body i >>= fun r =>
    match r with
    | some a => ret (some a)
    | none => findUpTo n (i + 1) body

theorem ext_run {p q : StateProg σ ε α} (h : ∀ s, p.run s = q.run s) : p = q := by
  cases p
  cases q
  congr 1
  funext s
  exact h s

/-! ## Weakest preconditions -/

/-- Running `p` from `s` ends in `Q` on a value and in `E` on an error. -/
def wp (p : StateProg σ ε α) (Q : α → σ → Prop) (E : ε → σ → Prop) (s : σ) : Prop :=
  match p.run s with
  | (.ok a, s') => Q a s'
  | (.error e, s') => E e s'

variable {p : StateProg σ ε α} {f : α → StateProg σ ε β} {s : σ}
variable {Q Q' : α → σ → Prop} {E E' : ε → σ → Prop}
    {R : β → σ → Prop} {s' : σ} {a : α} {e : ε} {q : StateProg σ ε α}

theorem wp_of_run_ok (h : p.run s = (.ok a, s')) (hq : Q a s') : wp p Q E s := by
  simp only [wp, h]
  exact hq

theorem wp_of_run_error (h : p.run s = (.error e, s')) (he : E e s') : wp p Q E s := by
  simp only [wp, h]
  exact he

theorem wp.ok (h : wp p Q E s) (hr : p.run s = (.ok a, s')) : Q a s' := by
  simpa only [wp, hr] using h

/-- What a specification says about a run that returned an error. -/
theorem wp.error (h : wp p Q E s) (hr : p.run s = (.error e, s')) : E e s' := by
  simpa only [wp, hr] using h

theorem wp.returned (h : wp p Q (fun _ _ => False) s) : ∃ a s', p.run s = (.ok a, s') ∧ Q a s' := by
  unfold wp at h
  split at h
  · rename_i a s' hr
    exact ⟨a, s', hr, h⟩
  · exact h.elim

theorem wp_mono (h : wp p Q E s) (hq : ∀ a s', Q a s' → Q' a s') (he : ∀ e s', E e s' → E' e s') :
    wp p Q' E' s := by
  unfold wp at h ⊢
  split at h
  · exact hq _ _ h
  · exact he _ _ h

theorem wp_imp (h : wp p Q E s) (hq : ∀ a s', Q a s' → Q' a s') : wp p Q' E s := wp_mono h hq fun _ _ he => he

theorem wp_and (h : wp p Q E s) (h' : wp p Q' E' s) :
    wp p (fun a t => Q a t ∧ Q' a t) (fun e t => E e t ∧ E' e t) s := by
  unfold wp at h h' ⊢
  split <;> simp_all

@[simp] theorem wp_pure (a : α) : wp (pure a : StateProg σ ε α) Q E s ↔ Q a s := Iff.rfl

@[simp] theorem wp_ret (a : α) : wp (ret a : StateProg σ ε α) Q E s ↔ Q a s := Iff.rfl

@[simp] theorem wp_get {Q : σ → σ → Prop} : wp (get : StateProg σ ε σ) Q E s ↔ Q s s := Iff.rfl

@[simp] theorem wp_gets (g : σ → α) : wp (gets g : StateProg σ ε α) Q E s ↔ Q (g s) s := Iff.rfl

@[simp] theorem wp_modify (g : σ → σ) {Q : Unit → σ → Prop} :
    wp (modify g : StateProg σ ε Unit) Q E s ↔ Q () (g s) := Iff.rfl

theorem run_bind_ok (h : p.run s = (.ok a, s')) : (p >>= f).run s = (f a).run s' := by
  show (bind p f).run s = _
  simp only [bind, h]

theorem run_bind_error (h : p.run s = (.error e, s')) : (p >>= f).run s = (.error e, s') := by
  show (bind p f).run s = _
  simp only [bind, h]

theorem run_orElse_ok (h : p.run s = (.ok a, s')) : (orElse p q).run s = (.ok a, s') := by
  simp only [orElse, h]

theorem run_of_toOption (h : (p.run s).1.toOption = some a) : p.run s = (.ok a, (p.run s).2) := by
  generalize p.run s = r at h
  obtain ⟨res, t⟩ := r
  cases res with
  | error e => cases h
  | ok b =>
    obtain rfl : b = a := Option.some.inj h
    rfl

theorem wp_bind : wp (p >>= f) R E s ↔ wp p (fun a => wp (f a) R E) E s := by
  show wp (bind p f) R E s ↔ _
  simp only [wp, bind]
  cases hp : p.run s with
  | mk r s' => cases r <;> rfl

/-- Sequencing: the specification of the first part, then the rest from every state it allows. -/
theorem wp_seq (h : wp p Q E' s) (hq : ∀ a s', Q a s' → wp (f a) R E s')
    (he : ∀ e s', E' e s' → E e s') : wp (p >>= f) R E s :=
  wp_bind.mpr (wp_mono h hq he)

/-- Sequencing of parts that leave the same after an error. -/
theorem wp_then (h : wp p Q E s) (hq : ∀ a s', Q a s' → wp (f a) R E s') : wp (p >>= f) R E s :=
  wp_seq h hq fun _ _ he => he

theorem wp_guard {c : Bool} {Q : Unit → σ → Prop} (hq : c = true → Q () s)
    (he : c = false → E e s) : wp (guard c e : StateProg σ ε Unit) Q E s := by
  cases c with
  | true => exact hq rfl
  | false => exact he rfl

theorem wp_onlyIf {c : Prop} [Decidable c] {p : StateProg σ ε Unit} {Q : Unit → σ → Prop}
    (hp : c → wp p Q E s) (hn : ¬ c → Q () s) : wp (onlyIf c p) Q E s := by
  unfold onlyIf
  split
  · exact hp ‹_›
  · exact hn ‹_›

theorem wp_mapError {g : ε → ε} : wp (mapError g p) Q E s ↔ wp p Q (fun e => E (g e)) s := by
  simp only [wp, mapError]
  cases hp : p.run s with
  | mk r s' => cases r <;> rfl

theorem wp_onError {c : StateProg σ ε Unit}
    (h : wp p Q (fun e t => wp c (fun _ => E e) (fun _ => E e) t) s) : wp (onError p c) Q E s := by
  simp only [wp, onError] at h ⊢
  cases hp : p.run s with
  | mk r s' =>
    cases r with
    | ok a => simpa only [hp] using h
    | error e =>
      simp only [hp] at h ⊢
      cases hc : c.run s' with
      | mk r' t => cases r' <;> simpa only [hc] using h

theorem wp_orElse (h : wp p Q (fun _ t => wp q Q E t) s) : wp (orElse p q) Q E s := by
  simp only [wp, orElse] at h ⊢
  cases hp : p.run s with
  | mk r s' => cases r <;> simpa only [hp] using h

/-- Invariant rule: `I j` holds before the iteration with index `j`. -/
theorem wp_forUpTo {body : Nat → StateProg σ ε Unit} (I : Nat → σ → Prop) :
    ∀ (n i : Nat) (s : σ), I i s →
      (∀ j t, i ≤ j → j < i + n → I j t → wp (body j) (fun _ => I (j + 1)) E t) →
      wp (forUpTo n i body) (fun _ => I (i + n)) E s
  | 0, _, _, h0, _ => h0
  | n + 1, i, s, h0, hstep => by
    refine wp_then (hstep i s (Nat.le_refl i) (by omega) h0) fun _ s' hs => ?_
    have hrest := wp_forUpTo I n (i + 1) s' hs fun j t h1 h2 => hstep j t (by omega) (by omega)
    rwa [Nat.add_right_comm] at hrest

/-- Invariant rule of a search: `I j` holds as long as the indices below `j` gave nothing. -/
theorem wp_findUpTo {body : Nat → StateProg σ ε (Option α)} (I : Nat → σ → Prop)
    {Q : Option α → σ → Prop} :
    ∀ (n i : Nat) (s : σ), I i s →
      (∀ j t, i ≤ j → j < i + n → I j t →
        wp (body j) (fun r t' => match r with
          | some a => Q (some a) t'
          | none => I (j + 1) t') E t) →
      (∀ t, I (i + n) t → Q none t) →
      wp (findUpTo n i body) Q E s
  | 0, _, s, h0, _, hend => hend s h0
  | n + 1, i, s, h0, hstep, hend => by
    refine wp_then (hstep i s (Nat.le_refl i) (by omega) h0) fun r s' hs => ?_
    cases r with
    | some a => exact hs
    | none =>
      refine wp_findUpTo I n (i + 1) s' hs (fun j t h1 h2 => hstep j t (by omega) (by omega)) ?_
      intro t ht
      rw [Nat.add_right_comm] at ht
      exact hend t ht

/-! ## Cleaning up after an error -/

theorem onError_bind (p : StateProg σ ε α) (f : α → StateProg σ ε β) (c : StateProg σ ε Unit) :
    onError (p >>= f) c = onError p c >>= fun a => onError (f a) c := by
  refine ext_run fun s => ?_
  show (onError (bind p f) c).run s = (bind (onError p c) fun a => onError (f a) c).run s
  cases hp : p.run s with
  | mk r t => cases r <;> simp only [onError, bind, hp]

/-- Two clean-ups run one after the other, if the first one does not fail. -/
theorem onError_onError (p : StateProg σ ε α) {c d : StateProg σ ε Unit}
    (hc : ∀ s, (c.run s).1 = .ok ()) : onError (onError p c) d = onError p (c >>= fun _ => d) := by
  refine ext_run fun s => ?_
  show _ = (onError p (bind c fun _ => d)).run s
  cases hp : p.run s with
  | mk r t =>
    cases r with
    | ok a => simp only [onError, hp]
    | error e =>
      have hrun : c.run t = (.ok (), (c.run t).2) := Prod.ext (hc t) rfl
      simp only [onError, hp, bind]
      rw [hrun]

/-! ## Invariants -/

/-- Nothing that `p` does falsifies `I`, whether it returns or fails. -/
def Keeps (I : σ → Prop) (p : StateProg σ ε α) : Prop := ∀ s, I s → wp p (fun _ => I) (fun _ => I) s

end StateProg

end Infra
