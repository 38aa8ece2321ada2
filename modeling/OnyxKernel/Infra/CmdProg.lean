import OnyxKernel.Infra.StateProg

/-!
# Programs over a set of commands

A driver's operations touch the device only through a few primitives. `CmdProg C R ε α` is the tree
of primitive calls such an operation can make: `C` is the type of commands and `R c` the type of
what command `c` answers.

An error of a command ends the program, as the `?` operator does; `call` carries the translation
that code around the command makes of its error.

A handler gives every command a meaning, and `run` the whole program one. What every command of the
handler preserves, every program preserves (`keeps_run`).
-/

namespace Infra

/-- Trees of command calls, with a value or an error at the leaves. -/
inductive CmdProg (C : Type) (R : C → Type) (ε α : Type) : Type
  | ret (a : α)
  | fail (e : ε)
  | call (c : C) (onError : ε → ε) (k : R c → CmdProg C R ε α)

namespace CmdProg

variable {C : Type} {R : C → Type} {σ ε α β : Type}

def bind : CmdProg C R ε α → (α → CmdProg C R ε β) → CmdProg C R ε β
  | ret a, f => f a
  | fail e, _ => fail e
  | call c g k, f => call c g fun r => (k r).bind f

instance : Monad (CmdProg C R ε) where
  pure := ret
  bind := bind

def cmd (c : C) : CmdProg C R ε (R c) := call c id ret

def onlyIf (c : Prop) [Decidable c] (p : CmdProg C R ε Unit) : CmdProg C R ε Unit :=
  if c then p else ret ()

def mapError (g : ε → ε) : CmdProg C R ε α → CmdProg C R ε α
  | ret a => ret a
  | fail e => fail (g e)
  | call c g' k => call c (g ∘ g') fun r => (k r).mapError g

def forUpTo : (n i : Nat) → (Nat → CmdProg C R ε Unit) → CmdProg C R ε Unit
  | 0, _, _ => ret ()
  | n + 1, i, body => body i >>= fun _ => forUpTo n (i + 1) body

def findUpTo : (n i : Nat) → (Nat → CmdProg C R ε (Option α)) → CmdProg C R ε (Option α)
  | 0, _, _ => ret none
  | n + 1, i, body => body i >>= fun r =>
    match r with
    | some a => ret (some a)
    | none => findUpTo n (i + 1) body

/-! ## Meaning -/

/-- The meaning of a program when `h` is the meaning of each command. -/
def run (h : (c : C) → StateProg σ ε (R c)) : CmdProg C R ε α → StateProg σ ε α
  | ret a => StateProg.ret a
  | fail e => StateProg.fail e
  | call c g k => StateProg.mapError g (h c) >>= fun r => run h (k r)

variable {h : (c : C) → StateProg σ ε (R c)}

theorem run_onlyIf (c : Prop) [Decidable c] (p : CmdProg C R ε Unit) :
    run h (onlyIf c p) = StateProg.onlyIf c (run h p) := by
  unfold onlyIf StateProg.onlyIf
  split <;> rfl

theorem run_bind (p : CmdProg C R ε α) (f : α → CmdProg C R ε β) :
    run h (p >>= f) = run h p >>= fun a => run h (f a) := by
  induction p with
  | ret a | fail e => rfl
  | call c g k ih =>
    refine StateProg.ext_run fun s => ?_
    show (StateProg.bind _ _).run s = (StateProg.bind (StateProg.bind _ _) _).run s
    unfold StateProg.bind
    simp only
    cases hc : (StateProg.mapError g (h c)).run s with
    | mk r s' =>
      cases r with
      | error e => rfl
      | ok a => exact congrArg (fun q => StateProg.run q s') (ih a)

theorem run_one (c : C) : run h (cmd c : CmdProg C R ε (R c)) = h c := by
  refine StateProg.ext_run fun s => ?_
  show (StateProg.bind (StateProg.mapError id (h c)) _).run s = _
  simp only [StateProg.bind, StateProg.mapError]
  cases hc : (h c).run s with
  | mk r s' => cases r <;> rfl

theorem run_mapError (g : ε → ε) (p : CmdProg C R ε α) :
    run h (mapError g p) = StateProg.mapError g (run h p) := by
  induction p with
  | ret a | fail e => rfl
  | call c g' k ih =>
    refine StateProg.ext_run fun s => ?_
    show (StateProg.bind (StateProg.mapError (g ∘ g') (h c)) fun r => run h ((k r).mapError g)).run s
      = (StateProg.mapError g (StateProg.bind (StateProg.mapError g' (h c)) fun r => run h (k r))).run s
    simp only [ih, StateProg.bind, StateProg.mapError]
    cases hc : (h c).run s with
    | mk r s' => cases r <;> rfl

theorem run_forUpTo (body : Nat → CmdProg C R ε Unit) :
    ∀ n i, run h (forUpTo n i body) = StateProg.forUpTo n i fun j => run h (body j)
  | 0, _ => rfl
  | n + 1, i => by
    rw [forUpTo, run_bind, StateProg.forUpTo]
    simp only [run_forUpTo body n (i + 1)]

theorem run_findUpTo (body : Nat → CmdProg C R ε (Option α)) :
    ∀ n i, run h (findUpTo n i body) = StateProg.findUpTo n i fun j => run h (body j)
  | 0, _ => rfl
  | n + 1, i => by
    rw [findUpTo, run_bind, StateProg.findUpTo]
    congr 1
    funext r
    cases r with
    | some a => rfl
    | none => exact run_findUpTo body n (i + 1)

/-! ## What the commands of a program allow -/

/-- Every command the program can call satisfies `P`. -/
def Within (P : C → Prop) : CmdProg C R ε α → Prop
  | ret _ => True
  | fail _ => True
  | call c _ k => P c ∧ ∀ r, (k r).Within P

variable {P : C → Prop} {p : CmdProg C R ε α} {f : α → CmdProg C R ε β}

theorem within_cmd {c : C} (hc : P c) : (cmd c : CmdProg C R ε (R c)).Within P := ⟨hc, fun _ => trivial⟩

theorem Within.bind (hp : p.Within P) (hf : ∀ a, (f a).Within P) : (p >>= f).Within P := by
  induction p with
  | ret a => exact hf a
  | fail e => exact trivial
  | call c g k ih => exact ⟨hp.1, fun r => ih r (hp.2 r)⟩

theorem within_findUpTo {body : Nat → CmdProg C R ε (Option α)} (hb : ∀ j, (body j).Within P) :
    ∀ n i, (findUpTo n i body).Within P
  | 0, _ => trivial
  | n + 1, i => (hb i).bind fun r => by
    cases r with
    | some a => exact trivial
    | none => exact within_findUpTo hb n (i + 1)

/-- What every command in `P` preserves, every program over `P` preserves; `E` is what is left when
a command fails. -/
theorem Within.wp_run {I E : σ → Prop} (hp : p.Within P) (hIE : ∀ s, I s → E s)
    (hc : ∀ c, P c → ∀ s, I s → StateProg.wp (h c) (fun _ => I) (fun _ => E) s) {s : σ} (hs : I s) :
    StateProg.wp (run h p) (fun _ => I) (fun _ => E) s := by
  induction p generalizing s with
  | ret a => exact hs
  | fail e => exact hIE s hs
  | call c g k ih =>
    refine StateProg.wp_then (StateProg.wp_mapError.mpr (hc c hp.1 s hs)) fun r s' hs' => ?_
    exact ih r (hp.2 r) hs'

theorem within_true (p : CmdProg C R ε α) : p.Within fun _ => True := by
  induction p with
  | ret a | fail e => exact trivial
  | call c g k ih => exact ⟨trivial, ih⟩

theorem keeps_run {I : σ → Prop} (hc : ∀ c, StateProg.Keeps I (h c)) (p : CmdProg C R ε α) :
    StateProg.Keeps I (run h p) := fun _ hs =>
  (within_true p).wp_run (fun _ h => h) (fun c _ => hc c) hs

end CmdProg

end Infra
