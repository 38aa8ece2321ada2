import Mathlib.Data.List.Induction
import Mathlib.Logic.Basic

/-!
# Radix trees in memory

A radix tree is kept in frames of memory: an entry of a table is empty, points to the table one level
down, or is a leaf. `descend` follows a path of indices to a table and `find` to the leaf that covers
it, with the part of the path that the leaf leaves open.

An entry may also *hold* a frame: the table it points to, or a page that belongs to it. `Tree` says
that every frame is held from at most one place and that the frames of the tree are `mine`. Under it
a change of one entry is local: `descend` and `find` change below that entry only.
-/

namespace Infra

open List Option

/-- What an entry of a table is. -/
inductive Kind (F : Type)
  | empty
  | table (f : F)
  | leaf
  deriving DecidableEq

/-- How entries `E` are read: indices `I` select an entry of a table in a frame `F`. -/
structure Radix (F I E : Type) where
  kind : E → Kind F
  depth : Nat

namespace Radix

variable {F I E : Type} (R : Radix F I E)

/-- The frames that entries hold, by the number of steps from the root to their table. -/
structure Holding where
  held : Nat → E → Option F
  held_table : ∀ {n : Nat} {e : E} {f : F}, R.kind e = .table f → n + 1 < R.depth → held n e = some f

def next (e : E) : Option F :=
  match R.kind e with
  | .table f => some f
  | _ => none

def descend (M : F → I → E) : F → List I → Option F
  | r, [] => some r
  | r, i :: p => (R.next (M r i)).bind fun f => descend M f p

def find (M : F → I → E) : F → List I → Option (E × List I)
  | _, [] => none
  | r, i :: p =>
    match R.kind (M r i) with
    | .empty => none
    | .table f => find M f p
    | .leaf => some (M r i, p)

/-- The frame held by entry `i` of the table at path `p`. -/
def ref (H : R.Holding) (M : F → I → E) (r : F) (p : List I) (i : I) : Option F :=
  if p.length < R.depth then (R.descend M r p).bind fun t => H.held p.length (M t i) else none

def IsTable (M : F → I → E) (r t : F) : Prop := ∃ p, p.length < R.depth ∧ R.descend M r p = some t

/-- Every frame of the tree is held from one place, the root from none, and all are `mine`. -/
structure Tree (H : R.Holding) (M : F → I → E) (r : F) (mine : F → Prop) : Prop where
  root : mine r
  apart : ∀ {p : List I} {i : I}, R.ref H M r p i ≠ some r
  inj : ∀ {p q : List I} {i j : I} {f : F}, R.ref H M r p i = some f → R.ref H M r q j = some f →
    p = q ∧ i = j
  mine_of_ref : ∀ {p : List I} {i : I} {f : F}, R.ref H M r p i = some f → mine f

/-- Every frame that is `mine` is the root or held by the tree. -/
def Full (H : R.Holding) (M : F → I → E) (r : F) (mine : F → Prop) : Prop :=
  ∀ f, mine f → f = r ∨ ∃ p i, R.ref H M r p i = some f

variable {R} {H : R.Holding} {M M' : F → I → E} {r t : F} {mine mine' : F → Prop} {p q : List I} {i : I}

theorem next_eq_some {e : E} {f : F} : R.next e = some f ↔ R.kind e = .table f := by
  unfold next
  cases h : R.kind e <;> simp

theorem next_of_empty {e : E} (h : R.kind e = .empty) : R.next e = none := by rw [next, h]

theorem next_of_leaf {e : E} (h : R.kind e = .leaf) : R.next e = none := by rw [next, h]

theorem descend_append (p q : List I) (r : F) :
    R.descend M r (p ++ q) = (R.descend M r p).bind fun t => R.descend M t q := by
  induction p generalizing r with
  | nil => rfl
  | cons i p ih =>
    rw [cons_append, descend, descend, bind_assoc]
    congr 1
    funext f
    exact ih f

theorem descend_concat (p : List I) (i : I) (r : F) :
    R.descend M r (p ++ [i]) = (R.descend M r p).bind fun t => R.next (M t i) := by
  rw [descend_append]
  congr 1
  funext t
  simp [descend]

/-- No path to a table goes through an entry that points to none. -/
theorem not_extends (hp : R.descend M r p = some t) (hnext : R.next (M t i) = none) {u : F}
    (hu : R.descend M r q = some u) : ¬ (p ++ [i]) <+: q := by
  rintro ⟨q', rfl⟩
  rw [append_assoc, descend_append, hp, bind_some, singleton_append, descend, hnext] at hu
  cases hu

theorem find_cons_empty (h : R.kind (M r i) = .empty) (q : List I) : R.find M r (i :: q) = none := by
  rw [find, h]

theorem find_cons_table {f : F} (h : R.kind (M r i) = .table f) (q : List I) : R.find M r (i :: q) = R.find M f q := by
  rw [find, h]

theorem find_cons_leaf (h : R.kind (M r i) = .leaf) (q : List I) : R.find M r (i :: q) = some (M r i, q) := by
  rw [find, h]

theorem find_append (hp : R.descend M r p = some t) (q : List I) : R.find M r (p ++ q) = R.find M t q := by
  induction p generalizing r with
  | nil =>
    obtain rfl : r = t := by simpa [descend] using hp
    rfl
  | cons i p ih =>
    obtain ⟨f, hf, hp⟩ := bind_eq_some_iff.mp hp
    rw [cons_append, find_cons_table (next_eq_some.mp hf)]
    exact ih hp

theorem ref_eq (hlen : p.length < R.depth) (hp : R.descend M r p = some t) (i : I) :
    R.ref H M r p i = H.held p.length (M t i) := by
  rw [ref, if_pos hlen, hp, bind_some]

theorem ref_eq_some {f : F} : R.ref H M r p i = some f ↔
    p.length < R.depth ∧ ∃ t, R.descend M r p = some t ∧ H.held p.length (M t i) = some f := by
  unfold ref
  split
  · rename_i h
    rw [bind_eq_some_iff]
    exact ⟨fun ht => ⟨h, ht⟩, fun ht => ht.2⟩
  · rename_i h
    exact ⟨nofun, fun ht => absurd ht.1 h⟩

/-- A table below the root is held by the entry that points to it. -/
theorem ref_of_descend (hlen : p.length + 1 < R.depth) (hp : R.descend M r (p ++ [i]) = some t) :
    R.ref H M r p i = some t := by
  rw [descend_concat] at hp
  obtain ⟨u, hu, hnext⟩ := bind_eq_some_iff.mp hp
  rw [ref_eq (by omega) hu]
  exact H.held_table (next_eq_some.mp hnext) hlen

/-! ## Trees that agree along a path -/

/-- The entries met along a path from `r` are the same in both memories. -/
def Agree (R : Radix F I E) (M M' : F → I → E) (r : F) (q : List I) : Prop :=
  ∀ q₁ j q₂ u, q = q₁ ++ j :: q₂ → R.descend M r q₁ = some u → M' u j = M u j

theorem Agree.left {q' : List I} (h : R.Agree M M' r (q ++ q')) : R.Agree M M' r q := by
  rintro q₁ j q₂ u rfl hu
  exact h q₁ j (q₂ ++ q') u (by rw [append_assoc, cons_append]) hu

theorem Agree.descend (h : R.Agree M M' r q) : R.descend M' r q = R.descend M r q := by
  induction q using reverseRecOn with
  | nil => rfl
  | append_singleton q j ih =>
    rw [descend_concat, descend_concat, ih h.left]
    cases hu : R.descend M r q with
    | none => rfl
    | some u =>
      simp only [bind_some]
      rw [h q j [] u rfl hu]

theorem Agree.find (h : R.Agree M M' r q) : R.find M' r q = R.find M r q := by
  -- Induction on the part of the path below the table `u` that both trees have reached.
  have key : ∀ (q₂ q₁ : List I) (u : F), q = q₁ ++ q₂ → R.descend M r q₁ = some u →
      R.find M' u q₂ = R.find M u q₂ := by
    intro q₂
    induction q₂ with
    | nil => intro _ _ _ _; rfl
    | cons j q₂ ih =>
      intro q₁ u hsplit hu
      rw [Radix.find, Radix.find, h q₁ j q₂ u hsplit hu]
      cases hk : R.kind (M u j) with
      | empty | leaf => rfl
      | table f =>
        refine ih (q₁ ++ [j]) f (by rw [hsplit, append_cons]) ?_
        rw [descend_concat, hu, bind_some, next_eq_some.mpr hk]
  exact key q [] r rfl rfl

/-! ## Tables of a tree -/

section

variable (h : R.Tree H M r mine)
include h

theorem Tree.mine_of_descend (hlen : p.length < R.depth) (hp : R.descend M r p = some t) : mine t := by
  rcases eq_nil_or_concat p with rfl | ⟨p, i, rfl⟩
  · obtain rfl : r = t := by simpa [descend] using hp
    exact h.root
  · rw [length_concat] at hlen
    rw [concat_eq_append] at hp
    exact h.mine_of_ref (ref_of_descend hlen hp)

theorem Tree.mine_of_isTable (ht : R.IsTable M r t) : mine t := by
  obtain ⟨p, hlen, hp⟩ := ht
  exact h.mine_of_descend hlen hp

theorem Tree.unshared (hp : p.length < R.depth) (hq : q.length < R.depth)
    (hpt : R.descend M r p = some t) (hqt : R.descend M r q = some t) : p = q := by
  rcases eq_nil_or_concat p with rfl | ⟨p, i, rfl⟩ <;>
    rcases eq_nil_or_concat q with rfl | ⟨q, j, rfl⟩
  · rfl
  · obtain rfl : r = t := by simpa [descend] using hpt
    rw [length_concat] at hq
    rw [concat_eq_append] at hqt
    exact absurd (ref_of_descend hq hqt) h.apart
  · obtain rfl : r = t := by simpa [descend] using hqt
    rw [length_concat] at hp
    rw [concat_eq_append] at hpt
    exact absurd (ref_of_descend hp hpt) h.apart
  · rw [length_concat] at hp hq
    rw [concat_eq_append] at hpt hqt
    obtain ⟨rfl, rfl⟩ := h.inj (ref_of_descend hp hpt) (ref_of_descend hq hqt)
    rfl

theorem Tree.not_isTable_of_ref {f : F} (hlen : p.length + 1 = R.depth)
    (hf : R.ref H M r p i = some f) : ¬ R.IsTable M r f := by
  rintro ⟨q, hq, hqf⟩
  rcases eq_nil_or_concat q with rfl | ⟨q, j, rfl⟩
  · obtain rfl : r = f := by simpa [descend] using hqf
    exact h.apart hf
  · rw [length_concat] at hq
    rw [concat_eq_append] at hqf
    obtain ⟨rfl, -⟩ := h.inj hf (ref_of_descend hq hqf)
    omega

/-! ## Changing one entry -/

/-- Among the entries of tables, only entry `i` of table `t` may differ. -/
def SameBut (R : Radix F I E) (M M' : F → I → E) (r t : F) (i : I) : Prop :=
  ∀ u, R.IsTable M r u → ∀ j, (u = t → j ≠ i) → M' u j = M u j

omit h in
theorem not_extends_self (p : List I) (i : I) : ¬ (p ++ [i]) <+: p := fun h => by
  have hle := h.length_le
  rw [length_append, length_singleton] at hle
  omega

/-- The table that the new entry points to, if any, is fresh and its entries hold nothing. -/
def Bare (R : Radix F I E) (H : R.Holding) (M' : F → I → E) (n : Nat) (e : E) : Prop :=
  n + 1 < R.depth → ∀ f, R.next e = some f → ∀ j, R.next (M' f j) = none ∧ H.held (n + 1) (M' f j) = none

section Entry

variable (hs : R.SameBut M M' r t i) (hlen : p.length < R.depth) (hp : R.descend M r p = some t)
include hs hlen hp

theorem Tree.same_entry {u : F} {j : I} (hq : q.length < R.depth) (hu : R.descend M r q = some u)
    (hne : ¬ (p ++ [i]) <+: (q ++ [j])) : M' u j = M u j := by
  refine hs u ⟨q, hq, hu⟩ j ?_
  rintro rfl rfl
  obtain rfl := h.unshared hlen hq hp hu
  exact hne prefix_rfl

/-- An entry that is not below the changed one is that one, or it is as it was. -/
theorem Tree.entry_cases {u : F} (hq : q.length < R.depth) (hu : R.descend M r q = some u)
    (hpre : ¬ (p ++ [i]) <+: q) (j : I) : q = p ∧ j = i ∨ (q = p → j ≠ i) ∧ M' u j = M u j := by
  by_cases hslot : q = p ∧ j = i
  · exact .inl hslot
  · refine .inr ⟨fun he hj => hslot ⟨he, hj⟩, h.same_entry hs hlen hp hq hu fun hc => ?_⟩
    rcases prefix_concat_iff.mp hc with he | he
    · obtain ⟨rfl, hij⟩ := append_inj' he rfl
      exact hslot ⟨rfl, (singleton_inj.mp hij).symm⟩
    · exact hpre he

theorem Tree.agree (hq : q.length ≤ R.depth) (hne : ¬ (p ++ [i]) <+: q) : R.Agree M M' r q := by
  rintro q₁ j q₂ u rfl hu
  rw [length_append, length_cons] at hq
  have hsplit : q₁ ++ j :: q₂ = (q₁ ++ [j]) ++ q₂ := append_cons ..
  refine h.same_entry hs hlen hp (by omega) hu fun hpre => hne ?_
  rw [hsplit]
  exact hpre.trans (prefix_append _ _)

theorem Tree.descend_same (hq : q.length ≤ R.depth) (hne : ¬ (p ++ [i]) <+: q) :
    R.descend M' r q = R.descend M r q :=
  (h.agree hs hlen hp hq hne).descend

theorem Tree.descend_table : R.descend M' r p = some t := by
  rw [h.descend_same hs hlen hp (by omega) (not_extends_self p i), hp]

theorem Tree.descend_below (q : List I) :
    R.descend M' r (p ++ i :: q) = (R.next (M' t i)).bind fun f => R.descend M' f q := by
  rw [descend_append, h.descend_table hs hlen hp, bind_some, descend]

theorem Tree.find_below (q : List I) : R.find M' r (p ++ i :: q) = R.find M' t (i :: q) :=
  find_append (h.descend_table hs hlen hp) _

/-- A path that does not go through the entry finds what it found before. -/
theorem Tree.find_same (hq : q.length ≤ R.depth) (hne : ¬ (p ++ [i]) <+: q) : R.find M' r q = R.find M r q :=
  (h.agree hs hlen hp hq hne).find

theorem Tree.ref_rewrite (hbare : R.Bare H M' p.length (M' t i)) {j : I} {f : F} (hf : R.ref H M' r q j = some f) :
    (q = p ∧ j = i ∧ H.held p.length (M' t i) = some f) ∨
      ((q = p → j ≠ i) ∧ R.ref H M r q j = some f) := by
  obtain ⟨hq, u, hu, hheld⟩ := ref_eq_some.mp hf
  by_cases hpre : (p ++ [i]) <+: q
  · -- Below the entry there is one table at most, and it holds nothing.
    exfalso
    obtain ⟨q', rfl⟩ := hpre
    rw [append_assoc, singleton_append, h.descend_below hs hlen hp] at hu
    obtain ⟨g, hg, hu⟩ := bind_eq_some_iff.mp hu
    have hmore : p.length + 1 < R.depth := by
      rw [length_append, length_append, length_singleton] at hq
      omega
    cases q' with
    | nil =>
      obtain rfl : g = u := by simpa [descend] using hu
      simp only [append_nil, length_append, length_singleton] at hheld
      rw [(hbare hmore g hg j).2] at hheld
      cases hheld
    | cons k q' =>
      rw [descend, (hbare hmore g hg k).1] at hu
      cases hu
  · rw [h.descend_same hs hlen hp (by omega) hpre] at hu
    rcases h.entry_cases hs hlen hp hq hu hpre j with ⟨rfl, rfl⟩ | ⟨hne, he⟩
    · obtain rfl : t = u := some.inj (hp.symm.trans hu)
      exact .inl ⟨rfl, rfl, hheld⟩
    · rw [he] at hheld
      exact .inr ⟨hne, ref_eq_some.mpr ⟨hq, u, hu, hheld⟩⟩

/-- Changing an entry keeps a tree a tree: the new entry holds nothing, a fresh frame, or what the
old one held. -/
theorem Tree.rewrite (hbare : R.Bare H M' p.length (M' t i))
    (hnew : ∀ f, H.held p.length (M' t i) = some f → f ≠ r ∧ mine' f ∧
      (H.held p.length (M t i) = some f ∨ ¬ mine f))
    (hmine : ∀ f, mine f → H.held p.length (M t i) ≠ some f → mine' f)
    (hroot : mine' r) : R.Tree H M' r mine' := by
  have hold : R.ref H M r p i = H.held p.length (M t i) := ref_eq hlen hp i
  -- What the new entry holds is not held from any other place.
  have hsingle : ∀ {f q j}, H.held p.length (M' t i) = some f → (q = p → j ≠ i) →
      R.ref H M r q j ≠ some f := by
    intro f q j hf hne hq
    rcases (hnew f hf).2.2 with hf' | hf'
    · obtain ⟨rfl, rfl⟩ := h.inj hq (hold.trans hf')
      exact hne rfl rfl
    · exact hf' (h.mine_of_ref hq)
  refine ⟨hroot, fun {q j} hr => ?_, fun {q₁ q₂ j₁ j₂ f} h₁ h₂ => ?_, fun {q j f} hf => ?_⟩
  · rcases h.ref_rewrite hs hlen hp hbare hr with ⟨-, -, hf⟩ | ⟨-, hf⟩
    · exact (hnew r hf).1 rfl
    · exact h.apart hf
  · rcases h.ref_rewrite hs hlen hp hbare h₁ with ⟨rfl, rfl, hf₁⟩ | ⟨hne₁, hf₁⟩ <;>
      rcases h.ref_rewrite hs hlen hp hbare h₂ with ⟨rfl, rfl, hf₂⟩ | ⟨hne₂, hf₂⟩
    · exact ⟨rfl, rfl⟩
    · exact absurd hf₂ (hsingle hf₁ hne₂)
    · exact absurd hf₁ (hsingle hf₂ hne₁)
    · exact h.inj hf₁ hf₂
  · rcases h.ref_rewrite hs hlen hp hbare hf with ⟨-, -, hf⟩ | ⟨hne, hf⟩
    · exact (hnew f hf).2.1
    · refine hmine f (h.mine_of_ref hf) fun hc => ?_
      obtain ⟨rfl, rfl⟩ := h.inj hf (hold.trans hc)
      exact hne rfl rfl

end Entry

end

/-- No frame gets lost when the entry pointed to no table, and what it held is held again or not
`mine` any more. -/
theorem Full.rewrite (hf : R.Full H M r mine) (h : R.Tree H M r mine) (hs : R.SameBut M M' r t i)
    (hlen : p.length < R.depth) (hp : R.descend M r p = some t)
    (hold : p.length + 1 < R.depth → R.next (M t i) = none)
    (hnew : ∀ f, mine' f →
      (mine f ∧ H.held p.length (M t i) ≠ some f) ∨ H.held p.length (M' t i) = some f) :
    R.Full H M' r mine' := by
  intro f hmine
  rcases hnew f hmine with ⟨hf', hne⟩ | hheld
  · rcases hf f hf' with rfl | ⟨q, j, href⟩
    · exact .inl rfl
    obtain ⟨hq, u, hu, hheld⟩ := ref_eq_some.mp href
    have hpre : ¬ (p ++ [i]) <+: q := fun hpre => by
      have hle := hpre.length_le
      rw [length_append, length_singleton] at hle
      exact not_extends hp (hold (by omega)) hu hpre
    rcases h.entry_cases hs hlen hp hq hu hpre j with ⟨rfl, rfl⟩ | ⟨-, he⟩
    · exact absurd ((ref_eq hlen hp j).symm.trans href) hne
    · refine .inr ⟨q, j, ref_eq_some.mpr ⟨hq, u, ?_, ?_⟩⟩
      · rw [h.descend_same hs hlen hp (Nat.le_of_lt hq) hpre, hu]
      · rw [he, hheld]
  · exact .inr ⟨p, i, (ref_eq hlen (h.descend_table hs hlen hp) i).trans hheld⟩

/-! ## Changing frames that are no tables -/

section

variable (hsame : ∀ u, R.IsTable M r u → M' u = M u)
include hsame

theorem agree_of_tables (hq : q.length ≤ R.depth) : R.Agree M M' r q := by
  rintro q₁ j q₂ u rfl hu
  rw [length_append, length_cons] at hq
  rw [hsame u ⟨q₁, by omega, hu⟩]

theorem find_congr (hq : q.length ≤ R.depth) : R.find M' r q = R.find M r q := (agree_of_tables hsame hq).find

theorem ref_congr (p : List I) (i : I) : R.ref H M' r p i = R.ref H M r p i := by
  unfold ref
  split
  · rename_i hlen
    rw [(agree_of_tables hsame (by omega)).descend]
    cases hu : R.descend M r p with
    | none => rfl
    | some u =>
      simp only [bind_some]
      rw [hsame u ⟨p, hlen, hu⟩]
  · rfl

end

theorem Tree.congr (h : R.Tree H M r mine) (hsame : ∀ u, R.IsTable M r u → M' u = M u)
    (hmine : ∀ f, mine f → mine' f) : R.Tree H M' r mine' where
  root := hmine r h.root
  apart := by
    intro p i
    rw [ref_congr hsame]
    exact h.apart
  inj := by
    intro p q i j f hp hq
    rw [ref_congr hsame] at hp hq
    exact h.inj hp hq
  mine_of_ref := by
    intro p i f hp
    rw [ref_congr hsame] at hp
    exact hmine f (h.mine_of_ref hp)

theorem Full.congr (h : R.Full H M r mine) (hsame : ∀ u, R.IsTable M r u → M' u = M u)
    (hmine : ∀ f, mine' f → mine f) : R.Full H M' r mine' := by
  intro f hf
  rcases h f (hmine f hf) with rfl | ⟨p, i, hp⟩
  · exact .inl rfl
  · exact .inr ⟨p, i, (ref_congr hsame p i).trans hp⟩

end Radix

end Infra
