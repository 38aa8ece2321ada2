import OnyxKernel.Mm.RangeSpec

/-!
# Taking an address space down

`destroy_root` gives back the frames that the entries of the tree hold, table by table, and the root
last. Memory does not change on the way, so the tree can be read as it was at the start; every frame is
held from one place only, so it is given back once.
-/

namespace Mm

open Infra Onyx StateProg List Radix

variable {w : Terms} {other : Nat → Prop} {root : Nat} {s t : MmState}

/-! ## What is below an entry -/

/-- The frame is held by entry `i` of the table at `p`, or below it. -/
def HeldAt (w : Terms) (s : MmState) (root : Nat) (p : List (Fin 512)) (i : Fin 512) (g : Nat) : Prop :=
  ∃ q j, (p ++ [i]) <+: (q ++ [j]) ∧ sv39.ref (s.holding w.lent) s.mem root q j = some g

section

variable {p : List (Fin 512)} {i : Fin 512} {g : Nat}

theorem heldAt_iff : HeldAt w s root p i g ↔
    sv39.ref (s.holding w.lent) s.mem root p i = some g ∨ ∃ j, HeldAt w s root (p ++ [i]) j g := by
  constructor
  · rintro ⟨q, j, hpre, href⟩
    rcases prefix_concat_iff.mp hpre with he | hpre
    · obtain ⟨rfl, hij⟩ := append_inj' he rfl
      obtain rfl := singleton_inj.mp hij
      exact .inl href
    · right
      obtain ⟨rest, rfl⟩ := hpre
      cases rest with
      | nil => exact ⟨j, p ++ [i] ++ [], j, by simp, href⟩
      | cons k rest => exact ⟨k, p ++ [i] ++ k :: rest, j, ⟨rest ++ [j], by simp⟩, href⟩
  · rintro (href | ⟨j, q, k, hpre, href⟩)
    · exact ⟨p, i, prefix_rfl, href⟩
    · exact ⟨q, k, (prefix_append _ _).trans hpre, href⟩

theorem not_heldAt_below {table : Nat} (hp : sv39.descend s.mem root p = some table)
    (hn : sv39.next (s.mem table i) = none) (j : Fin 512) : ¬ HeldAt w s root (p ++ [i]) j g := by
  rintro ⟨q, k, hpre, href⟩
  obtain ⟨-, v, hv, -⟩ := ref_eq_some.mp href
  rcases prefix_concat_iff.mp hpre with he | hpre
  · obtain ⟨rfl, -⟩ := append_inj' he rfl
    rw [descend_concat, hp, Option.bind_some, hn] at hv
    cases hv
  · obtain ⟨rest, rfl⟩ := hpre
    rw [append_assoc, append_assoc, descend_append, hp, Option.bind_some, singleton_append, descend, hn] at hv
    cases hv

theorem not_heldAt_deep (hlen : 3 ≤ p.length) : ¬ HeldAt w s root p i g := by
  rintro ⟨q, j, hpre, href⟩
  obtain ⟨hq, -⟩ := ref_eq_some.mp href
  have hle := hpre.length_le
  have hq3 : q.length < 3 := hq
  simp only [length_append, length_singleton] at hle
  omega

theorem HeldAt.mine (hs : Space w other root s) (h : HeldAt w s root p i g) : s.Used g ∧ ¬ w.foreign g := by
  obtain ⟨q, j, -, href⟩ := h
  obtain ⟨hu, ho⟩ := hs.tree.mine_of_ref href
  exact ⟨hu, fun hf => ho (hs.foreign g hf)⟩

theorem HeldAt.unique (hs : Space w other root s) {i' : Fin 512} (h : HeldAt w s root p i g)
    (h' : HeldAt w s root p i' g) : i = i' := by
  obtain ⟨q, j, hpre, href⟩ := h
  obtain ⟨q', j', hpre', href'⟩ := h'
  obtain ⟨rfl, rfl⟩ := hs.tree.inj href href'
  have hsame := (prefix_of_prefix_length_le hpre hpre' (by simp)).eq_of_length (by simp)
  exact singleton_inj.mp (append_cancel_left hsame)

theorem not_heldAt_self (hs : Space w other root s) (href : sv39.ref (s.holding w.lent) s.mem root p i = some g)
    (j : Fin 512) : ¬ HeldAt w s root (p ++ [i]) j g := by
  rintro ⟨q, k, hpre, href'⟩
  obtain ⟨rfl, rfl⟩ := hs.tree.inj href href'
  have hle := hpre.length_le
  simp only [length_append, length_singleton] at hle
  omega

end

/-! ## Giving frames back -/

/-- `t` is `s` with the frames in `F` given back. -/
structure Freed (w : Terms) (s : MmState) (F : Nat → Prop) (t : MmState) : Prop where
  base : t.base = s.base
  total : t.total = s.total
  mem : t.mem = s.mem
  used : ∀ g, t.Used g ↔ s.Used g ∧ ¬ F g
  ledger : Ledger w.foreign t

section

variable {F F' : Nat → Prop} {E : Errno → MmState → Prop}

theorem Freed.congr (h : Freed w s F t) (hF : ∀ g, F' g ↔ F g) : Freed w s F' t :=
  { h with used := fun g => by rw [h.used, hF] }

theorem free_freed (h : Freed w s F t) {f : Nat} (hu : s.Used f) (hF : ¬ F f) (hf : ¬ w.foreign f)
    : wp (free f) (fun _ => Freed w s fun g => F g ∨ g = f) E t := by
  refine wp_imp (free_spec t f) fun _ u hg => ?_
  refine ⟨hg.base.trans h.base, hg.total.trans h.total, hg.mem.trans h.mem, fun g => ?_,
    h.ledger.gave hg ((h.used f).mpr ⟨hu, hF⟩) hf⟩
  rw [hg.used, h.used, not_or, and_assoc]

theorem userPagesRelease_freed (h : Freed w s F t) (n : Nat) : wp (userPagesRelease n) (fun _ => Freed w s F) E t :=
  { h with ledger := h.ledger.congr rfl fun _ => Iff.rfl }

end

def NoneShown (w : Terms) (root : Nat) (s : MmState) : Prop :=
  ∀ {p : List (Fin 512)} {v : Nat} {i : Fin 512}, p.length < 3 → sv39.descend s.mem root p = some v →
    IsUser (s.mem v i) → w.lent (ppnOf (s.mem v i)) = false

theorem held_of_shown (hs : Space w other root s) (hnone : NoneShown w root s) {p : List (Fin 512)} {table : Nat}
    {i : Fin 512} (hlen : p.length < 3) (hp : sv39.descend s.mem root p = some table)
    (hk : pteKind (s.mem table i) = .leaf) :
    pteHeld s.base s.total w.lent p.length (s.mem table i) =
      if IsUser (s.mem table i) ∧ isManaged s (ppnOf (s.mem table i)) = true then some (ppnOf (s.mem table i))
      else none := by
  split
  · rename_i h
    obtain ⟨hu, hm⟩ := h
    have hlent := hnone hlen hp hu
    -- A superpage over a page of the allocator would show a lent one.
    have hlast : ¬ p.length < 2 := by
      intro hup
      have hcover := (hs.fine i hlen hp hup hk).2 hu 0 (Nat.pow_pos (by omega)) hm
      rw [Nat.add_zero, hlent] at hcover
      cases hcover
    have hbounds : s.base ≤ ppnOf (s.mem table i) ∧ ppnOf (s.mem table i) < s.base + s.total := by
      simpa [isManaged] using hm
    rw [pteHeld, if_neg hlast, if_pos ⟨hu, hbounds.1, hbounds.2, hlent⟩]
  · rename_i h
    by_cases hup : p.length < 2
    · exact pteHeld_of_next_none hup (next_of_leaf hk)
    · rw [pteHeld, if_neg hup, if_neg]
      rintro ⟨hu, h1, h2, -⟩
      exact h ⟨hu, by simp [isManaged, h1, h2]⟩

section

variable {F : Nat → Prop} {p : List (Fin 512)} {table : Nat} {E : Errno → MmState → Prop}

/-- What `free_subtree` gives back for a table: everything below it. -/
def Emptied (w : Terms) (s : MmState) (root : Nat) (p : List (Fin 512)) (F : Nat → Prop) (g : Nat) : Prop :=
  F g ∨ ∃ i, HeldAt w s root p i g

theorem not_heldAt_of_none {i : Fin 512} (hlen : p.length < 3) (hp : sv39.descend s.mem root p = some table)
    (hheld : pteHeld s.base s.total w.lent p.length (s.mem table i) = none)
    (hnext : p.length < 2 → sv39.next (s.mem table i) = none) (g : Nat) : ¬ HeldAt w s root p i g := by
  intro h
  rcases heldAt_iff.mp h with href | ⟨j, hbelow⟩
  · rw [ref_eq (H := s.holding w.lent) hlen hp] at href
    exact absurd (hheld.symm.trans href) nofun
  · by_cases hup : p.length < 2
    · exact not_heldAt_below hp (hnext hup) j hbelow
    · refine not_heldAt_deep ?_ hbelow
      rw [length_append, length_singleton]
      omega

theorem freeEntry_spec (hw : Leafy w) (hs : Space w other root s) (hnone : NoneShown w root s)
    {n : Nat} (hlen : p.length + n = 2) (hp : sv39.descend s.mem root p = some table) (i : Fin 512)
    (ht : Freed w s F t) (hF : ∀ g, HeldAt w s root p i g → ¬ F g)
    (hrec : ∀ f, sv39.descend s.mem root (p ++ [i]) = some f →
      wp (freeSubtree n f) (fun _ => Freed w s (Emptied w s root (p ++ [i]) F)) E t) :
    wp (do
      let pte ← readPte table i
      let s ← get
      if pte &&& pteV = 0 then pure ()
      else if pte &&& pteLeaf ≠ 0 then
        onlyIf (pte &&& pteU ≠ 0 ∧ isManaged s (ppnOf pte) = true) (do
          userPagesRelease 1
          free (ppnOf pte))
      else onlyIf (0 < n) (do
        freeSubtree n (ppnOf pte)
        free (ppnOf pte)))
      (fun _ => Freed w s fun g => F g ∨ HeldAt w s root p i g) E t := by
  have hlen3 : p.length < 3 := by omega
  have hnothing : (∀ g, ¬ HeldAt w s root p i g) → Freed w s (fun g => F g ∨ HeldAt w s root p i g) t :=
    fun hno => ht.congr fun g => ⟨fun h => h.elim id fun h => absurd h (hno g), .inl⟩
  -- The frame that goes back, once everything below it has.
  have hfree : ∀ {f : Nat} {F' : Nat → Prop} {u : MmState}, Freed w s F' u → HeldAt w s root p i f → ¬ F' f →
      (∀ g, (F g ∨ HeldAt w s root p i g) ↔ (F' g ∨ g = f)) →
      wp (free f) (fun _ => Freed w s fun g => F g ∨ HeldAt w s root p i g) E u := by
    intro f F' u hu hheld hnot hall
    obtain ⟨hused, hforeign⟩ := hheld.mine hs
    exact wp_imp (free_freed hu hused hnot hforeign) fun _ v hv => hv.congr hall
  rw [wp_bind, readPte, wp_gets, wp_bind, wp_get, ht.mem]
  split
  · rename_i hv
    have hk : pteKind (s.mem table i) = .empty := by rw [pteKind, if_pos hv]
    refine hnothing (not_heldAt_of_none hlen3 hp ?_ fun _ => next_of_empty hk)
    by_cases hup : p.length < 2
    · exact pteHeld_of_next_none hup (next_of_empty hk)
    · rw [pteHeld, if_neg hup, if_neg fun hc => hc.1.1 hv]
  rename_i hv
  split
  · rename_i hleaf
    have hk : pteKind (s.mem table i) = .leaf := by rw [pteKind, if_neg hv, if_pos hleaf]
    have hheld := held_of_shown hs hnone hlen3 hp hk
    have hnext : sv39.next (s.mem table i) = none := next_of_leaf hk
    rw [isManaged_congr ht.base ht.total]
    refine wp_onlyIf (fun hc => ?_) fun hc => ?_
    · rw [if_pos ⟨⟨hv, hc.1⟩, hc.2⟩] at hheld
      have href : sv39.ref (s.holding w.lent) s.mem root p i = some (ppnOf (s.mem table i)) :=
        (ref_eq (H := s.holding w.lent) hlen3 hp i).trans hheld
      have hthis : HeldAt w s root p i (ppnOf (s.mem table i)) := heldAt_iff.mpr (.inl href)
      refine wp_then (userPagesRelease_freed ht 1) fun _ u hu => ?_
      refine hfree hu hthis (hF _ hthis) fun g => or_congr_right ?_
      rw [heldAt_iff, href, Option.some.injEq]
      constructor
      · rintro (he | ⟨j, hj⟩)
        · exact he.symm
        · exact absurd hj (not_heldAt_below hp hnext j)
      · exact fun he => .inl he.symm
    · rw [if_neg fun h => hc ⟨h.1.2, h.2⟩] at hheld
      exact hnothing (not_heldAt_of_none hlen3 hp hheld fun _ => hnext)
  · rename_i hleaf
    have hk : pteKind (s.mem table i) = .table (ppnOf (s.mem table i)) := by
      rw [pteKind, if_neg hv, if_neg hleaf]
    refine wp_onlyIf (fun hpos => ?_) fun hz => ?_
    · have hbelow : sv39.descend s.mem root (p ++ [i]) = some (ppnOf (s.mem table i)) := by
        rw [descend_concat, hp, Option.bind_some]
        exact next_eq_some.mpr hk
      have href : sv39.ref (s.holding w.lent) s.mem root p i = some (ppnOf (s.mem table i)) :=
        ref_of_descend (by show p.length + 1 < 3; omega) hbelow
      have hthis : HeldAt w s root p i (ppnOf (s.mem table i)) := heldAt_iff.mpr (.inl href)
      refine wp_then (hrec _ hbelow) fun _ u hu => ?_
      refine hfree hu hthis ?_ fun g => ?_
      · rintro (hc | ⟨j, hj⟩)
        · exact hF _ hthis hc
        · exact not_heldAt_self hs href j hj
      · rw [Emptied, heldAt_iff, href, Option.some.injEq, or_assoc]
        refine or_congr_right ?_
        rw [or_comm]
        exact or_congr_right eq_comm
    · -- At the last level a pointer to a table is no user entry.
      have hlast : ¬ p.length < 2 := by omega
      refine hnothing (not_heldAt_of_none hlen3 hp ?_ fun hup => absurd hup hlast)
      rw [pteHeld, if_neg hlast, if_neg]
      rintro ⟨hu, -⟩
      have hleaf' := (hw _ _).mp (hs.user hlen3 hp hu)
      rw [hk] at hleaf'
      cases hleaf'

theorem freeSubtree_spec (hw : Leafy w) (hs : Space w other root s) (hnone : NoneShown w root s)
    : ∀ {n : Nat} {p : List (Fin 512)} {table : Nat} {F : Nat → Prop} {t : MmState},
      p.length + n = 3 → sv39.descend s.mem root p = some table → Freed w s F t →
      (∀ i g, HeldAt w s root p i g → ¬ F g) →
      wp (freeSubtree n table) (fun _ => Freed w s (Emptied w s root p F)) E t
  | 0, p, table, F, t, hlen, _, ht, _ => by
    refine ht.congr fun g => ⟨fun h => h.elim id fun h => ?_, .inl⟩
    obtain ⟨i, hi⟩ := h
    exact absurd hi (not_heldAt_deep (by omega))
  | n + 1, p, table, F, t, hlen, hp, ht, hF => by
    -- The entries before index `k` are done.
    have hloop : wp (freeSubtree (n + 1) table)
        (fun _ => Freed w s fun g => F g ∨ ∃ i : Fin 512, i.1 < 0 + 512 ∧ HeldAt w s root p i g) E t := by
      refine wp_forUpTo (fun k => Freed w s fun g => F g ∨ ∃ i : Fin 512, i.1 < k ∧ HeldAt w s root p i g) _ _ _
        (ht.congr fun g => ⟨fun h => h.elim id fun ⟨i, hi, _⟩ => absurd hi (Nat.not_lt_zero _), .inl⟩) ?_
      intro k u _ hk hu
      have hval : (Fin.ofNat 512 k).1 = k := Nat.mod_eq_of_lt (by omega)
      have hfresh : ∀ g, HeldAt w s root p (Fin.ofNat 512 k) g →
          ¬ (F g ∨ ∃ i : Fin 512, i.1 < k ∧ HeldAt w s root p i g) := by
        rintro g hg (hc | ⟨i, hi, hc⟩)
        · exact hF _ g hg hc
        · rw [hc.unique hs hg] at hi
          omega
      refine wp_imp (freeEntry_spec hw hs hnone (by omega) hp (Fin.ofNat 512 k) hu hfresh fun f hf => ?_)
        fun _ v hv => hv.congr fun g => ?_
      · refine freeSubtree_spec hw hs hnone ?_ hf hu fun j g hg => hfresh g ?_
        · rw [length_append, length_singleton]
          omega
        · exact heldAt_iff.mpr (.inr ⟨j, hg⟩)
      · rw [or_assoc]
        refine or_congr_right ⟨?_, ?_⟩
        · rintro ⟨i, hi, hg⟩
          rcases Nat.lt_or_eq_of_le (Nat.le_of_lt_succ hi) with hlt | he
          · exact .inl ⟨i, hlt, hg⟩
          · right
            rwa [show Fin.ofNat 512 k = i from Fin.ext (hval.trans he.symm)]
        · rintro (⟨i, hi, hg⟩ | hg)
          · exact ⟨i, by omega, hg⟩
          · exact ⟨Fin.ofNat 512 k, by omega, hg⟩
    refine wp_imp hloop fun _ u hu => hu.congr fun g => or_congr_right ?_
    exact ⟨fun ⟨i, hi⟩ => ⟨i, by omega, hi⟩, fun ⟨i, _, hi⟩ => ⟨i, hi⟩⟩

end

/-- After `destroy_root` only the other frames are in use, and the ledger is in order. -/
theorem destroyRoot_spec (hw : Leafy w) (hs : Space w other root s) (hx : w.exact) (hnone : NoneShown w root s)
    {E : Errno → MmState → Prop} :
    wp (destroyRoot root) (fun _ t => (∀ g, t.Used g ↔ other g) ∧ Ledger w.foreign t) E s := by
  have hstart : Freed w s (fun _ => False) s :=
    ⟨rfl, rfl, rfl, fun g => ⟨fun h => ⟨h, nofun⟩, fun h => h.1⟩, hs.ledger hx⟩
  refine wp_then (freeSubtree_spec hw hs hnone (p := []) rfl rfl hstart fun _ _ _ => not_false) fun _ t ht => ?_
  have hroot : ¬ Emptied w s root [] (fun _ => False) root := by
    rintro (hc | ⟨i, q, j, -, href⟩)
    · exact hc
    · exact hs.tree.apart href
  refine wp_imp (free_freed ht hs.tree.root.1 hroot fun hf => hs.tree.root.2 (hs.foreign root hf))
    fun _ u hu => ⟨fun g => ?_, hu.ledger⟩
  rw [hu.used]
  constructor
  · rintro ⟨hg, hn⟩
    by_contra ho
    -- A frame of the address space is the root or held somewhere.
    rcases hs.full hx g ⟨hg, ho⟩ with rfl | ⟨q, j, href⟩
    · exact hn (.inr rfl)
    · refine hn (.inl (.inr ?_))
      cases hq : q ++ [j] with
      | nil => simp at hq
      | cons i rest => exact ⟨i, q, j, ⟨rest, by rw [hq]; rfl⟩, href⟩
  · intro hg
    refine ⟨hs.others g hg, ?_⟩
    rintro ((hc | ⟨i, q, j, -, href⟩) | rfl)
    · exact hc
    · exact (hs.tree.mine_of_ref href).2 hg
    · exact hs.tree.root.2 hg

end Mm
