import OnyxKernel.Mm.PageSpec

/-!
# Unmapping

`unmap` clears for each page the entry at the end of its walk, whatever it covers: at the last level
that is the page, and above it a whole superpage (`Slot`). Its pages lose their translation, and the
frame of a user page goes back to the allocator. The address space stays in order as long as no
entry of a lent frame is cleared.
-/

namespace Mm

open Infra Onyx StateProg Radix List

variable {w : Terms} {other : Nat → Prop} {root va : Nat} {s t u : MmState}

/-! ## Translations -/

/-- The translations of all pages but those in `ex` are the same. -/
structure LookBut (root : Nat) (ex : List (Fin 512) → Prop) (s t : MmState) : Prop where
  base : t.base = s.base
  total : t.total = s.total
  look : ∀ {q : List (Fin 512)}, q.length = 3 → ¬ ex q → look t root q = look s root q

section Look

variable {ex ex' : List (Fin 512) → Prop}

theorem LookBut.refl (root : Nat) (ex : List (Fin 512) → Prop) (s : MmState) : LookBut root ex s s :=
  ⟨rfl, rfl, fun _ _ => rfl⟩

theorem LookBut.trans (h : LookBut root ex s t) (h' : LookBut root ex t u) : LookBut root ex s u :=
  ⟨h'.base.trans h.base, h'.total.trans h.total, fun hq hn => (h'.look hq hn).trans (h.look hq hn)⟩

theorem LookBut.mono (h : LookBut root ex s t) (hex : ∀ q, q.length = 3 → ex q → ex' q) : LookBut root ex' s t :=
  ⟨h.base, h.total, fun hq hn => h.look hq fun hc => hn (hex _ hq hc)⟩

theorem KeptBut.lookBut (h : KeptBut root ex s t) : LookBut root ex s t := ⟨h.base, h.total, h.look⟩

theorem Grew.lookBut (h : Grew root s t) : LookBut root ex s t := ⟨h.base, h.total, fun hq _ => h.look _ hq⟩

end Look

/-! ## The entry that is cleared -/

/-- The walk to the page of `va` ends at this level in this table. -/
def Slot (s : MmState) (root va level table : Nat) : Prop :=
  level ≤ 2 ∧ sv39.descend s.mem root (pathTo va (2 - level)) = some table ∧
    (level ≠ 0 → sv39.next (s.mem table (idx level va)) = none)

variable {E : Errno → MmState → Prop} {ex : List (Fin 512) → Prop} {l level table : Nat} {p : List (Fin 512)}

/-- The last table on the way to the page of `va`, from a table of level `n` on, with its level. -/
def slotOf (mem : Nat → Fin 512 → Nat) (va : Nat) : (n table : Nat) → Nat × Nat
  | 0, table => (0, table)
  | n + 1, table =>
    match sv39.next (mem table (idx (n + 1) va)) with
    | some below => slotOf mem va n below
    | none => (n + 1, table)

theorem slot_slotOf : ∀ {n table : Nat}, n ≤ 2 → sv39.descend s.mem root (pathTo va (2 - n)) = some table →
    Slot s root va (slotOf s.mem va n table).1 (slotOf s.mem va n table).2
  | 0, table, _, hp => ⟨by show 0 ≤ 2; omega, hp, fun h => absurd rfl h⟩
  | n + 1, table, hn, hp => by
    unfold slotOf
    split
    · rename_i below hnext
      refine slot_slotOf (by omega) ?_
      have hnum : 2 - n = 3 - (n + 1) := by omega
      rw [hnum, pathTo_succ_level hn, descend_concat, hp, Option.bind_some, hnext]
    · rename_i hnext
      exact ⟨hn, hp, fun _ => hnext⟩

theorem Slot.unique {l' v v' : Nat} (h : Slot s root va l v) (h' : Slot s root va l' v') : l = l' ∧ v = v' := by
  -- The walk that ends higher up has no table at the level of the other.
  have key : ∀ {l l' v v' : Nat}, Slot s root va l v → Slot s root va l' v' → ¬ l' < l := by
    intro l l' v v' h h' hlt
    obtain ⟨hl, hp, hend⟩ := h
    obtain ⟨hl', hp', -⟩ := h'
    have hle := pathTo_le va (show 3 - l ≤ 2 - l' by omega)
    rw [pathTo_succ_level hl] at hle
    exact not_extends hp (hend (by omega)) hp' hle
  obtain rfl : l = l' := by
    have h1 := key h h'
    have h2 := key h' h
    omega
  exact ⟨rfl, Option.some.inj (h.2.1.symm.trans h'.2.1)⟩

/-! ## The walk to it -/

theorem walkLevel_find (hp : sv39.descend s.mem root p = some table) :
    wp (walkLevel va false table level)
      (fun below t => t = s ∧ sv39.descend s.mem root (p ++ [idx level va]) = some below)
      (fun _ t => t = s ∧ sv39.next (s.mem table (idx level va)) = none) s := by
  unfold walkLevel
  rw [wp_bind, readPte, wp_gets]
  split
  · rename_i hv
    exact ⟨rfl, next_of_empty (show pteKind _ = .empty by rw [pteKind, if_pos hv])⟩
  rename_i hv
  split
  · rename_i hleaf
    exact ⟨rfl, next_of_leaf (show pteKind _ = .leaf by rw [pteKind, if_neg hv, if_pos hleaf])⟩
  · rename_i hleaf
    refine ⟨rfl, ?_⟩
    rw [descend_concat, hp, Option.bind_some]
    exact next_eq_some.mpr (show pteKind _ = .table _ by rw [pteKind, if_neg hv, if_neg hleaf])

theorem walkDown_find {leafLevel : Nat} : ∀ {n table : Nat}, leafLevel + n ≤ 2 →
    sv39.descend s.mem root (pathTo va (2 - (leafLevel + n))) = some table →
    wp (walkDown va false leafLevel n table)
      (fun below t => t = s ∧ sv39.descend s.mem root (pathTo va (2 - leafLevel)) = some below)
      (fun _ t => t = s ∧ ∃ level v, leafLevel < level ∧ Slot s root va level v) s
  | 0, _, _, hp => ⟨rfl, hp⟩
  | n + 1, table, hle, hp => by
    refine wp_seq (walkLevel_find hp) ?_ ?_
    · rintro below t ⟨ht, hbelow⟩
      rw [ht]
      refine walkDown_find (by omega) ?_
      rw [pathTo_step hle]
      exact hbelow
    · rintro _ t ⟨ht, hend⟩
      exact ⟨ht, leafLevel + n + 1, table, by omega, by omega, hp, fun _ => hend⟩

theorem walk_find (hl : level ≤ 2) : wp (walk root va level false)
      (fun r t => t = s ∧ sv39.descend s.mem root (pathTo va (2 - level)) = some r.1 ∧ r.2 = idx level va)
      (fun _ t => t = s ∧ ∃ l v, level < l ∧ Slot s root va l v) s := by
  refine wp_then (walkDown_find (by omega) (descend_start hl va)) ?_
  rintro below t ⟨rfl, hbelow⟩
  exact ⟨rfl, hbelow, rfl⟩

theorem unmapSlot_spec (s : MmState) (root va : Nat) :
    wp (unmapSlot root va) (fun r t => t = s ∧ ∃ l, Slot s root va l r.1 ∧ r.2 = idx l va) E s := by
  -- A slot above level `l` that the walk to level `l` reaches is at level `l`.
  have hlast : ∀ {l v : Nat}, l ≤ 2 → sv39.descend s.mem root (pathTo va (2 - l)) = some v →
      (∃ l' v', l ≤ l' ∧ Slot s root va l' v') → Slot s root va l v := by
    rintro l v hl hp ⟨l', v', hle, hslot⟩
    rcases Nat.lt_or_eq_of_le hle with hlt | rfl
    · have hpre := pathTo_le va (show 3 - l' ≤ 2 - l by omega)
      rw [pathTo_succ_level hslot.1] at hpre
      exact absurd hpre (not_extends hslot.2.1 (hslot.2.2 (by omega)) hp)
    · obtain rfl : v' = v := Option.some.inj (hslot.2.1.symm.trans hp)
      exact hslot
  refine wp_orElse (wp_mono (walk_find (by omega)) ?_ ?_)
  · rintro ⟨v, i⟩ t ⟨rfl, hp, rfl⟩
    exact ⟨rfl, 0, ⟨by omega, hp, fun h => absurd rfl h⟩, rfl⟩
  rintro _ t ⟨rfl, l, v, hl, hslot⟩
  refine wp_orElse (wp_mono (walk_find (by omega)) ?_ ?_)
  · rintro ⟨v', i⟩ t' ⟨rfl, hp, rfl⟩
    exact ⟨rfl, 1, hlast (by omega) hp ⟨l, v, by omega, hslot⟩, rfl⟩
  rintro _ t' ⟨rfl, l', v', hl', hslot'⟩
  refine wp_mono (walk_find (by omega)) ?_ ?_
  · rintro ⟨v'', i⟩ t'' ⟨rfl, hp, rfl⟩
    exact ⟨rfl, 2, hlast (by omega) hp ⟨l', v', by omega, hslot'⟩, rfl⟩
  · rintro _ t'' ⟨-, l'', v'', hl'', hslot''⟩
    have := hslot''.1
    omega

/-! ## Clearing it -/

theorem pteHeld_zero (base total : Nat) (lent : Nat → Bool) (n : Nat) : pteHeld base total lent n 0 = none := by
  rw [pteHeld]
  split
  · rfl
  · rw [if_neg fun h => not_isUser_zero h.1]

theorem pteHeld_of_next_none {base total n e : Nat} {lent : Nat → Bool} (hn : n < 2)
    (h : sv39.next e = none) : pteHeld base total lent n e = none := by
  rw [pteHeld, if_pos hn]
  cases he : pteKind e with
  | table f =>
    rw [next_eq_some.mpr he] at h
    cases h
  | empty | leaf => rfl

theorem Space.clear (hs : Space w other root s) {i : Fin 512}
    (hlen : p.length < 3) (hp : sv39.descend s.mem root p = some table)
    (hnext : p.length < 2 → sv39.next (s.mem table i) = none)
    (hb : t.base = s.base) (ht : t.total = s.total) (hmem : t.mem = (s.setWord table i 0).mem)
    (hused : ∀ f, t.Used f ↔ s.Used f ∧ pteHeld s.base s.total w.lent p.length (s.mem table i) ≠ some f)
    (hledger : w.exact → Ledger w.foreign t) : Space w other root t := by
  have hheld : ∀ {f : Nat}, pteHeld s.base s.total w.lent p.length (s.mem table i) = some f → ¬ other f := by
    intro f hf
    have href : sv39.ref (s.holding w.lent) s.mem root p i = some f :=
      (ref_eq (H := s.holding w.lent) hlen hp i).trans hf
    exact (hs.tree.mine_of_ref href).2
  refine hs.set hlen hp hb ht hmem ⟨fun _ => rfl, fun g hg => ?_, fun f hf ho hne => ?_,
    fun _ => ⟨hnext, fun f hf ho => ?_⟩, fun f hf => ?_, hs.foreign, hledger, ?_, ?_⟩
  · rw [pteHeld_zero] at hg
    cases hg
  · exact ⟨(hused f).mpr ⟨hf, hne⟩, ho⟩
  · obtain ⟨hf, hne⟩ := (hused f).mp hf
    exact .inl ⟨hf, ho, hne⟩
  · exact (hused f).mpr ⟨hs.others f hf, fun hc => hheld hc hf⟩
  · exact fine_of_not_leaf nofun
  · exact fun hu => absurd hu not_isUser_zero

theorem unmapPage_spec (hs : Space w other root s) (hslot : Slot s root va l table)
    (hlent : IsUser (s.mem table (idx l va)) → isManaged s (ppnOf (s.mem table (idx l va))) = true →
      w.lent (ppnOf (s.mem table (idx l va))) = false) :
    wp (unmapPage root va) (fun _ t => Space w other root t ∧
      Edited root (pathTo va (2 - l)) (idx l va) s t ∧ t.mem table (idx l va) = 0) E s := by
  have hlen := length_pathTo va (2 - l)
  have hnext : (pathTo va (2 - l)).length < 2 → sv39.next (s.mem table (idx l va)) = none :=
    fun h => hslot.2.2 (by omega)
  -- Both ways end in a state with the memory of `s` but for the slot.
  have hdone : ∀ {t : MmState}, t.base = s.base → t.total = s.total → t.mem = s.mem →
      (∀ f, t.Used f ↔ s.Used f ∧
        pteHeld s.base s.total w.lent (pathTo va (2 - l)).length (s.mem table (idx l va)) ≠ some f) →
      (w.exact → Ledger w.foreign t) →
      wp (writePte table (idx l va) 0) (fun _ t => Space w other root t ∧
        Edited root (pathTo va (2 - l)) (idx l va) s t ∧ t.mem table (idx l va) = 0) E t := by
    intro t hb ht hmem hused hledger
    have hmem' : (t.setWord table (idx l va) 0).mem = (s.setWord table (idx l va) 0).mem := by
      rw [MmState.setWord_mem, MmState.setWord_mem, hmem]
    refine ⟨hs.clear (by omega) hslot.2.1 hnext hb ht hmem' hused fun hx => ?_,
      hs.edited (by omega) hslot.2.1 hb ht hmem', setWord_entry hmem'⟩
    exact (hledger hx).congr rfl fun _ => Iff.rfl
  refine wp_then (unmapSlot_spec s root va) ?_
  rintro ⟨v, i⟩ u ⟨rfl, l', hslot', hi⟩
  obtain ⟨rfl, rfl⟩ := hslot'.unique hslot
  obtain rfl : i = idx l' va := hi
  rw [wp_bind, readPte, wp_gets, wp_bind, wp_get, wp_bind]
  refine wp_onlyIf ?_ fun hno => ?_
  · rintro ⟨hv, hu, hm⟩
    have huser : IsUser (u.mem v (idx l' va)) := ⟨hv, hu⟩
    have hfree := hlent huser hm
    -- A superpage that is open to user mode covers lent pages only, so this is the last level.
    obtain rfl : l' = 0 := by
      by_contra hne
      have hkind : pteKind (u.mem v (idx l' va)) = .leaf := by
        cases hk : pteKind (u.mem v (idx l' va)) with
        | leaf => rfl
        | empty =>
          rw [pteKind, if_neg hv] at hk
          split at hk <;> cases hk
        | table f =>
          have hend := hslot.2.2 hne
          rw [next_eq_some.mpr hk] at hend
          cases hend
      have hcover := (hs.fine (idx l' va) (by omega) hslot.2.1 (by omega) hkind).2 huser 0
        (Nat.pow_pos (by omega)) hm
      rw [Nat.add_zero, hfree] at hcover
      cases hcover
    have hbounds : u.base ≤ ppnOf (u.mem v (idx 0 va)) ∧ ppnOf (u.mem v (idx 0 va)) < u.base + u.total := by
      simpa [isManaged] using hm
    have hheld : pteHeld u.base u.total w.lent (pathTo va (2 - 0)).length (u.mem v (idx 0 va)) =
        some (ppnOf (u.mem v (idx 0 va))) := by
      rw [length_pathTo]
      exact pteHeld_last_of_isUser huser hbounds.1 hbounds.2 hfree
    have hmine : u.Used (ppnOf (u.mem v (idx 0 va))) ∧ ¬ other (ppnOf (u.mem v (idx 0 va))) :=
      hs.tree.mine_of_ref ((ref_eq (H := u.holding w.lent) (by show _ < 3; omega) hslot.2.1 _).trans hheld)
    refine wp_then (free_spec u _) fun _ t hgave => ?_
    refine hdone (t := { t with userPages := t.userPages - 1 }) hgave.base hgave.total hgave.mem (fun f => ?_)
      fun hx => ?_
    · rw [hheld, Ne, Option.some.injEq, show ({ t with userPages := t.userPages - 1 } : MmState).Used f ↔
        t.Used f from Iff.rfl, hgave.used]
      exact and_congr_right fun _ => ⟨fun h he => h he.symm, fun h he => h he.symm⟩
    · have hledger := (hs.ledger hx).gave hgave hmine.1 fun hf => hmine.2 (hs.foreign _ hf)
      exact hledger.congr rfl fun _ => Iff.rfl
  · refine hdone rfl rfl rfl (fun f => ?_) hs.ledger
    have hnone : pteHeld u.base u.total w.lent (pathTo va (2 - l')).length (u.mem v (idx l' va)) = none := by
      by_cases hup : (pathTo va (2 - l')).length < 2
      · exact pteHeld_of_next_none hup (hnext hup)
      · rw [pteHeld, if_neg hup, if_neg]
        rintro ⟨huser, h1, h2, -⟩
        exact hno ⟨huser.1, huser.2, by simp [isManaged, h1, h2]⟩
    rw [hnone]
    exact ⟨fun h => ⟨h, by simp⟩, fun h => h.1⟩

def Below (va l : Nat) (q : List (Fin 512)) : Prop := pathTo va (3 - l) <+: q

section

variable (h : Edited root (pathTo va (2 - l)) (idx l va) s t) (hslot : Slot s root va l table)
  (hz : t.mem table (idx l va) = 0)
include h hslot hz

omit hz in
theorem Edited.reaches : sv39.descend t.mem root (pathTo va (2 - l)) = some table := by
  have hlen := length_pathTo va (2 - l)
  rw [h.tables (by omega) (not_extends_self _ _), hslot.2.1]

/-- Clearing a slot takes the translation from the pages below it, if it was a leaf. -/
theorem Edited.lookBut
    (hex : pteKind (s.mem table (idx l va)) = .leaf → ∀ q, q.length = 3 → Below va l q → ex q) :
    LookBut root ex s t := by
  have hlen := length_pathTo va (2 - l)
  have hl := hslot.1
  refine ⟨h.base, h.total, fun {q} hq hn => ?_⟩
  by_cases hpre : (pathTo va (2 - l) ++ [idx l va]) <+: q
  · -- The entry was no leaf, so nothing below it had a translation, and nothing has one now.
    have hleaf : pteKind (s.mem table (idx l va)) ≠ .leaf := fun hk =>
      hn (hex hk q hq (by rw [Below, pathTo_succ_level hl]; exact hpre))
    obtain ⟨q', rfl⟩ := hpre
    have ht := h.reaches hslot
    have hnow : sv39.find t.mem root (pathTo va (2 - l) ++ idx l va :: q') = none := by
      rw [find_append ht, find_cons_empty]
      rw [hz]
      rfl
    have hbefore : sv39.find s.mem root (pathTo va (2 - l) ++ idx l va :: q') = none := by
      rw [find_append hslot.2.1]
      cases hk : pteKind (s.mem table (idx l va)) with
      | empty => exact find_cons_empty hk q'
      | leaf => exact absurd hk hleaf
      | table f =>
        by_cases hl0 : l = 0
        · -- A pointer at the last level leads nowhere.
          subst hl0
          rw [find_cons_table hk]
          rw [length_append, length_append, hlen, length_singleton] at hq
          obtain rfl : q' = [] := eq_nil_of_length_eq_zero (by omega)
          rfl
        · have hend := hslot.2.2 hl0
          rw [next_eq_some.mpr hk] at hend
          cases hend
    rw [append_assoc, singleton_append, Mm.look, Mm.look, hnow, hbefore]
  · exact h.look hq hpre

/-- After a slot is cleared the walk to a page ends where it did, or at an empty entry. -/
theorem Edited.slot {va' l' table' : Nat} (hslot' : Slot t root va' l' table') : t.mem table' (idx l' va') = 0 ∨
      (Slot s root va' l' table' ∧ t.mem table' (idx l' va') = s.mem table' (idx l' va')) := by
  obtain ⟨hl', hp', hend'⟩ := hslot'
  have hlen' := length_pathTo va' (2 - l')
  have ht := h.reaches hslot
  have hpre := not_extends ht (by rw [hz]; rfl) hp'
  have hp : sv39.descend s.mem root (pathTo va' (2 - l')) = some table' := by
    rw [← h.tables (by omega) hpre, hp']
  by_cases hsame : (pathTo va (2 - l) ++ [idx l va]) <+: (pathTo va' (2 - l') ++ [idx l' va'])
  · left
    rcases prefix_concat_iff.mp hsame with he | he
    · obtain ⟨hpath, hi⟩ := append_inj' he rfl
      rw [← hpath] at hp'
      obtain rfl : table = table' := Option.some.inj (ht.symm.trans hp')
      rw [← singleton_inj.mp hi]
      exact hz
    · exact absurd he hpre
  · right
    have he := h.entries (idx l' va') (by omega) hsame hp
    refine ⟨⟨hl', hp, fun hne => ?_⟩, he⟩
    rw [← he]
    exact hend' hne

/-! ## The loop -/

/-- The slot of the page may be cleared: if it is a leaf, the pages it covers are all in `ex`, and no
lent page goes back to the allocator. -/
def Clearable (w : Terms) (root : Nat) (ex : List (Fin 512) → Prop) (va : Nat) (s : MmState) : Prop :=
  ∀ l table : Nat, Slot s root va l table →
    (pteKind (s.mem table (idx l va)) = .leaf → ∀ q, q.length = 3 → Below va l q → ex q) ∧
    (IsUser (s.mem table (idx l va)) → isManaged s (ppnOf (s.mem table (idx l va))) = true →
      w.lent (ppnOf (s.mem table (idx l va))) = false)

theorem Clearable.edited {va' : Nat} (hc : Clearable w root ex va' s) : Clearable w root ex va' t := by
  intro l' table' hslot'
  rcases h.slot hslot hz hslot' with he | ⟨hslot'', he⟩
  · rw [he]
    exact ⟨nofun, fun hu => absurd hu not_isUser_zero⟩
  · rw [he, isManaged_congr h.base h.total]
    exact hc l' table' hslot''

omit h hslot hz in
theorem slot_exists (s : MmState) (root va : Nat) : ∃ l table, Slot s root va l table :=
  ⟨_, _, slot_slotOf (n := 2) (Nat.le_refl 2) rfl⟩

theorem Edited.newTables : NewTables [] root s t := by
  intro q v hq hv
  exact .inl (by rw [← h.tables hq (not_extends (h.reaches hslot) (by rw [hz]; rfl) hv), hv])

end

theorem unmap_spec (hs : Space w other root s) {size : Nat}
    (hc : ∀ j < (size + 4095) / 4096, Clearable w root ex (va + 4096 * j) s) :
    wp (unmap root va size) (fun _ t => Space w other root t ∧
      LookBut root ex s t ∧ NewTables [] root s t) E s := by
  -- What is left to clear stays clearable.
  refine wp_imp (wp_forUpTo (E := E) (fun j t => (Space w other root t ∧ LookBut root ex s t ∧
      NewTables [] root s t) ∧
    ∀ k, j ≤ k → k < (size + 4095) / 4096 → Clearable w root ex (va + 4096 * k) t) _ _ _
    ⟨⟨hs, LookBut.refl root ex s, NewTables.refl [] root s⟩, fun k _ hk => hc k hk⟩ ?_)
    fun _ _ h => h.1
  rintro j t - hj ⟨⟨ht, hlook, hnew⟩, hrest⟩
  obtain ⟨l, table, hslot⟩ := slot_exists t root (va + 4096 * j)
  obtain ⟨hleaf, hlent⟩ := hrest j (Nat.le_refl j) (by omega) l table hslot
  refine wp_orElse (wp_imp (unmapPage_spec ht hslot hlent) ?_)
  rintro _ u ⟨hu, hedit, hz⟩
  refine ⟨⟨hu, hlook.trans (hedit.lookBut hslot hz hleaf),
    hnew.trans (hedit.newTables hslot hz) prefix_rfl⟩, fun k h1 h2 => ?_⟩
  exact (hrest k (by omega) h2).edited hedit hslot hz

end Mm
