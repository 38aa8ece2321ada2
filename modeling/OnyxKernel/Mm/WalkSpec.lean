import OnyxKernel.Mm.Space

/-!
# What a walk does to an address space

A walk that creates tables may put a new table into an empty entry or in place of a superpage leaf.
Neither changes what any page translates to (`Grew`), and this holds also when the walk runs out of
memory halfway.
-/

namespace Mm

open Infra Onyx StateProg Function Radix List Nat

variable {w : Terms} {other : Nat → Prop} {root : Nat} {s t u : MmState} {n pte : Nat} {p : List (Fin 512)}

theorem holding_congr (hb : t.base = s.base) (ht : t.total = s.total) (lent : Nat → Bool) :
    t.holding lent = s.holding lent := by
  simp only [MmState.holding, hb, ht]

theorem isManaged_congr (hb : t.base = s.base) (ht : t.total = s.total) (f : Nat) : isManaged t f = isManaged s f := by
  rw [isManaged, isManaged, hb, ht]

theorem Fine.congr (h : Fine w s n pte) (hb : t.base = s.base) (ht : t.total = s.total) : Fine w t n pte := fun hn hk =>
  ⟨(h hn hk).1, fun hu k hlt => by rw [isManaged_congr hb ht]; exact (h hn hk).2 hu k hlt⟩

theorem fine_of_not_leaf (h : pteKind pte ≠ .leaf) : Fine w s n pte := fun _ hk => absurd hk h

theorem not_isUser_zero : ¬ IsUser 0 := fun h => h.1 rfl

/-- `t` has the tables and translations of `s`, and maybe more tables. -/
structure Grew (root : Nat) (s t : MmState) : Prop where
  base : t.base = s.base
  total : t.total = s.total
  userPages : t.userPages = s.userPages
  used : ∀ f, s.Used f → t.Used f
  tables : ∀ {p : List (Fin 512)} {u : Nat}, p.length < 3 →
    sv39.descend s.mem root p = some u → sv39.descend t.mem root p = some u
  last : ∀ {p : List (Fin 512)} {u : Nat} (i : Fin 512), p.length = 2 →
    sv39.descend s.mem root p = some u → t.mem u i = s.mem u i
  look : ∀ q, q.length = 3 → look t root q = look s root q

theorem Grew.refl (root : Nat) (s : MmState) : Grew root s s :=
  ⟨rfl, rfl, rfl, fun _ h => h, fun _ h => h, fun _ _ _ => rfl, fun _ _ => rfl⟩

theorem Grew.trans (h : Grew root s t) (h' : Grew root t u) : Grew root s u where
  base := h'.base.trans h.base
  total := h'.total.trans h.total
  userPages := h'.userPages.trans h.userPages
  used f hf := h'.used f (h.used f hf)
  tables hp hd := h'.tables hp (h.tables hp hd)
  last i hp hd := (h'.last i hp (h.tables (by omega) hd)).trans (h.last i hp hd)
  look q hq := (h'.look q hq).trans (h.look q hq)

/-! ## Linking a new table -/

/-- `t` is `s` with a new table `f` with the entries `words`, linked from entry `i` of `table`. -/
structure Linked (s : MmState) (table : Nat) (i : Fin 512)
    (f : Nat) (words : Fin 512 → Nat) (t : MmState) : Prop where
  base : t.base = s.base
  total : t.total = s.total
  userPages : t.userPages = s.userPages
  managed : isManaged s f = true
  fresh : ¬ s.Used f
  used : ∀ g, t.Used g ↔ s.Used g ∨ g = f
  mem : t.mem = update (update s.mem f words) table
    (update (s.mem table) i (tablePte f))
  log : t.log = .took f :: s.log

/-- The leaf page that an entry gives to the page at `q` below it. -/
def leafBelow (pte : Nat) (q : List (Fin 512)) : Option (Nat × Nat) :=
  if pteKind pte = .leaf then some (leafPage (pte, q)) else none

/-- The new table can take the place of the entry `pte` at depth `n`: its entries point to no table
and hold no page, and its leaves are those of `pte`. -/
structure Replaces (w : Terms) (s : MmState) (n pte : Nat) (words : Fin 512 → Nat) : Prop where
  next : ∀ j, sv39.next (words j) = none
  held : ∀ j, pteHeld s.base s.total w.lent (n + 1) (words j) = none
  fine : ∀ j, Fine w s (n + 1) (words j)
  user : ∀ j, IsUser (words j) → w.entry (n + 1) (words j)
  leaves : ∀ (j : Fin 512) (q : List (Fin 512)), q.length + 1 = 2 - n →
    leafBelow (words j) q = leafBelow pte (j :: q)

section Link

variable {p : List (Fin 512)} {table f : Nat} {i : Fin 512} {words : Fin 512 → Nat}

theorem Linked.frame_lt (h : Linked s table i f words t) (hb : s.base + s.total ≤ 2 ^ 44) : f < 2 ^ 44 := by
  have hm := h.managed
  simp only [isManaged, Bool.and_eq_true, decide_eq_true_eq] at hm
  omega

variable {q : List (Fin 512)} {v : Nat}

theorem find_leafBelow {r : Nat} {M : Nat → Fin 512 → Nat} {R : Radix Nat (Fin 512) Nat}
    (hR : R.kind = pteKind) (hn : R.next (M r i) = none) (q : List (Fin 512)) :
    (R.find M r (i :: q)).map leafPage = leafBelow (M r i) q := by
  cases hk : R.kind (M r i) with
  | empty =>
    rw [find_cons_empty hk, leafBelow, ← hR, hk, if_neg nofun]
    rfl
  | table g =>
    rw [next_eq_some.mpr hk] at hn
    cases hn
  | leaf =>
    rw [find_cons_leaf hk, leafBelow, ← hR, hk, if_pos rfl]
    rfl

theorem Space.ne_fresh (h : Space w other root s) (hf : ¬ s.Used f)
    (hv : sv39.IsTable s.mem root v) : v ≠ f := fun he =>
  hf (he ▸ (h.tree.mine_of_isTable hv).1)

section

variable (h : Linked s table i f words t)
include h

theorem Linked.sameBut (hs : Space w other root s) : sv39.SameBut s.mem t.mem root table i := by
  intro v hv j hj
  have hvf := hs.ne_fresh h.fresh hv
  rw [h.mem]
  by_cases hvt : v = table
  · subst hvt
    rw [update_self, update_of_ne (hj rfl)]
  · rw [update_of_ne hvt, update_of_ne hvf]

theorem Linked.entry : t.mem table i = tablePte f := by
  rw [h.mem, update_self, update_self]

theorem Linked.word (hne : f ≠ table) (j : Fin 512) : t.mem f j = words j := by
  rw [h.mem, update_of_ne hne, update_self]

section

variable (hs : Space w other root s) (hlen : p.length < 2) (hp : sv39.descend s.mem root p = some table)
include hs hlen hp

theorem Linked.ne_table : f ≠ table := (hs.ne_fresh h.fresh ⟨p, lt_succ_of_lt hlen, hp⟩).symm

theorem Linked.descend : sv39.descend t.mem root (p ++ [i]) = some f := by
  have hf := h.frame_lt hs.bound
  have hlen3 : p.length < sv39.depth := lt_succ_of_lt hlen
  rw [hs.tree.descend_below (h.sameBut hs) hlen3 hp, h.entry,
    next_eq_some.mpr (pteKind_tablePte hf)]
  rfl

theorem Linked.paths (hw : ∀ j, sv39.next (words j) = none) (hq : q.length < 3)
    (hv : sv39.descend t.mem root q = some v) :
    (¬ (p ++ [i]) <+: q ∧ sv39.descend s.mem root q = some v) ∨ (q = p ++ [i] ∧ v = f) := by
  have hlen3 : p.length < sv39.depth := lt_succ_of_lt hlen
  have hne := h.ne_table hs hlen hp
  by_cases hpre : (p ++ [i]) <+: q
  · right
    obtain ⟨q', rfl⟩ := hpre
    rw [append_assoc, singleton_append, hs.tree.descend_below (h.sameBut hs) hlen3 hp,
      h.entry, next_eq_some.mpr (pteKind_tablePte (h.frame_lt hs.bound)), Option.bind_some] at hv
    cases q' with
    | nil => exact ⟨by simp, by simpa [Radix.descend] using hv.symm⟩
    | cons j q' =>
      rw [Radix.descend, h.word hne, hw] at hv
      cases hv
  · left
    rw [hs.tree.descend_same (h.sameBut hs) hlen3 hp (le_of_lt hq) hpre] at hv
    exact ⟨hpre, hv⟩

theorem Linked.entries (j : Fin 512) (hq : q.length < 3) (hpre : ¬ (p ++ [i]) <+: q)
    (hv : sv39.descend s.mem root q = some v) :
    t.mem v j = s.mem v j ∨ (q = p ∧ t.mem v j = tablePte f) := by
  rcases hs.tree.entry_cases (h.sameBut hs) (lt_succ_of_lt hlen) hp hq hv hpre j with ⟨rfl, rfl⟩ | ⟨-, he⟩
  · obtain rfl : table = v := Option.some.inj (hp.symm.trans hv)
    exact .inr ⟨rfl, h.entry⟩
  · exact .inl he

theorem Linked.tree (hw : Replaces w s p.length (s.mem table i) words) :
    sv39.Tree (t.holding w.lent) t.mem root fun g => t.Used g ∧ ¬ other g := by
  have hlen3 : p.length < sv39.depth := lt_succ_of_lt hlen
  have hne := h.ne_table hs hlen hp
  have hkind := pteKind_tablePte (h.frame_lt hs.bound)
  have hheld : (s.holding w.lent).held p.length (tablePte f) = some f :=
    (s.holding w.lent).held_table hkind (succ_lt_succ hlen)
  rw [holding_congr h.base h.total]
  refine hs.tree.rewrite (h.sameBut hs) hlen3 hp ?_ ?_ ?_ ?_
  · intro _ g hg j
    rw [h.entry, next_eq_some.mpr hkind] at hg
    cases hg
    rw [h.word hne]
    exact ⟨hw.next j, hw.held j⟩
  · intro g hg
    rw [h.entry, hheld] at hg
    cases hg
    exact ⟨fun he => h.fresh (he ▸ hs.tree.root.1),
      ⟨(h.used f).mpr (.inr rfl), fun ho => h.fresh (hs.others f ho)⟩,
      .inr fun hc => h.fresh hc.1⟩
  · exact fun g hg _ => ⟨(h.used g).mpr (.inl hg.1), hg.2⟩
  · exact ⟨(h.used root).mpr (.inl hs.tree.root.1), hs.tree.root.2⟩

theorem Linked.full (hk : sv39.next (s.mem table i) = none) (hx : w.exact) :
    sv39.Full (t.holding w.lent) t.mem root fun g => t.Used g ∧ ¬ other g := by
  have hlen3 : p.length < sv39.depth := lt_succ_of_lt hlen
  have hkind := pteKind_tablePte (h.frame_lt hs.bound)
  rw [holding_congr h.base h.total]
  refine (hs.full hx).rewrite hs.tree (h.sameBut hs) hlen3 hp (fun _ => hk) ?_
  rintro g ⟨hg, ho⟩
  rcases (h.used g).mp hg with hg | rfl
  · refine .inl ⟨⟨hg, ho⟩, ?_⟩
    show pteHeld s.base s.total w.lent p.length (s.mem table i) ≠ some g
    rw [pteHeld, if_pos hlen]
    cases he : pteKind (s.mem table i) with
    | table v =>
      rw [next_eq_some.mpr he] at hk
      cases hk
    | empty | leaf => nofun
  · rw [h.entry]
    exact .inr ((s.holding w.lent).held_table hkind (succ_lt_succ hlen))

section

variable (hk : sv39.next (s.mem table i) = none) (hw : Replaces w s p.length (s.mem table i) words)
include hk hw

theorem Linked.space : Space w other root t := by
  have hne := h.ne_table hs hlen hp
  refine ⟨h.tree hs hlen hp hw, h.full hs hlen hp hk, ?_, ?_,
    fun g hg => (h.used g).mpr (.inl (hs.others g hg)), hs.foreign, fun hx => ?_, ?_⟩
  · intro q v j hq hv
    rcases h.paths hs hlen hp hw.next hq hv with ⟨hpre, hv⟩ | ⟨rfl, rfl⟩
    · rcases h.entries hs hlen hp j hq hpre hv with he | ⟨rfl, he⟩
      · rw [he]
        exact (hs.fine j hq hv).congr h.base h.total
      · rw [he]
        exact fine_of_not_leaf (by rw [pteKind_tablePte (h.frame_lt hs.bound)]; nofun)
    · rw [h.word hne, length_append, length_singleton]
      exact (hw.fine j).congr h.base h.total
  · intro q v j hq hv hu
    rcases h.paths hs hlen hp hw.next hq hv with ⟨hpre, hv⟩ | ⟨rfl, rfl⟩
    · rcases h.entries hs hlen hp j hq hpre hv with he | ⟨rfl, he⟩
      · rw [he] at hu ⊢
        exact hs.user hq hv hu
      · rw [he] at hu
        exact absurd hu (not_isUser_tablePte f)
    · rw [h.word hne] at hu ⊢
      rw [length_append, length_singleton]
      exact hw.user j hu
  · exact (hs.ledger hx).took h.log h.fresh h.used fun g hg => hs.others g (hs.foreign g hg)
  · rw [h.base, h.total]
    exact hs.bound

theorem Linked.look (hq : q.length = 3) : Mm.look t root q = Mm.look s root q := by
  have hlen3 : p.length < sv39.depth := lt_succ_of_lt hlen
  have hne := h.ne_table hs hlen hp
  rw [Mm.look, Mm.look]
  by_cases hpre : (p ++ [i]) <+: q
  · -- Below the entry: the leaves of the new table against the leaf it replaces.
    obtain ⟨q', rfl⟩ := hpre
    rw [length_append, length_append, length_singleton] at hq
    have hkind : sv39.kind (t.mem table i) = .table f := by
      rw [h.entry]
      exact pteKind_tablePte (h.frame_lt hs.bound)
    rw [append_assoc, singleton_append, hs.tree.find_below (h.sameBut hs) hlen3 hp,
      find_append hp, find_cons_table hkind, find_leafBelow rfl hk]
    cases q' with
    | nil =>
      rw [length_nil] at hq
      omega
    | cons j q' =>
      rw [length_cons] at hq
      rw [find_leafBelow rfl (by rw [h.word hne]; exact hw.next j), h.word hne]
      exact hw.leaves j q' (by omega)
  · rw [hs.tree.find_same (h.sameBut hs) hlen3 hp (le_of_eq hq) hpre]

theorem Linked.grew : Grew root s t where
  base := h.base
  total := h.total
  userPages := h.userPages
  used g hg := (h.used g).mpr (.inl hg)
  tables := by
    intro q v hq hv
    rw [hs.tree.descend_same (h.sameBut hs) (lt_succ_of_lt hlen) hp
      (le_of_lt hq) (not_extends hp hk hv), hv]
  last := by
    intro q v j hq hv
    rcases h.entries hs hlen hp j (by omega) (not_extends hp hk hv) hv with he | ⟨rfl, -⟩
    · exact he
    · omega
  look _ hq := h.look hs hlen hp hk hw hq

end

end

end

end Link

/-! ## The two ways a walk makes a table -/

theorem replaces_zero (hk : pteKind pte = .empty) : Replaces w s n pte fun _ => 0 where
  next _ := rfl
  held j := by
    rw [pteHeld]
    split
    · rfl
    · rw [if_neg fun h => not_isUser_zero h.1]
  fine _ := fine_of_not_leaf nofun
  user _ h := absurd h not_isUser_zero
  leaves j q _ := by rw [leafBelow, leafBelow, if_neg nofun, if_neg (by rw [hk]; nofun)]

theorem replaces_split (hQ : Splits w.entry) (hn : n < 2) (hk : pteKind pte = .leaf)
    (hfine : Fine w s n pte) (huser : IsUser pte → w.entry n pte) :
    Replaces w s n pte (subLeaf pte (2 - n)) := by
  have hlevel : 2 - n = 1 ∨ 2 - n = 2 := by omega
  obtain ⟨hfit, hfree⟩ := hfine hn hk
  have hppn : ∀ j : Fin 512, ppnOf (subLeaf pte (2 - n) j) = ppnOf pte + j.1 * 512 ^ (1 - n) := by
    intro j
    rw [ppnOf_subLeaf hlevel j hfit]
    congr 3
    omega
  -- The frames of leaf `j` are among those of the old leaf.
  have hpart : ∀ (j : Fin 512) (k : Nat), k < 512 ^ (1 - n) →
      j.1 * 512 ^ (1 - n) + k < 512 ^ (2 - n) := by
    intro j k hkl
    have hpow : 512 ^ (2 - n) = 512 * 512 ^ (1 - n) := by
      rw [← pow_succ']
      congr 1
      omega
    rw [hpow]
    calc j.1 * 512 ^ (1 - n) + k < j.1 * 512 ^ (1 - n) + 512 ^ (1 - n) := by omega
      _ = (j.1 + 1) * 512 ^ (1 - n) := by rw [add_mul, one_mul]
      _ ≤ 512 * 512 ^ (1 - n) := mul_le_mul_right _ (by omega)
  refine ⟨fun j => ?_, fun j => ?_, fun j => ?_, fun j hu => ?_, fun j q hq => ?_⟩
  · exact next_of_leaf (pteKind_subLeaf hk _ j)
  · rw [pteHeld]
    split
    · rw [pteKind_subLeaf hk]
    · rename_i hn1
      rw [if_neg]
      rintro ⟨hu, hin⟩
      have hm := hfree ((isUser_subLeaf hk _ _).mp hu) (j.1 * 512 ^ (1 - n))
        (by simpa using hpart j 0 (Nat.pow_pos (by omega)))
      rw [← hppn, isManaged] at hm
      simp [hin] at hm
  · intro hn1 _
    have h1 : 2 - (n + 1) = 1 - n := by omega
    rw [hppn, h1]
    constructor
    · have hlast := hpart j (512 ^ (1 - n) - 1) (by
        have : 0 < 512 ^ (1 - n) := Nat.pow_pos (by omega)
        omega)
      omega
    · intro hu k hkl
      rw [add_assoc]
      exact hfree ((isUser_subLeaf hk _ _).mp hu) _ (hpart j k hkl)
  · exact hQ n pte j hn ((isUser_subLeaf hk _ _).mp hu) (huser ((isUser_subLeaf hk _ _).mp hu))
  · rw [leafBelow, leafBelow, if_pos (pteKind_subLeaf hk _ _), if_pos hk, leafPage_subLeaf hk hlevel hfit j hq]

/-! ## The walk -/

/-- The state after a step that made tables only. -/
structure Walked (w : Terms) (other : Nat → Prop) (root : Nat) (s t : MmState) : Prop where
  space : Space w other root t
  grew : Grew root s t

theorem Walked.refl (h : Space w other root s) : Walked w other root s s := ⟨h, Grew.refl root s⟩

theorem Walked.trans (h : Walked w other root s t) (h' : Walked w other root t u) : Walked w other root s u :=
  ⟨h'.space, h.grew.trans h'.grew⟩

/-- New tables are on the way along `path` only. -/
def NewTables (path : List (Fin 512)) (root : Nat) (s t : MmState) : Prop :=
  ∀ {q : List (Fin 512)} {v : Nat}, q.length < 3 → sv39.descend t.mem root q = some v →
    sv39.descend s.mem root q = some v ∨ q <+: path

theorem NewTables.refl (path : List (Fin 512)) (root : Nat) (s : MmState) : NewTables path root s s :=
  fun _ hv => .inl hv

theorem NewTables.trans {path path' : List (Fin 512)} (h : NewTables path root s t)
    (h' : NewTables path' root t u) (hle : path <+: path') : NewTables path' root s u := by
  intro q v hq hv
  rcases h' hq hv with hv | hpre
  · exact (h hq hv).imp_right fun hpre => hpre.trans hle
  · exact .inr hpre

theorem Linked.newTables {table f : Nat} {i : Fin 512} {words : Fin 512 → Nat}
    (h : Linked s table i f words t) (hs : Space w other root s) (hlen : p.length < 2)
    (hp : sv39.descend s.mem root p = some table) (hw : ∀ j, sv39.next (words j) = none) :
    NewTables (p ++ [i]) root s t := by
  intro q v hq hv
  rcases h.paths hs hlen hp hw hq hv with ⟨-, hv⟩ | ⟨rfl, -⟩
  · exact .inl hv
  · exact .inr prefix_rfl

theorem splitLeaf_spec (s : MmState) (table : Nat) (i : Fin 512) (pte level : Nat)
    (ht : s.Used table) : wp (splitLeaf table i pte level)
      (fun _ t => ∃ f, Linked s table i f (subLeaf pte level) t) (fun e t => e = .noMem ∧ t = s) s := by
  refine wp_seq (alloc_spec s) (fun f t hf => ?_) fun _ _ he => ⟨he.1, he.2.1⟩
  have hne : table ≠ f := fun he => hf.fresh (he ▸ ht)
  rw [wp_bind, wp_modify, writePte, wp_modify]
  refine ⟨f, hf.base, hf.total, hf.userPages, hf.managed, hf.fresh, hf.used, ?_, hf.log⟩
  simp only [MmState.setWord_mem, MmState.setFrame_mem, hf.mem]
  rw [update_of_ne hne, update_of_ne hne, update_idem]

/-- What one round of the walk does: nothing if there is a table, else it links a new one. -/
theorem walkLevel_links (va level : Nat) {table : Nat} (ht : s.Used table) (hb : s.base + s.total ≤ 2 ^ 44) :
    wp (walkLevel va true table level)
      (fun below t => (t = s ∧ pteKind (s.mem table (idx level va)) = .table below) ∨
        ∃ words, Linked s table (idx level va) below words t ∧
          (pteKind (s.mem table (idx level va)) = .empty ∧ words = (fun _ => 0) ∨
            pteKind (s.mem table (idx level va)) = .leaf ∧ words = subLeaf (s.mem table (idx level va)) level))
      (fun e t => e = .noMem ∧ t = s) s := by
  unfold walkLevel
  rw [wp_bind, readPte, wp_gets, pteKind]
  split
  · rw [if_pos rfl]
    refine wp_seq (alloc_spec s) (fun f t hf => ?_) fun _ _ he => ⟨he.1, he.2.1⟩
    have hne : table ≠ f := fun he => hf.fresh (he ▸ ht)
    rw [wp_bind, writePte, wp_modify, wp_pure]
    refine .inr ⟨_, { hf with mem := ?_ }, .inl ⟨rfl, rfl⟩⟩
    simp only [MmState.setWord_mem, hf.mem]
    rw [update_of_ne hne]
  split
  · rw [if_pos rfl]
    refine wp_then (splitLeaf_spec s table _ _ level ht) fun _ t hf => ?_
    obtain ⟨f, hlink⟩ := hf
    rw [wp_bind, wp_gets, wp_pure, hlink.entry, ppnOf_tablePte (hlink.frame_lt hb)]
    exact .inr ⟨_, hlink, .inr ⟨rfl, rfl⟩⟩
  · exact .inl ⟨rfl, rfl⟩

theorem walkLevel_create (hQ : Splits w.entry) (hs : Space w other root s)
    {level table : Nat} (hlevel : level = 1 ∨ level = 2) (hlen : p.length = 2 - level)
    (hp : sv39.descend s.mem root p = some table) (va : Nat) : wp (walkLevel va true table level)
      (fun below t => Walked w other root s t ∧ NewTables (p ++ [idx level va]) root s t ∧
        sv39.descend t.mem root (p ++ [idx level va]) = some below)
      (fun e t => e = .noMem ∧ Walked w other root s t) s := by
  have hlen2 : p.length < 2 := by omega
  have hlvl : level = 2 - p.length := by omega
  have hmine : s.Used table := (hs.tree.mine_of_descend (lt_succ_of_lt hlen2) hp).1
  refine wp_mono (walkLevel_links va level hmine hs.bound) (fun below t ht => ?_) fun _ t he =>
    ⟨he.1, he.2.symm ▸ Walked.refl hs⟩
  rcases ht with ⟨rfl, hkind⟩ | ⟨words, hlink, hwords⟩
  · refine ⟨Walked.refl hs, NewTables.refl _ root t, ?_⟩
    rw [descend_concat, hp, Option.bind_some]
    exact next_eq_some.mpr hkind
  · have hw : sv39.next (s.mem table (idx level va)) = none ∧
        Replaces w s p.length (s.mem table (idx level va)) words := by
      rcases hwords with ⟨hkind, rfl⟩ | ⟨hkind, rfl⟩
      · exact ⟨next_of_empty hkind, replaces_zero hkind⟩
      · have hsplit := replaces_split hQ hlen2 hkind (hs.fine _ (by omega) hp) (hs.user (by omega) hp)
        rw [← hlvl] at hsplit
        exact ⟨next_of_leaf hkind, hsplit⟩
    exact ⟨⟨hlink.space hs hlen2 hp hw.1 hw.2, hlink.grew hs hlen2 hp hw.1 hw.2⟩,
      hlink.newTables hs hlen2 hp hw.2.next, hlink.descend hs hlen2 hp⟩

/-- The indices of the first `n` steps to the page of `va`. -/
def pathTo (va : Nat) : (n : Nat) → List (Fin 512)
  | 0 => []
  | n + 1 => pathTo va n ++ [idx (2 - n) va]

@[simp] theorem length_pathTo (va n : Nat) : (pathTo va n).length = n := by
  induction n with
  | zero => rfl
  | succ n ih => rw [pathTo, length_append, ih, length_singleton]

theorem pathTo_le (va : Nat) : ∀ {n k : Nat}, k ≤ n → pathTo va k <+: pathTo va n
  | 0, k, hk => by
    obtain rfl : k = 0 := by omega
    exact prefix_rfl
  | n + 1, k, hk => by
    rcases lt_or_eq_of_le hk with hlt | rfl
    · exact (pathTo_le va (le_of_lt_succ hlt)).trans (prefix_append _ _)
    · exact prefix_rfl

theorem pathTo_succ_level {level : Nat} (hl : level ≤ 2) (va : Nat) :
    pathTo va (3 - level) = pathTo va (2 - level) ++ [idx level va] := by
  have hnum : 3 - level = (2 - level) + 1 := by omega
  have hidx : 2 - (2 - level) = level := by omega
  rw [hnum, pathTo, hidx]

/-- One step of a walk that still has `n + 1` levels to go. -/
theorem pathTo_step {l n : Nat} (h : l + n + 1 ≤ 2) (va : Nat) :
    pathTo va (2 - (l + n)) = pathTo va (2 - (l + (n + 1))) ++ [idx (l + n + 1) va] := by
  have hnum : 2 - (l + n) = 3 - (l + n + 1) := by omega
  rw [hnum, pathTo_succ_level h]
  rfl

theorem descend_start {l : Nat} (h : l ≤ 2) (va : Nat) :
    sv39.descend s.mem root (pathTo va (2 - (l + (2 - l)))) = some root := by
  have hnum : 2 - (l + (2 - l)) = 0 := by omega
  rw [hnum]
  rfl

theorem walkDown_create (hQ : Splits w.entry) {va leafLevel : Nat} :
    ∀ {n table : Nat} {s : MmState}, leafLevel + n ≤ 2 → Space w other root s →
      sv39.descend s.mem root (pathTo va (2 - (leafLevel + n))) = some table →
      wp (walkDown va true leafLevel n table)
        (fun below t => Walked w other root s t ∧ NewTables (pathTo va (2 - leafLevel)) root s t ∧
          sv39.descend t.mem root (pathTo va (2 - leafLevel)) = some below)
        (fun e t => e = .noMem ∧ Walked w other root s t) s
  | 0, _, s, _, hs, hp => ⟨Walked.refl hs, NewTables.refl _ root s, hp⟩
  | n + 1, table, s, hle, hs, hp => by
    have hlen : (pathTo va (2 - (leafLevel + (n + 1)))).length = 2 - (leafLevel + n + 1) := length_pathTo _ _
    refine wp_then (walkLevel_create hQ hs (by omega) hlen hp va) fun below t ht => ?_
    obtain ⟨ht, hnew, hbelow⟩ := ht
    rw [← pathTo_step hle] at hbelow hnew
    refine wp_mono (walkDown_create hQ (by omega) ht.space hbelow) (fun r u hu => ?_)
      fun _ u hu => ⟨hu.1, ht.trans hu.2⟩
    exact ⟨ht.trans hu.1, hnew.trans hu.2.1 (pathTo_le va (by omega)), hu.2.2⟩

theorem walk_create (hQ : Splits w.entry) (hs : Space w other root s) (va : Nat) {level : Nat}
    (hlevel : level ≤ 2) : wp (walk root va level true)
      (fun r t => Walked w other root s t ∧ NewTables (pathTo va (2 - level)) root s t ∧
        sv39.descend t.mem root (pathTo va (2 - level)) = some r.1 ∧ r.2 = idx level va)
      (fun e t => e = .noMem ∧ Walked w other root s t) s := by
  refine wp_then (walkDown_create hQ (by omega) hs (descend_start hlevel va)) fun below t ht => ?_
  exact ⟨ht.1, ht.2.1, ht.2.2, rfl⟩

end Mm
