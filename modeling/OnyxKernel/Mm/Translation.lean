import OnyxKernel.Mm.UserSpace

/-!
# Translations and the walk

`Space` is about the address spaces of processes. What a walk does to the translations needs less: a
table has one level (`Tables`), and the leaves above the last level are aligned. Tables may be shared
and leaves may show any frame. `view` is where an address ends up and with which flags.
-/

namespace Mm

open Infra Onyx StateProg Function
open Onx (userBase userTop smallMemory)

def translateUserWrite (s : MmState) (root va : Nat) : Nat :=
  translateIf (fun pte => pte &&& (pteU ||| pteW) = pteU ||| pteW) s root va

/-- The address and the flags that the loop of the translations finds from a table of `n` levels on. -/
def view (mem : Nat → Fin 512 → Nat) (va n table : Nat) : Option (Nat × Nat) :=
  (findLeaf mem va n table).map fun leaf =>
    (ppnOf leaf.2.2 * 4096 + va % 2 ^ (12 + 9 * leaf.2.1), leaf.2.2 &&& pteFlagsMask)

/-- The slot that the hardware reads at `level` on its way down from a table of `n` levels. -/
def slotAt (mem : Nat → Fin 512 → Nat) (va level : Nat) : (n table : Nat) → Option (Nat × Fin 512)
  | 0, _ => none
  | n + 1, table =>
    if n = level then some (table, idx n va)
    else match pteKind (mem table (idx n va)) with
      | .table f => slotAt mem va level n f
      | _ => none

/-- `T n f` says that `f` is a table with `n` levels. -/
structure Tables (T : Nat → Nat → Prop) (s : MmState) : Prop where
  used : ∀ {n f : Nat}, T n f → s.Used f
  level : ∀ {m n f : Nat}, T m f → T n f → m = n
  below : ∀ {n f g : Nat} {i : Fin 512}, T (n + 2) f → pteKind (s.mem f i) = .table g → T (n + 1) g
  aligned : ∀ {n f : Nat} {i : Fin 512}, T (n + 2) f → pteKind (s.mem f i) = .leaf →
    ppnOf (s.mem f i) % 512 ^ (n + 1) = 0
  bound : s.base + s.total ≤ 2 ^ 44

/-- A table with three levels whose leaves are aligned to their size. -/
def WellFormed (s : MmState) (root : Nat) : Prop := ∃ T, Tables T s ∧ T 3 root

variable {T : Nat → Nat → Prop} {s t u : MmState} {root va n table f : Nat} {i : Fin 512} {words : Fin 512 → Nat}

theorem view_succ (mem : Nat → Fin 512 → Nat) (va n table : Nat) : view mem va (n + 1) table =
    match pteKind (mem table (idx n va)) with
    | .empty => none
    | .leaf => some (ppnOf (mem table (idx n va)) * 4096 + va % 2 ^ (12 + 9 * n), mem table (idx n va) &&& pteFlagsMask)
    | .table g => view mem va n g := by
  simp only [view, findLeaf, pteKind]
  split_ifs <;> rfl

/-! ## Linking a table -/

theorem Linked.other (h : Linked s table i f words t) {g : Nat} {j : Fin 512} (hg : g ≠ f)
    (hne : ¬ (g = table ∧ j = i)) : t.mem g j = s.mem g j := by
  rw [h.mem]
  by_cases ht : g = table
  · subst ht
    rw [update_self, update_of_ne fun hj => hne ⟨rfl, hj⟩]
  · rw [update_of_ne ht, update_of_ne hg]

/-- The tables of `s` are tables of `t`, with the same translations and the same tables below them. -/
structure Kept (T : Nat → Nat → Prop) (s : MmState) (T' : Nat → Nat → Prop) (t : MmState) : Prop where
  tables : Tables T' t
  more : ∀ {n f : Nat}, T n f → T' n f
  view : ∀ {n f : Nat} (va : Nat), T n f → view t.mem va n f = view s.mem va n f
  link : ∀ {n f g : Nat} {i : Fin 512}, T n f → pteKind (s.mem f i) = .table g → t.mem f i = s.mem f i

theorem Kept.refl (h : Tables T s) : Kept T s T s := ⟨h, id, fun _ _ => rfl, fun _ _ => rfl⟩

theorem Kept.trans {T' T'' : Nat → Nat → Prop} (h : Kept T s T' t) (h' : Kept T' t T'' u) : Kept T s T'' u where
  tables := h'.tables
  more hf := h'.more (h.more hf)
  view va hf := (h'.view va (h.more hf)).trans (h.view va hf)
  link hf hk := by
    have hsame := h.link hf hk
    rw [h'.link (h.more hf) (hsame ▸ hk), hsame]

/-- An aligned leaf stays inside the physical address space. -/
theorem Tables.fits (hs : Tables T s) (hn : n < 2) (ht : T (n + 2) table) (hk : pteKind (s.mem table i) = .leaf) :
    ppnOf (s.mem table i) + 512 ^ (n + 1) ≤ 2 ^ 44 := by
  have hal := hs.aligned ht hk
  have hlt : ppnOf (s.mem table i) < 2 ^ 44 := by
    rw [ppnOf_eq]
    exact Nat.mod_lt _ (by decide)
  obtain rfl | rfl : n = 0 ∨ n = 1 := by omega
  all_goals omega

theorem split_address (ppn va : Nat) (hn : n < 2) : (ppn + (idx n va).1 * 512 ^ n) * 4096 + va % 2 ^ (12 + 9 * n) =
    ppn * 4096 + va % 2 ^ (12 + 9 * (n + 1)) := by
  rw [idx_val]
  obtain rfl | rfl : n = 0 ∨ n = 1 := by omega
  all_goals omega

section

variable (hs : Tables T s) (hn : n < 2) (ht : T (n + 2) table) (h : Linked s table i f words t)
  (hw : pteKind (s.mem table i) = .empty ∧ words = (fun _ => 0) ∨
    pteKind (s.mem table i) = .leaf ∧ words = subLeaf (s.mem table i) (n + 1))
include hs hn ht h hw

theorem Linked.kept : Kept T s (fun m g => T m g ∨ m = n + 1 ∧ g = f) t := by
  have hne : ∀ {m g : Nat}, T m g → g ≠ f := fun hg he => h.fresh (he ▸ hs.used hg)
  have hkind : pteKind (t.mem table i) = .table f := by
    rw [h.entry]
    exact pteKind_tablePte (h.frame_lt hs.bound)
  have hword : ∀ j, t.mem f j = words j := h.word (hne ht).symm
  have hwords : ∀ j, pteKind (words j) = pteKind (s.mem table i) := fun j => by
    rcases hw with ⟨hk, rfl⟩ | ⟨hk, rfl⟩
    · exact pteKind_zero.trans hk.symm
    · rw [pteKind_subLeaf hk, hk]
  have hno : ∀ g, pteKind (s.mem table i) ≠ .table g := fun g hg => by
    rcases hw with ⟨hk, -⟩ | ⟨hk, -⟩ <;> cases hk.symm.trans hg
  refine ⟨⟨?_, ?_, ?_, ?_, ?_⟩, .inl, ?_, ?_⟩
  · grind [h.used, hs.used]
  · grind [hs.level]
  · intro m g v j hg hk
    by_cases hslot : g = table ∧ j = i
    · grind [hs.level]
    · grind [hs.below, h.other]
  · intro m g j hg hk
    by_cases hslot : g = table ∧ j = i
    · grind
    · rcases hg with hg | ⟨hm, rfl⟩
      · grind [hs.aligned, h.other]
      · rw [hword] at hk ⊢
        obtain rfl : n = m + 1 := by omega
        rcases hw with ⟨he, rfl⟩ | ⟨he, rfl⟩
        · cases pteKind_zero.symm.trans hk
        · have hal := hs.aligned ht he
          rw [ppnOf_subLeaf (by omega) j (hs.fits hn ht he)]
          obtain rfl : m = 0 := by omega
          omega
  · rw [h.base, h.total]
    exact hs.bound
  · intro m g va hg
    -- Along the recursion of the translation; the new table is met at the slot only.
    induction m generalizing g with
    | zero => rfl
    | succ m ih =>
      rw [view_succ, view_succ]
      by_cases hslot : g = table ∧ idx m va = i
      · obtain ⟨rfl, rfl⟩ := hslot
        obtain rfl : m = n + 1 := Nat.succ.inj (hs.level hg ht)
        rw [hkind]
        simp only
        rw [view_succ, hword, hwords]
        rcases hw with ⟨he, rfl⟩ | ⟨he, rfl⟩
        · rw [he]
        · rw [he]
          simp only
          rw [ppnOf_subLeaf (by omega) _ (hs.fits hn ht he),
            subLeaf_and_of_valid (valid_of_leaf he) _ _ (by decide), Nat.add_sub_cancel, split_address _ _ hn]
      · rw [h.other (hne hg) hslot]
        cases hk : pteKind (s.mem g (idx m va)) with
        | empty | leaf => rfl
        | table v =>
          cases m with
          | zero => rfl
          | succ m => exact ih (hs.below hg hk)
  · intro m g v j hg hk
    refine h.other (hne hg) fun hslot => ?_
    obtain ⟨rfl, rfl⟩ := hslot
    exact hno v hk

end

/-! ## The walk -/

theorem walkDown_keeps {leafLevel : Nat} : ∀ {n table : Nat} {s : MmState} {T : Nat → Nat → Prop},
    leafLevel + n ≤ 2 → Tables T s → T (leafLevel + n + 1) table →
    wp (walkDown va true leafLevel n table)
      (fun below t => (∃ T', Kept T s T' t) ∧
        slotAt t.mem va leafLevel (leafLevel + n + 1) table = some (below, idx leafLevel va))
      (fun e t => e = .noMem ∧ ∃ T', Kept T s T' t) s
  | 0, table, s, T, _, hs, _ => ⟨⟨T, Kept.refl hs⟩, by rw [slotAt, if_pos rfl]⟩
  | n + 1, table, s, T, hle, hs, ht => by
    refine wp_seq (walkLevel_links va (leafLevel + n + 1) (hs.used ht) hs.bound) (fun below t hlink => ?_)
      fun _ _ he => ⟨he.1, T, he.2.symm ▸ Kept.refl hs⟩
    have hstep : ∃ T', Kept T s T' t ∧ T' (leafLevel + n + 1) below ∧
        pteKind (t.mem table (idx (leafLevel + n + 1) va)) = .table below := by
      rcases hlink with ⟨rfl, hk⟩ | ⟨words, hlink, hw⟩
      · exact ⟨T, Kept.refl hs, hs.below ht hk, hk⟩
      · refine ⟨_, hlink.kept (n := leafLevel + n) hs (by omega) ht hw, .inr ⟨rfl, rfl⟩, ?_⟩
        rw [hlink.entry]
        exact pteKind_tablePte (hlink.frame_lt hs.bound)
    obtain ⟨T', hkept, hbelow, hk⟩ := hstep
    refine wp_mono (walkDown_keeps (by omega) hkept.tables hbelow) (fun r u hu => ?_) fun _ u hu => ?_
    · obtain ⟨⟨T'', hkept'⟩, hslot⟩ := hu
      refine ⟨⟨T'', hkept.trans hkept'⟩, ?_⟩
      rw [slotAt, if_neg (by omega), ← Nat.add_assoc, hkept'.link (hkept.more ht) hk, hk]
      exact hslot
    · obtain ⟨he, T'', hkept'⟩ := hu
      exact ⟨he, T'', hkept.trans hkept'⟩

/-- All translations of `t` are those of `s`. -/
structure SameTranslations (root : Nat) (s t : MmState) : Prop where
  translate : ∀ va, translate t root va = translate s root va
  user : ∀ va, translateUser t root va = translateUser s root va
  userWrite : ∀ va, translateUserWrite t root va = translateUserWrite s root va

theorem translateIf_view {test : Nat → Bool} (ht : ∀ pte, test (pte &&& pteFlagsMask) = test pte) :
    translateIf test s root va = if root = 0 then 0 else match view s.mem va 3 root with
      | none => 0
      | some (pa, flags) => if test flags then pa else 0 := by
  unfold translateIf view
  cases findLeaf s.mem va 3 root with
  | none => rfl
  | some leaf => simp only [Option.map_some, ht, Nat.shiftLeft_eq]

theorem Kept.sameTranslations {T' : Nat → Nat → Prop} (h : Kept T s T' t) (hr : T 3 root) :
    SameTranslations root s t := by
  have hview := fun va => h.view va hr
  refine ⟨fun va => ?_, fun va => ?_, fun va => ?_⟩
  · rw [Mm.translate, Mm.translate, translateIf_view fun _ => rfl, translateIf_view fun _ => rfl, hview]
  all_goals
    first
      | rw [translateUser, translateUser]
      | rw [translateUserWrite, translateUserWrite]
    rw [translateIf_view fun pte => by rw [test_flags _ pte (by decide)],
      translateIf_view fun pte => by rw [test_flags _ pte (by decide)], hview]

theorem walk_kept {level : Nat} (hs : Tables T s) (hr : T 3 root) (va : Nat) (hl : level ≤ 2) :
    wp (walk root va level true)
      (fun slot t => (∃ T', Kept T s T' t) ∧ slotAt t.mem va level 3 root = some slot)
      (fun e t => e = .noMem ∧ ∃ T', Kept T s T' t) s := by
  have hnum : level + (2 - level) + 1 = 3 := by omega
  refine wp_then (walkDown_keeps (by omega) hs (hnum ▸ hr)) fun below t ht => ?_
  exact ⟨ht.1, hnum ▸ ht.2⟩

/-- A walk that creates tables changes no translation, also when it fails halfway, and leads to the slot
that the hardware reads. -/
theorem walk_keeps_translations {s : MmState} {root level : Nat} (h : WellFormed s root) (va : Nat)
    (hl : level ≤ 2) :
    wp (walk root va level true)
      (fun slot t => SameTranslations root s t ∧ slotAt t.mem va level 3 root = some slot)
      (fun e t => e = .noMem ∧ SameTranslations root s t) s := by
  obtain ⟨T, hs, hr⟩ := h
  refine wp_mono (walk_kept hs hr va hl) (fun slot t ht => ?_) fun _ _ he => ?_
  · obtain ⟨⟨T', hk⟩, hslot⟩ := ht
    exact ⟨hk.sameTranslations hr, hslot⟩
  · obtain ⟨he, T', hk⟩ := he
    exact ⟨he, hk.sameTranslations hr⟩

/-- One table in use, with a leaf of 1 GiB that is open to user mode. -/
def leafMemory : MmState :=
  { smallMemory with
    bitmap := 1
    mem := fun _ i => if i = 0 then pteV ||| pteR ||| pteW ||| pteU ||| 0x80000 <<< 10 else 0 }

theorem wellFormed_leafMemory : WellFormed leafMemory 0x80400 := by
  refine ⟨fun n f => n = 3 ∧ f = 0x80400, ⟨?_, ?_, ?_, ?_, by decide⟩, rfl, rfl⟩
  · rintro n f ⟨-, rfl⟩
    exact ⟨by decide, by decide⟩
  · rintro m n f ⟨rfl, -⟩ ⟨rfl, -⟩
    rfl
  all_goals
    intro n f
    simp only [leafMemory]
  · intro g i _ hk
    split at hk
    · cases hk
    · cases hk
  · rintro i ⟨hn, -⟩ hk
    obtain rfl : n = 1 := by omega
    split at hk
    · rw [if_pos ‹_›]
      decide
    · cases hk

theorem walk_keeps_translations_leaf :
    WellFormed leafMemory 0x80400 ∧ wp (walk 0x80400 0x1000 0 true)
      (fun slot t => SameTranslations 0x80400 leafMemory t ∧ slotAt t.mem 0x1000 0 3 0x80400 = some slot)
      (fun e t => e = .noMem ∧ SameTranslations 0x80400 leafMemory t) leafMemory :=
  ⟨wellFormed_leafMemory, walk_keeps_translations wellFormed_leafMemory _ (by decide)⟩

/-! ## `mprotect` -/

theorem view_slotAt {mem : Nat → Fin 512 → Nat} {slot : Nat × Fin 512} :
    ∀ {n table : Nat}, slotAt mem va 0 n table = some slot →
      view mem va n table = view mem va 1 slot.1 ∧ slot.2 = idx 0 va
  | 0, _, h => by cases h
  | n + 1, table, h => by
    unfold slotAt at h
    split at h
    · rename_i hn
      cases h
      exact ⟨by rw [hn], by rw [hn]⟩
    · split at h
      · rename_i f hk
        rw [view_succ, hk]
        exact view_slotAt h
      · cases h

/-- A page that is open to user mode is not mapped again. -/
theorem mapOne_open {pa flags : Nat} (hs : Tables T s) (hr : T 3 root) (hu : translateUser s root va ≠ 0) :
    wp (mapOne root va pa flags 0) (fun _ _ => False) (fun _ _ => True) s := by
  unfold mapOne
  rw [if_neg (by omega), if_neg (by omega)]
  refine wp_seq (walk_kept hs hr va (Nat.zero_le 2)) ?_ fun _ _ _ => trivial
  rintro slot t ⟨⟨T', hk⟩, hslot⟩
  obtain ⟨hview, hidx⟩ := view_slotAt hslot
  rw [wp_bind, readPte, wp_gets]
  split
  · trivial
  rename_i hold
  rw [hk.view va hr, view_succ t.mem, ← hidx] at hview
  rw [translateUser, translateIf_view fun pte => by rw [test_flags _ pte (by decide)], hview] at hu
  cases hkind : pteKind (t.mem slot.1 slot.2) with
  | empty => simp [hkind] at hu
  | table g => simp [hkind, view, findLeaf] at hu
  | leaf =>
    refine absurd ⟨valid_of_leaf hkind, fun hzero => ?_⟩ hold
    simp [hkind, test_flags _ _ (show pteU < 1024 by decide), hzero] at hu

/-- `R`, `W`, `X` and `U`. -/
def permBits : Nat := pteR ||| pteW ||| pteX ||| pteU

/-- `mprotect` does what it is for: the frames stay, the pages of the range get the permissions, and
nothing else changes. -/
structure Protects (m : UserMem) (addr length prot : Nat) : Prop where
  ok : ((sysMprotect addr length prot).run m).1 = .ok 0
  frames : ∀ va, translate ((sysMprotect addr length prot).run m).2.mm m.root va = translate m.mm m.root va
  perms : ∀ j < pageUp length / 4096,
    pteUserFlags ((sysMprotect addr length prot).run m).2.mm m.root (addr + 4096 * j) &&& permBits =
      protFlags prot &&& permBits
  rest : ∀ va, va < addr ∨ addr + pageUp length ≤ va →
    view ((sysMprotect addr length prot).run m).2.mm.mem va 3 m.root = view m.mm.mem va 3 m.root

/-- It does so only where there is nothing to do: on pages that show the physical page 0, which the code
takes for unmapped, and that have the permissions already. -/
theorem mprotect_protects_iff {m : UserMem} {addr length : Nat} (prot : Nat) (hw : WellFormed m.mm m.root)
    (haddr : addr % 4096 = 0) (hhi : addr + pageUp length ≤ userTop) :
    Protects m addr length prot ↔ 0 < length ∧ ∀ j < pageUp length / 4096,
      translateUser m.mm m.root (addr + 4096 * j) = 0 ∧
      pteUserFlags m.mm m.root (addr + 4096 * j) &&& permBits = protFlags prot &&& permBits := by
  obtain ⟨T, hs, hr⟩ := hw
  have htop : userTop < 2 ^ 64 - 8192 := by decide
  have hle : length ≤ pageUp length := by unfold pageUp; omega
  -- A run that succeeds has met no page that translates, and has changed nothing.
  have hloop : wp (sysMprotect addr length prot)
      (fun r m' => r = 0 ∧ m' = m ∧ 0 < length ∧
        ∀ j < pageUp length / 4096, translateUser m.mm m.root (addr + 4096 * j) = 0)
      (fun _ _ => length = 0 ∨ ∃ j < pageUp length / 4096,
        translateUser m.mm m.root (addr + 4096 * j) ≠ 0) m := by
    unfold sysMprotect
    split
    · exact .inl (by omega)
    rw [pageAlignUp_eq_some.mpr ⟨by omega, rfl⟩]
    simp only
    rw [checkedAdd_eq_some.mpr ⟨by omega, rfl⟩]
    rw [wp_bind, wp_get, wp_bind, wp_onMm, Nat.add_sub_cancel_left]
    refine wp_mono (wp_forUpTo
      (E := fun _ _ => ∃ j < pageUp length / 4096, translateUser m.mm m.root (addr + 4096 * j) ≠ 0)
      (fun j t => t = m.mm ∧ ∀ k < j, translateUser m.mm m.root (addr + 4096 * k) = 0)
      _ 0 m.mm ⟨rfl, nofun⟩ ?_) (fun _ t ht => ?_) fun _ _ he => .inr he
    · rintro j t - hj ⟨rfl, hzero⟩
      unfold protectPage
      rw [wp_bind, wp_get]
      refine wp_onlyIf (fun hne => ?_) fun hz => ⟨rfl, fun k hk => ?_⟩
      · exact wp_mono (mapOne_open hs hr hne) (fun _ _ hf => hf.elim) fun _ _ _ => ⟨j, by omega, hne⟩
      · rcases Nat.lt_succ_iff_lt_or_eq.mp hk with hk | rfl
        · exact hzero k hk
        · exact not_not.mp hz
    · rw [Nat.zero_add] at ht
      exact ⟨rfl, by rw [ht.1], by omega, ht.2⟩
  constructor
  · intro h
    obtain ⟨-, hm, hpos, hzero⟩ := hloop.ok (Prod.ext h.ok rfl)
    have hsame : ((sysMprotect addr length prot).run m).2 = m := hm
    refine ⟨hpos, fun j hj => ⟨hzero j hj, ?_⟩⟩
    have hperm := h.perms j hj
    rwa [hsame] at hperm
  · rintro ⟨hpos, h⟩
    cases hrun : (sysMprotect addr length prot).run m with
    | mk r m' =>
    cases r with
    | error e => grind [hloop.error hrun]
    | ok r =>
      obtain ⟨rfl, rfl, -⟩ := hloop.ok hrun
      constructor <;> rw [hrun]
      · exact fun _ => rfl
      · exact fun j hj => (h j hj).2
      · exact fun _ _ => rfl

theorem mprotect_protects_iff_leaf : WellFormed leafMemory 0x80400 ∧
    ¬ Protects ⟨leafMemory, 0x80400, 0, 0⟩ userBase 4096 1 := by
  refine ⟨wellFormed_leafMemory, fun h => ?_⟩
  obtain ⟨-, hzero⟩ := (mprotect_protects_iff 1 wellFormed_leafMemory (by decide) (by decide)).mp h
  exact absurd (hzero 0 (by decide)).1 (by decide +kernel)

/-- The first page of a program is not opened for reading only. -/
theorem mprotect_smallProgram :
    pteUserFlags smallProgram.mm smallProgram.root userBase ≠ 0 ∧
      ((sysMprotect userBase 4096 1).run smallProgram).1 = .error .exist ∧
      ¬ Protects smallProgram userBase 4096 1 := by
  have herr : ((sysMprotect userBase 4096 1).run smallProgram).1 = .error .exist := by decide +kernel
  refine ⟨by decide +kernel, herr, fun h => ?_⟩
  cases h.ok.symm.trans herr

end Mm
