import Mathlib.Data.List.Basic
import OnyxKernel.Mm.UnmapSpec

/-!
# Mapping ranges

`map_anon` and `map` work page by page, or superpage by superpage. A page of `map_anon` belongs to the
address space, so that a failed call can take the pages before it back; a page of `map` shows a frame
that is lent or not managed at all.
-/

namespace Mm

open Infra Onyx StateProg List

variable {w : Terms} {other : Nat → Prop} {root va : Nat} {s t u : MmState}

/-! ## Pages and addresses -/

theorem idx_val (level va : Nat) : (idx level va).1 = va / 2 ^ (12 + 9 * level) % 512 := by
  rw [idx, Nat.shiftRight_eq_div_pow]
  rfl

theorem pathTo_three (va : Nat) : pathTo va 3 = [idx 2 va, idx 1 va, idx 0 va] := rfl

theorem pathTo_inj {a b : Nat} (ha : a < 2 ^ 39) (hb : b < 2 ^ 39) (h : pathTo a 3 = pathTo b 3) :
    a / 4096 = b / 4096 := by
  rw [pathTo_three, pathTo_three] at h
  simp only [cons.injEq, and_true, Fin.ext_iff, idx_val] at h
  omega

variable {ex : List (Fin 512) → Prop} {flags l : Nat} {q : List (Fin 512)}

theorem pathTo_block {a b : Nat} (ha : a < 2 ^ 39) (hb : b < 2 ^ 39) (hl : l ≤ 2)
    (h : pathTo a (3 - l) = pathTo b (3 - l)) : a / blockSize l = b / blockSize l := by
  rcases (by omega : l = 0 ∨ l = 1 ∨ l = 2) with rfl | rfl | rfl
  · exact pathTo_inj ha hb h
  · have h' : [idx 2 a, idx 1 a] = [idx 2 b, idx 1 b] := h
    simp only [cons.injEq, and_true, Fin.ext_iff, idx_val] at h'
    rw [show blockSize 1 = 2097152 from rfl]
    omega
  · have h' : [idx 2 a] = [idx 2 b] := h
    simp only [cons.injEq, and_true, Fin.ext_iff, idx_val] at h'
    rw [show blockSize 2 = 1073741824 from rfl]
    omega

/-- `n` pages from the page of `va` on. -/
def PagesFrom (va n : Nat) (q : List (Fin 512)) : Prop := ∃ k < n, q = pathTo (va + 4096 * k) 3

theorem PagesFrom.mono {m n : Nat} (h : PagesFrom va m q) (hle : m ≤ n) : PagesFrom va n q := by
  obtain ⟨k, hk, rfl⟩ := h
  exact ⟨k, by omega, rfl⟩

theorem not_pagesFrom {n j : Nat} (hj : n ≤ j) (hend : va + 4096 * j < 2 ^ 39) :
    ¬ PagesFrom va n (pathTo (va + 4096 * j) 3) := by
  rintro ⟨k, hk, he⟩
  have hpage := pathTo_inj hend (by omega) he
  omega

theorem blockSize_eq (l : Nat) : blockSize l = 4096 * 512 ^ l := by
  rw [blockSize, Nat.shiftLeft_eq, Nat.one_mul, Nat.pow_add, Nat.pow_mul]

theorem below_block (hl : l ≤ 2) (hq : q.length = 3) (h : Below va l q) :
    PagesFrom (va / blockSize l * blockSize l) (512 ^ l) q := by
  obtain ⟨x, y, z, rfl⟩ := length_eq_three.mp hq
  rcases (by omega : l = 0 ∨ l = 1 ∨ l = 2) with rfl | rfl | rfl
  · have he : [x, y, z] = pathTo va 3 := (h.eq_of_length rfl).symm
    rw [show blockSize 0 = 4096 from rfl, he]
    refine ⟨0, by omega, ?_⟩
    simp only [pathTo_three, cons.injEq, and_true, Fin.ext_iff, idx_val]
    omega
  · obtain ⟨r, hr⟩ := h
    rw [show blockSize 1 = 2097152 from rfl]
    have hx : idx 2 va = x ∧ idx 1 va = y := by
      have hcons : idx 2 va :: idx 1 va :: r = x :: y :: [z] := hr
      exact ⟨(cons.inj hcons).1, (cons.inj (cons.inj hcons).2).1⟩
    obtain ⟨rfl, rfl⟩ := hx
    refine ⟨z.1, by omega, ?_⟩
    simp only [pathTo_three, cons.injEq, and_true, Fin.ext_iff, idx_val]
    omega
  · obtain ⟨r, hr⟩ := h
    rw [show blockSize 2 = 1073741824 from rfl]
    obtain rfl : idx 2 va = x := (cons.inj (show idx 2 va :: r = x :: [y, z] from hr)).1
    refine ⟨y.1 * 512 + z.1, by omega, ?_⟩
    simp only [pathTo_three, cons.injEq, and_true, Fin.ext_iff, idx_val]
    omega

theorem below_zero (hq : q.length = 3) (h : Below va 0 q) : q = pathTo va 3 :=
  (h.eq_of_length (by rw [length_pathTo, hq])).symm

/-! ## Vacant pages -/

def vacant (s : MmState) (root : Nat) (q : List (Fin 512)) : Bool := (look s root q).all fun e => e.2 &&& pteU = 0

theorem pathTo_split (hl : l ≤ 2) (va : Nat) : ∃ rest, pathTo va 3 = pathTo va (2 - l) ++ idx l va :: rest := by
  obtain ⟨rest, hrest⟩ := pathTo_le va (show 3 - l ≤ 3 by omega)
  refine ⟨rest, ?_⟩
  rw [← hrest, pathTo_succ_level hl, append_assoc, singleton_append]

theorem look_of_leaf {table : Nat} (hl : l ≤ 2) (hp : sv39.descend s.mem root (pathTo va (2 - l)) = some table)
    (hk : pteKind (s.mem table (idx l va)) = .leaf) :
    ∃ f, look s root (pathTo va 3) = some (f, s.mem table (idx l va) &&& pteFlagsMask) := by
  obtain ⟨rest, hrest⟩ := pathTo_split hl va
  refine ⟨ppnOf (s.mem table (idx l va)) + blockOffset rest, ?_⟩
  rw [look, hrest, Radix.find_append hp, Radix.find_cons_leaf hk]
  rfl

theorem test_flags (c pte : Nat) (hc : c < 1024) : pte &&& pteFlagsMask &&& c = pte &&& c := by
  rw [Nat.and_assoc, Nat.and_comm _ c, and_flagsMask hc]

theorem not_vacant_of_leaf {table : Nat} (hl : l ≤ 2)
    (hp : sv39.descend s.mem root (pathTo va (2 - l)) = some table)
    (hk : pteKind (s.mem table (idx l va)) = .leaf) (hu : IsUser (s.mem table (idx l va))) :
    vacant s root (pathTo va 3) = false := by
  obtain ⟨f, hf⟩ := look_of_leaf hl hp hk
  rw [vacant, hf, Option.all_some, test_flags _ _ (by decide), decide_eq_false hu.2]

theorem LookBut.vacant (h : LookBut root ex s t)
    (hq : q.length = 3) (hex : ¬ ex q) : vacant t root q = vacant s root q := by
  rw [Mm.vacant, Mm.vacant, h.look hq hex]

/-! ## Anonymous pages -/

theorem MappedPage.kept {lent : Nat → Bool} (h : MappedPage lent root va flags s)
    (hk : KeptBut root ex s t) (hex : ¬ ex (pathTo va 3)) : MappedPage lent root va flags t := by
  obtain ⟨table, g, hp, he, hlt, hlent⟩ := h
  have hlen := length_pathTo va 2
  exact ⟨table, g, hk.tables (by omega) hp, (hk.last hlen hex hp).trans he, hlt, hlent⟩

theorem MappedPage.clearable (h : MappedPage w.lent root va flags s) (hflags : flags < 1024)
    (hex : ex (pathTo va 3)) : Clearable w root ex va s := by
  obtain ⟨table, g, hp, he, hlt, hlent⟩ := h
  intro l v hslot
  have hlast : Slot s root va 0 table := ⟨by omega, hp, fun hne => absurd rfl hne⟩
  obtain ⟨rfl, rfl⟩ := hslot.unique hlast
  refine ⟨fun _ q hq hbelow => ?_, fun _ _ => ?_⟩
  · rw [below_zero hq hbelow]
    exact hex
  · rw [he, ppnOf_leafPte hflags hlt]
    exact hlent

theorem rollbackMapped_spec (hs : Space w other root s) {j : Nat}
    (hflags : flags < 1024) (hown : ∀ k < j, MappedPage w.lent root (va + 4096 * k) flags s)
    (hex : ∀ k < j, ex (pathTo (va + 4096 * k) 3)) {E : Errno → MmState → Prop} :
    wp (rollbackMapped root va (va + 4096 * j)) (fun _ t => Space w other root t ∧ LookBut root ex s t) E s := by
  refine wp_onlyIf (fun _ => ?_) fun _ => ⟨hs, LookBut.refl root ex s⟩
  refine wp_imp (unmap_spec hs fun k hk => ?_) fun _ _ h => ⟨h.1, h.2.1⟩
  have hlt : k < j := by omega
  exact (hown k hlt).clearable hflags (hex k hlt)

def Leafy (w : Terms) : Prop := ∀ n e, w.entry n e ↔ pteKind e = .leaf

theorem Leafy.splits (hw : Leafy w) : Splits w.entry := fun n e j _ _ h =>
  (hw _ _).mpr (pteKind_subLeaf ((hw n e).mp h) (2 - n) j)

theorem pteKind_leafPte (f : Nat) (hleaf : flags &&& pteLeaf ≠ 0) : pteKind (leafPte flags f) = .leaf := by
  have hv : leafPte flags f &&& pteV ≠ 0 := by
    rw [leafPte_and _ _ (by decide)]
    exact or_and_ne_zero (by decide)
  have hl : leafPte flags f &&& pteLeaf ≠ 0 := by
    rw [leafPte_and _ _ (by decide), Nat.or_comm]
    exact or_and_ne_zero hleaf
  rw [pteKind, if_neg hv, if_pos hl]

/-- Flags of a user page: they reach no frame number, and make a leaf that is open to user mode. -/
structure PageFlags (flags : Nat) : Prop where
  lt : flags < 1024
  user : flags &&& pteU ≠ 0
  leaf : flags &&& pteLeaf ≠ 0

theorem PageFlags.or {c : Nat} (h : PageFlags flags) (hc : c < 1024) : PageFlags (flags ||| c) :=
  ⟨Nat.or_lt_two_pow (n := 10) h.lt hc, or_and_ne_zero h.user, or_and_ne_zero h.leaf⟩

theorem UserPage.not_vacant (hw : Leafy w) (hs : Space w other root s) (h : UserPage root va s) :
    vacant s root (pathTo va 3) = false := by
  obtain ⟨table, hp, hu⟩ := h
  have hlen := length_pathTo va 2
  exact not_vacant_of_leaf (l := 0) (by omega) hp ((hw _ _).mp (hs.user (by omega) hp hu)) hu

/-- The program changes the `n` pages from `va` only, and fails when memory is short or a page is not vacant. -/
abbrev Fills {α : Type} (w : Terms) (other : Nat → Prop) (root va n : Nat) (p : MmProg α) (s : MmState) : Prop :=
  wp p (fun _ t => Space w other root t ∧ LookBut root (PagesFrom va n) s t)
    (fun e t => Space w other root t ∧ LookBut root (PagesFrom va n) s t ∧
      (e = .noMem ∨ ∃ j < n, vacant s root (pathTo (va + 4096 * j) 3) = false)) s

theorem mapAnon_spec (hw : Leafy w) (hs : Space w other root s) {size : Nat} (hf : PageFlags flags)
    (hend : va + 4096 * ((size + 4095) / 4096) ≤ 2 ^ 39) :
    Fills w other root va ((size + 4095) / 4096) (mapAnon root va size flags) s := by
  unfold mapAnon
  generalize (size + 4095) / 4096 = n at hend
  have hf' : PageFlags (flags ||| pteA ||| pteD) := (hf.or (by decide)).or (by decide)
  -- The pages mapped so far belong to the address space, so they can be taken back.
  refine wp_imp (wp_forUpTo (fun j t => Space w other root t ∧ LookBut root (PagesFrom va j) s t ∧
    ∀ k < j, MappedPage w.lent root (va + 4096 * k) (flags ||| pteA ||| pteD) t) _ _ _
    ⟨hs, LookBut.refl root _ s, nofun⟩ ?_) fun _ t h => ?_
  · rintro j t - hj ⟨ht, hlook, hown⟩
    have hdiff : ∀ k < j, pathTo (va + 4096 * k) 3 ≠ pathTo (va + 4096 * j) 3 := fun k hk he =>
      not_pagesFrom (Nat.le_refl j) (by omega) ⟨k, hk, he.symm⟩
    rw [mapAnonPage_eq]
    refine wp_onError (wp_mono (mapFreshPage_spec hw.splits ht hf'.lt hf'.user
      fun g _ _ => (hw _ _).mpr (pteKind_leafPte g hf'.leaf)) ?_ ?_)
    · rintro _ u ⟨hu, hkept, -, hpage⟩
      refine ⟨hu, (hlook.mono fun q _ hq => hq.mono (Nat.le_succ j)).trans
        (hkept.lookBut.mono fun q _ hq => ⟨j, Nat.lt_succ_self j, hq⟩), fun k hk => ?_⟩
      rcases Nat.lt_or_eq_of_le (Nat.le_of_lt_succ hk) with hlt | rfl
      · exact (hown k hlt).kept hkept (hdiff k hlt)
      · exact hpage
    · rintro e u ⟨hu, hkept, herr⟩
      have hpages : ∀ k < j, PagesFrom va j (pathTo (va + 4096 * k) 3) := fun k hk => ⟨k, hk, rfl⟩
      refine wp_imp (rollbackMapped_spec hu hf'.lt (fun k hk => (hown k hk).kept hkept nofun) hpages) ?_
      rintro _ v ⟨hv, hlook'⟩
      refine ⟨hv, ((hlook.trans (hkept.lookBut.mono fun _ _ h => h.elim)).trans hlook').mono
        fun q _ hq => hq.mono (by omega), herr.imp_right fun huser => ⟨j, by omega, ?_⟩⟩
      have hlen := length_pathTo (va + 4096 * j) 3
      rw [← hlook.vacant hlen (not_pagesFrom (Nat.le_refl j) (by omega)), ← hkept.lookBut.vacant hlen nofun]
      exact huser.not_vacant hw hu
  · rw [Nat.zero_add] at h
    exact ⟨h.1, h.2.1⟩

/-! ## Framebuffers -/

section Shown

variable {flags f l : Nat}

/-- Frames that the address space may show: those that the allocator manages are lent. -/
def Showable (w : Terms) (s : MmState) (f n : Nat) : Prop :=
  f + n ≤ 2 ^ 44 ∧ ∀ k < n, isManaged s (f + k) = true → w.lent (f + k) = true

theorem pteHeld_shown (hf : PageFlags flags) (hshow : Showable w s f (512 ^ l)) :
    pteHeld s.base s.total w.lent (2 - l) (leafPte flags f) = none := by
  have hpos : 0 < 512 ^ l := Nat.pow_pos (by omega)
  have hlt : f < 2 ^ 44 := lt_of_lt_of_le (Nat.lt_add_of_pos_right hpos) hshow.1
  by_cases hup : 2 - l < 2
  · exact pteHeld_of_next_none hup (Radix.next_of_leaf (pteKind_leafPte f hf.leaf))
  · rw [pteHeld, if_neg hup, if_neg]
    rintro ⟨-, h1, h2, h3⟩
    rw [ppnOf_leafPte hf.lt hlt] at h1 h2 h3
    have hlent := hshow.2 0 hpos (by simp [isManaged, h1, h2])
    rw [Nat.add_zero, h3] at hlent
    cases hlent

theorem Space.show (hw : Leafy w) (hs : Space w other root s) (hf : PageFlags flags) (hl : l ≤ 2)
    (hshow : Showable w s f (512 ^ l)) {table : Nat}
    (hp : sv39.descend s.mem root (pathTo va (2 - l)) = some table)
    (hold : ¬ IsUser (s.mem table (idx l va)))
    (hfree : w.exact → l ≠ 0 → sv39.next (s.mem table (idx l va)) = none) :
    Space w other root (s.setWord table (idx l va) (leafPte flags f)) := by
  have hlen := length_pathTo va (2 - l)
  have hkind := pteKind_leafPte f hf.leaf
  have hnone := pteHeld_shown hf hshow
  have hpos : 0 < 512 ^ l := Nat.pow_pos (by omega)
  have hppn : ppnOf (leafPte flags f) = f := ppnOf_leafPte hf.lt (lt_of_lt_of_le (Nat.lt_add_of_pos_right hpos) hshow.1)
  refine hs.set (p := pathTo va (2 - l)) (by omega) hp rfl rfl rfl ?_
  rw [hlen]
  refine ⟨fun _ => Radix.next_of_leaf hkind, fun g hg => ?_, fun g hg ho _ => ⟨hg, ho⟩, fun hx => ?_,
    hs.others, hs.foreign, fun hx => (hs.ledger hx).congr rfl fun _ => Iff.rfl, fun _ _ => ?_,
    fun _ => (hw _ _).mpr hkind⟩
  · rw [hnone] at hg
    cases hg
  · have hold' : pteHeld s.base s.total w.lent (2 - l) (s.mem table (idx l va)) = none := by
      by_cases hup : 2 - l < 2
      · exact pteHeld_of_next_none hup (hfree hx (by omega))
      · obtain rfl : l = 0 := by omega
        exact pteHeld_last_of_not_isUser hold
    refine ⟨fun hup => hfree hx (by omega), fun g hg ho => .inl ⟨hg, ho, ?_⟩⟩
    rw [hold']
    nofun
  · have hlevel : 2 - (2 - l) = l := by omega
    rw [hppn, hlevel]
    exact ⟨hshow.1, fun _ => hshow.2⟩

theorem newTables_of_leaf {p path : List (Fin 512)} {i : Fin 512} {table : Nat} (hs : Space w other root s)
    (hlen : p.length < 3) (hp : sv39.descend s.mem root p = some table) {e : Nat} (hk : pteKind e = .leaf) :
    NewTables path root s (s.setWord table i e) := by
  intro q v hq hv
  have hedit : Edited root p i s (s.setWord table i e) := hs.edited hlen hp rfl rfl rfl
  have hp' : sv39.descend (s.setWord table i e).mem root p = some table := by
    rw [hedit.tables hlen (Radix.not_extends_self p i), hp]
  have hnext : sv39.next ((s.setWord table i e).mem table i) = none := by
    rw [setWord_entry (s := s) rfl, Radix.next_of_leaf hk]
  rw [hedit.tables hq (Radix.not_extends hp' hnext hv)] at hv
  exact .inl hv

theorem mapOne_shown (hw : Leafy w) (hs : Space w other root s) (va : Nat) (hf : PageFlags flags) (hl : l ≤ 2)
    (halign : l ≠ 0 → f <<< 12 % blockSize l = 0) (hshow : Showable w s f (512 ^ l))
    (hfree : w.exact → l ≠ 0 → sv39.descend s.mem root (pathTo va (3 - l)) = none) :
    wp (mapOne root va (f <<< 12) flags l)
      (fun _ t => Space w other root t ∧ LookBut root (Below va l) s t ∧
        NewTables (pathTo va (2 - l)) root s t)
      (fun e t => Space w other root t ∧ Grew root s t ∧
        (e = .noMem ∨ vacant s root (pathTo va 3) = false)) s := by
  unfold mapOne
  rw [if_neg fun hc => hc.2 (hc.1 ▸ halign (by omega)), if_neg fun hc => hc.2 (hc.1 ▸ halign (by omega))]
  refine wp_seq (walk_create hw.splits hs va hl) ?_ fun _ _ he => ⟨he.2.space, he.2.grew, .inl he.1⟩
  rintro ⟨table, i⟩ t ⟨ht, hnew, hp, rfl⟩
  have hlen := length_pathTo va (2 - l)
  rw [wp_bind, readPte, wp_gets]
  split
  · rename_i hold
    refine ⟨ht.space, ht.grew, .inr ?_⟩
    have hkind := (hw _ _).mp (ht.space.user (by omega) hp hold)
    have hlook : LookBut root noPage s t := ht.grew.lookBut
    rw [← hlook.vacant (length_pathTo va 3) id]
    exact not_vacant_of_leaf hl hp hkind hold
  rename_i hold
  rw [writePte, wp_modify, Nat.shiftLeft_shiftRight]
  have hshow' : Showable w t f (512 ^ l) :=
    ⟨hshow.1, fun k hk hm => hshow.2 k hk (by rwa [isManaged_congr ht.grew.base ht.grew.total] at hm)⟩
  have hfree' : w.exact → l ≠ 0 → sv39.next (t.mem table (idx l va)) = none := by
    intro hx hne
    by_contra hc
    obtain ⟨v, hv⟩ := Option.ne_none_iff_exists'.mp hc
    have hv' : sv39.descend t.mem root (pathTo va (3 - l)) = some v := by
      rw [pathTo_succ_level hl, Radix.descend_concat, hp, Option.bind_some, hv]
    rcases hnew (by rw [length_pathTo]; omega) hv' with hv' | hpre
    · rw [hfree hx hne] at hv'
      cases hv'
    · have hle := hpre.length_le
      rw [length_pathTo, length_pathTo] at hle
      omega
  have hedit : Edited root (pathTo va (2 - l)) (idx l va) t (t.setWord table (idx l va) (leafPte flags f)) :=
    ht.space.edited (by omega) hp rfl rfl rfl
  refine ⟨ht.space.show hw hf hl hshow' hp hold hfree', ht.grew.lookBut.trans ⟨rfl, rfl, fun hq hn => ?_⟩, ?_⟩
  · refine hedit.look hq fun hpre => hn ?_
    rw [Below, pathTo_succ_level hl]
    exact hpre
  · exact hnew.trans (newTables_of_leaf ht.space (by omega) hp (pteKind_leafPte f hf.leaf)) prefix_rfl

/-! ## The loop of `map` -/

theorem Showable.sub {n off m : Nat} (h : Showable w s f n) (hle : off + m ≤ n) : Showable w s (f + off) m := by
  refine ⟨by have := h.1; omega, fun k hk => ?_⟩
  rw [Nat.add_assoc]
  exact h.2 (off + k) (by omega)

theorem Showable.take {n m : Nat} (h : Showable w s f n) (hle : m ≤ n) : Showable w s f m :=
  ⟨by have := h.1; omega, fun k hk => h.2 k (by omega)⟩

theorem Showable.congr {n : Nat} (h : Showable w s f n) (hb : t.base = s.base) (ht : t.total = s.total) :
    Showable w t f n :=
  ⟨h.1, fun k hk hm => h.2 k hk (by rwa [isManaged_congr hb ht] at hm)⟩

theorem bestLevel_spec (va pa remaining : Nat) : bestLevel va pa remaining ≤ 2 ∧
    (bestLevel va pa remaining ≠ 0 → blockSize (bestLevel va pa remaining) ≤ remaining ∧
      va % blockSize (bestLevel va pa remaining) = 0 ∧ pa % blockSize (bestLevel va pa remaining) = 0) := by
  unfold bestLevel
  split
  · rename_i h
    exact ⟨Nat.le_refl 2, fun _ => h⟩
  split
  · rename_i h
    exact ⟨by omega, fun _ => h⟩
  · exact ⟨by omega, fun hc => absurd rfl hc⟩

/-- No superpage of the loop of `map_impl` takes the place of a table. -/
def meetsNoTable (s : MmState) (root : Nat) : (fuel va pa remaining : Nat) → Bool
  | 0, _, _, _ => true
  | fuel + 1, va, pa, remaining =>
    if remaining = 0 then true
    else
      let level := bestLevel va pa remaining
      let chunk := min (blockSize level) remaining
      (level = 0 || (sv39.descend s.mem root (pathTo va (3 - level))).isNone) &&
        meetsNoTable s root fuel (va + chunk) (pa + chunk) (remaining - chunk)

theorem NewTables.meetsNoTable {a n : Nat} (h : NewTables (pathTo a n) root s t) (ha : a < 2 ^ 39) :
    ∀ {fuel va pa remaining : Nat}, a < va → va + remaining ≤ 2 ^ 39 →
      meetsNoTable s root fuel va pa remaining = true → meetsNoTable t root fuel va pa remaining = true
  | 0, _, _, _, _, _, _ => rfl
  | fuel + 1, va, pa, remaining, hlt, hend, hm => by
    unfold Mm.meetsNoTable at hm ⊢
    split at hm
    · rw [if_pos ‹_›]
    rename_i hpos
    rw [if_neg hpos]
    obtain ⟨hl, haligned⟩ := bestLevel_spec va pa remaining
    simp only [Bool.and_eq_true, Bool.or_eq_true, decide_eq_true_eq, Option.isNone_iff_eq_none] at hm ⊢
    obtain ⟨hblock, hrest⟩ := hm
    refine ⟨?_, h.meetsNoTable ha (by omega) (by omega) hrest⟩
    by_cases hlevel : bestLevel va pa remaining = 0
    · exact .inl hlevel
    right
    have hnone := hblock.resolve_left hlevel
    by_contra hc
    obtain ⟨v, hv⟩ := Option.ne_none_iff_exists'.mp hc
    rcases h (by rw [length_pathTo]; omega) hv with hv | hpre
    · rw [hnone] at hv
      cases hv
    · -- The block of `va` begins behind `a`.
      obtain ⟨-, hva, -⟩ := haligned hlevel
      have hle := hpre.length_le
      rw [length_pathTo, length_pathTo] at hle
      have hsame : pathTo va (3 - bestLevel va pa remaining) = pathTo a (3 - bestLevel va pa remaining) :=
        (prefix_of_prefix_length_le hpre (pathTo_le a hle) (by simp)).eq_of_length (by simp)
      have hdiv := pathTo_block (by omega) ha hl hsame
      have hmul := Nat.div_mul_cancel (Nat.dvd_of_mod_eq_zero hva)
      rw [hdiv] at hmul
      have hfloor := Nat.div_mul_le_self a (blockSize (bestLevel va pa remaining))
      omega

theorem below_pages (hl : l ≤ 2) (haligned : l ≠ 0 → va % blockSize l = 0) {q : List (Fin 512)}
    (hq : q.length = 3) (h : Below va l q) : PagesFrom va (512 ^ l) q := by
  by_cases hl0 : l = 0
  · subst hl0
    exact ⟨0, by omega, below_zero hq h⟩
  · have hblock := below_block hl hq h
    rwa [Nat.div_mul_cancel (Nat.dvd_of_mod_eq_zero (haligned hl0))] at hblock

theorem mapLoop_spec (hw : Leafy w) (hf : PageFlags flags) :
    ∀ {fuel va pa remaining : Nat} {s : MmState}, Space w other root s →
      (remaining ≠ 0 → pa % 4096 = 0) → va + 4096 * ((remaining + 4095) / 4096) ≤ 2 ^ 39 →
      Showable w s (pa / 4096) ((remaining + 4095) / 4096) →
      (w.exact → meetsNoTable s root fuel va pa remaining = true) →
      Fills w other root va ((remaining + 4095) / 4096) (mapLoop root flags fuel va pa remaining) s
  | 0, _, _, _, s, hs, _, _, _, _ => ⟨hs, LookBut.refl root _ s⟩
  | fuel + 1, va, pa, remaining, s, hs, hpa, hend, hshow, hmeets => by
    unfold mapLoop
    split
    · exact ⟨hs, LookBut.refl root _ s⟩
    rename_i hpos
    obtain ⟨hl, haligned⟩ := bestLevel_spec va pa remaining
    have hmeets' : w.exact →
        (bestLevel va pa remaining ≠ 0 →
          sv39.descend s.mem root (pathTo va (3 - bestLevel va pa remaining)) = none) ∧
        meetsNoTable s root fuel (va + min (blockSize (bestLevel va pa remaining)) remaining)
          (pa + min (blockSize (bestLevel va pa remaining)) remaining)
          (remaining - min (blockSize (bestLevel va pa remaining)) remaining) = true := by
      intro hx
      have hm := hmeets hx
      unfold meetsNoTable at hm
      rw [if_neg hpos] at hm
      simp only [Bool.and_eq_true, Bool.or_eq_true, decide_eq_true_eq, Option.isNone_iff_eq_none] at hm
      exact ⟨fun h0 => hm.1.resolve_left h0, hm.2⟩
    generalize bestLevel va pa remaining = l at hl haligned hmeets' ⊢
    simp only
    have hb : 0 < 512 ^ l := Nat.pow_pos (by omega)
    -- A round takes a whole block, or what is left of the last page.
    have hchunk : (min (blockSize l) remaining = 4096 * 512 ^ l ∧ 4096 * 512 ^ l ≤ remaining) ∨
        (512 ^ l = 1 ∧ min (blockSize l) remaining = remaining ∧ remaining < 4096) := by
      rw [blockSize_eq] at haligned ⊢
      by_cases hl0 : l = 0
      · subst hl0
        omega
      · have := (haligned hl0).1
        omega
    generalize min (blockSize l) remaining = c at hchunk hmeets' ⊢
    have hframe : pa = (pa / 4096) <<< 12 := by
      rw [Nat.shiftLeft_eq]
      omega
    have hshow0 : Showable w s (pa / 4096) (512 ^ l) := hshow.take (by omega)
    have hround := mapOne_shown hw hs va ((hf.or (c := pteA) (by decide)).or (c := pteD) (by decide)) hl
      (fun h0 => hframe ▸ (haligned h0).2.2) hshow0 fun hx => (hmeets' hx).1
    rw [← hframe] at hround
    refine wp_seq hround ?_ ?_
    · rintro _ t ⟨ht, hlook, hnew⟩
      have hlook' := hlook.mono fun q hq h => below_pages hl (fun h0 => (haligned h0).2.1) hq h
      have hshow' : Showable w t ((pa + c) / 4096) ((remaining - c + 4095) / 4096) := by
        rcases hchunk with ⟨hc, hle⟩ | ⟨-, hc, -⟩
        · have hnum : (pa + c) / 4096 = pa / 4096 + 512 ^ l := by omega
          rw [hnum]
          exact (hshow.congr hlook.base hlook.total).sub (by omega)
        · have hnum : (remaining - c + 4095) / 4096 = 0 := by omega
          rw [hnum]
          exact ⟨by have := hshow.1; omega, by omega⟩
      -- The pages of the rounds to come are behind those of this one.
      have hbehind : ∀ j < (remaining - c + 4095) / 4096,
          va + c + 4096 * j = va + 4096 * (512 ^ l + j) ∧ 512 ^ l + j < (remaining + 4095) / 4096 := by
        intro j hj
        omega
      have hrest : ∀ q, PagesFrom (va + c) ((remaining - c + 4095) / 4096) q →
          PagesFrom va ((remaining + 4095) / 4096) q := by
        rintro q ⟨j, hj, rfl⟩
        obtain ⟨hnum, hlt⟩ := hbehind j hj
        exact ⟨512 ^ l + j, hlt, by rw [hnum]⟩
      have hall : LookBut root (PagesFrom va ((remaining + 4095) / 4096)) s t :=
        hlook'.mono fun q _ h => h.mono (by omega)
      refine wp_mono (mapLoop_spec hw hf ht (by omega) (by omega) hshow' fun hx => ?_) ?_ ?_
      · exact hnew.meetsNoTable (by omega) (by omega) (by omega) (hmeets' hx).2
      · rintro _ u ⟨hu, hlook₂⟩
        exact ⟨hu, hall.trans (hlook₂.mono fun q _ => hrest q)⟩
      · rintro e u ⟨hu, hlook₂, herr⟩
        refine ⟨hu, hall.trans (hlook₂.mono fun q _ => hrest q), herr.imp_right ?_⟩
        rintro ⟨j, hj, hv⟩
        obtain ⟨hnum, hlt⟩ := hbehind j hj
        rw [hnum, hlook'.vacant (length_pathTo _ _) (not_pagesFrom (by omega) (by omega))] at hv
        exact ⟨512 ^ l + j, hlt, hv⟩
    · rintro e t ⟨ht, hgrew, herr⟩
      exact ⟨ht, hgrew.lookBut, herr.imp_right fun hv => ⟨0, by omega, hv⟩⟩

end Shown

end Mm
