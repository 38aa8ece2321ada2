import OnyxKernel.Mm.Calls
import OnyxKernel.Mm.Cost
import OnyxKernel.Mm.RangeSpec

/-!
# What the calls do to memory

A call clears the entries of some pages (`Call.cleared`) and maps some (`Call.mapped`). As long as the
former may be cleared and only frames are shown that may be shown, it keeps the address space in order,
and no page outside of the given ones changes its translation, whether the call succeeds or fails.
-/

namespace Mm

open Infra Onyx StateProg Call
open Onx (userBase userTop userHeapBase)

variable {w : Terms} {other : Nat → Prop} {root va : Nat} {s t : MmState} {m : UserMem}

/-! ## Arithmetic -/

def pageUp (n : Nat) : Nat := (n + 4095) / 4096 * 4096

theorem checkedAdd_eq_some {a b c : Nat} : checkedAdd a b = some c ↔ a + b < 2 ^ 64 ∧ a + b = c := by
  unfold checkedAdd
  split <;> simp_all

theorem pageAlignUp_eq_some {n size : Nat} : pageAlignUp n = some size ↔ n + 4095 < 2 ^ 64 ∧ size = pageUp n := by
  unfold pageAlignUp checkedAdd pageUp
  split
  · simp_all [eq_comm]
  · simp_all

theorem protFlags_pageFlags (prot : Nat) : PageFlags (protFlags prot) := by
  have h : ∀ r x e : Bool, PageFlags (let flags := pteU ||| pteA ||| pteD ||| (if r then pteR else 0) |||
      (if x then pteW else 0) ||| (if e then pteX else 0)
    if flags &&& pteR = 0 ∧ flags &&& pteX = 0 then flags ||| pteR else flags) := by
    intro r x e
    cases r <;> cases x <;> cases e <;> exact ⟨by decide, by decide, by decide⟩
  exact h _ _ _

/-! ## The heap -/

theorem ensureHeapPage_spec (hw : Leafy w) (hs : Space w other root s) : wp (ensureHeapPage root va)
      (fun _ t => Space w other root t ∧ LookBut root (pageOf va) s t)
      (fun _ t => Space w other root t ∧ LookBut root (pageOf va) s t) s := by
  have hf : PageFlags heapFlags := ⟨by decide, by decide, by decide⟩
  unfold ensureHeapPage
  rw [wp_bind, wp_get]
  refine wp_onlyIf (fun _ => ?_) fun _ => ⟨hs, LookBut.refl root _ s⟩
  refine wp_mono (mapFreshPage_spec hw.splits hs hf.lt hf.user
    fun g _ _ => (hw _ _).mpr (pteKind_leafPte g hf.leaf)) ?_ ?_
  · rintro _ t ⟨ht, hkept, -⟩
    exact ⟨ht, hkept.lookBut⟩
  · rintro _ t ⟨ht, hkept, -⟩
    exact ⟨ht, hkept.lookBut.mono fun _ _ h => h.elim⟩

theorem ensureHeapPages_spec (hw : Leafy w) (hs : Space w other root s) (old new : Nat) :
    wp (ensureHeapPages root old new)
      (fun _ t => Space w other root t ∧ LookBut root (PagesFrom (pageUp old) ((pageUp new - pageUp old) / 4096)) s t)
      (fun _ t => Space w other root t ∧ LookBut root (PagesFrom (pageUp old) ((pageUp new - pageUp old) / 4096)) s t)
      s := by
  unfold ensureHeapPages
  split
  · exact ⟨hs, LookBut.refl root _ s⟩
  split
  · rename_i hold hnew
    obtain ⟨-, rfl⟩ := pageAlignUp_eq_some.mp hold
    obtain ⟨-, rfl⟩ := pageAlignUp_eq_some.mp hnew
    refine wp_forUpTo (fun _ t => Space w other root t ∧
      LookBut root (PagesFrom (pageUp old) ((pageUp new - pageUp old) / 4096)) s t) _ _ _
      ⟨hs, LookBut.refl root _ s⟩ ?_
    rintro j t - hj ⟨ht, hlook⟩
    have hpage : ∀ {u : MmState}, LookBut root (pageOf (pageUp old + 4096 * j)) t u →
        LookBut root (PagesFrom (pageUp old) ((pageUp new - pageUp old) / 4096)) s u := fun hu =>
      hlook.trans (hu.mono fun q _ hq => ⟨j, by omega, hq⟩)
    exact wp_mono (ensureHeapPage_spec hw ht) (fun _ u hu => ⟨hu.1, hpage hu.2⟩) fun _ u hu =>
      ⟨hu.1, hpage hu.2⟩
  · exact ⟨hs, LookBut.refl root _ s⟩

/-! ## `mprotect` -/

theorem translateUser_not_vacant (h : translateUser s root va ≠ 0) : vacant s root (pathTo va 3) = false := by
  obtain ⟨table, level, pte, hlevel, hp, rfl, hkind, htest, -⟩ := translateIf_ne_zero h
  exact not_vacant_of_leaf (by omega) hp hkind ⟨valid_of_leaf hkind, by simpa using htest⟩

theorem mapOne_refused (hw : Leafy w) (hs : Space w other root s) {pa flags : Nat}
    (hv : vacant s root (pathTo va 3) = false) : wp (mapOne root va pa flags 0) (fun _ _ => False)
      (fun _ t => Space w other root t ∧ LookBut root noPage s t) s := by
  unfold mapOne
  rw [if_neg (by omega), if_neg (by omega)]
  refine wp_seq (walk_create hw.splits hs va (by omega)) ?_ fun _ _ he => ⟨he.2.space, he.2.grew.lookBut⟩
  rintro ⟨table, i⟩ t ⟨ht, -, hp, rfl⟩
  have hlook : LookBut root noPage s t := ht.grew.lookBut
  rw [wp_bind, readPte, wp_gets]
  split
  · exact ⟨ht.space, hlook⟩
  rename_i hold
  -- Only a leaf at the last level can open the page, and it would be a user entry.
  rw [← hlook.vacant (length_pathTo va 3) id, vacant, look,
    show pathTo va 3 = pathTo va 2 ++ [idx 0 va] from rfl, Radix.find_append hp] at hv
  exfalso
  cases hk : pteKind (t.mem table (idx 0 va)) with
  | empty =>
    rw [Radix.find_cons_empty hk] at hv
    cases hv
  | table f =>
    rw [Radix.find_cons_table hk] at hv
    cases hv
  | leaf =>
    rw [Radix.find_cons_leaf hk] at hv
    simp only [Option.map_some, Option.all_some, leafPage, test_flags pteU _ (by decide), decide_eq_false_iff_not] at hv
    exact hold ⟨valid_of_leaf hk, hv⟩

/-! ## Pages of a call -/

def kernelChooses (m : UserMem) (addr : Nat) (fixed : Bool) : Bool :=
  addr = 0 || (!fixed && translateUser m.mm m.root addr ≠ 0)

/-- Where `resolve_vaddr` puts a mapping. -/
def chosenVaddr (m : UserMem) (addr : Nat) (fixed : Bool) : Nat :=
  if kernelChooses m addr fixed then m.mmapBrk else addr

/-- The heap may end at `addr`. -/
def heapEndOk (addr : Nat) : Bool := userHeapBase ≤ addr && addr ≤ userHeapBase + userHeapSize

def mapFixed (flags : Nat) : Bool := flags &&& 0x10 ≠ 0

/-- The first page whose entry a call clears on purpose, and how many there are. -/
def Call.cleared (m : UserMem) : Call → Nat × Nat
  | brk addr =>
    if heapEndOk addr ∧ addr < m.heapBrk then (pageUp addr, (m.heapBrk - pageUp addr + 4095) / 4096) else (0, 0)
  | mmap addr length _ flags source =>
    match resolves length source with
    | none => (0, 0)
    | some size => if addr ≠ 0 ∧ addr % 4096 = 0 ∧ mapFixed flags then (addr, (size + 4095) / 4096) else (0, 0)
  | munmap addr length =>
    match pageAlignUp (max length 4096) with
    | none => (0, 0)
    | some size =>
      if addr % 4096 = 0 ∧ length ≠ 0 ∧ userRangeOk addr size then (addr, (size + 4095) / 4096) else (0, 0)
  | mprotect _ _ _ => (0, 0)

def Call.mapped (m : UserMem) : Call → Nat × Nat
  | brk addr =>
    if heapEndOk addr ∧ m.heapBrk < addr then (pageUp m.heapBrk, (pageUp addr - pageUp m.heapBrk) / 4096) else (0, 0)
  | mmap addr length _ flags source =>
    match resolves length source with
    | none => (0, 0)
    | some size =>
      let va := chosenVaddr m addr (mapFixed flags)
      if addr % 4096 = 0 ∧ mmapBase ≤ va ∧ va + size ≤ userTop then (va, size / 4096) else (0, 0)
  | _ => (0, 0)

def Call.Clears (w : Terms) (ex : List (Fin 512) → Prop) (m : UserMem) (c : Call) : Prop :=
  ∀ j < (c.cleared m).2, Clearable w m.root ex ((c.cleared m).1 + 4096 * j) m.mm

def Call.Maps (ex : List (Fin 512) → Prop) (m : UserMem) (c : Call) : Prop :=
  ∀ q, PagesFrom (c.mapped m).1 (c.mapped m).2 q → ex q

/-! ## The memory of a running program -/

/-- A program between two calls. -/
structure Running (w : Terms) (m : UserMem) : Prop where
  space : Space w w.foreign m.root m.mm
  heapLow : userHeapBase ≤ m.heapBrk
  heapHigh : m.heapBrk ≤ userHeapBase + userHeapSize

/-- A call, or a part of it, has changed the given pages at most. -/
structure After (w : Terms) (ex : List (Fin 512) → Prop) (m m' : UserMem) : Prop where
  running : Running w m'
  root : m'.root = m.root
  look : LookBut m.root ex m.mm m'.mm

section

variable {ex : List (Fin 512) → Prop} {m' : UserMem}

theorem After.refl (h : Running w m) : After w ex m m := ⟨h, rfl, LookBut.refl m.root ex m.mm⟩

theorem After.onMm (h : Running w m) (hs : Space w w.foreign m.root t) (hl : LookBut m.root ex m.mm t) :
    After w ex m { m with mm := t } :=
  ⟨⟨hs, h.heapLow, h.heapHigh⟩, rfl, hl⟩

theorem After.trans {m'' : UserMem} (h : After w ex m m') (h' : After w ex m' m'') : After w ex m m'' :=
  ⟨h'.running, h'.root.trans h.root, h.look.trans (h.root ▸ h'.look)⟩

variable {addr flags length prot size : Nat} {source : Source}

theorem sysBrk_spec (hw : Leafy w) (h : Running w m) (hclear : (brk addr).Clears w ex m)
    (hmap : (brk addr).Maps ex m) :
    wp (sysBrk addr) (fun _ => After w ex m) (fun _ => After w ex m) m := by
  unfold sysBrk
  rw [wp_bind, wp_get]
  split
  · exact .refl h
  split
  · exact .refl h
  have hok : heapEndOk addr = true := by
    simp only [heapEndOk, Bool.and_eq_true, decide_eq_true_eq]
    omega
  have hend : userHeapBase + userHeapSize + 4095 < 2 ^ 64 := by decide
  -- The end moves last, after the pages.
  have hlast : ∀ m' : UserMem, After w ex m m' →
      wp (do modify fun m : UserMem => { m with heapBrk := addr }; pure addr : CallProg Nat)
        (fun _ => After w ex m) (fun _ => After w ex m) m' := by
    intro m' h'
    rw [wp_bind, wp_modify, wp_pure]
    have hlow : userHeapBase ≤ addr := by omega
    have hhigh : addr ≤ userHeapBase + userHeapSize := by omega
    exact ⟨⟨h'.running.space, hlow, hhigh⟩, h'.root, h'.look⟩
  have hshrink : wp (onlyIf (addr < m.heapBrk) (onMm (shrinkHeap m.root addr m.heapBrk)))
      (fun _ m' => After w ex m m' ∧ (m.heapBrk < addr → m' = m)) (fun _ => After w ex m) m := by
    refine wp_onlyIf (fun hlt => ?_) fun _ => ⟨.refl h, fun _ => rfl⟩
    rw [wp_onMm]
    have hlt64 : addr + 4095 < 2 ^ 64 := by omega
    have halign : pageAlignUp addr = some (pageUp addr) := pageAlignUp_eq_some.mpr ⟨hlt64, rfl⟩
    have hcleared : (brk addr).cleared m = (pageUp addr, (m.heapBrk - pageUp addr + 4095) / 4096) :=
      if_pos ⟨hok, hlt⟩
    unfold Clears at hclear
    rw [hcleared] at hclear
    unfold shrinkHeap
    rw [halign]
    exact wp_mono (unmap_spec h.space hclear)
      (fun _ t ht => ⟨.onMm h ht.1 ht.2.1, fun hgt => absurd hgt (Nat.lt_asymm hlt)⟩) fun _ t he => he
  refine wp_then hshrink fun _ m' hm' => ?_
  obtain ⟨hm', hsame⟩ := hm'
  have hgrow : wp (onlyIf (m.heapBrk < addr) (onMm (ensureHeapPages m.root m.heapBrk addr)))
      (fun _ => After w ex m) (fun _ => After w ex m) m' := by
    refine wp_onlyIf (fun hlt => ?_) fun _ => hm'
    obtain rfl := hsame hlt
    have hmapped : (brk addr).mapped m' = (pageUp m'.heapBrk, (pageUp addr - pageUp m'.heapBrk) / 4096) :=
      if_pos ⟨hok, hlt⟩
    unfold Maps at hmap
    rw [hmapped] at hmap
    exact wp_onMm.mpr (wp_mono (ensureHeapPages_spec hw h.space m'.heapBrk addr)
      (fun _ t ht => .onMm h ht.1 (ht.2.mono fun q _ => hmap q))
      fun _ t ht => .onMm h ht.1 (ht.2.mono fun q _ => hmap q))
  exact wp_then hgrow fun _ m' => hlast m'

theorem sysMunmap_spec (h : Running w m) (hclear : (munmap addr length).Clears w ex m) :
    wp (sysMunmap addr length) (fun _ => After w ex m) (fun _ => After w ex m) m := by
  unfold sysMunmap
  split
  · exact .refl h
  split
  · exact .refl h
  rename_i size hsize
  split
  · exact .refl h
  rename_i hrange
  have hcleared : (munmap addr length).cleared m = (addr, (size + 4095) / 4096) := by
    have h1 : addr % 4096 = 0 := by omega
    have h2 : length ≠ 0 := by omega
    have h3 : userRangeOk addr size = true := by
      cases hr : userRangeOk addr size with
      | true => rfl
      | false => exact absurd hr hrange
    unfold cleared
    simp only [hsize]
    rw [if_pos ⟨h1, h2, h3⟩]
  unfold Clears at hclear
  rw [hcleared] at hclear
  rw [wp_bind, wp_get, wp_bind, wp_onMm]
  exact wp_imp (unmap_spec h.space hclear) fun _ t ht => .onMm h ht.1 ht.2.1

theorem sysMprotect_spec (hw : Leafy w) (h : Running w m) (addr length prot : Nat) :
    wp (sysMprotect addr length prot) (fun _ => After w ex m) (fun _ => After w ex m) m := by
  unfold sysMprotect
  split
  · exact .refl h
  split
  · exact .refl h
  split
  · exact .refl h
  rename_i size _ _ stop _
  rw [wp_bind, wp_get, wp_bind, wp_onMm]
  have hloop : wp (forUpTo ((stop - addr) / 4096) 0 fun j => protectPage m.root (addr + 4096 * j) (protFlags prot))
      (fun _ t => Space w w.foreign m.root t ∧ LookBut m.root noPage m.mm t)
      (fun _ t => Space w w.foreign m.root t ∧ LookBut m.root noPage m.mm t) m.mm := by
    refine wp_forUpTo (fun _ t => Space w w.foreign m.root t ∧ LookBut m.root noPage m.mm t) _ _ _
      ⟨h.space, LookBut.refl m.root noPage m.mm⟩ ?_
    rintro j t - - ⟨ht, hlook⟩
    unfold protectPage
    rw [wp_bind, wp_get]
    refine wp_onlyIf (fun hne => ?_) fun _ => ⟨ht, hlook⟩
    exact wp_mono (mapOne_refused hw ht (translateUser_not_vacant hne)) (fun _ _ hf => hf.elim)
      fun _ u hu => ⟨hu.1, hlook.trans hu.2⟩
  have hall : ∀ {t : MmState}, LookBut m.root noPage m.mm t → LookBut m.root ex m.mm t := fun hl =>
    hl.mono fun _ _ hq => hq.elim
  exact wp_mono hloop (fun _ t ht => .onMm h ht.1 (hall ht.2)) fun _ t ht => .onMm h ht.1 (hall ht.2)

/-! ## `mmap` -/

def Framebuffer.frames (fb : Framebuffer) : Nat := (fb.base % 4096 + fb.size + 4095) / 4096

/-- What a source shows may be shown, and takes the place of no table if none may get lost. -/
def Source.Shown (w : Terms) (s : MmState) (root va length : Nat) : Source → Prop
  | .device (some fb) => Showable w s (fb.base / 4096) fb.frames ∧
      (w.exact → meetsNoTable s root ((min length fb.size + fb.base % 4096 + 4095) / 4096) va
        (fb.base - fb.base % 4096) (min length fb.size + fb.base % 4096) = true)
  | _ => True

theorem resolves_eq_some (h : resolves length source = some size) :
    length ≠ 0 ∧ (pageAlignUp (max length 4096)).isNone = false ∧ mmapSize length source = some size ∧
      size % 4096 = 0 := by
  have hmul : ∀ {n : Nat}, pageAlignUp n = some size → size % 4096 = 0 := by
    intro n hn
    obtain ⟨-, rfl⟩ := pageAlignUp_eq_some.mp hn
    exact Nat.mul_mod_left _ _
  unfold resolves at h
  split at h
  · cases h
  · cases h
  split at h
  · cases h
  rename_i hargs
  rw [not_or, Bool.not_eq_true] at hargs
  refine ⟨hargs.1, hargs.2, h, ?_⟩
  unfold mmapSize at h
  split at h
  · obtain ⟨len, -, hlen⟩ := Option.bind_eq_some_iff.mp h
    exact hmul hlen
  · exact hmul h

theorem le_of_mappingSize {skip : Nat} (h : mappingSize length skip = some size) : length + skip ≤ size := by
  obtain ⟨len, hlen, hup⟩ := Option.bind_eq_some_iff.mp h
  obtain ⟨-, rfl⟩ := checkedAdd_eq_some.mp hlen
  obtain ⟨-, rfl⟩ := pageAlignUp_eq_some.mp hup
  unfold pageUp
  omega

theorem Source.Shown.after (h : source.Shown w s root va length)
    (hl : LookBut root ex s t) (hnew : NewTables [] root s t) (hsize : resolves length source = some size)
    (hva : 0 < va) (hend : va + size ≤ 2 ^ 39) : source.Shown w t root va length := by
  cases source with
  | anon | bad e | file => trivial
  | device screen =>
    cases screen with
    | none => trivial
    | some fb =>
      obtain ⟨-, -, hmmap, -⟩ := resolves_eq_some hsize
      have hle : length + fb.base % 4096 ≤ size := le_of_mappingSize hmmap
      have hnew' : NewTables (pathTo 0 0) root s t := hnew
      exact ⟨h.1.congr hl.base hl.total, fun hx => hnew'.meetsNoTable (by decide) hva (by omega) (h.2 hx)⟩

theorem devfsMmap_spec (hw : Leafy w) (hs : Space w other root s) {fb : Framebuffer}
    (hf : PageFlags flags) (hsize : mappingSize length (fb.base % 4096) = some size) (hmod : size % 4096 = 0)
    (hend : va + size ≤ 2 ^ 39)
    (hshow : (Source.device (some fb)).Shown w s root va length) :
    Fills w other root va (size / 4096) (devfsMmap root (some fb) va length flags) s := by
  have hle : length + fb.base % 4096 ≤ size := le_of_mappingSize hsize
  have hpages : (min length fb.size + fb.base % 4096 + 4095) / 4096 ≤ size / 4096 := by omega
  have hframe : (fb.base - fb.base % 4096) / 4096 = fb.base / 4096 := by omega
  unfold Fills devfsMmap
  rw [wp_bind]
  have hshow' : Showable w s ((fb.base - fb.base % 4096) / 4096)
      ((min length fb.size + fb.base % 4096 + 4095) / 4096) := by
    rw [hframe]
    exact hshow.1.take (by unfold Framebuffer.frames; omega)
  have hmap :
      wp (map root va (fb.base - fb.base % 4096) (min length fb.size + fb.base % 4096) (flags ||| pteA ||| pteD))
      _ _ s := mapLoop_spec hw ((hf.or (c := pteA) (by decide)).or (c := pteD) (by decide)) hs
    (fun _ => by omega) (by omega) hshow' hshow.2
  refine wp_mono hmap (fun _ t ht => ⟨ht.1, ht.2.mono fun q _ hq => hq.mono hpages⟩) ?_
  rintro e t ⟨ht, hlook, herr⟩
  refine ⟨ht, hlook.mono fun q _ hq => hq.mono hpages, herr.imp_right ?_⟩
  rintro ⟨j, hj, hv⟩
  exact ⟨j, by omega, hv⟩

theorem mapSource_spec (hw : Leafy w) (hs : Space w other root s)
    (hsize : resolves length source = some size) (hend : va + size ≤ 2 ^ 39)
    (hshow : source.Shown w s root va length) :
    wp (mapSource source length size (protFlags prot) root va)
      (fun _ t => Space w other root t ∧ LookBut root (PagesFrom va (size / 4096)) s t)
      (fun e t => Space w other root t ∧ LookBut root (PagesFrom va (size / 4096)) s t ∧
        (t = s ∨ e = .noMem ∨ ∃ j < size / 4096, vacant s root (pathTo (va + 4096 * j) 3) = false)) s := by
  have hf := protFlags_pageFlags prot
  obtain ⟨-, -, hmmap, hmod⟩ := resolves_eq_some hsize
  cases source with
  | anon | bad _ | file =>
    have hnum : (size + 4095) / 4096 = size / 4096 := by omega
    have hmap : Fills w other root va _ (mapAnon root va size (protFlags prot)) s := mapAnon_spec hw hs hf (by omega)
    rw [hnum] at hmap
    exact wp_seq hmap (fun _ t ht => ht) fun e t he => ⟨he.1, he.2.1, .inr he.2.2⟩
  | device screen =>
    cases screen with
    | none => exact ⟨hs, LookBut.refl root _ s, .inl rfl⟩
    | some fb =>
      exact wp_mono (devfsMmap_spec hw hs hf hmmap hmod hend hshow) (fun _ _ ht => ht)
        fun e t he => ⟨he.1, he.2.1, .inr he.2.2⟩

theorem costs_mapSource (hsize : resolves length source = some size) (flags root va : Nat) :
    Costs (3 * (size / 4096)) (size / 4096) (mapSource source length size flags root va) := by
  obtain ⟨-, -, hmmap, hmod⟩ := resolves_eq_some hsize
  have hanon : Costs (3 * (size / 4096)) (size / 4096) (do mapAnon root va size flags; pure va : MmProg Nat) := by
    have hnum : (size + 4095) / 4096 = size / 4096 := by omega
    have hmap := (costs_mapAnon root va size flags).bind fun _ => costs_pure va
    rwa [hnum, Nat.add_zero, Nat.add_zero] at hmap
  cases source with
  | anon | bad e | file => exact hanon
  | device screen =>
    cases screen with
    | none => exact (costs_fail (by decide)).mono (Nat.zero_le _) (Nat.zero_le _)
    | some fb =>
      have hle : length + fb.base % 4096 ≤ size := le_of_mappingSize hmmap
      refine ((costs_mapLoop _ _ _ _ _ _).bind fun _ => costs_pure _).mono ?_ (Nat.zero_le _)
      omega

theorem chooseVaddr_spec (h : Running w m) {fixed : Bool}
    (hclear : addr ≠ 0 → addr % 4096 = 0 → fixed = true →
      ∀ j < (size + 4095) / 4096, Clearable w m.root ex (addr + 4096 * j) m.mm) :
    wp (chooseVaddr addr size fixed)
      (fun r m' => r = (chosenVaddr m addr fixed, kernelChooses m addr fixed) ∧ addr % 4096 = 0 ∧
        After w ex m m' ∧ NewTables [] m.root m.mm m'.mm ∧ (kernelChooses m addr fixed = true → m' = m))
      (fun _ m' => m' = m) m := by
  have hsame : ∀ {r : Nat × Bool}, r = (chosenVaddr m addr fixed, kernelChooses m addr fixed) → addr % 4096 = 0 →
      (r = (chosenVaddr m addr fixed, kernelChooses m addr fixed) ∧ addr % 4096 = 0 ∧
        After w ex m m ∧ NewTables [] m.root m.mm m.mm ∧ (kernelChooses m addr fixed = true → m = m)) :=
    fun hr ha => ⟨hr, ha, .refl h, NewTables.refl [] m.root m.mm, fun _ => rfl⟩
  unfold chooseVaddr
  rw [wp_bind, wp_get]
  split
  · rename_i h0
    have hk : kernelChooses m addr fixed = true := by simp [kernelChooses, h0]
    exact hsame (by rw [chosenVaddr, hk, if_pos rfl]) (by rw [h0])
  rename_i h0
  split
  · rfl
  rename_i halign
  have ha : addr % 4096 = 0 := not_not.mp halign
  split
  · rename_i hfixed
    have hk : kernelChooses m addr fixed = false := by simp [kernelChooses, h0, hfixed]
    rw [wp_bind, wp_onMm]
    refine wp_imp (unmap_spec h.space (hclear h0 ha hfixed)) fun _ t ht => ?_
    refine ⟨by rw [chosenVaddr, hk, if_neg (by decide)], ha, .onMm h ht.1 ht.2.1, ht.2.2, fun hc => ?_⟩
    rw [hk] at hc
    cases hc
  rename_i hfixed
  split
  · rename_i huser
    have hk : kernelChooses m addr fixed = true := by simp [kernelChooses, hfixed, huser]
    exact hsame (by rw [chosenVaddr, hk, if_pos rfl]) ha
  · rename_i huser
    have hk : kernelChooses m addr fixed = false := by
      have hz : translateUser m.mm m.root addr = 0 := not_not.mp huser
      simp [kernelChooses, h0, hz]
    exact hsame (by rw [chosenVaddr, hk, if_neg (by decide)]) ha

/-- Memory suffices for a mapping at `va`, and all its pages are vacant. -/
def mmapReady (m : UserMem) (va size : Nat) : Bool :=
  3 * (size / 4096) ≤ freeFrames m.mm && m.mm.userPages + size / 4096 ≤ userMemMaxPages &&
    (List.range (size / 4096)).all fun j => vacant m.mm m.root (pathTo (va + 4096 * j) 3)

theorem mmapReady_iff : mmapReady m va size = true ↔
    3 * (size / 4096) ≤ freeFrames m.mm ∧ m.mm.userPages + size / 4096 ≤ userMemMaxPages ∧
      ∀ j < size / 4096, vacant m.mm m.root (pathTo (va + 4096 * j) 3) = true := by
  simp only [mmapReady, Bool.and_eq_true, decide_eq_true_eq, List.all_eq_true, List.mem_range, and_assoc]

def Call.Shows (w : Terms) (m : UserMem) : Call → Prop
  | mmap addr length _ flags source => source.Shown w m.mm m.root (chosenVaddr m addr (mapFixed flags)) length
  | _ => True

theorem sysMmap_refused (addr prot flags : Nat) (h : resolves length source = none) :
    ∃ e, sysMmap addr length prot flags source = fail e := by
  unfold sysMmap
  split
  · exact ⟨_, rfl⟩
  rename_i hlen
  split
  · exact ⟨_, rfl⟩
  rename_i hup
  have hargs : ¬ (length = 0 ∨ (pageAlignUp (max length 4096)).isNone = true) := not_or.mpr ⟨hlen, hup⟩
  cases source with
  | bad e => exact ⟨e, rfl⟩
  | file => exact ⟨_, rfl⟩
  | anon | device screen =>
    simp only [resolves, if_neg hargs] at h
    simp only [h]
    exact ⟨_, rfl⟩

theorem sysMmap_eq (h : resolves length source = some size) :
    sysMmap addr length prot flags source =
      resolveVaddr addr size (mapFixed flags) (mapSource source length size (protFlags prot)) := by
  obtain ⟨hlen, hup, hsize, -⟩ := resolves_eq_some h
  unfold sysMmap
  rw [if_neg hlen, if_neg (by rw [hup]; decide)]
  cases source with
  | bad e | file => cases h
  | anon | device screen =>
    simp only [hsize]
    rfl

/-- Where the kernel chooses the range, a call that fails has changed nothing, or memory was short or a page
was open. -/
def MmapFailed (addr length flags : Nat) (source : Source) (m m' : UserMem) : Prop :=
  kernelChooses m addr (mapFixed flags) = true → m'.mm = m.mm ∨
    ∃ size, resolves length source = some size ∧ mmapBase ≤ m.mmapBrk ∧ m.mmapBrk + size ≤ userTop ∧
      mmapReady m m.mmapBrk size = false

/-- `mmap` changes the pages of its range, and of the range that it clears. -/
theorem sysMmap_spec (hw : Leafy w) (h : Running w m)
    (hclear : (mmap addr length prot flags source).Clears w ex m)
    (hmap : (mmap addr length prot flags source).Maps ex m)
    (hshow : (mmap addr length prot flags source).Shows w m) :
    wp (sysMmap addr length prot flags source) (fun _ => After w ex m)
      (fun _ m' => After w ex m m' ∧ MmapFailed addr length flags source m m') m := by
  have hsame : After w ex m m ∧ MmapFailed addr length flags source m m := ⟨.refl h, fun _ => .inl rfl⟩
  cases hsize : resolves length source with
  | none =>
    obtain ⟨e, he⟩ := sysMmap_refused addr prot flags hsize
    rw [he]
    exact hsame
  | some size =>
    rw [sysMmap_eq hsize]
    unfold Clears cleared at hclear
    unfold Maps mapped at hmap
    simp only [hsize] at hclear hmap
    have hclear' : addr ≠ 0 → addr % 4096 = 0 → mapFixed flags = true →
        ∀ j < (size + 4095) / 4096, Clearable w m.root ex (addr + 4096 * j) m.mm := by
      intro h0 ha hf
      rw [if_pos ⟨h0, ha, hf⟩] at hclear
      exact hclear
    refine wp_seq (chooseVaddr_spec h hclear') ?_ ?_
    · rintro ⟨va, advance⟩ m' ⟨hr, ha, hafter, hnew, hkeep⟩
      obtain ⟨hva, rfl⟩ := Prod.mk.inj hr
      rw [← hva] at hmap
      have hstop : After w ex m m' ∧ MmapFailed addr length flags source m m' :=
        ⟨hafter, fun hk => .inl (by rw [hkeep hk])⟩
      simp only
      split
      · exact hstop
      rename_i stop hadd
      obtain ⟨-, rfl⟩ := checkedAdd_eq_some.mp hadd
      split
      · exact hstop
      have hbase : mmapBase ≤ va := by omega
      have htop : va + size ≤ userTop := by omega
      have htop39 : userTop ≤ 2 ^ 39 := by decide
      rw [if_pos ⟨ha, hbase, htop⟩] at hmap
      have hshow' : source.Shown w m'.mm m'.root va length := by
        rw [hafter.root]
        have hfirst : source.Shown w m.mm m.root va length := by rw [hva]; exact hshow
        exact hfirst.after hafter.look hnew hsize (lt_of_lt_of_le (by decide) hbase) (by omega)
      rw [wp_bind, wp_get, wp_bind, wp_onMm]
      refine wp_mono (wp_and (mapSource_spec hw hafter.running.space hsize (by omega) hshow')
        (costs_mapSource hsize _ _ _ m'.mm)) ?_ ?_
      · rintro r t ⟨⟨ht, hlook⟩, -⟩
        have hdone : After w ex m { m' with mm := t } :=
          hafter.trans (.onMm hafter.running ht (hlook.mono fun q _ => hmap q))
        rw [wp_bind]
        exact wp_onlyIf (fun _ => ⟨⟨hdone.running.space, hdone.running.heapLow, hdone.running.heapHigh⟩,
          hdone.root, hdone.look⟩) fun _ => hdone
      · rintro e t ⟨⟨ht, hlook, herr⟩, hcost⟩
        refine ⟨hafter.trans (.onMm hafter.running ht (hlook.mono fun q _ => hmap q)), fun hk => ?_⟩
        obtain rfl := hkeep hk
        rcases herr with rfl | herr
        · exact .inl rfl
        rw [chosenVaddr, hk, if_pos rfl] at hva
        subst hva
        refine .inr ⟨size, hsize, hbase, htop, Bool.eq_false_iff.mpr fun hready => ?_⟩
        obtain ⟨hfree, hbudget, hvacant⟩ := mmapReady_iff.mp hready
        rcases herr with rfl | ⟨j, hj, hopen⟩
        · rcases hcost rfl with hc | hc <;> omega
        · rw [hvacant j hj] at hopen
          cases hopen
    · rintro _ m' rfl
      exact hsame

theorem Call.after (hw : Leafy w) (h : Running w m) {c : Call} (hclear : c.Clears w ex m) (hmap : c.Maps ex m)
    (hshow : c.Shows w m) : After w ex m (c.run m) := by
  have hspec : wp c.prog (fun _ => After w ex m) (fun _ => After w ex m) m := by
    cases c with
    | brk addr =>
      rw [prog]
      exact sysBrk_spec hw h hclear hmap
    | mmap addr length prot flags source =>
      rw [prog]
      exact wp_mono (sysMmap_spec hw h hclear hmap hshow) (fun _ _ hm => hm) fun _ _ hm => hm.1
    | munmap addr length =>
      rw [prog]
      exact sysMunmap_spec h hclear
    | mprotect addr length prot =>
      rw [prog]
      exact sysMprotect_spec hw h addr length prot
  unfold wp at hspec
  unfold run
  split at hspec <;> rename_i hrun <;> rw [hrun] <;> exact hspec

end

end Mm
