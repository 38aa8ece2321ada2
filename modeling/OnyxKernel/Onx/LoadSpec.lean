import OnyxKernel.Mm.PageSpec
import OnyxKernel.Onx.Load

/-!
# What the loader does to memory

The loader works on a fresh root. Every step keeps the address space in order (`Loading`) and takes no
user page away (`Upgraded`), whether it returns or fails. This needs that the flags of the segments
reach no frame number: they keep to a rule `FlagRule`, which differs from result to result.
-/

namespace Onx

open Infra Onyx Mm StateProg

/-- The flags that entries of user pages may have. -/
structure FlagRule where
  ok : Nat → Prop
  lt : ∀ {c : Nat}, ok c → c < 1024
  or : ∀ {a b : Nat}, ok a → ok b → ok (a ||| b)
  valid : ∀ {c : Nat}, ok c → ok (pteV ||| c)

/-- A load to be specified: the state it begins in, the pages of the allocator that are lent, and
whether no page may get lost. -/
structure LoadCase where
  rule : FlagRule
  start : MmState
  lent : Nat → Bool
  lent_used : ∀ f, lent f = true → start.Used f
  exact : Prop

/-- While a program is loaded every user entry is at the last level, shows a page of the allocator that is
not lent, and keeps to the rule. -/
def LoadCase.terms (L : LoadCase) : Terms where
  foreign := L.start.Used
  lent := L.lent
  lent_foreign := L.lent_used
  entry n e := n = 2 ∧ (isManaged L.start (ppnOf e) = true ∧ L.lent (ppnOf e) = false) ∧
    L.rule.ok (e &&& pteFlagsMask)
  exact := L.exact

def Ruled (rule : FlagRule) (seg : OnxSegment) : Prop := 0 < seg.memsz → rule.ok seg.pteFlags

/-- The address space under construction. -/
structure Loading (L : LoadCase) (root : Nat) (t : MmState) : Prop where
  space : Space L.terms L.start.Used root t
  base : t.base = L.start.base
  total : t.total = L.start.total
  low : 0 < L.start.base

section

variable {L : LoadCase} {root va : Nat} {t u : MmState} {seg : OnxSegment}

theorem splits_terms : Splits L.terms.entry := fun _ _ _ hn _ h => absurd h.1 (by omega)

theorem Loading.next (h : Loading L root t) (hs : Space L.terms L.start.Used root u)
    (hb : u.base = t.base) (ht : u.total = t.total) : Loading L root u :=
  ⟨hs, hb.trans h.base, ht.trans h.total, h.low⟩

theorem Loading.quiet (h : Loading L root t) (hq : Quiet root t u) : Loading L root u :=
  h.next (h.space.quiet hq) hq.base hq.total

variable {E : Errno → MmState → Prop} {compressed : Bool} {flags : Nat} {image : List UInt8}

theorem Loading.entry_leafPte (h : Loading L root t) {g : Nat} (hok : L.rule.ok flags)
    (hg : isManaged t g = true) (hlent : L.lent g = false) : L.terms.entry 2 (leafPte flags g) := by
  have hbounds : t.base ≤ g ∧ g < t.base + t.total := by simpa [isManaged] using hg
  have hlt : g < 2 ^ 44 := lt_of_lt_of_le hbounds.2 h.space.bound
  refine ⟨rfl, ?_, ?_⟩
  · rw [ppnOf_leafPte (L.rule.lt hok) hlt, ← isManaged_congr h.base h.total]
    exact ⟨hg, hlent⟩
  · rw [leafPte_and _ _ (by decide), and_flagsMask (L.rule.lt (L.rule.valid hok))]
    exact L.rule.valid hok

theorem mapFreshPage_loads (h : Loading L root t) (hok : L.rule.ok flags) (hu : flags &&& pteU ≠ 0) :
    wp (mapFreshPage root va flags)
      (fun _ u => Loading L root u ∧ Upgraded root t u ∧ PageHas root va flags u)
      (fun _ => Loading L root) t := by
  refine wp_mono (mapFreshPage_spec splits_terms h.space (L.rule.lt hok) hu
    fun g hg hlent => h.entry_leafPte hok hg hlent) (fun _ u hp => ?_) fun _ u he => ?_
  · obtain ⟨hspace, hkept, hnew, hpage⟩ := hp
    exact ⟨h.next hspace hkept.base hkept.total, hkept.upgraded hnew, hpage.has hu⟩
  · exact h.next he.1 he.2.1.base he.2.1.total

/-! ## Segments -/

theorem pteFlags_user (seg : OnxSegment) : seg.pteFlags &&& pteU ≠ 0 := by
  have hor : seg.pteFlags = pteU ||| (seg.flags ||| pteA ||| pteD) := by
    rw [OnxSegment.pteFlags]
    ac_rfl
  rw [hor]
  exact or_and_ne_zero (by decide)

theorem Loading.found (h : Loading L root t) (hne : translateUser t root va ≠ 0) :
    ∃ table, sv39.descend t.mem root (pathTo va 2) = some table ∧ IsUser (t.mem table (idx 0 va)) ∧
      root ≠ 0 ∧ findLeaf t.mem va 3 root = some (table, 0, t.mem table (idx 0 va)) := by
  have hroot : root ≠ 0 := by
    rintro rfl
    exact hne rfl
  obtain ⟨table, level, pte, hlevel, hp, rfl, hkind, htest, hfind⟩ := translateIf_ne_zero hne
  have hu : IsUser (t.mem table (idx level va)) := ⟨valid_of_leaf hkind, by simpa using htest⟩
  have hlen := length_pathTo va (2 - level)
  have hentry := (h.space.user (by omega) hp hu).1
  obtain rfl : level = 0 := by omega
  exact ⟨table, hp, hu, hroot, hfind⟩

theorem updateUserPte_loads (h : Loading L root t) {table : Nat}
    (hp : sv39.descend t.mem root (pathTo va 2) = some table) (hu : IsUser (t.mem table (idx 0 va)))
    (hroot : root ≠ 0) (hfind : findLeaf t.mem va 3 root = some (table, 0, t.mem table (idx 0 va)))
    (hok : L.rule.ok flags) : wp (updateUserPte root va flags)
      (fun b u => b = true ∧ Loading L root u ∧ Upgraded root t u ∧
        PageHas root va flags u)
      (fun _ => Loading L root) t := by
  have hlen := length_pathTo va 2
  have hold := h.space.user (by omega) hp hu
  have hrun : (updateUserPte root va flags).run t =
      (.ok true, t.setWord table (idx 0 va) (t.mem table (idx 0 va) ||| flags)) := by
    simp only [updateUserPte, if_neg hroot, hfind]
    rw [if_neg (by rintro (hc | hc); exacts [hu.2 hc, hc rfl])]
  refine wp_of_run_ok hrun ⟨rfl, ?_, h.space.reflag_upgraded hp, table, ?_, ?_, ?_⟩
  · refine h.next (h.space.reflag hlen hp hu (L.rule.lt hok) ⟨rfl, ?_, ?_⟩) rfl rfl
    · rw [ppnOf_or (L.rule.lt hok)]
      exact hold.2.1
    · rw [Nat.and_or_distrib_right, and_flagsMask (L.rule.lt hok)]
      exact L.rule.or hold.2.2 hok
  · exact (h.space.reflag_upgraded hp).tables (by omega) hp
  · rw [setWord_entry rfl]
    exact hu.or flags
  · rw [setWord_entry rfl, Nat.or_comm]
    exact and_or_self _ _

theorem mapSegmentPage_loads (h : Loading L root t) (hok : L.rule.ok seg.pteFlags) :
    wp (mapSegmentPage root seg va)
      (fun _ u => Loading L root u ∧ Upgraded root t u ∧
        PageHas root va seg.pteFlags u)
      (fun _ => Loading L root) t := by
  unfold mapSegmentPage
  rw [wp_bind, wp_get]
  split
  · exact mapFreshPage_loads h hok (pteFlags_user seg)
  rename_i hne
  obtain ⟨table, hp, hu, hroot, hfind⟩ := h.found hne
  have hexisting : pteUserFlags t root va = t.mem table (idx 0 va) &&& pteFlagsMask := by
    simp only [pteUserFlags, if_neg hroot, hfind, if_neg hu.2]
  simp only [hexisting]
  split
  · refine wp_then (updateUserPte_loads h hp hu hroot hfind hok) fun b u hb => ?_
    obtain ⟨rfl, hrest⟩ := hb
    exact hrest
  · rename_i hsame
    refine ⟨h, .refl root t, table, hp, hu, ?_⟩
    have hall : seg.pteFlags &&& (t.mem table (idx 0 va) &&& pteFlagsMask) = seg.pteFlags := by
      rw [← not_not.mp hsame, Nat.or_comm]
      exact and_or_self _ _
    exact and_trans hall (by rw [Nat.and_assoc, Nat.and_comm pteFlagsMask, ← Nat.and_assoc, Nat.and_self])

/-! ## Data -/

/-- Every address from `lo` to `hi` is in a user page. -/
def Pages (root lo hi : Nat) (t : MmState) : Prop := ∀ a, lo ≤ a → a < hi → UserPage root (4096 * (a / 4096)) t

theorem UserPage.upgraded (h : UserPage root va t) (hup : Upgraded root t u) : UserPage root va u := by
  obtain ⟨table, hp, hu⟩ := h
  have hlen := length_pathTo va 2
  exact ⟨table, hup.tables (by omega) hp, (hup.user hlen hp hu).1⟩

theorem Pages.upgraded {lo hi : Nat} (h : Pages root lo hi t) (hup : Upgraded root t u) :
    Pages root lo hi u := fun a h1 h2 => UserPage.upgraded (h a h1 h2) hup

theorem writeBytes_loads (h : Loading L root t) {test : Nat → Bool} {bytes : List UInt8} {a : Nat}
    (hlen : a % 4096 + bytes.length ≤ 4096) (hu : UserPage root (4096 * (a / 4096)) t) :
    wp (writeBytes (translateIf test t root (a - a % 4096) + a % 4096) bytes)
      (fun _ u => Loading L root u ∧ Upgraded root t u) E t := by
  have hpage : a - a % 4096 = 4096 * (a / 4096) := by omega
  have hlow : 0 < t.base := h.base ▸ h.low
  rw [hpage]
  have hframe : ¬ sv39.IsTable t.mem root ((translateIf test t root (4096 * (a / 4096)) + a % 4096) / 4096) :=
    h.space.translated_not_table hlow (Nat.mul_mod_right 4096 _) hu (by omega)
  have hoff : (translateIf test t root (4096 * (a / 4096)) + a % 4096) % 4096 = a % 4096 := by
    obtain ⟨table, hp, -⟩ := hu
    have hroot : root ≠ 0 := fun he =>
      h.space.zero_not_table hlow (he ▸ ⟨[], by show 0 < 3; omega, rfl⟩)
    rcases translateIf_userPage test hroot (Nat.mul_mod_right 4096 _) hp with he | he <;> rw [he] <;> omega
  have hquiet : Quiet root t
      (t.setBytes (translateIf test t root (4096 * (a / 4096)) + a % 4096) bytes) :=
    quiet_setBytes (by rw [hoff]; exact hlen) hframe
  exact ⟨h.quiet hquiet, hquiet.upgraded⟩

/-- The program keeps what has been loaded, also when it fails. -/
abbrev Loads {α : Type} (L : LoadCase) (root : Nat) (p : MmProg α) (t : MmState) : Prop :=
  wp p (fun _ u => Loading L root u ∧ Upgraded root t u) (fun _ => Loading L root) t

theorem storeBytes_loads : ∀ {fuel a : Nat} {bytes : List UInt8} {t : MmState}, Loading L root t →
    Pages root a (a + bytes.length) t → Loads L root (storeBytes root fuel a bytes) t
  | 0, _, _, t, h, _ => ⟨h, .refl root t⟩
  | fuel + 1, a, bytes, t, h, hpages => by
    unfold Loads storeBytes
    split
    · exact ⟨h, .refl root t⟩
    rename_i hne
    have hpos : 0 < bytes.length := List.length_pos_iff.mpr hne
    rw [wp_bind, wp_get]
    refine wp_then (writeBytes_loads h ?_ (hpages a (Nat.le_refl a) (by omega))) fun _ u hu => ?_
    · rw [List.length_take]
      omega
    obtain ⟨hu, hup⟩ := hu
    refine wp_imp (storeBytes_loads hu fun b h1 h2 => ?_) fun _ v hv => ⟨hv.1, hup.trans hv.2⟩
    rw [List.length_drop] at h2
    exact hpages.upgraded hup b (by omega) (by omega)

theorem decompressLoop_loads {src : List UInt8} {lo hi : Nat} :
    ∀ {fuel inOff a : Nat} {t : MmState}, Loading L root t → Pages root lo hi t → lo ≤ a →
      Loads L root (decompressLoop root src hi fuel inOff a) t
  | 0, _, _, t, h, _, _ => ⟨h, .refl root t⟩
  | fuel + 1, inOff, a, t, h, hpages, hlo => by
    unfold decompressLoop
    split
    · exact ⟨h, .refl root t⟩
    -- Both kinds of run store at most as many bytes as the file still has, and go on after them.
    have hstep : ∀ (bytes : List UInt8) (n left : Nat), bytes.length ≤ left → a + left ≤ hi ∨ left = 0 →
        Loads L root (do storeBytes root left a bytes; decompressLoop root src hi fuel n (a + left)) t := by
      intro bytes n left hlen hle
      refine wp_then (storeBytes_loads h fun b h1 h2 => hpages b (by omega) (by omega)) fun _ u hu => ?_
      exact wp_imp (decompressLoop_loads hu.1 (hpages.upgraded hu.2) (by omega)) fun _ v hv =>
        ⟨hv.1, hu.2.trans hv.2⟩
    simp only
    split
    · split
      · exact h
      · refine hstep _ _ _ (by rw [List.length_replicate]) (by omega)
    · split
      · exact h
      · refine hstep _ _ _ ?_ (by omega)
        rw [List.length_take]
        omega

theorem copyRawLoop_loads : ∀ {pages a filePos : Nat} {t : MmState}, Loading L root t →
      Pages root seg.vaddr (seg.vaddr + seg.memsz) t → seg.vaddr ≤ a →
      Loads L root (copyRawLoop root seg image pages a filePos) t
  | 0, _, _, t, h, _, _ => ⟨h, .refl root t⟩
  | pages + 1, a, filePos, t, h, hpages, hlo => by
    unfold Loads copyRawLoop
    rw [wp_bind, wp_get]
    have hcopy : Loads L root (onlyIf (0 < min (min (a - a % 4096 + 4096) (seg.vaddr + seg.memsz) - a)
          (seg.filesz - filePos))
        (writeBytes (translateUser t root (a - a % 4096) + a % 4096)
          ((image.drop (seg.offset + filePos)).take
            (min (min (a - a % 4096 + 4096) (seg.vaddr + seg.memsz) - a) (seg.filesz - filePos))))) t := by
      refine wp_onlyIf (fun hpos => ?_) fun _ => ⟨h, .refl root t⟩
      refine writeBytes_loads h ?_ (hpages a hlo (by omega))
      rw [List.length_take]
      omega
    refine wp_then hcopy fun _ u hu => ?_
    obtain ⟨hu, hup⟩ := hu
    by_cases hend : seg.vaddr ≤ min (a - a % 4096 + 4096) (seg.vaddr + seg.memsz)
    · exact wp_imp (copyRawLoop_loads hu (hpages.upgraded hup) hend) fun _ v hv => ⟨hv.1, hup.trans hv.2⟩
    · omega

/-! ## A whole segment -/

theorem pagesTouched_cover {va size a : Nat} (h1 : va ≤ a) (h2 : a < va + size) :
    va / 4096 ≤ a / 4096 ∧ a / 4096 < va / 4096 + pagesTouched va size := by
  rw [pagesTouched, if_neg (by omega)]
  omega

theorem mapSegmentData_loads (h : Loading L root t) (hrule : Ruled L.rule seg)
    (hfile : seg.filesz ≤ seg.memsz) : wp (mapSegmentData root seg image compressed)
      (fun _ u => Loading L root u ∧ Upgraded root t u ∧
        (0 < seg.memsz → PageHas root (4096 * (seg.vaddr / 4096)) seg.pteFlags u))
      (fun _ => Loading L root) t := by
  have hmap : wp (forUpTo (pagesTouched seg.vaddr seg.memsz) (seg.vaddr / 4096) fun j =>
      mapSegmentPage root seg (4096 * j))
      (fun _ u => Loading L root u ∧ Upgraded root t u ∧ ∀ k, seg.vaddr / 4096 ≤ k →
        k < seg.vaddr / 4096 + pagesTouched seg.vaddr seg.memsz → PageHas root (4096 * k) seg.pteFlags u)
      (fun _ => Loading L root) t := by
    refine wp_forUpTo (fun j u => Loading L root u ∧ Upgraded root t u ∧
      ∀ k, seg.vaddr / 4096 ≤ k → k < j → PageHas root (4096 * k) seg.pteFlags u) _ _ _
      ⟨h, .refl root t, fun k h1 h2 => by omega⟩ ?_
    rintro j u h1 h2 ⟨hu, hup, hall⟩
    have hpos : 0 < seg.memsz := by
      by_contra hz
      rw [pagesTouched, if_pos (by omega)] at h2
      omega
    refine wp_imp (mapSegmentPage_loads hu (hrule hpos)) fun _ v hv => ?_
    obtain ⟨hv, hup', hpage⟩ := hv
    refine ⟨hv, hup.trans hup', fun k hk1 hk2 => ?_⟩
    rcases Nat.lt_or_eq_of_le (Nat.le_of_lt_succ hk2) with hlt | rfl
    · exact (hall k hk1 hlt).upgraded hup'
    · exact hpage
  refine wp_then hmap fun _ u hu => ?_
  obtain ⟨hu, hup, hall⟩ := hu
  have hpages : Pages root seg.vaddr (seg.vaddr + seg.memsz) u := fun a h1 h2 =>
    (hall _ (pagesTouched_cover h1 h2).1 (pagesTouched_cover h1 h2).2).userPage
  have hdata : wp (if compressed ∧ 0 < seg.compressedSize then decompressToPages root seg image
      else copyRawToPages root seg image)
      (fun _ v => Loading L root v ∧ Upgraded root u v) (fun _ => Loading L root) u := by
    split
    · refine decompressLoop_loads hu (fun a h1 h2 => hpages a h1 ?_) (Nat.le_refl _)
      omega
    · exact copyRawLoop_loads hu hpages (Nat.le_refl _)
  refine wp_imp hdata fun _ v hv => ⟨hv.1, hup.trans hv.2, fun hpos => ?_⟩
  obtain ⟨h1, h2⟩ := pagesTouched_cover (Nat.le_refl seg.vaddr) (Nat.lt_add_of_pos_right hpos)
  exact (hall _ h1 h2).upgraded hv.2

theorem loadSegments_loads :
    ∀ {segs : List OnxSegment} {t : MmState}, Loading L root t → (∀ seg ∈ segs, Ruled L.rule seg) →
      wp (loadSegments root image compressed segs)
        (fun _ u => Loading L root u ∧ Upgraded root t u ∧ ∀ seg ∈ segs, 0 < seg.memsz →
          PageHas root (4096 * (seg.vaddr / 4096)) seg.pteFlags u)
        (fun _ => Loading L root) t
  | [], t, h, _ => ⟨h, .refl root t, nofun⟩
  | seg :: segs, t, h, hrule => by
    unfold loadSegments
    split
    · exact h
    split
    · exact h
    rename_i hfile
    simp only
    generalize (if compressed = true ∧ 0 < seg.compressedSize then seg.offset + seg.compressedSize
      else seg.offset + seg.filesz) = dataEnd
    split
    · exact h
    refine wp_then (mapSegmentData_loads h (hrule seg List.mem_cons_self) (Nat.le_of_not_lt hfile)) fun _ u hu => ?_
    obtain ⟨hu, hup, hpage⟩ := hu
    refine wp_imp (loadSegments_loads hu fun seg' hm => hrule seg' (List.mem_cons_of_mem _ hm)) fun _ v hv => ?_
    obtain ⟨hv, hup', hall⟩ := hv
    refine ⟨hv, hup.trans hup', fun seg' hm hpos => ?_⟩
    rcases List.mem_cons.mp hm with rfl | hm
    · exact (hpage hpos).upgraded hup'
    · exact hall seg' hm hpos

/-! ## The root -/

theorem identityLeaf_spec {i : Nat} (hi : i < 3) :
    pteKind (pteV ||| kernelLeaf ||| ((i <<< 30) >>> 12) <<< 10) = .leaf ∧
      ¬ IsUser (pteV ||| kernelLeaf ||| ((i <<< 30) >>> 12) <<< 10) ∧
      ppnOf (pteV ||| kernelLeaf ||| ((i <<< 30) >>> 12) <<< 10) + 512 ^ 2 ≤ 2 ^ 44 := by
  rcases Nat.lt_or_ge i 1 with h | h
  · obtain rfl : i = 0 := by omega
    decide
  rcases Nat.lt_or_ge i 2 with h | h
  · obtain rfl : i = 1 := by omega
    decide
  · obtain rfl : i = 2 := by omega
    decide

theorem descend_of_zero {M : Nat → Fin 512 → Nat} (hz : M root = fun _ => 0) {p : List (Fin 512)} {v : Nat}
    (h : sv39.descend M root p = some v) : p = [] ∧ v = root := by
  cases p with
  | nil => exact ⟨rfl, (Option.some.inj h).symm⟩
  | cons i p =>
    have hzero : M root i = 0 := by rw [hz]
    rw [Radix.descend, hzero] at h
    cases h

theorem newRoot_loads (hbound : L.start.base + L.start.total ≤ 2 ^ 44) (hlow : 0 < L.start.base)
    (hlog : L.exact → L.start.log = []) {root : Nat} (h : Took L.start root t) :
    Loading L root t ∧ t.mem root = fun _ => 0 := by
  have hz : t.mem root = fun _ => 0 := by rw [h.mem, Function.update_self]
  have hroot : t.Used root ∧ ¬ L.start.Used root := ⟨(h.used root).mpr (.inr rfl), h.fresh⟩
  have href : ∀ {p : List (Fin 512)} {i : Fin 512} {f : Nat},
      sv39.ref (t.holding L.lent) t.mem root p i ≠ some f := by
    intro p i f hf
    obtain ⟨-, v, hv, hheld⟩ := Radix.ref_eq_some.mp hf
    obtain ⟨rfl, rfl⟩ := descend_of_zero hz hv
    have hzero : t.mem v i = 0 := by rw [hz]
    rw [hzero] at hheld
    cases hheld
  refine ⟨⟨⟨⟨hroot, href, fun hf => absurd hf href, fun hf => absurd hf href⟩, fun _ f hf => ?_, ?_, ?_,
    fun f hf => (h.used f).mpr (.inl hf), fun _ hf => hf, fun hx => ?_, ?_⟩, h.base, h.total, hlow⟩, hz⟩
  · rcases (h.used f).mp hf.1 with hu | rfl
    · exact absurd hu hf.2
    · exact .inl rfl
  · intro p v i _ hv
    obtain ⟨rfl, rfl⟩ := descend_of_zero hz hv
    have hzero : t.mem v i = 0 := by rw [hz]
    rw [hzero]
    exact fine_of_not_leaf nofun
  · intro p v i _ hv hu
    obtain ⟨rfl, rfl⟩ := descend_of_zero hz hv
    rw [hz] at hu
    exact absurd hu not_isUser_zero
  · have hstart : Ledger L.start.Used L.start := by
      refine ⟨by rw [hlog hx]; trivial, fun f => ?_, fun f => ?_⟩
      · rw [hlog hx]
        exact ⟨nofun, fun hf => absurd hf.1 hf.2⟩
      · rw [hlog hx]
        nofun
    exact hstart.took h.log h.fresh h.used fun _ hf => hf
  · rw [h.base, h.total]
    exact hbound

theorem writeIdentity_loads (h : Loading L root t) {i : Nat} (hi : i < 3)
    (hz : t.mem root (Fin.ofNat 512 i) = 0) :
    wp (writePte root (Fin.ofNat 512 i) (pteV ||| kernelLeaf ||| ((i <<< 30) >>> 12) <<< 10))
      (fun _ u => Loading L root u ∧ ∀ j, j ≠ Fin.ofNat 512 i → u.mem root j = t.mem root j) E t := by
  obtain ⟨hleaf, huser, hfit⟩ := identityLeaf_spec hi
  generalize hpte : pteV ||| kernelLeaf ||| ((i <<< 30) >>> 12) <<< 10 = pte at hleaf huser hfit ⊢
  have hheld : pteHeld t.base t.total L.lent 0 pte = none := by rw [pteHeld, if_pos (by omega), hleaf]
  refine ⟨h.next (h.space.set (p := []) (by decide) rfl rfl rfl rfl ?_) rfl rfl, fun j hj => ?_⟩
  · rw [hz]
    refine ⟨fun _ => Radix.next_of_leaf hleaf, fun g hg => ?_, fun f hf ho _ => ⟨hf, ho⟩,
      fun _ => ⟨fun _ => rfl, fun f hf ho => .inl ⟨hf, ho, nofun⟩⟩, h.space.others, h.space.foreign,
      fun hx => (h.space.ledger hx).congr rfl fun _ => Iff.rfl,
      fun _ _ => ⟨hfit, fun hu => absurd hu huser⟩, fun hu => absurd hu huser⟩
    rw [show pteHeld t.base t.total L.terms.lent ([] : List (Fin 512)).length pte = none from hheld] at hg
    cases hg
  · rw [MmState.setWord_mem, Function.update_self, Function.update_of_ne hj]

theorem mapIdentity_loads (h : Loading L root t) (hz : t.mem root = fun _ => 0)
    : wp (mapIdentity root) (fun _ => Loading L root) E t := by
  refine wp_imp (Q := fun _ u => Loading L root u ∧ ∀ j : Fin 512, 0 + 3 ≤ j.1 → u.mem root j = 0)
    (wp_forUpTo (fun i u => Loading L root u ∧ ∀ j : Fin 512, i ≤ j.1 → u.mem root j = 0) _ _ _
      ⟨h, fun j _ => by rw [hz]⟩ ?_) fun _ _ hu => hu.1
  rintro i u - hi ⟨hu, hzero⟩
  have hval : (Fin.ofNat 512 i).1 = i := Nat.mod_eq_of_lt (by omega)
  refine wp_imp (writeIdentity_loads hu (by omega) (hzero _ (by omega))) fun _ v hv => ?_
  refine ⟨hv.1, fun j hj => ?_⟩
  rw [hv.2 j fun he => by rw [he] at hj; omega]
  exact hzero j (by omega)

/-! ## The image -/

section

variable (hrule : L.rule.ok (pteV ||| pteR ||| pteW ||| pteU ||| pteA ||| pteD)) (h : Loading L root t)
include hrule h

theorem mapUserPages_loads
    (n start : Nat) :
    Loads L root (forUpTo n 0 fun j => mapUserPage root (start + 4096 * j)) t := by
  refine wp_forUpTo (fun _ u => Loading L root u ∧ Upgraded root t u) _ _ _ ⟨h, .refl root t⟩ ?_
  rintro j u - - ⟨hu, hup⟩
  exact wp_imp (mapFreshPage_loads hu hrule (by decide)) fun _ v hv => ⟨hv.1, hup.trans hv.2.1⟩

theorem loadInto_loads
    (hz : t.mem root = fun _ => 0) {hdr : OnxHeader}
    (hsegs : ∀ seg ∈ hdr.segs, Ruled L.rule seg) : wp (loadInto root hdr image compressed)
      (fun r u => r.root = root ∧ r.heapBrk = userHeapBase ∧ Loading L root u ∧
        ∀ seg ∈ hdr.segs, 0 < seg.memsz → PageHas root (4096 * (seg.vaddr / 4096)) seg.pteFlags u)
      (fun _ => Loading L root) t := by
  refine wp_then (mapIdentity_loads h hz) fun _ t₁ h₁ => ?_
  refine wp_then (loadSegments_loads h₁ hsegs) fun _ t₂ h₂ => ?_
  refine wp_then (mapUserPages_loads hrule h₂.1 _ _) fun _ t₃ h₃ => ?_
  refine wp_then (mapUserPages_loads hrule h₃.1 _ _) fun _ t₄ h₄ => ?_
  exact ⟨rfl, rfl, h₄.1, fun seg hm hpos => (h₂.2.2 seg hm hpos).upgraded (h₃.2.trans h₄.2)⟩

end

end

end Onx
