import OnyxKernel.Onx.LoadSpec

/-!
# Isolation of loaded programs

A program should see pages that were allocated for it and nothing else. The loader puts the flags of a
segment into the entries as they are in the image, so this holds if they are flags of a user page
(`Clean`). A bit above bit 9 changes the frame number instead.
-/

namespace Onx

open Infra Onyx Mm StateProg

def userFlags : Nat := pteV ||| pteR ||| pteW ||| pteX ||| pteU ||| pteA ||| pteD

def Clean (flags : Nat) : Prop := flags &&& userFlags = flags

instance (flags : Nat) : Decidable (Clean flags) := inferInstanceAs (Decidable (_ = _))

def mappedSegs (image : List UInt8) : List OnxSegment :=
  match OnxHeader.fromBytes image with
  | none => []
  | some hdr => hdr.segs.filter fun seg => 0 < seg.memsz

/-- Every user entry below the root shows a frame that was allocated between `s` and `t`, no two show
the same one, and their flags are those of user pages. -/
structure Isolated (s t : MmState) (root : Nat) : Prop where
  fresh : ∀ {p : List (Fin 512)} {v : Nat} {i : Fin 512}, p.length < 3 →
    sv39.descend t.mem root p = some v → IsUser (t.mem v i) →
      t.Used (ppnOf (t.mem v i)) ∧ ¬ s.Used (ppnOf (t.mem v i))
  clean : ∀ {p : List (Fin 512)} {v : Nat} {i : Fin 512}, p.length < 3 →
    sv39.descend t.mem root p = some v → IsUser (t.mem v i) → Clean (t.mem v i &&& pteFlagsMask)
  unshared : ∀ {p q : List (Fin 512)} {v u : Nat} {i j : Fin 512}, p.length < 3 → q.length < 3 →
    sv39.descend t.mem root p = some v → sv39.descend t.mem root q = some u →
      IsUser (t.mem v i) → IsUser (t.mem u j) → ppnOf (t.mem v i) = ppnOf (t.mem u j) → p = q ∧ i = j

def maskRule (mask : Nat) (hmask : mask < 1024) (hv : pteV &&& mask = pteV) : FlagRule where
  ok c := c &&& mask = c
  lt h := lt_of_le_of_lt (h ▸ Nat.and_le_right) hmask
  or ha hb := by rw [Nat.and_or_distrib_right, ha, hb]
  valid h := by rw [Nat.and_or_distrib_right, h, hv]

section

variable {s t : MmState} {image : List UInt8} {r : OnxLoadResult}

theorem mem_mappedSegs {hdr : OnxHeader} (h : OnxHeader.fromBytes image = some hdr) {seg : OnxSegment} :
    seg ∈ mappedSegs image ↔ seg ∈ hdr.segs ∧ 0 < seg.memsz := by
  simp only [mappedSegs, h, List.mem_filter, decide_eq_true_eq]

theorem load_loads {L : LoadCase} (hbound : L.start.base + L.start.total ≤ 2 ^ 44)
    (hlow : 0 < L.start.base) (hlog : L.exact → L.start.log = [])
    (hrule : L.rule.ok (pteV ||| pteR ||| pteW ||| pteU ||| pteA ||| pteD))
    (hsegs : ∀ seg ∈ mappedSegs image, L.rule.ok seg.pteFlags)
    (hrun : (load image).run L.start = (.ok r, t)) :
    Loading L r.root t ∧ r.heapBrk = userHeapBase ∧ ∀ seg ∈ mappedSegs image,
      PageHas r.root (4096 * (seg.vaddr / 4096)) seg.pteFlags t := by
  have hspec : wp (load image) (fun r t => Loading L r.root t ∧ r.heapBrk = userHeapBase ∧
      ∀ seg ∈ mappedSegs image, PageHas r.root (4096 * (seg.vaddr / 4096)) seg.pteFlags t)
      (fun _ _ => True) L.start := by
    unfold load
    split
    · trivial
    rename_i hdr hhdr
    split
    · trivial
    refine wp_seq (alloc_spec L.start) (fun root u hu => ?_) fun _ _ _ => trivial
    obtain ⟨hload, hz⟩ := newRoot_loads hbound hlow hlog hu
    have hruled : ∀ seg ∈ hdr.segs, Ruled L.rule seg := fun seg hm hpos =>
      hsegs seg ((mem_mappedSegs hhdr).mpr ⟨hm, hpos⟩)
    refine wp_onError (wp_mono (loadInto_loads hrule hload hz hruled) (fun r v hv => ?_) fun _ v _ => ?_)
    · obtain ⟨rfl, hbrk, hv, hpages⟩ := hv
      refine ⟨hv, hbrk, fun seg hm => ?_⟩
      obtain ⟨hm, hpos⟩ := (mem_mappedSegs hhdr).mp hm
      exact hpages seg hm hpos
    · unfold wp
      split <;> trivial
  exact hspec.ok hrun

/-- A load with all flags within a mask, from the state `s`. -/
def maskCase (mask : Nat) (hmask : mask < 1024) (hv : pteV &&& mask = pteV) (s : MmState) : LoadCase where
  rule := maskRule mask hmask hv
  start := s
  lent := fun _ => false
  lent_used := nofun
  exact := False

theorem load_masked {mask : Nat} (hmask : mask < 1024) (huser : userFlags &&& mask = userFlags)
    (hbound : s.base + s.total ≤ 2 ^ 44) (hlow : 0 < s.base)
    (hsegs : ∀ seg ∈ mappedSegs image, seg.flags &&& mask = seg.flags)
    (hrun : (load image).run s = (.ok r, t)) :
    Loading (maskCase mask hmask (and_trans (by decide) huser) s) r.root t ∧
      ∀ seg ∈ mappedSegs image, PageHas r.root (4096 * (seg.vaddr / 4096)) seg.pteFlags t := by
  have hpart : ∀ {c : Nat}, c &&& userFlags = c → c &&& mask = c := fun hc => and_trans hc huser
  have hflags : ∀ seg ∈ mappedSegs image, seg.pteFlags &&& mask = seg.pteFlags := by
    intro seg hm
    rw [OnxSegment.pteFlags, Nat.and_or_distrib_right, Nat.and_or_distrib_right, Nat.and_or_distrib_right,
      hsegs seg hm, hpart (c := pteU) (by decide), hpart (c := pteA) (by decide), hpart (c := pteD) (by decide)]
  obtain ⟨hload, -, hpages⟩ :=
    load_loads (L := maskCase mask hmask (and_trans (by decide) huser) s) hbound hlow False.elim
      (hpart (by decide)) hflags hrun
  exact ⟨hload, hpages⟩

theorem Loading.isolated (h : Loading (maskCase userFlags (by decide) (by decide) s) r.root t) :
    Isolated s t r.root := by
  have href : ∀ {p : List (Fin 512)} {v : Nat} {i : Fin 512}, p.length < 3 →
      sv39.descend t.mem r.root p = some v → IsUser (t.mem v i) →
      sv39.ref (t.holding fun _ => false) t.mem r.root p i = some (ppnOf (t.mem v i)) := by
    intro p v i hp hv hu
    obtain ⟨hlen, ⟨hm, -⟩, -⟩ := h.space.user hp hv hu
    have hbounds : t.base ≤ ppnOf (t.mem v i) ∧ ppnOf (t.mem v i) < t.base + t.total := by
      rw [h.base, h.total]
      simpa [isManaged] using hm
    rw [Radix.ref_eq (H := t.holding fun _ => false) hp hv, hlen]
    have hlast : pteHeld t.base t.total (fun _ => false) 2 (t.mem v i) = some (ppnOf (t.mem v i)) :=
      pteHeld_last_of_isUser hu hbounds.1 hbounds.2 rfl
    exact hlast
  refine ⟨fun hp hv hu => h.space.tree.mine_of_ref (href hp hv hu), fun hp hv hu => ?_, ?_⟩
  · exact (h.space.user hp hv hu).2.2
  · intro p q v u i j hp hq hv hu huser huser' he
    refine h.space.tree.inj (href hp hv huser) ?_
    rw [he]
    exact href hq hu huser'

theorem Isolated.clean_of_page (h : Isolated s t r.root) {seg : OnxSegment} (hlt : seg.flags < 1024)
    (hpage : PageHas r.root (4096 * (seg.vaddr / 4096)) seg.pteFlags t) : Clean seg.flags := by
  obtain ⟨v, hv, hu, hflags⟩ := hpage
  have hlen := length_pathTo (4096 * (seg.vaddr / 4096)) 2
  have hseg : seg.flags &&& t.mem v (idx 0 (4096 * (seg.vaddr / 4096))) = seg.flags := by
    refine and_trans ?_ hflags
    rw [OnxSegment.pteFlags, Nat.or_assoc, Nat.or_assoc]
    exact and_or_self _ _
  refine and_trans (b := t.mem v (idx 0 (4096 * (seg.vaddr / 4096))) &&& pteFlagsMask) ?_
    (h.clean (by omega) hv hu)
  rw [← Nat.and_assoc, hseg, and_flagsMask hlt]

end

/-- A program loaded from an image whose segments have clean flags is isolated. Among the images whose
flags stay below the frame number these are the only ones. -/
theorem load_isolates {s t : MmState} {image : List UInt8} {r : OnxLoadResult}
    (hbound : s.base + s.total ≤ 2 ^ 44) (hlow : 0 < s.base)
    (hrun : (load image).run s = (.ok r, t)) :
    ((∀ seg ∈ mappedSegs image, Clean seg.flags) → Isolated s t r.root) ∧
    ((∀ seg ∈ mappedSegs image, seg.flags < 1024) → Isolated s t r.root →
      ∀ seg ∈ mappedSegs image, Clean seg.flags) := by
  constructor
  · intro hclean
    exact (load_masked (by decide) (Nat.and_self _) hbound hlow hclean hrun).1.isolated
  · intro hlt hiso seg hm
    have hpages := (load_masked (show pteFlagsMask < 1024 by decide) (by decide) hbound hlow
      (fun seg hm => and_flagsMask (hlt seg hm)) hrun).2
    exact hiso.clean_of_page (hlt seg hm) (hpages seg hm)

/-- The small image as a program of ring 1 is isolated. -/
theorem load_isolates_small :
    Isolated smallMemory ((load (smallImage onxFlagsRing1 (pteR ||| pteX))).run smallMemory).2 0x80400 :=
  (load_isolates (r := ⟨userBase, 0x80400, userTop - 16, userHeapBase, 1⟩) (by decide) (by decide)
    load_smallImage).1 (by decide +kernel)

/-- With bit 17 set in its flags, the page at `userBase` of the small image shows frame `0x80481`, which
nothing has allocated. -/
theorem segment_flags_choose_frame :
    ((load (smallImage 0 (pteR ||| pteX ||| 1 <<< 17))).run smallMemory).1.toOption.map (·.root) = some 0x80400 ∧
    translateUser ((load (smallImage 0 (pteR ||| pteX ||| 1 <<< 17))).run smallMemory).2 0x80400 userBase =
      0x80481 <<< 12 ∧
    ¬ ((load (smallImage 0 (pteR ||| pteX ||| 1 <<< 17))).run smallMemory).2.Used 0x80481 := by
  refine ⟨by decide +kernel, by decide +kernel, fun hu => ?_⟩
  have hfree : bmGet ((load (smallImage 0 (pteR ||| pteX ||| 1 <<< 17))).run smallMemory).2
      (0x80481 - ((load (smallImage 0 (pteR ||| pteX ||| 1 <<< 17))).run smallMemory).2.base) = false := by
    decide +kernel
  exact absurd hu.2 (by rw [hfree]; decide)

end Onx
