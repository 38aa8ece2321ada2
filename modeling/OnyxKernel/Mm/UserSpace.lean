import OnyxKernel.Infra.Machine
import OnyxKernel.Mm.CallSpec
import OnyxKernel.Onx.Isolation

/-!
# Programs and their calls

A loaded program makes one call after the other. What its address space has to respect follows from
the state before it was loaded: the pages that were in use belong to others, and among them the frames
of the display may be shown to the program.
-/

namespace Mm

open Infra Onyx Onx StateProg

/-- The framebuffers of the display driver. Their frames are outside of the allocator, or were taken
from it before. -/
structure Display (s : MmState) where
  screens : List Framebuffer
  fits : ∀ fb ∈ screens, fb.base / 4096 + fb.frames ≤ 2 ^ 44
  taken : ∀ fb ∈ screens, ∀ k < fb.frames, isManaged s (fb.base / 4096 + k) = true →
    s.Used (fb.base / 4096 + k)

variable {s t : MmState} {image : List UInt8}

def Display.lent (D : Display s) (f : Nat) : Bool :=
  isManaged s f && D.screens.any fun fb => fb.base / 4096 ≤ f && f < fb.base / 4096 + fb.frames

theorem Display.lent_used (D : Display s) (f : Nat) (h : D.lent f = true) : s.Used f := by
  simp only [lent, Bool.and_eq_true, List.any_eq_true, decide_eq_true_eq] at h
  obtain ⟨hm, fb, hfb, hlo, hhi⟩ := h
  have hf : f = fb.base / 4096 + (f - fb.base / 4096) := by omega
  rw [hf] at hm ⊢
  exact D.taken fb hfb _ (by omega) hm

/-- The terms of a program that was loaded in `s`: user entries are leaves. -/
def userTerms (D : Display s) (exact : Prop) : Terms where
  foreign := s.Used
  lent := D.lent
  lent_foreign := D.lent_used
  entry _ e := pteKind e = .leaf
  exact := exact

theorem leafy_userTerms (D : Display s) (exact : Prop) : Leafy (userTerms D exact) := fun _ _ => Iff.rfl

theorem Display.showable (D : Display s) {fb : Framebuffer} (h : fb ∈ D.screens) (exact : Prop)
    (hb : t.base = s.base) (ht : t.total = s.total) :
    Showable (userTerms D exact) t (fb.base / 4096) fb.frames := by
  refine ⟨D.fits fb h, fun k hk hm => ?_⟩
  rw [isManaged_congr hb ht] at hm
  simp only [userTerms, lent, Bool.and_eq_true, List.any_eq_true, decide_eq_true_eq]
  exact ⟨hm, fb, h, by omega, by omega⟩

/-! ## Loading -/

def leafRule : FlagRule where
  ok c := c < 1024 ∧ c &&& pteLeaf ≠ 0
  lt h := h.1
  or ha hb := ⟨Nat.or_lt_two_pow (n := 10) ha.1 hb.1, or_and_ne_zero ha.2⟩
  valid h := ⟨Nat.or_lt_two_pow (n := 10) (by decide) h.1, by rw [Nat.or_comm]; exact or_and_ne_zero h.2⟩

def userCase (D : Display s) (exact : Prop) : LoadCase where
  rule := leafRule
  start := s
  lent := D.lent
  lent_used := D.lent_used
  exact := exact

/-- The flags of the segments are flags of user pages: they reach no frame number and allow reading or
execution. -/
def leafSegments (image : List UInt8) : Bool :=
  (mappedSegs image).all fun seg => seg.flags < 1024 && seg.flags &&& pteLeaf ≠ 0

theorem ok_of_leafSegments (h : leafSegments image = true) :
    ∀ seg ∈ mappedSegs image, leafRule.ok seg.pteFlags := by
  intro seg hseg
  have hflags : seg.flags < 1024 ∧ seg.flags &&& pteLeaf ≠ 0 := by
    simpa [leafSegments] using List.all_eq_true.mp h seg hseg
  have hor : ∀ {a b : Nat}, leafRule.ok a → b < 1024 → leafRule.ok (a ||| b) := fun ha hb =>
    ⟨Nat.or_lt_two_pow (n := 10) ha.1 hb, or_and_ne_zero ha.2⟩
  exact hor (hor (hor hflags (by decide)) (by decide)) (by decide)

theorem userSpace_of_loading {D : Display s} {exact : Prop} {root : Nat} (h : Loading (userCase D exact) root t) :
    Space (userTerms D exact) s.Used root t where
  tree := h.space.tree
  full := h.space.full
  fine := h.space.fine
  user := by
    intro p v i hp hv hu
    obtain ⟨-, -, -, hleaf⟩ := h.space.user hp hv hu
    have hl : t.mem v i &&& pteLeaf ≠ 0 := by
      intro hz
      refine hleaf ?_
      rw [Nat.and_assoc, Nat.and_comm pteFlagsMask, ← Nat.and_assoc, hz, Nat.zero_and]
    show pteKind (t.mem v i) = .leaf
    rw [pteKind, if_neg hu.1, if_pos hl]
  others := h.space.others
  foreign := h.space.foreign
  ledger := h.space.ledger
  bound := h.space.bound

/-! ## Running -/

/-- One call after the other; a call at an overflow stops the kernel. -/
def callMachine : Machine UserMem Call where
  step m c := if c.stops m then none else some (c.run m)

theorem callMachine_step {m m' : UserMem} {c : Call} (h : callMachine.step m c = some m') : m' = c.run m := by
  unfold callMachine at h
  simp only at h
  split at h
  · cases h
  · exact (Option.some.inj h).symm

def loaded (t : MmState) (r : OnxLoadResult) (mmapBrk : Nat) : UserMem where
  mm := t
  root := r.root
  heapBrk := r.heapBrk
  mmapBrk := mmapBrk

theorem running_loaded {D : Display s} {exact : Prop} {r : OnxLoadResult}
    (hbound : s.base + s.total ≤ 2 ^ 44) (hlow : 0 < s.base) (hlog : exact → s.log = [])
    (hsegs : leafSegments image = true) (hrun : (load image).run s = (.ok r, t)) (mmapBrk : Nat) :
    Running (userTerms D exact) (loaded t r mmapBrk) ∧ t.base = s.base ∧ t.total = s.total := by
  obtain ⟨hload, hbrk, -⟩ := load_loads (L := userCase D exact) hbound hlow hlog ⟨by decide, by decide⟩
    (ok_of_leafSegments hsegs) hrun
  refine ⟨⟨userSpace_of_loading hload, ?_, ?_⟩, hload.base, hload.total⟩
  · show userHeapBase ≤ r.heapBrk
    rw [hbrk]
  · show r.heapBrk ≤ _
    rw [hbrk]
    exact Nat.le_add_right _ _

/-! ## Calls and the display -/

/-- The entry that `unmap` clears for a page. -/
def slotPte (m : UserMem) (va : Nat) : Nat :=
  let slot := slotOf m.mm.mem va 2 m.root
  m.mm.mem slot.2 (idx slot.1 va)

/-- The entry that `unmap` clears for a page shows no frame of the display. -/
def clearsOwn (D : Display s) (m : UserMem) (va : Nat) : Bool :=
  !(IsUser (slotPte m va) && D.lent (ppnOf (slotPte m va)))

def Call.known (D : Display s) : Call → Bool
  | mmap _ _ _ _ (.device (some fb)) => fb ∈ D.screens
  | _ => true

section

variable {D : Display s} {m : UserMem} {va l table : Nat}

theorem slot_slotPte (h : Slot m.mm m.root va l table) :
    l = (slotOf m.mm.mem va 2 m.root).1 ∧ m.mm.mem table (idx l va) = slotPte m va := by
  have hfound : Slot m.mm m.root va (slotOf m.mm.mem va 2 m.root).1 (slotOf m.mm.mem va 2 m.root).2 :=
    slot_slotOf (Nat.le_refl 2) rfl
  obtain ⟨hl, ht⟩ := h.unique hfound
  refine ⟨hl, ?_⟩
  rw [slotPte, ← hl, ← ht]

theorem lent_of_clearsOwn (h : clearsOwn D m va = true) (hu : IsUser (slotPte m va)) :
    D.lent (ppnOf (slotPte m va)) = false := by
  simp only [clearsOwn, Bool.not_eq_true', Bool.and_eq_false_iff, decide_eq_false_iff_not] at h
  exact h.resolve_left (not_not.mpr hu)

theorem Call.known.shows {c : Call} {exact : Prop} (h : c.known D = true) (hb : m.mm.base = s.base)
    (ht : m.mm.total = s.total)
    (hfree : exact → ∀ addr length prot flags fb, c = .mmap addr length prot flags (.device (some fb)) →
      meetsNoTable m.mm m.root ((min length fb.size + fb.base % 4096 + 4095) / 4096)
        (chosenVaddr m addr (mapFixed flags)) (fb.base - fb.base % 4096)
        (min length fb.size + fb.base % 4096) = true) :
    c.Shows (userTerms D exact) m := by
  cases c with
  | mmap addr length prot flags source =>
    cases source with
    | device screen =>
      cases screen with
      | some fb =>
        have hmem : fb ∈ D.screens := by simpa [Call.known] using h
        exact ⟨D.showable hmem exact hb ht, fun hx => hfree hx _ _ _ _ _ rfl⟩
      | none => trivial
    | anon | bad e | file => trivial
  | brk addr | munmap addr length | mprotect addr length prot => trivial

end

/-! ## A small program -/

/-- A screen of one page at `0x10000000`, outside of the allocator. -/
def smallDisplay : Display smallMemory where
  screens := [⟨0x10000000, 4096⟩]
  fits := by decide
  taken := by
    intro fb hfb k hk hm
    obtain rfl : fb = ⟨0x10000000, 4096⟩ := List.mem_singleton.mp hfb
    have hframes : (⟨0x10000000, 4096⟩ : Framebuffer).frames = 1 := rfl
    obtain rfl : k = 0 := by omega
    exact absurd hm (by decide)

def smallProgram : UserMem :=
  loaded ((load (smallImage onxFlagsRing1 (pteR ||| pteX))).run smallMemory).2
    ⟨userBase, 0x80400, userTop - 16, userHeapBase, 1⟩ mmapBase

end Mm
