import OnyxKernel.Mm.DestroySpec
import OnyxKernel.Mm.UserSpace

/-!
# Frames and who they belong to

Over the life of an address space, from its load to `destroy_root`, every frame that goes back to the
allocator should have been taken for it and go back once, and none should get lost. `unmap` and
`free_subtree` take every managed frame of a user entry for one of the program, so this fails for the
frames of the display; and a superpage of the display may take the place of a table. A call is `lawful`
if neither happens.
-/

namespace Mm

open Infra Onyx Onx StateProg

variable {s : MmState} {m : UserMem} {t : MmState}

/-! ## Lawful calls -/

def Call.blocksFree (m : UserMem) : Call → Bool
  | mmap addr length _ flags (.device (some fb)) =>
    meetsNoTable m.mm m.root ((min length fb.size + fb.base % 4096 + 4095) / 4096)
      (chosenVaddr m addr (mapFixed flags)) (fb.base - fb.base % 4096) (min length fb.size + fb.base % 4096)
  | _ => true

def Call.lawful (D : Display s) (m : UserMem) (c : Call) : Bool :=
  c.known D && c.blocksFree m &&
    (List.range (c.cleared m).2).all fun j => clearsOwn D m ((c.cleared m).1 + 4096 * j)

section

variable {D : Display s} {c : Call}

theorem lawful_iff : c.lawful D m = true ↔ c.known D = true ∧ c.blocksFree m = true ∧
    ∀ j < (c.cleared m).2, clearsOwn D m ((c.cleared m).1 + 4096 * j) = true := by
  simp only [Call.lawful, Bool.and_eq_true, List.all_eq_true, List.mem_range, and_assoc]

theorem Call.lawful.clears (h : c.lawful D m = true) : c.Clears (userTerms D True) (fun _ => True) m := by
  intro j hj l table hslot
  obtain ⟨-, hpte⟩ := slot_slotPte hslot
  rw [hpte]
  exact ⟨fun _ _ _ _ => trivial, fun hu _ => lent_of_clearsOwn ((lawful_iff.mp h).2.2 j hj) hu⟩

theorem Call.lawful.shows (h : c.lawful D m = true) (hb : m.mm.base = s.base) (ht : m.mm.total = s.total) :
    c.Shows (userTerms D True) m := by
  obtain ⟨hknown, hfree, -⟩ := lawful_iff.mp h
  refine Call.known.shows hknown hb ht fun _ addr length prot flags fb hc => ?_
  subst hc
  exact hfree

/-- What holds between lawful calls. -/
structure Lawful (D : Display s) (m : UserMem) : Prop where
  running : Running (userTerms D True) m
  base : m.mm.base = s.base
  total : m.mm.total = s.total

theorem Lawful.step (hm : Lawful D m) (h : c.lawful D m = true) : Lawful D (c.run m) := by
  have hafter := Call.after (leafy_userTerms D True) hm.running (Call.lawful.clears h) (fun _ _ => trivial)
    (Call.lawful.shows h hm.base hm.total)
  exact ⟨hafter.running, hafter.look.base.trans hm.base, hafter.look.total.trans hm.total⟩

end

/-! ## The account -/

/-- Every frame that went back had been taken and not gone back since, and none is of the display. -/
structure Accounted (D : Display s) (t : MmState) : Prop where
  orderly : Orderly t.log
  display : ∀ f, D.lent f = true → .gave f ∉ t.log

/-- Nothing that was taken is still out. -/
structure Closed (s t : MmState) : Prop where
  back : ∀ f, outstanding t.log f = false
  used : ∀ f, t.Used f ↔ s.Used f

theorem Ledger.accounted {D : Display s} (h : Ledger s.Used t) : Accounted D t :=
  ⟨h.orderly, fun f hf hg => h.fresh f (h.orderly.took_of_gave hg) (D.lent_used f hf)⟩

theorem Ledger.closed (h : Ledger s.Used t) (hused : ∀ f, t.Used f ↔ s.Used f) : Closed s t := by
  refine ⟨fun f => Bool.eq_false_iff.mpr fun ho => ?_, hused⟩
  obtain ⟨hu, hn⟩ := (h.own f).mp ho
  exact hn ((hused f).mp hu)

theorem ledger_start (hlog : s.log = []) : Ledger s.Used s := by
  refine ⟨by rw [hlog]; trivial, fun f => ?_, fun f => ?_⟩
  · rw [hlog]
    exact ⟨nofun, fun hf => absurd hf.1 hf.2⟩
  · rw [hlog]
    nofun

theorem load_error_closed (D : Display s) {image : List UInt8} {e : Errno}
    (hbound : s.base + s.total ≤ 2 ^ 44) (hlow : 0 < s.base) (hlog : s.log = [])
    (hsegs : leafSegments image = true) (hrun : (load image).run s = (.error e, t)) :
    Ledger s.Used t ∧ ∀ f, t.Used f ↔ s.Used f := by
  have hspec : wp (load image) (fun _ _ => True) (fun _ t => Ledger s.Used t ∧ ∀ f, t.Used f ↔ s.Used f) s := by
    have hstart : Ledger s.Used s ∧ ∀ f, s.Used f ↔ s.Used f := ⟨ledger_start hlog, fun _ => Iff.rfl⟩
    unfold load
    split
    · exact hstart
    rename_i hdr hhdr
    split
    · exact hstart
    refine wp_seq (alloc_spec s) (fun root u hu => ?_) fun _ t he => by rw [he.2.1]; exact hstart
    obtain ⟨hload, hz⟩ := newRoot_loads (L := userCase D True) hbound hlow (fun _ => hlog) hu
    have hruled : ∀ seg ∈ hdr.segs, Ruled leafRule seg := fun seg hm hpos =>
      ok_of_leafSegments hsegs seg ((mem_mappedSegs hhdr).mpr ⟨hm, hpos⟩)
    have hflags : leafRule.ok (pteV ||| pteR ||| pteW ||| pteU ||| pteA ||| pteD) := ⟨by decide, by decide⟩
    refine wp_onError (wp_mono (loadInto_loads hflags hload hz hruled) (fun _ _ _ => trivial) fun _ v hv => ?_)
    have hnone : NoneShown (userTerms D True) root v := fun hp hd hu => (hv.space.user hp hd hu).2.1.2
    exact wp_imp (destroyRoot_spec (leafy_userTerms D True) (userSpace_of_loading hv) trivial hnone)
      fun _ t ht => ⟨ht.2, ht.1⟩
  exact hspec.error hrun

/-- Over every run of lawful calls after a load the frames are accounted for. If in the end no entry
shows the display, `destroy_root` leaves exactly the frames in use that were before the load; so does a
load that fails. -/
theorem frames_accounted {s : MmState} {image : List UInt8} (D : Display s)
    (hbound : s.base + s.total ≤ 2 ^ 44) (hlow : 0 < s.base) (hlog : s.log = [])
    (hsegs : leafSegments image = true) :
    (∀ e t, (load image).run s = (.error e, t) → Accounted D t ∧ Closed s t) ∧
    ∀ r t mmapBrk m, (load image).run s = (.ok r, t) →
      callMachine.Reach (fun m c => c.lawful D m = true) (loaded t r mmapBrk) m →
      Accounted D m.mm ∧
        (NoneShown (userTerms D True) m.root m.mm →
          Accounted D ((destroyRoot m.root).run m.mm).2 ∧ Closed s ((destroyRoot m.root).run m.mm).2) := by
  constructor
  · intro e t hrun
    obtain ⟨hledger, hused⟩ := load_error_closed D hbound hlow hlog hsegs hrun
    exact ⟨hledger.accounted, hledger.closed hused⟩
  · intro r t mmapBrk m hrun hreach
    obtain ⟨hstart, hb, ht⟩ : Running (userTerms D True) (loaded t r mmapBrk) ∧ t.base = s.base ∧
      t.total = s.total := running_loaded hbound hlow (fun _ => hlog) hsegs hrun mmapBrk
    have hm : Lawful D m := by
      refine hreach.invariant ⟨hstart, hb, ht⟩ ?_
      intro v c u hv hc hstep
      rw [callMachine_step hstep]
      exact hv.step hc
    have hledger : Ledger s.Used m.mm := hm.running.space.ledger trivial
    refine ⟨hledger.accounted, fun hnone => ?_⟩
    have hdestroy := destroyRoot_spec (leafy_userTerms D True) hm.running.space trivial hnone (E := fun _ t =>
      (∀ g, t.Used g ↔ s.Used g) ∧ Ledger s.Used t)
    have hend : (∀ g, ((destroyRoot m.root).run m.mm).2.Used g ↔ s.Used g) ∧
        Ledger s.Used ((destroyRoot m.root).run m.mm).2 := by
      unfold wp at hdestroy
      split at hdestroy <;> rename_i hend <;> rw [hend] <;> exact hdestroy
    exact ⟨hend.2.accounted, hend.2.closed hend.1⟩

theorem smallDisplay_lent (f : Nat) : smallDisplay.lent f = false := by
  refine Bool.eq_false_iff.mpr fun h => ?_
  simp only [Display.lent, smallDisplay, List.any_cons, List.any_nil, Bool.or_false, Bool.and_eq_true,
    decide_eq_true_eq] at h
  obtain ⟨hm, hlo, hhi⟩ := h
  have hframes : (⟨0x10000000, 4096⟩ : Framebuffer).frames = 1 := rfl
  obtain rfl : f = 0x10000 := by omega
  exact absurd hm (by decide)

/-- The small program maps and unmaps a page, maps the screen, and goes. -/
theorem frames_accounted_small :
    ∃ m, callMachine.Reach (fun m c => c.lawful smallDisplay m = true) smallProgram m ∧
      Accounted smallDisplay m.mm ∧ Closed smallMemory ((destroyRoot m.root).run m.mm).2 := by
  refine Machine.exists_reach_imp (P := fun m => True)
    [.mmap 0 4096 3 0x20 .anon, .munmap mmapBase 4096,
      .mmap 0 4096 3 0x20 (.device (some ⟨0x10000000, 4096⟩)), .brk (userHeapBase + 0x11000)] (by decide +kernel) ?_
  rintro m hreach -
  have hsegs : leafSegments (smallImage onxFlagsRing1 (pteR ||| pteX)) = true := by decide +kernel
  have haccount := (frames_accounted smallDisplay (by decide) (by decide) rfl hsegs).2 _ _ _ m
    load_smallImage hreach
  exact ⟨haccount.1, (haccount.2 fun _ _ _ => smallDisplay_lent _).2⟩

/-! ## The display among the pages of the allocator -/

/-- The last page of the small memory was taken by the display driver. -/
def screenMemory : MmState := { smallMemory with bitmap := 1 <<< 199 }

def screenDisplay : Display screenMemory where
  screens := [⟨0x804C7000, 4096⟩]
  fits := by decide
  taken := by
    intro fb hfb k hk _
    obtain rfl : fb = ⟨0x804C7000, 4096⟩ := List.mem_singleton.mp hfb
    have hframes : (⟨0x804C7000, 4096⟩ : Framebuffer).frames = 1 := rfl
    obtain rfl : k = 0 := by omega
    exact ⟨by decide, by decide⟩

def screenProgram : UserMem :=
  loaded ((load (smallImage onxFlagsRing1 (pteR ||| pteX))).run screenMemory).2
    ⟨userBase, 0x80400, userTop - 16, userHeapBase, 1⟩ mmapBase

/-- A program that maps the screen and unmaps it again gives the page of the display driver to the
allocator. -/
theorem munmap_frees_display :
    ((load (smallImage onxFlagsRing1 (pteR ||| pteX))).run screenMemory).1.toOption.map (·.root) =
      some screenProgram.root ∧
    screenDisplay.lent 0x804C7 = true ∧
    ∃ m, callMachine.Reach Machine.always screenProgram m ∧ ¬ Accounted screenDisplay m.mm ∧
      ¬ m.mm.Used 0x804C7 := by
  refine ⟨by decide +kernel, by decide, ?_⟩
  obtain ⟨m, hreach, hgave, hclear⟩ : ∃ m, callMachine.Reach Machine.always screenProgram m ∧
      PageEvent.gave 0x804C7 ∈ m.mm.log ∧ bmGet m.mm (0x804C7 - m.mm.base) = false :=
    Machine.exists_reach_of_play
      [.mmap 0 4096 3 0x20 (.device (some ⟨0x804C7000, 4096⟩)), .munmap mmapBase 4096] (by decide +kernel)
  refine ⟨m, hreach, fun h => h.display 0x804C7 (by decide) hgave, fun hu => ?_⟩
  have hbit := hu.2
  rw [hclear] at hbit
  cases hbit

end Mm
