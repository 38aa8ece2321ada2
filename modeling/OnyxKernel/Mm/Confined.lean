import OnyxKernel.Mm.UserSpace

/-!
# Calls stay in their range

A call on user memory should change the translation of the pages it names and of no others. `unmap`
clears the entry at the end of a walk whatever it covers, and a failed mapping leaves the range that the
kernel chose for it changed. A call is `confined` if neither happens: no leaf that it clears reaches
beyond its range or shows the display, and a range chosen by the kernel is vacant and memory suffices for
it.
-/

namespace Mm

open Infra Onyx Onx StateProg Call

variable {s : MmState} {m : UserMem}

/-! ## The pages of a range -/

/-- The pages of the addresses from `lo` to `hi`. -/
def PagesIn (lo hi : Nat) (q : List (Fin 512)) : Prop := ∃ a, lo ≤ a ∧ a < hi ∧ q = pathTo a 3

theorem PagesFrom.pagesIn {va n lo hi : Nat} {q : List (Fin 512)} (h : PagesFrom va n q) (hlo : lo ≤ va)
    (hhi : va + 4096 * n ≤ hi) : PagesIn lo hi q := by
  obtain ⟨k, hk, rfl⟩ := h
  exact ⟨va + 4096 * k, by omega, by omega, rfl⟩

def Call.chosen (m : UserMem) : Call → Bool
  | mmap addr _ _ flags _ => kernelChooses m addr (mapFixed flags)
  | _ => false

/-- The range that the arguments give, in whole pages, or that the kernel chooses. -/
def Call.range (m : UserMem) : Call → Nat × Nat
  | brk addr =>
    if heapEndOk addr then (pageUp (min addr m.heapBrk), pageUp (max addr m.heapBrk)) else (0, 0)
  | mmap addr length _ flags source =>
    if kernelChooses m addr (mapFixed flags) then (m.mmapBrk, m.mmapBrk + (resolves length source).getD 0)
    else (addr, addr + pageUp length)
  | munmap addr length => (addr, addr + pageUp length)
  | mprotect addr length _ => (addr, addr + pageUp length)

/-- The range within the part of the address space that belongs to the user. -/
def Call.userRange (m : UserMem) (c : Call) : Nat × Nat := (max userBase (c.range m).1, min userTop (c.range m).2)

def Call.succeeds (m : UserMem) (c : Call) : Bool := (c.prog.run m).1.isOk

/-- The pages whose translation the call may change. A range chosen by the kernel counts only if the
call succeeds. -/
def Call.scope (m : UserMem) (c : Call) (q : List (Fin 512)) : Prop :=
  PagesIn (c.userRange m).1 (c.userRange m).2 q ∧ (c.chosen m = true → c.succeeds m = true)

/-! ## Confined calls -/

/-- The entry that `unmap` clears for a page is no leaf that reaches beyond the range, and shows no frame
of the display. -/
def clearsWithin (D : Display s) (m : UserMem) (range : Nat × Nat) (va : Nat) : Bool :=
  let size := blockSize (slotOf m.mm.mem va 2 m.root).1
  (pteKind (slotPte m va) ≠ .leaf || (range.1 ≤ va / size * size && va / size * size + size ≤ range.2)) &&
    clearsOwn D m va

/-- The range of a mapping is the one that the arguments give, and if the kernel chooses it, it is vacant
and memory suffices. -/
def Call.rangeReady (m : UserMem) : Call → Bool
  | mmap addr length _ flags source =>
    match resolves length source with
    | none => true
    | some size =>
      if kernelChooses m addr (mapFixed flags) then
        m.mmapBrk < mmapBase || userTop < m.mmapBrk + size || mmapReady m m.mmapBrk size
      else size = pageUp length
  | _ => true

def Call.confined (D : Display s) (m : UserMem) (c : Call) : Bool :=
  c.known D && c.rangeReady m &&
    (List.range (c.cleared m).2).all fun j => clearsWithin D m (c.userRange m) ((c.cleared m).1 + 4096 * j)

section

variable {D : Display s} {c : Call} {exact : Prop}

theorem confined_iff : c.confined D m = true ↔ c.known D = true ∧ c.rangeReady m = true ∧
    ∀ j < (c.cleared m).2, clearsWithin D m (c.userRange m) ((c.cleared m).1 + 4096 * j) = true := by
  simp only [confined, Bool.and_eq_true, List.all_eq_true, List.mem_range, and_assoc]

theorem clearable_of_clearsWithin {range : Nat × Nat} {va : Nat} (h : clearsWithin D m range va = true) :
    Clearable (userTerms D exact) m.root (PagesIn range.1 range.2) va m.mm := by
  intro l table hslot
  obtain ⟨hl, hpte⟩ := slot_slotPte hslot
  simp only [clearsWithin, ← hl, Bool.and_eq_true, Bool.or_eq_true, decide_eq_true_eq] at h
  obtain ⟨hwithin, hown⟩ := h
  rw [hpte]
  refine ⟨fun hleaf q hq hbelow => ?_, fun hu _ => lent_of_clearsOwn hown hu⟩
  obtain ⟨hlo, hhi⟩ := hwithin.resolve_left (not_not.mpr hleaf)
  have hsize := blockSize_eq l
  exact (below_block hslot.1 hq hbelow).pagesIn hlo (by omega)

theorem Call.confined.clears (h : c.confined D m = true) :
    c.Clears (userTerms D exact) (PagesIn (c.userRange m).1 (c.userRange m).2) m := fun j hj =>
  clearable_of_clearsWithin ((confined_iff.mp h).2.2 j hj)

theorem pageUp_mono {a b : Nat} (h : a ≤ b) : pageUp a ≤ pageUp b := by
  unfold pageUp
  omega

theorem Call.confined.maps (hw : Running (userTerms D exact) m) (h : c.confined D m = true) :
    c.Maps (PagesIn (c.userRange m).1 (c.userRange m).2) m := by
  have hready := (confined_iff.mp h).2.1
  intro q hq
  have hnone : ∀ {va : Nat}, ¬ PagesFrom va 0 q := by
    rintro va ⟨k, hk, -⟩
    omega
  cases c with
  | munmap addr length | mprotect addr length prot => exact absurd hq hnone
  | brk addr =>
    by_cases hgrow : heapEndOk addr = true ∧ m.heapBrk < addr
    · have hmapped : (brk addr).mapped m = (pageUp m.heapBrk, (pageUp addr - pageUp m.heapBrk) / 4096) := if_pos hgrow
      obtain ⟨hok, hlt⟩ := hgrow
      have hrange : (brk addr).range m = (pageUp m.heapBrk, pageUp addr) := by
        have hr : (brk addr).range m = (pageUp (min addr m.heapBrk), pageUp (max addr m.heapBrk)) := if_pos hok
        rw [hr, Nat.min_eq_right (Nat.le_of_lt hlt), Nat.max_eq_left (Nat.le_of_lt hlt)]
      have hend : addr ≤ userHeapBase + userHeapSize := by
        simp only [heapEndOk, Bool.and_eq_true, decide_eq_true_eq] at hok
        exact hok.2
      have hbase : userBase ≤ pageUp m.heapBrk := le_trans (by decide) (pageUp_mono hw.heapLow)
      have htop : pageUp addr ≤ userTop := le_trans (pageUp_mono hend) (by decide)
      have hmono := pageUp_mono (Nat.le_of_lt hlt)
      rw [hmapped] at hq
      rw [userRange, hrange]
      exact hq.pagesIn (Nat.max_le.mpr ⟨hbase, Nat.le_refl _⟩) (Nat.le_min.mpr ⟨by omega, by omega⟩)
    · have hmapped : (brk addr).mapped m = (0, 0) := if_neg hgrow
      rw [hmapped] at hq
      exact absurd hq hnone
  | mmap addr length prot flags source =>
    cases hsize : resolves length source with
    | none =>
      simp only [mapped, hsize] at hq
      exact absurd hq hnone
    | some size =>
      simp only [mapped, hsize] at hq
      simp only [rangeReady, hsize] at hready
      split at hq
      · rename_i hin
        obtain ⟨-, hbase, htop⟩ := hin
        have hrange : (mmap addr length prot flags source).range m =
            (chosenVaddr m addr (mapFixed flags), chosenVaddr m addr (mapFixed flags) + size) := by
          simp only [range, chosenVaddr, hsize, Option.getD_some]
          split
          · rfl
          · rename_i hk
            rw [if_neg hk] at hready
            rw [of_decide_eq_true hready]
        have hlow : userBase ≤ mmapBase := by decide
        rw [userRange, hrange]
        exact hq.pagesIn (Nat.max_le.mpr ⟨by omega, Nat.le_refl _⟩) (Nat.le_min.mpr ⟨by omega, by omega⟩)
      · exact absurd hq hnone

section

variable (hr : Running (userTerms D False) m) (hb : m.mm.base = s.base) (ht : m.mm.total = s.total)
  (h : c.confined D m = true)
include hr hb ht h

theorem Call.confined.after : After (userTerms D False) (PagesIn (c.userRange m).1 (c.userRange m).2) m (c.run m) :=
  Call.after (leafy_userTerms D False) hr (Call.confined.clears h) (Call.confined.maps hr h)
    (known.shows (confined_iff.mp h).1 hb ht nofun)

theorem Call.confined.failed (hchosen : c.chosen m = true) (hfail : c.succeeds m = false) : (c.run m).mm = m.mm := by
  have hready := (confined_iff.mp h).2.1
  have hclear : c.Clears (userTerms D False) _ m := confined.clears h
  have hmap := confined.maps hr h
  have hshow : c.Shows (userTerms D False) m := known.shows (confined_iff.mp h).1 hb ht nofun
  cases c with
  | mmap addr length prot flags source =>
    have hk : kernelChooses m addr (mapFixed flags) = true := hchosen
    have hspec := sysMmap_spec (leafy_userTerms D False) hr hclear hmap hshow
    unfold succeeds prog at hfail
    cases hrun : (sysMmap addr length prot flags source).run m with
    | mk res m' =>
      rw [hrun] at hfail
      cases res with
      | ok a => cases hfail
      | error e =>
        have hm' : (mmap addr length prot flags source).run m = m' := by
          unfold run prog
          rw [hrun]
        rw [hm']
        rcases (hspec.error hrun).2 hk with hsame | ⟨size, hsize, hbase, htop, hnot⟩
        · exact hsame
        · simp only [rangeReady, hsize, if_pos hk, hnot, Bool.or_eq_true, decide_eq_true_eq,
            Bool.false_eq_true, or_false] at hready
          omega
  | brk addr | munmap addr length | mprotect addr length prot => cases hchosen

theorem Call.confined.keeps {q : List (Fin 512)} (hq : q.length = 3) (hscope : ¬ c.scope m q) :
    look (c.run m).mm m.root q = look m.mm m.root q := by
  by_cases hin : PagesIn (c.userRange m).1 (c.userRange m).2 q
  · have hchosen : c.chosen m = true ∧ c.succeeds m = false := by
      rw [scope, not_and, Classical.not_imp, Bool.not_eq_true] at hscope
      exact hscope hin
    rw [confined.failed hr hb ht h hchosen.1 hchosen.2]
  · exact (confined.after hr hb ht h).look.look hq hin

end

/-- What holds between the calls of a program: apart from its own range nothing has changed since the
load. -/
structure Confined (D : Display s) (start m : UserMem) : Prop where
  running : Running (userTerms D False) m
  base : m.mm.base = s.base
  total : m.mm.total = s.total
  root : m.root = start.root
  outside : ∀ q, q.length = 3 → ¬ PagesIn userBase userTop q → look m.mm m.root q = look start.mm start.root q

theorem Confined.step {start : UserMem} (hm : Confined D start m) (h : c.confined D m = true) :
    Confined D start (c.run m) := by
  have hafter := confined.after hm.running hm.base hm.total h
  refine ⟨hafter.running, hafter.look.base.trans hm.base, hafter.look.total.trans hm.total,
    hafter.root.trans hm.root, fun q hq hout => ?_⟩
  rw [hafter.root, ← hm.outside q hq hout]
  refine hafter.look.look hq fun hin => hout ?_
  obtain ⟨a, hlo, hhi, rfl⟩ := hin
  exact ⟨a, le_trans (Nat.le_max_left _ _) hlo, lt_of_lt_of_le hhi (Nat.min_le_left _ _), rfl⟩

end

/-- In every run of confined calls after a load, each further confined call keeps the translation of
every page outside its scope, and the pages outside the user range are as the load left them. -/
theorem calls_stay_in_range {s t : MmState} {image : List UInt8} {r : OnxLoadResult} (D : Display s)
    (hbound : s.base + s.total ≤ 2 ^ 44) (hlow : 0 < s.base) (hrun : (load image).run s = (.ok r, t))
    (hsegs : leafSegments image = true) {mmapBrk : Nat} {m : UserMem}
    (hreach : callMachine.Reach (fun m c => c.confined D m = true) (loaded t r mmapBrk) m) :
    (∀ c : Call, c.confined D m = true → c.stops m = false → ∀ q, q.length = 3 → ¬ c.scope m q →
      look (c.run m).mm m.root q = look m.mm m.root q) ∧
    ∀ q, q.length = 3 → ¬ PagesIn userBase userTop q → look m.mm m.root q = look t r.root q := by
  obtain ⟨hstart, hb, ht⟩ : Running (userTerms D False) (loaded t r mmapBrk) ∧ t.base = s.base ∧
    t.total = s.total := running_loaded hbound hlow nofun hsegs hrun mmapBrk
  have hm : Confined D (loaded t r mmapBrk) m := by
    refine hreach.invariant ⟨hstart, hb, ht, rfl, fun _ _ _ => rfl⟩ ?_
    intro v c u hv hc hstep
    rw [callMachine_step hstep]
    exact hv.step hc
  refine ⟨fun c hc _ q hq hscope => ?_, hm.outside⟩
  exact confined.keeps hm.running hm.base hm.total hc hq hscope

/-- The small program maps a page where the kernel chooses, maps the screen behind it, and unmaps the
page again. -/
theorem calls_stay_in_range_small :
    ∃ m, callMachine.Reach (fun m c => c.confined smallDisplay m = true) smallProgram m ∧
      (munmap mmapBase 4096).confined smallDisplay m = true ∧
      ∀ q, q.length = 3 → ¬ (munmap mmapBase 4096).scope m q →
        look ((munmap mmapBase 4096).run m).mm m.root q = look m.mm m.root q := by
  refine Machine.exists_reach_imp (P := fun m => (munmap mmapBase 4096).confined smallDisplay m = true ∧
    (munmap mmapBase 4096).stops m = false)
    [.mmap 0 4096 3 0x20 .anon,
      .mmap (mmapBase + 4096) 4096 3 0x10 (.device (some ⟨0x10000000, 4096⟩))] (by decide +kernel) ?_
  rintro m hreach ⟨hc, hstops⟩
  exact ⟨hc, (calls_stay_in_range smallDisplay (by decide) (by decide) load_smallImage
    (by decide +kernel) hreach).1 _ hc hstops⟩

/-- `mmap` with `MAP_FIXED` at the start of kernel memory is refused, but the leaf of the kernel is gone:
its pages lie outside of the user range and have lost their translation. -/
theorem fixed_mapping_drops_kernel :
    (mmap 0x80000000 4096 3 0x10 .anon).stops smallProgram = false ∧
    (mmap 0x80000000 4096 3 0x10 .anon).succeeds smallProgram = false ∧
    ¬ PagesIn userBase userTop (pathTo 0x80000000 3) ∧
    look smallProgram.mm smallProgram.root (pathTo 0x80000000 3) = some (0x80000, kernelLeaf) ∧
    look ((mmap 0x80000000 4096 3 0x10 .anon).run smallProgram).mm smallProgram.root
      (pathTo 0x80000000 3) = none := by
  refine ⟨by decide +kernel, by decide +kernel, ?_, by decide +kernel, by decide +kernel⟩
  rintro ⟨a, -, hhi, he⟩
  have htop : userTop = 0x40000000 := rfl
  have hpage := pathTo_inj (by decide) (by omega) he
  omega

end Mm
