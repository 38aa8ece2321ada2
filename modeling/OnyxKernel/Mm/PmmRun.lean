import Mathlib.Data.List.Basic
import Mathlib.Order.Interval.Finset.Nat
import OnyxKernel.Infra.Machine
import OnyxKernel.Mm.Pmm

/-!
# Runs of the page allocator

`init`, and any calls of `alloc`, `alloc_n` and `free` after it, with the counter `free_pages`. `held`
notes the pages of each allocation that were not freed.
-/

namespace Mm

open Infra Onyx StateProg List

structure Pages where
  mm : MmState
  /-- `G_PMM.free_pages` -/
  freePages : Nat
  /-- The pages of each allocation. Nothing reads it. -/
  held : List (List Nat)

def kernelHeapReserve : Nat := 4 * 1024 * 1024

/-- `pmm::init`, with the address of `__kernel_end`. The bitmap is at the start of the region. -/
def Pages.init (kernelEnd dramBase dramSize : Nat) (mem : Nat → Fin 512 → Nat) : Pages :=
  let managedBase := (max (kernelEnd + kernelHeapReserve) dramBase + 4095) / 4096
  let pages := (dramBase + dramSize - managedBase * 4096) / 4096
  let bitmapPages := ((pages + 7) / 8 + 4095) / 4096
  let dataPages := pages - bitmapPages
  { mm := ⟨mem, managedBase + bitmapPages, dataPages, 0, 0, []⟩, freePages := dataPages, held := [] }

inductive PmmCall
  | alloc
  | allocN (n : Nat)
  | free (pa : Nat)

variable {w : Pages} {s t : MmState} {n i : Nat}

/-- `bm_set` of the pages that an allocation found, `none` if the counter would go below zero. -/
def Pages.took (w : Pages) (n : Nat) : Except Errno Nat × MmState → Option Pages
  | (.error _, _) => some w
  | (.ok f, mm) =>
    if w.freePages < n then none else some ⟨mm, w.freePages - n, range' f n :: w.held⟩

/-- `free`, by address. -/
def Pages.free (w : Pages) (pa : Nat) : Pages :=
  if pa % 4096 ≠ 0 ∨ pa < w.mm.base * 4096 then w
  else
    let i := (pa - w.mm.base * 4096) / 4096
    if i < w.mm.total ∧ bmGet w.mm i = true then
      { mm := w.mm.freeUnlocked (w.mm.base + i)
        freePages := w.freePages + 1
        held := w.held.map fun l => l.filter (· ≠ w.mm.base + i) }
    else w

def pmm : Machine Pages PmmCall where
  step w
    | .alloc => w.took 1 (alloc.run w.mm)
    | .allocN n => w.took n ((allocN n).run w.mm)
    | .free pa => some (w.free pa)

/-! ## Runs -/

def clearPages (s : MmState) : Finset Nat := (Finset.range s.total).filter fun i => bmGet s i = false

/-- The counter, and the allocations against the bitmap. -/
structure Pages.Sound (w : Pages) : Prop where
  count : w.freePages = (clearPages w.mm).card
  nodup : w.held.flatten.Nodup
  used : ∀ f, f ∈ w.held.flatten ↔ w.mm.Used f

theorem mem_clearPages : i ∈ clearPages s ↔ i < s.total ∧ ¬ s.Used (s.base + i) := by
  rw [clearPages, Finset.mem_filter, Finset.mem_range, used_iff, Nat.add_sub_cancel_left]
  grind

theorem Pages.Sound.took (h : w.Sound) (hfree : FreeRun w.mm n i) (ht : TookRun w.mm n i t) :
    ∃ v, w.took n (.ok (w.mm.base + i), t) = some v ∧ v.Sound := by
  have hlt := hfree.1
  have hused : ∀ f, t.Used f ↔ f ∈ range' (w.mm.base + i) n ∨ w.mm.Used f := fun f => by
    rw [used_iff, used_iff, mem_range'_1, ht.base, ht.total, ht.bit]
    grind
  have hfresh : ∀ f ∈ range' (w.mm.base + i) n, ¬ w.mm.Used f := fun f hf hu => by
    rw [mem_range'_1] at hf
    have hbit := hu.2
    rw [hfree.2 (f - w.mm.base) (by omega) (by omega)] at hbit
    cases hbit
  have hclear : clearPages t = clearPages w.mm \ Finset.Ico i (i + n) := by
    ext j
    rw [Finset.mem_sdiff, mem_clearPages, mem_clearPages, ht.base, ht.total, hused, mem_range'_1, Finset.mem_Ico]
    grind
  have hsub : Finset.Ico i (i + n) ⊆ clearPages w.mm := fun j hj => by
    rw [Finset.mem_Ico] at hj
    exact mem_clearPages.mpr ⟨by omega, hfresh _ (mem_range'_1.mpr (by omega))⟩
  have hcard : (clearPages t).card = w.freePages - n := by
    rw [hclear, Finset.card_sdiff_of_subset hsub, Nat.card_Ico, Nat.add_sub_cancel_left, h.count]
  have hle : n ≤ w.freePages := by
    have := Finset.card_le_card hsub
    rwa [Nat.card_Ico, Nat.add_sub_cancel_left, ← h.count] at this
  refine ⟨_, if_neg (Nat.not_lt.mpr hle), hcard.symm, ?_, fun f => ?_⟩
  · rw [flatten_cons, nodup_append']
    exact ⟨nodup_range', h.nodup, fun f h1 h2 => hfresh f h1 ((h.used f).mp h2)⟩
  · rw [flatten_cons, mem_append, h.used, hused]

theorem Pages.Sound.free (h : w.Sound) (pa : Nat) : (w.free pa).Sound := by
  unfold Pages.free
  split
  · exact h
  dsimp only
  split
  · rename_i hin
    generalize (pa - w.mm.base * 4096) / 4096 = i at hin
    obtain ⟨b, hfree, hused⟩ := freeUnlocked_spec w.mm (w.mm.base + i)
    have hclear : clearPages { w.mm with bitmap := b } = insert i (clearPages w.mm) := by
      ext j
      rw [Finset.mem_insert, mem_clearPages, mem_clearPages, hused]
      grind
    rw [hfree]
    have hnew : i ∉ clearPages w.mm := fun hc => by
      rw [mem_clearPages, used_iff, Nat.add_sub_cancel_left] at hc
      exact hc.2 ⟨by omega, by omega, hin.2⟩
    refine ⟨?_, ?_, fun g => ?_⟩
    · rw [hclear, Finset.card_insert_of_notMem hnew, h.count]
    · rw [← filter_flatten]
      exact h.nodup.filter _
    · rw [← filter_flatten, mem_filter, h.used, hused]
      simp
  · exact h

theorem Pages.Sound.step (h : w.Sound) (c : PmmCall) : ∃ v, pmm.step w c = some v ∧ v.Sound := by
  have hallocN : ∀ n, ∃ v, w.took n ((allocN n).run w.mm) = some v ∧ v.Sound := fun n => by
    rcases Nat.eq_zero_or_pos n with rfl | hn
    · exact ⟨w, rfl, h⟩
    have hspec := allocN_spec hn w.mm
    rcases hrun : (allocN n).run w.mm with ⟨e | f, t⟩
    · exact ⟨w, rfl, h⟩
    · obtain ⟨i, rfl, hfree, rfl⟩ := hspec.ok hrun
      exact h.took hfree.1 (takePages_spec n i _)
  cases c with
  | alloc =>
    have halloc := hallocN 1
    rwa [← alloc_eq_allocN] at halloc
  | allocN n => exact hallocN n
  | free pa => exact ⟨_, rfl, h.free pa⟩

theorem Pages.Sound.free_other (h : w.Sound) {pa : Nat} (hpa : ∀ f ∈ w.held.flatten, pa ≠ f * 4096) :
    w.free pa = w := by
  unfold Pages.free
  split
  · rfl
  · rename_i hok
    refine if_neg fun hin => hpa (w.mm.base + (pa - w.mm.base * 4096) / 4096) ?_ (by omega)
    rw [h.used, used_iff, Nat.add_sub_cancel_left]
    exact ⟨by omega, by omega, hin.2⟩

theorem Pages.init_sound (kernelEnd dramBase dramSize : Nat) (mem : Nat → Fin 512 → Nat) :
    (Pages.init kernelEnd dramBase dramSize mem).Sound := by
  refine ⟨?_, nodup_nil, fun f => ?_⟩
  · simp [clearPages, Pages.init, bmGet]
  · simp [used_iff, Pages.init, bmGet]

/-- After every run of calls: the counter is the number of free pages and no call takes it below zero,
the allocations do not overlap and are inside the region, `alloc` and `alloc_n` of at least one page
return the lowest run and zero it or find that there is none, `alloc_n` of no page is refused, and
freeing anything else than an allocated page changes nothing. -/
theorem pmm_runs {kernelEnd dramBase dramSize : Nat} {mem : Nat → Fin 512 → Nat} {w : Pages}
    (hrun : pmm.Reach Machine.always (Pages.init kernelEnd dramBase dramSize mem) w) :
    w.freePages = (clearPages w.mm).card ∧ (∀ c, (pmm.step w c).isSome) ∧
    w.held.Pairwise Disjoint ∧ (∀ l ∈ w.held, ∀ f ∈ l, isManaged w.mm f = true) ∧
    (∀ n, 0 < n → wp (allocN n)
      (fun f t => ∃ i, f = w.mm.base + i ∧ (FreeRun w.mm n i ∧ ∀ k, FreeRun w.mm n k → i ≤ k) ∧
        ∀ k < n, t.mem (f + k) = fun _ => 0)
      (fun e t => e = .noMem ∧ t = w.mm ∧ ∀ i, ¬ FreeRun w.mm n i) w.mm) ∧
    alloc = allocN 1 ∧ (allocN 0).run w.mm = (.error .inval, w.mm) ∧
    ∀ pa, (∀ f ∈ w.held.flatten, pa ≠ f * 4096) → w.free pa = w := by
  have h : w.Sound := by
    refine hrun.invariant (I := Pages.Sound) (Pages.init_sound ..) fun {v c u} hv _ hstep => ?_
    obtain ⟨u', hu, hsound⟩ := hv.step c
    cases hstep.symm.trans hu
    exact hsound
  refine ⟨h.count, fun c => ?_, (nodup_flatten.mp h.nodup).2, fun l hl f hf => ?_, fun n hn => ?_,
    alloc_eq_allocN, rfl, fun _ => h.free_other⟩
  · obtain ⟨v, hv, -⟩ := h.step c
    rw [hv]
    rfl
  · exact ((h.used f).mp (mem_flatten_of_mem hl hf)).1
  · refine wp_imp (allocN_spec hn w.mm) ?_
    rintro f t ⟨i, rfl, hlow, rfl⟩
    exact ⟨i, rfl, hlow, (takePages_spec n i w.mm).zero⟩

/-- 16 MiB of memory, of which the kernel has the first two. -/
def bootPages : Pages := Pages.init 0x80200000 0x80000000 0x1000000 fun _ _ => 0

/-- Four allocations and two frees, one of them of an address inside a page. -/
theorem pmm_runs_boot : ∃ w, pmm.Reach Machine.always bootPages w ∧
    w.held = [[525825], [525829, 525830], [525826, 525827, 525828], []] ∧
    w.freePages = (clearPages w.mm).card ∧ w.held.Pairwise Disjoint ∧
    (∀ c, (pmm.step w c).isSome) ∧ (allocN 0).run w.mm = (.error .inval, w.mm) := by
  refine Machine.exists_reach_imp
    (P := fun w => w.held = [[525825], [525829, 525830], [525826, 525827, 525828], []])
    [.alloc, .allocN 3, .free (525825 * 4096), .free (525826 * 4096 + 1), .allocN 2, .alloc] (by decide +kernel) ?_
  intro w hrun hheld
  obtain ⟨hcount, hsome, hdisjoint, -, -, -, hzero, -⟩ := pmm_runs hrun
  exact ⟨hheld, hcount, hdisjoint, hsome, hzero⟩

/-- `alloc_n` refuses to look for no page at all. -/
theorem allocN_zero_bootPages : ((allocN 0).run bootPages.mm).1 = .error .inval ∧ FreeRun bootPages.mm 0 0 :=
  ⟨rfl, Nat.zero_le _, fun _ _ h => absurd h (Nat.not_lt_zero _)⟩

end Mm
