import OnyxKernel.Core.Errno
import OnyxKernel.Infra.StateProg
import Mathlib.Algebra.Order.Ring.Nat

/-!
# Physical memory and its allocator

`mm/pmm` and the user-page budget of `proc/limits.rs`. Physical memory is a set of 4 KiB frames of
512 words; page tables and user pages are in the same memory. Addresses that the kernel hands around
as page-aligned physical addresses (roots, tables, pages of the allocator) are frame numbers here.

All arithmetic of the source is checked, so an overflow stops the kernel; numbers are naturals.
-/

namespace Mm

open Infra Onyx StateProg Function

scoped instance neZero512 : NeZero 512 := ⟨by decide⟩

/-- A page handed out or given back. -/
inductive PageEvent
  | took (f : Nat)
  | gave (f : Nat)
  deriving DecidableEq

structure MmState where
  /-- The words of each frame. -/
  mem : Nat → Fin 512 → Nat
  /-- `G_PMM.base`, as a frame number. -/
  base : Nat
  /-- `G_PMM.total_pages` -/
  total : Nat
  /-- `G_PMM.bitmap`: bit `i` is set if page `i` is in use. -/
  bitmap : Nat
  /-- `G_USER_PAGES` -/
  userPages : Nat
  /-- The calls of the allocator so far, the last one first. Nothing reads it. -/
  log : List PageEvent

/-- Kernel code that works on memory and returns `KResult<α>`. -/
abbrev MmProg := StateProg MmState Errno

/-! ## Frames -/

-- The tests are on `Bool` so that a read after many writes evaluates fast.
def MmState.setFrame (s : MmState) (f : Nat) (words : Fin 512 → Nat) : MmState :=
  { s with mem := fun g => bif Nat.beq g f then words else s.mem g }

def MmState.setWord (s : MmState) (f : Nat) (i : Fin 512) (w : Nat) : MmState :=
  { s with mem := fun g j => bif Nat.beq g f && Nat.beq j.1 i.1 then w else s.mem g j }

theorem MmState.setFrame_mem (s : MmState) (f : Nat) (words : Fin 512 → Nat) :
    (s.setFrame f words).mem = update s.mem f words := by
  funext g
  rw [setFrame, update_apply]
  by_cases h : g = f
  · simp [h]
  · have hbeq : Nat.beq g f = false := Bool.eq_false_iff.mpr fun hb => h (Nat.eq_of_beq_eq_true hb)
    simp [h, hbeq]

theorem MmState.setWord_mem (s : MmState) (f : Nat) (i : Fin 512) (w : Nat) :
    (s.setWord f i w).mem = update s.mem f (update (s.mem f) i w) := by
  funext g j
  rw [setWord, update_apply]
  by_cases h : g = f
  · subst h
    by_cases hj : j = i
    · simp [hj]
    · have hbeq : Nat.beq j.1 i.1 = false := Bool.eq_false_iff.mpr fun hb => hj (Fin.ext (Nat.eq_of_beq_eq_true hb))
      simp [hbeq, hj]
  · have hbeq : Nat.beq g f = false := Bool.eq_false_iff.mpr fun hb => h (Nat.eq_of_beq_eq_true hb)
    simp [h, hbeq]

/-- `ptr::read_volatile` of an entry of a table. -/
def readPte (table : Nat) (i : Fin 512) : MmProg Nat := gets fun s => s.mem table i

/-- `ptr::write_volatile` of an entry of a table. -/
def writePte (table : Nat) (i : Fin 512) (pte : Nat) : MmProg Unit := modify fun s => s.setWord table i pte

/-- Byte `k` of a word replaced. -/
def setByte (w k : Nat) (b : UInt8) : Nat := w % 256 ^ k + b.toNat * 256 ^ k + w / 256 ^ (k + 1) * 256 ^ (k + 1)

def MmState.setByteAt (s : MmState) (pa : Nat) (b : UInt8) : MmState :=
  let i : Fin 512 := Fin.ofNat 512 (pa / 8)
  s.setWord (pa / 4096) i (setByte (s.mem (pa / 4096) i) (pa % 8) b)

/-- Bytes stored at a physical address: `ptr::copy_nonoverlapping` and `ptr::write_bytes`. -/
def MmState.setBytes (s : MmState) (pa : Nat) : List UInt8 → MmState
  | [] => s
  | b :: bytes => (s.setByteAt pa b).setBytes (pa + 1) bytes

def writeBytes (pa : Nat) (bytes : List UInt8) : MmProg Unit := modify fun s => s.setBytes pa bytes

/-! ## The allocator -/

def bmGet (s : MmState) (i : Nat) : Bool := s.bitmap.testBit i

/-- The scan of `alloc_unlocked` over `n` pages from page `i` on. -/
def firstFree (s : MmState) : (n i : Nat) → Option Nat
  | 0, _ => none
  | n + 1, i => if bmGet s i = false then some i else firstFree s n (i + 1)

/-- `pmm::alloc` and `pmm::alloc_zero`: the first free page, zeroed. -/
def alloc : MmProg Nat where
  run s := match firstFree s s.total 0 with
    | none => (.error .noMem, s)
    | some i =>
      (.ok (s.base + i),
        { s with bitmap := s.bitmap ||| 1 <<< i, log := .took (s.base + i) :: s.log }.setFrame
          (s.base + i) fun _ => 0)

/-- The scan of `alloc_n_unlocked` over the pages from page `i` on, with `run` free pages before page `i` and
the first of them at `start`: the first page of a run of `n` free pages. -/
def freeRun (s : MmState) (n : Nat) : (left i run start : Nat) → Option Nat
  | 0, _, _, _ => none
  | left + 1, i, run, start =>
    if bmGet s i = false then
      let start := if run = 0 then i else start
      if run + 1 = n then some start else freeRun s n left (i + 1) (run + 1) start
    else freeRun s n left (i + 1) 0 start

/-- `n` pages from page `i` on marked as in use and zeroed, one after the other. -/
def MmState.takePages (s : MmState) : (n i : Nat) → MmState
  | 0, _ => s
  | n + 1, i =>
    ({ s with bitmap := s.bitmap ||| 1 <<< i, log := .took (s.base + i) :: s.log }.setFrame
      (s.base + i) fun _ => 0).takePages n (i + 1)

/-- `pmm::alloc_n`: the first run of `n` free pages, zeroed. -/
def allocN (n : Nat) : MmProg Nat where
  run s :=
    if n = 0 then (.error .inval, s)
    else match freeRun s n s.total 0 0 0 with
      | none => (.error .noMem, s)
      | some i => (.ok (s.base + i), s.takePages n i)

/-- `free_unlocked`: only a managed page in use is freed. -/
def MmState.freeUnlocked (s : MmState) (f : Nat) : MmState :=
  if f < s.base then s
  else if f - s.base < s.total ∧ bmGet s (f - s.base) = true then
    { s with bitmap := s.bitmap ^^^ 1 <<< (f - s.base) }
  else s

def free (f : Nat) : MmProg Unit := modify fun s => { s.freeUnlocked f with log := .gave f :: s.log }

def isManaged (s : MmState) (f : Nat) : Bool := s.base ≤ f && f < s.base + s.total

def MmState.Used (s : MmState) (f : Nat) : Prop := isManaged s f = true ∧ bmGet s (f - s.base) = true

/-! ## The budget of user pages -/

def userMemMaxPages : Nat := 128 * 1024 * 1024 / 4096

def userPageTake : MmProg Unit where
  run s :=
    if userMemMaxPages ≤ s.userPages then (.error .noMem, s)
    else (.ok (), { s with userPages := s.userPages + 1 })

def userPagesRelease (n : Nat) : MmProg Unit := modify fun s => { s with userPages := s.userPages - n }

/-! ## What the allocator does -/

section

variable {s t : MmState}

/-- `n` free pages from page `i` on. -/
def FreeRun (s : MmState) (n i : Nat) : Prop := i + n ≤ s.total ∧ ∀ j, i ≤ j → j < i + n → bmGet s j = false

/-- No run of free pages that is long enough begins more than `run` pages before page `i`. -/
theorem freeRun_spec {n : Nat} : ∀ (left i run start : Nat), i + left = s.total → run < n → run ≤ i →
    (run ≠ 0 → start + run = i) → (∀ j, i ≤ j + run → j < i → bmGet s j = false) →
    (∀ k, FreeRun s n k → i ≤ k + run) →
    match freeRun s n left i run start with
    | some k => FreeRun s n k ∧ ∀ k', FreeRun s n k' → k ≤ k'
    | none => ∀ k, ¬ FreeRun s n k
  | 0, i, run, start, htotal, hlt, _, _, _, hleast => fun k hk => by
    have := hleast k hk
    have := hk.1
    omega
  | left + 1, i, run, start, htotal, hlt, hle, hstart, hfree, hleast => by
    unfold freeRun
    by_cases hi : bmGet s i = false
    · rw [if_pos hi]
      have hstart' : (if run = 0 then i else start) + run = i := by split <;> omega
      have hfree' : ∀ j, i ≤ j + run → j < i + 1 → bmGet s j = false := fun j h1 h2 => by
        rcases Nat.lt_succ_iff_lt_or_eq.mp h2 with h | rfl
        · exact hfree j h1 h
        · exact hi
      by_cases hn : run + 1 = n
      · rw [if_pos hn]
        refine ⟨⟨by omega, fun j h1 h2 => hfree' j (by omega) (by omega)⟩, fun k hk => ?_⟩
        have := hleast k hk
        omega
      · rw [if_neg hn]
        refine freeRun_spec left (i + 1) (run + 1) _ (by omega) (by omega) (by omega) (fun _ => by omega)
          (fun j h1 h2 => hfree' j (by omega) h2) fun k hk => ?_
        have := hleast k hk
        omega
    · rw [if_neg hi]
      refine freeRun_spec left (i + 1) 0 start (by omega) (by omega) (by omega) (fun h => absurd rfl h)
        (fun j h1 h2 => by omega) fun k hk => ?_
      -- A run that began before would have page `i` in it.
      have := hleast k hk
      by_contra hlt
      exact hi (hk.2 i (by omega) (by omega))

theorem firstFree_eq : ∀ (left i start : Nat), firstFree s left i = freeRun s 1 left i 0 start
  | 0, _, _ => rfl
  | left + 1, i, start => by
    unfold firstFree freeRun
    rw [firstFree_eq left (i + 1) start]
    rfl

/-- `alloc` is `alloc_n` for one page. -/
theorem alloc_eq_allocN : alloc = allocN 1 := by
  simp only [alloc, allocN, firstFree_eq _ _ 0]
  rfl

/-- `t` is `s` with the pages from `i` on in use and zeroed. -/
structure TookRun (s : MmState) (n i : Nat) (t : MmState) : Prop where
  base : t.base = s.base
  total : t.total = s.total
  bit : ∀ j, bmGet t j = (bmGet s j || decide (i ≤ j ∧ j < i + n))
  zero : ∀ k < n, t.mem (s.base + i + k) = fun _ => 0
  rest : ∀ g, g < s.base + i → t.mem g = s.mem g

theorem takePages_spec : ∀ (n i : Nat) (s : MmState), TookRun s n i (s.takePages n i)
  | 0, i, s => by
    refine ⟨rfl, rfl, fun j => ?_, nofun, fun _ _ => rfl⟩
    rw [MmState.takePages, decide_eq_false (by omega), Bool.or_false]
  | n + 1, i, s => by
    have h := takePages_spec n (i + 1) ({ s with
      bitmap := s.bitmap ||| 1 <<< i, log := .took (s.base + i) :: s.log }.setFrame (s.base + i) fun _ => 0)
    refine ⟨h.base, h.total, fun j => ?_, fun k hk => ?_, fun g hg => ?_⟩
    · rw [MmState.takePages, h.bit]
      simp only [bmGet, MmState.setFrame, Nat.testBit_or, Nat.one_shiftLeft, Nat.testBit_two_pow, Bool.or_assoc]
      congr 1
      rw [← Bool.decide_or, decide_eq_decide]
      omega
    · cases k with
      | zero =>
        rw [MmState.takePages, h.rest _ (by simp [MmState.setFrame]), MmState.setFrame_mem]
        exact update_self ..
      | succ k => exact (congrArg _ (by simp [MmState.setFrame]; omega)).trans (h.zero k (by omega))
    · rw [MmState.takePages, h.rest g (by simp [MmState.setFrame]; omega), MmState.setFrame_mem]
      exact update_of_ne (by omega) ..

theorem allocN_spec {n : Nat} (hn : 0 < n) (s : MmState) : wp (allocN n)
      (fun f t => ∃ i, f = s.base + i ∧
        (FreeRun s n i ∧ ∀ k, FreeRun s n k → i ≤ k) ∧ t = s.takePages n i)
      (fun e t => e = .noMem ∧ t = s ∧ ∀ i, ¬ FreeRun s n i) s := by
  have hscan := freeRun_spec (s := s) (n := n) s.total 0 0 0 (Nat.zero_add _) hn (Nat.le_refl 0) (fun h => absurd rfl h)
    (fun j _ h => absurd h (Nat.not_lt_zero j)) fun k _ => Nat.zero_le k
  unfold wp allocN
  simp only [if_neg (Nat.ne_of_gt hn)]
  cases hf : freeRun s n s.total 0 0 0 with
  | none =>
    rw [hf] at hscan
    exact ⟨rfl, rfl, hscan⟩
  | some i =>
    rw [hf] at hscan
    exact ⟨i, rfl, hscan, rfl⟩

/-- `t` is `s` with frame `f` taken from the allocator and zeroed. -/
structure Took (s : MmState) (f : Nat) (t : MmState) : Prop where
  base : t.base = s.base
  total : t.total = s.total
  userPages : t.userPages = s.userPages
  managed : isManaged s f = true
  fresh : ¬ s.Used f
  used : ∀ g, t.Used g ↔ s.Used g ∨ g = f
  mem : t.mem = update s.mem f fun _ => 0
  log : t.log = .took f :: s.log

theorem used_iff {f : Nat} : s.Used f ↔ s.base ≤ f ∧ f < s.base + s.total ∧ bmGet s (f - s.base) = true := by
  rw [MmState.Used, isManaged, Bool.and_eq_true, decide_eq_true_eq, decide_eq_true_eq, and_assoc]

theorem alloc_spec (s : MmState) : wp alloc (Took s)
      (fun e t => e = .noMem ∧ t = s ∧ ∀ f, isManaged s f = true → s.Used f) s := by
  rw [alloc_eq_allocN]
  refine wp_mono (allocN_spec Nat.one_pos s) ?_ ?_
  · rintro f t ⟨i, rfl, ⟨hfree, -⟩, rfl⟩
    have htook := takePages_spec 1 i s
    have hlt := hfree.1
    have hclear := hfree.2 i (Nat.le_refl i) (Nat.lt_succ_self i)
    refine ⟨rfl, rfl, rfl, ?_, fun hu => ?_, fun g => ?_, MmState.setFrame_mem .., rfl⟩
    · simp only [isManaged, Bool.and_eq_true, decide_eq_true_eq]
      omega
    · have hbit := hu.2
      rw [Nat.add_sub_cancel_left, hclear] at hbit
      cases hbit
    · rw [used_iff, used_iff, htook.base, htook.total, htook.bit]
      grind
  · rintro e t ⟨he, ht, hnone⟩
    refine ⟨he, ht, fun f hm => ⟨hm, ?_⟩⟩
    simp only [isManaged, Bool.and_eq_true, decide_eq_true_eq] at hm
    by_contra hfree
    refine hnone (f - s.base) ⟨by omega, fun j h1 h2 => ?_⟩
    obtain rfl : j = f - s.base := by omega
    exact Bool.eq_false_iff.mpr hfree

theorem freeUnlocked_spec (s : MmState) (f : Nat) : ∃ b, s.freeUnlocked f = { s with bitmap := b } ∧
    ∀ g, { s with bitmap := b }.Used g ↔ s.Used g ∧ g ≠ f := by
  have hsame : (¬ s.Used f) → ∃ b, s = { s with bitmap := b } ∧
      ∀ g, { s with bitmap := b }.Used g ↔ s.Used g ∧ g ≠ f := fun hf =>
    ⟨s.bitmap, rfl, fun g => ⟨fun hg => ⟨hg, fun he => hf (he ▸ hg)⟩, And.left⟩⟩
  unfold MmState.freeUnlocked
  split
  · rename_i hlt
    exact hsame fun hu => absurd hlt (Nat.not_lt.mpr (used_iff.mp hu).1)
  split
  · rename_i hge hin
    refine ⟨_, rfl, fun g => ?_⟩
    simp only [used_iff, bmGet, Nat.testBit_xor, Nat.one_shiftLeft, Nat.testBit_two_pow] at hin ⊢
    grind
  · rename_i hge hin
    refine hsame fun hu => hin ⟨?_, hu.2⟩
    have := used_iff.mp hu
    omega

/-- `t` is `s` with frame `f` given back. -/
structure Gave (s : MmState) (f : Nat) (t : MmState) : Prop where
  base : t.base = s.base
  total : t.total = s.total
  userPages : t.userPages = s.userPages
  mem : t.mem = s.mem
  used : ∀ g, t.Used g ↔ s.Used g ∧ g ≠ f
  log : t.log = .gave f :: s.log

theorem free_spec (s : MmState) (f : Nat) {E : Errno → MmState → Prop} : wp (free f) (fun _ => Gave s f) E s := by
  obtain ⟨b, hfree, hused⟩ := freeUnlocked_spec s f
  unfold free
  rw [wp_modify, hfree]
  exact ⟨rfl, rfl, rfl, rfl, hused, rfl⟩

/-! ## The ledger -/

/-- Page `f` was handed out and is not given back. -/
def outstanding : List PageEvent → Nat → Bool
  | [], _ => false
  | .took g :: log, f => g == f || outstanding log f
  | .gave g :: log, f => g != f && outstanding log f

def Orderly : List PageEvent → Prop
  | [] => True
  | .took f :: log => outstanding log f = false ∧ Orderly log
  | .gave f :: log => outstanding log f = true ∧ Orderly log

/-- The log is orderly and hands out no `foreign` page, and what it has handed out is in use besides
those. -/
structure Ledger (foreign : Nat → Prop) (s : MmState) : Prop where
  orderly : Orderly s.log
  own : ∀ f, outstanding s.log f = true ↔ s.Used f ∧ ¬ foreign f
  fresh : ∀ f, .took f ∈ s.log → ¬ foreign f

theorem took_of_outstanding {f : Nat} : ∀ {log : List PageEvent}, outstanding log f = true → .took f ∈ log
  | .took g :: log, h => by
    rw [outstanding, Bool.or_eq_true, beq_iff_eq] at h
    rcases h with rfl | h
    · exact List.mem_cons_self
    · exact List.mem_cons_of_mem _ (took_of_outstanding h)
  | .gave g :: log, h => by
    rw [outstanding, Bool.and_eq_true] at h
    exact List.mem_cons_of_mem _ (took_of_outstanding h.2)

theorem Orderly.took_of_gave {f : Nat} : ∀ {log : List PageEvent}, Orderly log → .gave f ∈ log → .took f ∈ log
  | .took g :: log, h, hf => by
    rcases List.mem_cons.mp hf with hc | hf
    · cases hc
    · exact List.mem_cons_of_mem _ (h.2.took_of_gave hf)
  | .gave g :: log, h, hf => by
    rcases List.mem_cons.mp hf with hc | hf
    · cases hc
      exact List.mem_cons_of_mem _ (took_of_outstanding h.1)
    · exact List.mem_cons_of_mem _ (h.2.took_of_gave hf)

section

variable {foreign : Nat → Prop} {f : Nat}

theorem Ledger.took (h : Ledger foreign s) (hlog : t.log = .took f :: s.log) (hfresh : ¬ s.Used f)
    (hused : ∀ g, t.Used g ↔ s.Used g ∨ g = f) (hf : ∀ g, foreign g → s.Used g) : Ledger foreign t := by
  constructor
  · rw [hlog]
    refine ⟨Bool.eq_false_iff.mpr fun ho => ?_, h.orderly⟩
    exact hfresh ((h.own f).mp ho).1
  · intro g
    rw [hlog, outstanding, Bool.or_eq_true, beq_iff_eq, h.own, hused]
    constructor
    · rintro (rfl | ⟨hg, hn⟩)
      · exact ⟨.inr rfl, fun hc => hfresh (hf f hc)⟩
      · exact ⟨.inl hg, hn⟩
    · rintro ⟨hg | rfl, hn⟩
      · exact .inr ⟨hg, hn⟩
      · exact .inl rfl
  · intro g hg hc
    rw [hlog] at hg
    rcases List.mem_cons.mp hg with he | hg
    · cases he
      exact hfresh (hf f hc)
    · exact h.fresh g hg hc

theorem Ledger.gave (h : Ledger foreign s) (ht : Gave s f t) (hu : s.Used f) (hf : ¬ foreign f) :
    Ledger foreign t := by
  constructor
  · rw [ht.log]
    exact ⟨(h.own f).mpr ⟨hu, hf⟩, h.orderly⟩
  · intro g
    rw [ht.log, outstanding, Bool.and_eq_true, bne_iff_ne, h.own, ht.used]
    constructor
    · rintro ⟨hne, hg, hn⟩
      exact ⟨⟨hg, fun he => hne he.symm⟩, hn⟩
    · rintro ⟨⟨hg, hne⟩, hn⟩
      exact ⟨fun he => hne he.symm, hg, hn⟩
  · intro g hg
    rw [ht.log] at hg
    rcases List.mem_cons.mp hg with he | hg
    · cases he
    · exact h.fresh g hg

theorem Ledger.congr (h : Ledger foreign s) (hlog : t.log = s.log) (hused : ∀ g, t.Used g ↔ s.Used g) :
    Ledger foreign t where
  orderly := hlog ▸ h.orderly
  own g := by rw [hlog, hused, h.own]
  fresh := hlog ▸ h.fresh

end

theorem userPageTake_spec (s : MmState) :
    wp userPageTake (fun _ t => s.userPages < userMemMaxPages ∧
      t = { s with userPages := s.userPages + 1 })
      (fun e t => e = .noMem ∧ t = s ∧ userMemMaxPages ≤ s.userPages) s := by
  unfold wp userPageTake
  simp only
  split
  · rename_i h
    split at h
    · cases h
    · rename_i hlt
      cases h
      exact ⟨by omega, rfl⟩
  · rename_i h
    split at h
    · rename_i hle
      cases h
      exact ⟨rfl, rfl, hle⟩
    · cases h

end

end Mm
