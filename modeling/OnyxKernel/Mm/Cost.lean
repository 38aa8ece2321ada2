import OnyxKernel.Mm.Vmm

/-!
# What mapping costs

A mapping fails for want of memory only if the allocator or the budget of user pages has less than it
may take: one page, and up to two tables on the way to it.
-/

namespace Mm

open Infra Onyx StateProg

/-- The number of free pages among the first `n` of the allocator. -/
def freeBelow (s : MmState) : Nat → Nat
  | 0 => 0
  | n + 1 => freeBelow s n + if bmGet s n = false then 1 else 0

def freeFrames (s : MmState) : Nat := freeBelow s s.total

section

variable {s t : MmState}

theorem freeBelow_eq_zero {n : Nat} (h : ∀ i < n, bmGet s i = true) : freeBelow s n = 0 := by
  induction n with
  | zero => rfl
  | succ n ih => rw [freeBelow, ih fun i hi => h i (by omega), h n (by omega), if_neg (by decide)]

theorem freeBelow_le {i n : Nat} (h : ∀ j < n, bmGet s j = false → bmGet t j = true → j = i) :
    freeBelow s n ≤ freeBelow t n + if i < n then 1 else 0 := by
  induction n with
  | zero => exact Nat.zero_le _
  | succ n ih =>
    have hrest := ih fun j hj => h j (by omega)
    rw [freeBelow, freeBelow]
    by_cases hlost : bmGet s n = false ∧ bmGet t n = true
    · have hn := h n (by omega) hlost.1 hlost.2
      rw [if_neg (by omega)] at hrest
      rw [if_pos hlost.1, if_neg (by rw [hlost.2]; decide), if_pos (show i < n + 1 by omega)]
      omega
    · have hbit : (if bmGet s n = false then 1 else 0) ≤ if bmGet t n = false then 1 else 0 := by
        cases hs : bmGet s n <;> cases ht : bmGet t n <;> simp_all
      have hmono : (if i < n then 1 else 0) ≤ if i < n + 1 then 1 else 0 := by
        split <;> split <;> omega
      omega

theorem freeFrames_congr (hb : t.bitmap = s.bitmap) (ht : t.total = s.total) : freeFrames t = freeFrames s := by
  have hbelow : ∀ n, freeBelow t n = freeBelow s n := by
    intro n
    induction n with
    | zero => rfl
    | succ n ih => rw [freeBelow, freeBelow, ih, bmGet, bmGet, hb]
  rw [freeFrames, freeFrames, ht, hbelow]

theorem Took.freeFrames {f : Nat} (h : Took s f t) : freeFrames s ≤ freeFrames t + 1 := by
  rw [Mm.freeFrames, Mm.freeFrames, h.total]
  have hm : s.base ≤ f ∧ f < s.base + s.total := by simpa [isManaged] using h.managed
  have hle := freeBelow_le (s := s) (t := t) (i := f - s.base) (n := s.total) fun j hj hs ht => by
    have hmanaged : isManaged t (s.base + j) = true := by
      simp only [isManaged, h.base, h.total, Bool.and_eq_true, decide_eq_true_eq]
      omega
    have hidx : s.base + j - s.base = j := by omega
    have hused : t.Used (s.base + j) := ⟨hmanaged, by rw [h.base, hidx]; exact ht⟩
    rcases (h.used _).mp hused with hu | he
    · have hbit := hu.2
      rw [hidx, hs] at hbit
      cases hbit
    · omega
  rwa [if_pos (by omega)] at hle

end

/-! ## Programs that take pages -/

/-- The program takes at most `pages` pages and `budget` of the budget, and runs out of memory only if
there is less. -/
def Costs {α : Type} (pages budget : Nat) (p : MmProg α) : Prop :=
  ∀ s, wp p (fun _ t => freeFrames s ≤ freeFrames t + pages ∧ t.userPages ≤ s.userPages + budget)
    (fun e _ => e = .noMem → freeFrames s < pages ∨ userMemMaxPages < s.userPages + budget) s

section

variable {α β : Type} {m n b c : Nat} {p : MmProg α} {f : α → MmProg β}

theorem Costs.mono (h : Costs m b p) (hn : m ≤ n) (hc : b ≤ c) : Costs n c p := fun s =>
  wp_mono (h s) (fun _ _ ht => ⟨by omega, by omega⟩) fun _ _ he hmem => by
    rcases he hmem with h | h
    · exact .inl (by omega)
    · exact .inr (by omega)

theorem Costs.bind (hp : Costs m b p) (hf : ∀ a, Costs n c (f a)) : Costs (m + n) (b + c) (p >>= f) := fun s => by
  refine wp_seq (hp s) (fun a t ht => ?_) fun e _ he hmem => ?_
  · refine wp_mono (hf a t) (fun _ u hu => ⟨by omega, by omega⟩) fun e _ he hmem => ?_
    rcases he hmem with h | h
    · exact .inl (by omega)
    · exact .inr (by omega)
  · rcases he hmem with h | h
    · exact .inl (by omega)
    · exact .inr (by omega)

theorem Costs.free_bind (hp : Costs 0 0 p) (hf : ∀ a, Costs n c (f a)) : Costs n c (p >>= f) := by
  have h := hp.bind hf
  rwa [Nat.zero_add, Nat.zero_add] at h

theorem Costs.onError (hp : Costs m b p) (d : MmProg Unit) : Costs m b (onError p d) := fun s =>
  wp_onError (wp_mono (hp s) (fun _ _ h => h) fun e t he => by
    unfold wp
    split <;> exact he)

theorem Costs.forUpTo {body : Nat → MmProg Unit} (h : ∀ j, Costs m b (body j)) :
    ∀ n i, Costs (m * n) (b * n) (forUpTo n i body)
  | 0, _ => fun s => ⟨Nat.le_refl _, Nat.le_refl _⟩
  | n + 1, i => by
    have hstep := (h i).bind fun _ => Costs.forUpTo h n (i + 1)
    rw [Nat.mul_succ, Nat.mul_succ, Nat.add_comm (m * n), Nat.add_comm (b * n)]
    exact hstep

theorem costs_pure (a : α) : Costs 0 0 (pure a : MmProg α) := fun _ => ⟨Nat.le_refl _, Nat.le_refl _⟩

theorem costs_fail {e : Errno} (he : e ≠ .noMem) : Costs 0 0 (fail e : MmProg α) := fun _ hc => absurd hc he

theorem costs_readPte (table : Nat) (i : Fin 512) : Costs 0 0 (readPte table i) := fun _ =>
  ⟨Nat.le_refl _, Nat.le_refl _⟩

theorem costs_modify {g : MmState → MmState} (hb : ∀ s, (g s).bitmap = s.bitmap) (ht : ∀ s, (g s).total = s.total)
    (hu : ∀ s, (g s).userPages ≤ s.userPages) : Costs 0 0 (modify g : MmProg Unit) := fun s =>
  ⟨Nat.le_of_eq (freeFrames_congr (hb s) (ht s)).symm, hu s⟩

theorem costs_writePte (table : Nat) (i : Fin 512) (pte : Nat) : Costs 0 0 (writePte table i pte) :=
  costs_modify (fun _ => rfl) (fun _ => rfl) fun _ => Nat.le_refl _

theorem costs_alloc : Costs 1 0 alloc := fun s => by
  refine wp_mono (alloc_spec s) (fun f t h => ⟨h.freeFrames, Nat.le_of_eq h.userPages⟩) fun e t he _ => ?_
  obtain ⟨-, -, hall⟩ := he
  have hz : freeFrames s = 0 := freeBelow_eq_zero fun i hi => by
    have hused := (hall (s.base + i) (by simp [isManaged, hi])).2
    rwa [Nat.add_sub_cancel_left] at hused
  exact .inl (by omega)

theorem costs_userPageTake : Costs 0 1 userPageTake := fun s => by
  refine wp_mono (userPageTake_spec s) ?_ fun e t he _ => .inr (by have := he.2.2; omega)
  rintro _ t ⟨-, ht⟩
  have hfree : freeFrames t = freeFrames s := freeFrames_congr (by rw [ht]) (by rw [ht])
  have huser : t.userPages = s.userPages + 1 := by rw [ht]
  exact ⟨by omega, by omega⟩

/-! ## Walks and mappings -/

theorem costs_walkLevel (va table level : Nat) : Costs 1 0 (walkLevel va true table level) := by
  refine (costs_readPte table (idx level va)).free_bind fun pte => ?_
  split
  · rw [if_pos rfl]
    exact costs_alloc.bind fun new => (costs_writePte _ _ _).free_bind fun _ => costs_pure new
  split
  · have hsplit : Costs 1 0 (splitLeaf table (idx level va) pte level) := by
      refine costs_alloc.bind (n := 0) (c := 0) fun new => Costs.free_bind ?_ fun _ => costs_writePte _ _ _
      exact costs_modify (fun _ => rfl) (fun _ => rfl) fun _ => Nat.le_refl _
    rw [if_pos rfl]
    exact hsplit.bind fun _ => (costs_readPte _ _).free_bind fun _ => costs_pure _
  · exact (costs_pure _).mono (by omega) (Nat.le_refl 0)

theorem costs_walkDown (va leafLevel : Nat) : ∀ n table, Costs n 0 (walkDown va true leafLevel n table)
  | 0, table => costs_pure table
  | n + 1, table => by
    have hstep := (costs_walkLevel va table (leafLevel + n + 1)).bind
      fun below => costs_walkDown va leafLevel n below
    rwa [Nat.add_comm 1 n] at hstep

theorem costs_mapOne (root va paddr flags level : Nat) : Costs 2 0 (mapOne root va paddr flags level) := by
  have hfail : ∀ {e : Errno}, e ≠ .noMem → Costs 2 0 (fail e : MmProg Unit) := fun he =>
    (costs_fail he).mono (by omega) (Nat.le_refl 0)
  unfold mapOne
  split
  · exact hfail (by decide)
  split
  · exact hfail (by decide)
  have hwalk : Costs 2 0 (walk root va level true) :=
    ((costs_walkDown va level (2 - level) root).bind fun table => costs_pure (table, idx level va)).mono
      (by omega) (Nat.le_refl 0)
  refine hwalk.bind (n := 0) (c := 0) ?_
  rintro ⟨table, i⟩
  refine (costs_readPte table i).free_bind fun old => ?_
  split
  · exact costs_fail (by decide)
  · exact costs_writePte _ _ _

theorem costs_mapFreshPage (root va flags : Nat) : Costs 3 1 (mapFreshPage root va flags) := by
  refine costs_userPageTake.bind (n := 3) (c := 0) fun _ => ?_
  exact (costs_alloc.onError _).bind fun page => (costs_mapOne _ _ _ _ _).onError _

theorem costs_mapAnon (root va size flags : Nat) :
    Costs (3 * ((size + 4095) / 4096)) ((size + 4095) / 4096) (mapAnon root va size flags) := by
  have hpage : ∀ j, Costs 3 1 (mapAnonPage root va (va + 4096 * j) flags) := by
    intro j
    rw [mapAnonPage_eq]
    exact (costs_mapFreshPage _ _ _).onError _
  have hpages := Costs.forUpTo hpage ((size + 4095) / 4096) 0
  rwa [Nat.one_mul] at hpages

theorem costs_mapLoop (root flags : Nat) : ∀ fuel va pa remaining,
    Costs (2 * fuel) 0 (mapLoop root flags fuel va pa remaining)
  | 0, _, _, _ => costs_pure ()
  | fuel + 1, va, pa, remaining => by
    unfold mapLoop
    split
    · exact (costs_pure ()).mono (by omega) (Nat.le_refl 0)
    · have hround := (costs_mapOne root va pa (flags ||| pteA ||| pteD) (bestLevel va pa remaining)).bind
        fun _ => costs_mapLoop root flags fuel (va + min (blockSize (bestLevel va pa remaining)) remaining)
          (pa + min (blockSize (bestLevel va pa remaining)) remaining)
          (remaining - min (blockSize (bestLevel va pa remaining)) remaining)
      rw [Nat.mul_succ, Nat.add_comm]
      exact hround

end

end Mm
