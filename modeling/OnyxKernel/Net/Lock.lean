import Mathlib.Algebra.Order.Ring.Nat
import OnyxKernel.Infra.Machine

/-!
# The recursive network lock

`net_lock` and `net_unlock` of `net/lock.rs`. Each atomic access is a step of its own, and the steps of any number
of harts interleave. The fast path of `net_lock` reads the owner without the lock, so the invariant says what the
three fields are at every point inside the two functions (`Inv`).

The swap in `SpinLock::lock` is one step; a swap that finds the lock taken changes nothing, and neither does the
polling between two swaps.
-/

namespace Net.Lock

open Infra Function Option

def noOwner : Nat := 2 ^ 64 - 1

/-- A hart with its id, the number in `tp`. -/
structure Hart where
  id : Nat
  lt : id < noOwner
  deriving DecidableEq

theorem Hart.ext {h k : Hart} (heq : h.id = k.id) : h = k := by
  cases h
  cases k
  simpa using heq

/-- Where a hart is in the code. -/
inductive Pc
  /-- In neither function. -/
  | outside
  /-- `net_lock`, before `owner.load()`. -/
  | check
  /-- Before `depth.fetch_add(1)`. -/
  | bump
  /-- Before a swap of `lock.lock()`. -/
  | spin
  /-- Before `owner.store(id)`. -/
  | setOwner
  /-- Before `depth.store(1)`. -/
  | setDepth
  /-- `net_unlock`, before `depth.fetch_sub(1)`. -/
  | sub
  /-- Before `owner.store(NO_OWNER)`. -/
  | clear
  /-- Before `lock.unlock()`. -/
  | release
  deriving DecidableEq, Repr

structure State where
  /-- The flag of the spinlock. -/
  locked : Bool
  owner : Nat
  depth : Nat
  pc : Hart → Pc
  /-- The completed `net_lock` calls of a hart whose `net_unlock` has not completed. -/
  nest : Hart → Nat

def start : State where
  locked := false
  owner := noOwner
  depth := 0
  pc := fun _ => .outside
  nest := fun _ => 0

inductive Act
  /-- Call `net_lock`. -/
  | lock
  /-- Call `net_unlock`. -/
  | unlock
  /-- The next atomic step of the call. -/
  | next
  deriving DecidableEq, Repr

/-- The hart goes to `p` and nests `n` deep. -/
def State.goto (s : State) (h : Hart) (p : Pc) (n : Nat) : State :=
  { s with pc := update s.pc h p, nest := update s.nest h n }

def next (s : State) (h : Hart) : Option State :=
  let n := s.nest h
  match s.pc h with
  | .outside => none
  | .check => some (s.goto h (if s.owner = h.id then .bump else .spin) n)
  | .bump => some { s.goto h .outside (n + 1) with depth := (s.depth + 1) % 2 ^ 64 }
  | .spin => if s.locked then some s else some { s.goto h .setOwner n with locked := true }
  | .setOwner => some { s.goto h .setDepth n with owner := h.id }
  | .setDepth => some { s.goto h .outside (n + 1) with depth := 1 }
  | .sub =>
    if s.depth = 1 then some { s.goto h .clear n with depth := 0 }
    else some { s.goto h .outside (n - 1) with depth := (s.depth + (2 ^ 64 - 1)) % 2 ^ 64 }
  | .clear => some { s.goto h .release n with owner := noOwner }
  | .release => some { s.goto h .outside (n - 1) with locked := false }

/-- A hart calls `net_unlock` only for a `net_lock` of its own. Calls nest less deep than the address space, which
holds a stack frame of each, has bytes. -/
def step (s : State) (h : Hart) : Act → Option State
  | .lock =>
    if s.pc h = .outside ∧ s.nest h + 1 < 2 ^ 64 then some (s.goto h .check (s.nest h)) else none
  | .unlock => if s.pc h = .outside ∧ 0 < s.nest h then some (s.goto h .sub (s.nest h)) else none
  | .next => next s h

def harts : Machine State (Hart × Act) where
  step s a := step s a.1 a.2

/-! ## The invariant -/

def Holds (p : Pc) (n : Nat) : Prop := 0 < n ∨ p = .setOwner ∨ p = .setDepth

def Owns (p : Pc) (n : Nat) : Prop := 0 < n ∧ p ≠ .release ∨ p = .setDepth

def depthAt : Pc → Nat → Nat
  | .clear, _ => 0
  | .release, _ => 0
  | _, n => n

def Fits : Pc → Nat → Prop
  | .outside, n => n < 2 ^ 64
  | .check, n => n + 1 < 2 ^ 64
  | .bump, n => 0 < n ∧ n + 1 < 2 ^ 64
  | .spin, n => n = 0
  | .setOwner, n => n = 0
  | .setDepth, n => n = 0
  | .sub, n => 0 < n ∧ n < 2 ^ 64
  | .clear, n => n = 1
  | .release, n => n = 1

instance (p : Pc) (n : Nat) : Decidable (Holds p n) := inferInstanceAs (Decidable (_ ∨ _))

instance (p : Pc) (n : Nat) : Decidable (Owns p n) := inferInstanceAs (Decidable (_ ∨ _))

theorem Owns.holds {p : Pc} {n : Nat} (h : Owns p n) : Holds p n := by
  rcases h with ⟨h, -⟩ | h
  · exact .inl h
  · exact .inr (.inr h)

structure Inv (s : State) : Prop where
  fits : ∀ h, Fits (s.pc h) (s.nest h)
  one : ∀ h k, Holds (s.pc h) (s.nest h) → Holds (s.pc k) (s.nest k) → h = k
  locked : s.locked = true ↔ ∃ h, Holds (s.pc h) (s.nest h)
  owner : ∀ h, s.owner = h.id ↔ Owns (s.pc h) (s.nest h)
  free : (∀ h, ¬ Owns (s.pc h) (s.nest h)) → s.owner = noOwner
  depth : ∀ h, Holds (s.pc h) (s.nest h) → s.depth = depthAt (s.pc h) (s.nest h)
  idle : (∀ h, ¬ Holds (s.pc h) (s.nest h)) → s.depth = 0

theorem inv_start : Inv start := by
  have hfree : ∀ h : Hart, ¬ Holds (start.pc h) (start.nest h) := by
    intro h hh
    rcases hh with hh | hh | hh
    · exact absurd hh (Nat.lt_irrefl 0)
    · cases hh
    · cases hh
  refine ⟨fun _ => Nat.two_pow_pos 64, fun h _ hh => absurd hh (hfree h), ?_, fun h => ?_, fun _ => rfl,
    fun h hh => absurd hh (hfree h), fun _ => rfl⟩
  · constructor
    · intro h
      cases h
    · rintro ⟨h, hh⟩
      exact absurd hh (hfree h)
  · constructor
    · intro heq
      exact absurd heq.symm (Nat.ne_of_lt h.lt)
    · intro hh
      exact absurd hh.holds (hfree h)

section

variable {s t : State} {h : Hart} {p : Pc} {n : Nat}

theorem goto_self : (s.goto h p n).pc h = p ∧ (s.goto h p n).nest h = n := ⟨update_self .., update_self ..⟩

theorem goto_ne {k : Hart} (hk : k ≠ h) : (s.goto h p n).pc k = s.pc k ∧ (s.goto h p n).nest k = s.nest k :=
  ⟨update_of_ne hk .., update_of_ne hk ..⟩

theorem goto_iff {P : Pc → Nat → Prop} (hp : P p n ↔ P (s.pc h) (s.nest h)) (k : Hart) :
    P ((s.goto h p n).pc k) ((s.goto h p n).nest k) ↔ P (s.pc k) (s.nest k) := by
  by_cases hk : k = h
  · subst hk
    rw [goto_self.1, goto_self.2]
    exact hp
  · rw [(goto_ne hk).1, (goto_ne hk).2]

/-- A step of a hart that has nothing of the lock, and gets nothing. -/
theorem Inv.apart (hi : Inv s) (hfits : Fits p n) (hbefore : ¬ Holds (s.pc h) (s.nest h))
    (hafter : ¬ Holds p n) : Inv (s.goto h p n) := by
  have hholds := goto_iff (P := Holds) (iff_of_false hafter hbefore)
  have howns := goto_iff (P := Owns) (iff_of_false (fun ho => hafter ho.holds) fun ho => hbefore ho.holds)
  refine ⟨fun k => ?_, fun j k hj hk => ?_, ?_, fun k => ?_, fun hno => ?_, fun k hk => ?_, fun hno => ?_⟩
  · by_cases hk : k = h
    · subst hk
      rw [goto_self.1, goto_self.2]
      exact hfits
    · rw [(goto_ne hk).1, (goto_ne hk).2]
      exact hi.fits k
  · exact hi.one j k ((hholds j).mp hj) ((hholds k).mp hk)
  · exact hi.locked.trans (exists_congr fun k => (hholds k).symm)
  · exact (hi.owner k).trans (howns k).symm
  · exact hi.free fun k hk => hno k ((howns k).mpr hk)
  · have hne : k ≠ h := by
      rintro rfl
      exact hbefore ((hholds k).mp hk)
    rw [(goto_ne hne).1, (goto_ne hne).2]
    exact hi.depth k ((hholds k).mp hk)
  · exact hi.idle fun k hk => hno k ((hholds k).mpr hk)

/-- A step of a hart when no other one holds the lock. -/
theorem Inv.sole (hi : Inv s) (hsole : ∀ k, k ≠ h → ¬ Holds (s.pc k) (s.nest k)) (hfits : Fits p n)
    {locked : Bool} {owner depth : Nat} (hlocked : locked = decide (Holds p n))
    (howner : owner = if Owns p n then h.id else noOwner) (hdepth : depth = if Holds p n then depthAt p n else 0) :
    Inv { s.goto h p n with locked, owner, depth } := by
  generalize ht : { s.goto h p n with locked, owner, depth } = t
  obtain ⟨hpc, hnest⟩ : t.pc h = p ∧ t.nest h = n := ht ▸ goto_self
  have hother (k : Hart) (hk : k ≠ h) : t.pc k = s.pc k ∧ t.nest k = s.nest k := ht ▸ goto_ne hk
  have honly : ∀ k, Holds (t.pc k) (t.nest k) → k = h := fun k hk => by_contra fun hne => by
    rw [(hother k hne).1, (hother k hne).2] at hk
    exact hsole k hne hk
  refine ⟨fun k => ?_, fun j k hj hk => (honly j hj).trans (honly k hk).symm, ?_, fun k => ?_, fun hno => ?_,
    fun k hk => ?_, fun hno => ?_⟩
  · by_cases hk : k = h
    · rwa [hk, hpc, hnest]
    · rw [(hother k hk).1, (hother k hk).2]
      exact hi.fits k
  · have hany : (∃ k, Holds (t.pc k) (t.nest k)) ↔ Holds p n := by
      refine ⟨fun ⟨k, hk⟩ => ?_, fun hh => ⟨h, by rwa [hpc, hnest]⟩⟩
      rwa [honly k hk, hpc, hnest] at hk
    rw [hany, ← ht]
    exact Bool.eq_iff_iff.mp (hlocked.trans rfl) |>.trans decide_eq_true_iff
  · by_cases hk : k = h
    · subst hk
      rw [hpc, hnest, ← ht]
      show owner = k.id ↔ _
      rw [howner]
      by_cases ho : Owns p n
      · exact iff_of_true (if_pos ho) ho
      · rw [if_neg ho]
        exact iff_of_false (Nat.ne_of_gt k.lt) ho
    · refine iff_of_false (fun heq => ?_) fun ho => hk (honly k ho.holds)
      rw [← ht] at heq
      change owner = k.id at heq
      rw [howner] at heq
      split at heq
      · exact hk (Hart.ext heq.symm)
      · exact absurd heq (Nat.ne_of_gt k.lt)
  · have ho : ¬ Owns p n := fun ho => hno h (by rwa [hpc, hnest])
    rw [← ht]
    exact howner.trans (if_neg ho)
  · obtain rfl := honly k hk
    rw [hpc, hnest] at hk ⊢
    rw [← ht]
    exact hdepth.trans (if_pos hk)
  · have hh : ¬ Holds p n := fun hh => hno h (by rwa [hpc, hnest])
    rw [← ht]
    exact hdepth.trans (if_neg hh)

theorem Inv.others (hi : Inv s) (hh : Holds (s.pc h) (s.nest h)) (k : Hart) (hk : k ≠ h) :
    ¬ Holds (s.pc k) (s.nest k) :=
  fun hk' => hk (hi.one k h hk' hh)

theorem Inv.holder (hi : Inv s) (p : Pc) (n : Nat) (hfits : Fits p n) (hh : Holds (s.pc h) (s.nest h))
    (hafter : Holds p n) {owner depth : Nat} (howner : owner = if Owns p n then h.id else noOwner)
    (hdepth : depth = depthAt p n) : Inv { s.goto h p n with owner, depth } := by
  refine hi.sole (hi.others hh) hfits ?_ howner ?_
  · rw [decide_eq_true hafter]
    exact hi.locked.mpr ⟨h, hh⟩
  · rw [hdepth, if_pos hafter]

theorem Inv.owner_of_nest (hi : Inv s) (hn : 0 < s.nest h) (hp : s.pc h ≠ .release) : s.owner = h.id :=
  (hi.owner h).mpr (.inl ⟨hn, hp⟩)

theorem owns_of_nest (hn : 0 < n) (hp : p ≠ .release) : Owns p n := .inl ⟨hn, hp⟩

theorem not_holds_zero (h1 : p ≠ .setOwner) (h2 : p ≠ .setDepth) : ¬ Holds p 0 := by
  rintro (h | h | h)
  · exact absurd h (Nat.lt_irrefl 0)
  · exact h1 h
  · exact h2 h

section

variable (hi : Inv s)
include hi

theorem Inv.fits_at (hpc : s.pc h = p) : Fits p (s.nest h) := hpc ▸ hi.fits h

theorem Inv.depth_at (hpc : s.pc h = p) (hh : Holds p (s.nest h)) : s.depth = depthAt p (s.nest h) := by
  subst hpc
  exact hi.depth h hh

theorem Inv.enter (hout : s.pc h = .outside) (hp : p = .check ∨ p = .sub)
    (hfits : Fits p (s.nest h)) : Inv (s.goto h p (s.nest h)) := by
  have hrel : p ≠ .release := by rcases hp with rfl | rfl <;> decide
  by_cases hn : 0 < s.nest h
  · have hd : s.depth = s.nest h := hi.depth_at hout (.inl hn)
    refine hi.holder p (s.nest h) hfits (.inl hn) (.inl hn) ?_ ?_
    · rw [if_pos (owns_of_nest hn hrel)]
      exact hi.owner_of_nest hn (by rw [hout]; decide)
    · rcases hp with rfl | rfl <;> exact hd
  · have h0 : s.nest h = 0 := Nat.eq_zero_of_not_pos hn
    refine hi.apart hfits ?_ ?_
    · rw [hout, h0]
      exact not_holds_zero (by decide) (by decide)
    · rw [h0]
      rcases hp with rfl | rfl <;> exact not_holds_zero (by decide) (by decide)

/-- `owner.load()`: a hart that reads its own id is the holder, and it stays the holder until its next step. -/
theorem Inv.check (hpc : s.pc h = .check) : Inv (s.goto h (if s.owner = h.id then .bump else .spin) (s.nest h)) := by
  have hfits := hi.fits_at hpc
  have howner := hi.owner h
  rw [hpc] at howner
  by_cases ho : s.owner = h.id
  · have hn : 0 < s.nest h := by
      rcases howner.mp ho with ⟨hn, -⟩ | hc
      · exact hn
      · cases hc
    have hd := hi.depth_at hpc (.inl hn)
    rw [if_pos ho]
    refine hi.holder .bump (s.nest h) ⟨hn, hfits⟩ (.inl hn) (.inl hn) ?_ hd
    rw [if_pos (owns_of_nest hn (by decide))]
    exact ho
  · have h0 : s.nest h = 0 := Nat.eq_zero_of_not_pos fun hn => ho (howner.mpr (owns_of_nest hn (by decide)))
    rw [if_neg ho, h0]
    refine hi.apart (h := h) (p := .spin) (n := 0) rfl ?_ (not_holds_zero (by decide) (by decide))
    rw [hpc, h0]
    exact not_holds_zero (by decide) (by decide)

theorem Inv.bump (hpc : s.pc h = .bump) :
    Inv { s.goto h .outside (s.nest h + 1) with depth := (s.depth + 1) % 2 ^ 64 } := by
  obtain ⟨hn, hlt⟩ := hi.fits_at hpc
  have hd := hi.depth_at hpc (.inl hn)
  refine hi.holder .outside (s.nest h + 1) hlt (.inl hn) (.inl (Nat.succ_pos _)) ?_ ?_
  · rw [if_pos (owns_of_nest (Nat.succ_pos _) (by decide))]
    exact hi.owner_of_nest hn (by rw [hpc]; decide)
  · show (s.depth + 1) % 2 ^ 64 = s.nest h + 1
    rw [hd]
    exact Nat.mod_eq_of_lt hlt

theorem Inv.acquire (hpc : s.pc h = .spin) (hfree : s.locked ≠ true) :
    Inv { s.goto h .setOwner (s.nest h) with locked := true } := by
  have h0 : s.nest h = 0 := hi.fits_at hpc
  have hnone : ∀ k, ¬ Holds (s.pc k) (s.nest k) := fun k hk => hfree (hi.locked.mpr ⟨k, hk⟩)
  have hholds : Holds .setOwner (s.nest h) := .inr (.inl rfl)
  have hno : ¬ Owns .setOwner (s.nest h) := by
    rw [h0]
    rintro (⟨hc, -⟩ | hc)
    · exact absurd hc (Nat.lt_irrefl 0)
    · cases hc
  refine hi.sole (p := .setOwner) (n := s.nest h) (fun k _ => hnone k) h0 ?_ ?_ ?_
  · rw [decide_eq_true hholds]
  · rw [if_neg hno]
    exact hi.free fun k hk => hnone k hk.holds
  · rw [if_pos hholds]
    show s.depth = s.nest h
    rw [h0]
    exact hi.idle hnone

theorem Inv.setOwner (hpc : s.pc h = .setOwner) : Inv { s.goto h .setDepth (s.nest h) with owner := h.id } := by
  have hfits := hi.fits_at hpc
  have hd := hi.depth_at hpc (.inr (.inl rfl))
  refine hi.holder .setDepth (s.nest h) hfits (.inr (.inl hpc)) (.inr (.inr rfl)) ?_ hd
  have ho : Owns .setDepth (s.nest h) := .inr rfl
  rw [if_pos ho]

theorem Inv.setDepth (hpc : s.pc h = .setDepth) : Inv { s.goto h .outside (s.nest h + 1) with depth := 1 } := by
  have h0 : s.nest h = 0 := hi.fits_at hpc
  have hlt : Fits .outside (s.nest h + 1) := by
    rw [h0]
    exact Nat.one_lt_two_pow (by decide)
  refine hi.holder .outside (s.nest h + 1) hlt (.inr (.inr hpc)) (.inl (Nat.succ_pos _)) ?_ ?_
  · rw [if_pos (owns_of_nest (Nat.succ_pos _) (by decide))]
    exact (hi.owner h).mpr (.inr hpc)
  · rw [h0]
    rfl

theorem Inv.sub (hpc : s.pc h = .sub) :
    (s.depth = 1 → Inv { s.goto h .clear (s.nest h) with depth := 0 }) ∧
    (s.depth ≠ 1 →
      Inv { s.goto h .outside (s.nest h - 1) with depth := (s.depth + (2 ^ 64 - 1)) % 2 ^ 64 }) := by
  obtain ⟨hn, hlt⟩ := hi.fits_at hpc
  have hd : s.depth = s.nest h := hi.depth_at hpc (.inl hn)
  have hown : s.owner = h.id := hi.owner_of_nest hn (by rw [hpc]; decide)
  constructor
  · intro h1
    refine hi.holder .clear (s.nest h) (hd.symm.trans h1) (.inl hn) (.inl hn) ?_ rfl
    rw [if_pos (owns_of_nest hn (by decide))]
    exact hown
  · intro h1
    have hn' : 0 < s.nest h - 1 := by omega
    have hfits : s.nest h - 1 < 2 ^ 64 := by omega
    refine hi.holder .outside (s.nest h - 1) hfits (.inl hn) (.inl hn') ?_ ?_
    · rw [if_pos (owns_of_nest hn' (by decide))]
      exact hown
    · show (s.depth + (2 ^ 64 - 1)) % 2 ^ 64 = s.nest h - 1
      omega

theorem Inv.clear (hpc : s.pc h = .clear) : Inv { s.goto h .release (s.nest h) with owner := noOwner } := by
  have h1 : s.nest h = 1 := hi.fits_at hpc
  have hpos : 0 < s.nest h := by omega
  have hd := hi.depth_at hpc (.inl hpos)
  have hno : ¬ Owns .release (s.nest h) := by
    rintro (⟨-, hc⟩ | hc)
    · exact hc rfl
    · cases hc
  refine hi.holder .release (s.nest h) h1 (.inl hpos) (.inl hpos) ?_ hd
  rw [if_neg hno]

theorem Inv.release (hpc : s.pc h = .release) : Inv { s.goto h .outside (s.nest h - 1) with locked := false } := by
  have h1 : s.nest h = 1 := hi.fits_at hpc
  have hh : Holds (s.pc h) (s.nest h) := .inl (by omega)
  have hd := hi.depth_at hpc (.inl (by omega))
  have hno : ¬ Holds .outside (s.nest h - 1) := by
    rw [h1]
    exact not_holds_zero (by decide) (by decide)
  have hfits : s.nest h - 1 < 2 ^ 64 := by omega
  refine hi.sole (p := .outside) (n := s.nest h - 1) (hi.others hh) hfits ?_ ?_ ?_
  · rw [decide_eq_false hno]
  · rw [if_neg fun ho => hno ho.holds]
    -- the owner was cleared one step before
    refine hi.free fun k hk => ?_
    by_cases hk' : k = h
    · subst hk'
      rw [hpc] at hk
      rcases hk with ⟨-, hc⟩ | hc
      · exact hc rfl
      · cases hc
    · exact hi.others hh k hk' hk.holds
  · rw [if_neg hno]
    exact hd

theorem Inv.next (hstep : Lock.next s h = some t) : Inv t := by
  unfold Lock.next at hstep
  cases hpc : s.pc h with simp only [hpc] at hstep
  | outside => cases hstep
  | check =>
    cases hstep
    exact hi.check hpc
  | bump =>
    cases hstep
    exact hi.bump hpc
  | spin =>
    split at hstep
    · cases hstep
      exact hi
    · rename_i hfree
      simp only [some.injEq] at hstep
      subst hstep
      exact hi.acquire hpc hfree
  | setOwner =>
    cases hstep
    exact hi.setOwner hpc
  | setDepth =>
    cases hstep
    exact hi.setDepth hpc
  | sub =>
    split at hstep
    · rename_i h1
      cases hstep
      exact (hi.sub hpc).1 h1
    · rename_i h1
      cases hstep
      exact (hi.sub hpc).2 h1
  | clear =>
    cases hstep
    exact hi.clear hpc
  | release =>
    cases hstep
    exact hi.release hpc

theorem Inv.step {a : Act} (hstep : Lock.step s h a = some t) : Inv t := by
  cases a with
  | lock =>
    simp only [Lock.step, ite_none_right_eq_some, some.injEq] at hstep
    obtain ⟨⟨hout, hlt⟩, rfl⟩ := hstep
    exact hi.enter hout (.inl rfl) hlt
  | unlock =>
    simp only [Lock.step, ite_none_right_eq_some, some.injEq] at hstep
    obtain ⟨⟨hout, hpos⟩, rfl⟩ := hstep
    exact hi.enter hout (.inr rfl) ⟨hpos, hi.fits_at hout⟩
  | next => exact hi.next hstep

end

end

/-! ## The lock over every run -/

/-- What the lock promises at every moment. -/
structure Exclusive (s : State) : Prop where
  /-- At most one hart is between a completed `net_lock` and the end of its `net_unlock`. -/
  one : ∀ h k, 0 < s.nest h → 0 < s.nest k → h = k
  /-- The depth is the nesting of that hart, up to the decrement of its last `net_unlock`. -/
  depth : ∀ h, 0 < s.nest h → s.pc h ≠ .clear → s.pc h ≠ .release → s.depth = s.nest h
  last : ∀ h, s.pc h = .clear ∨ s.pc h = .release → s.nest h = 1 ∧ s.depth = 0
  /-- The owner is set from the store in `net_lock` to the one in the last `net_unlock`. -/
  owner : ∀ h, s.owner = h.id ↔ s.pc h = .setDepth ∨ 0 < s.nest h ∧ s.pc h ≠ .release
  /-- The spinlock is taken from the swap to the end of the last `net_unlock`. -/
  locked : s.locked = true ↔ ∃ h, 0 < s.nest h ∨ s.pc h = .setOwner ∨ s.pc h = .setDepth

theorem Inv.exclusive {s : State} (hi : Inv s) : Exclusive s where
  one h k hh hk := hi.one h k (.inl hh) (.inl hk)
  depth h hn hc hr := by
    have hd := hi.depth h (.inl hn)
    cases hpc : s.pc h with
    | clear => exact absurd hpc hc
    | release => exact absurd hpc hr
    | outside | check | bump | spin | setOwner | setDepth | sub => rwa [hpc] at hd
  last h hp := by
    have hn : s.nest h = 1 := by
      rcases hp with hp | hp <;> exact hi.fits_at hp
    refine ⟨hn, ?_⟩
    rcases hp with hp | hp <;> exact hi.depth_at hp (.inl (by omega))
  owner h := (hi.owner h).trans or_comm
  locked := hi.locked

/-- The spinlock is given back by the step that ends the outermost `net_unlock`, and by no other. -/
theorem Inv.released_iff {s t : State} {h : Hart} {a : Act} (hi : Inv s) (hstep : Lock.step s h a = some t) :
    (s.locked = true ∧ t.locked = false) ↔ (s.nest h = 1 ∧ t.nest h = 0) := by
  -- the steps that keep the flag or set it, and do not end an outermost call
  have hkeep : (t.locked = s.locked ∨ t.locked = true) → ¬ (s.nest h = 1 ∧ t.nest h = 0) →
      ((s.locked = true ∧ t.locked = false) ↔ (s.nest h = 1 ∧ t.nest h = 0)) := by
    intro hl hn
    refine iff_of_false (fun hc => ?_) hn
    rcases hl with hl | hl
    · rw [hl, hc.1] at hc
      exact absurd hc.2 (by decide)
    · rw [hl] at hc
      exact absurd hc.2 (by decide)
  have hgoto : ∀ p n, (s.goto h p n).nest h = n := fun _ _ => goto_self.2
  cases a with
  | lock | unlock =>
    simp only [Lock.step, ite_none_right_eq_some, some.injEq] at hstep
    obtain ⟨-, rfl⟩ := hstep
    exact hkeep (.inl rfl) (by rw [hgoto]; omega)
  | next =>
    simp only [Lock.step, Lock.next] at hstep
    cases hpc : s.pc h with simp only [hpc] at hstep
    | outside => cases hstep
    | check | setOwner | clear | bump | setDepth =>
      cases hstep
      exact hkeep (.inl rfl) (by rw [hgoto]; omega)
    | spin =>
      split at hstep
      · cases hstep
        exact hkeep (.inl rfl) (by omega)
      · cases hstep
        exact hkeep (.inr rfl) (by rw [hgoto]; omega)
    | sub =>
      have hd : s.depth = s.nest h := hi.depth_at hpc (.inl (hi.fits_at hpc).1)
      split at hstep
      · cases hstep
        exact hkeep (.inl rfl) (by rw [hgoto]; omega)
      · cases hstep
        exact hkeep (.inl rfl) (by rw [hgoto]; omega)
    | release =>
      have hn : s.nest h = 1 := (hi.exclusive.last h (.inr hpc)).1
      cases hstep
      refine iff_of_true ⟨hi.locked.mpr ⟨h, .inl (by omega)⟩, rfl⟩ ⟨hn, ?_⟩
      rw [hgoto, hn]

/-- In every interleaving of any number of harts the lock is exclusive, and it is given back exactly when an
outermost `net_unlock` completes. -/
theorem net_lock_exclusive {s : State} (hrun : harts.Reach Machine.always start s) :
    Exclusive s ∧ ∀ h a t, step s h a = some t →
      ((s.locked = true ∧ t.locked = false) ↔ (s.nest h = 1 ∧ t.nest h = 0)) := by
  have hinv : Inv s := hrun.invariant (I := Inv) inv_start fun hi _ hstep => hi.step hstep
  exact ⟨hinv.exclusive, fun _ _ _ hstep => hinv.released_iff hstep⟩

def hart (n : Nat) (h : n < noOwner) : Hart := ⟨n, h⟩

/-- Hart 0 has taken the lock twice while hart 1 spins. -/
theorem net_lock_exclusive_nested : ∃ s : State, s.nest (hart 0 (by decide)) = 2 ∧
    s.pc (hart 1 (by decide)) = .spin ∧ Exclusive s := by
  obtain ⟨s, hreach, hnest, hspin⟩ : ∃ s, harts.Reach Machine.always start s ∧
      s.nest (hart 0 (by decide)) = 2 ∧ s.pc (hart 1 (by decide)) = .spin := Machine.exists_reach_of_play
    [(hart 0 (by decide), .lock), (hart 0 (by decide), .next), (hart 1 (by decide), .lock),
      (hart 0 (by decide), .next), (hart 1 (by decide), .next), (hart 0 (by decide), .next),
      (hart 0 (by decide), .next), (hart 1 (by decide), .next), (hart 0 (by decide), .lock),
      (hart 0 (by decide), .next), (hart 0 (by decide), .next)] (by decide +kernel)
  exact ⟨s, hnest, hspin, (net_lock_exclusive hreach).1⟩

end Net.Lock
