import OnyxKernel.Infra.Machine
import OnyxKernel.Vfs.Fd

/-!
# Tokens of closed descriptors

Runs of the calls that make and close descriptors, for one table. A run notes the tokens that were returned
and not closed yet, how often each slot was taken, and for the descriptors that were closed the token and that
number at the time. A forked process goes on with a copy of the table, so its run begins with that of its
parent.

All that counts is, for each slot, whether it is used and its epoch: its `mark`. A token has the low 12 bits of
the epoch, so it comes back when the slot is taken 4096 times more.
-/

namespace Vfs

open Onyx Infra Function List

inductive Call
  | openPath (perms : UInt32) (found : Found)
  | create (made : Except Errno (Nat × Nat))
  | dup (token : UInt64)
  | pipe (chan : Except Errno Nat)
  | close (token : UInt64)

def FdTable.mark (t : FdTable) (i : Fin 16) : Bool × UInt32 := ((t i).used, (t i).epoch)

/-- How often slots were taken, when the marks go from `m` to `m'`: `alloc_fd` counts the epoch up. -/
def counted (takes : Fin 16 → Nat) (m m' : Fin 16 → Bool × UInt32) (i : Fin 16) : Nat :=
  if (m' i).2 = (m i).2 then takes i else takes i + 1

structure History where
  table : FdTable
  /-- The tokens that were returned and not closed. -/
  live : List UInt64
  /-- How often each slot was taken. -/
  takes : Fin 16 → Nat
  /-- The tokens of closed descriptors, and how often the slot had been taken by then. -/
  closed : List (UInt64 × Nat)

namespace History

def fresh : History := ⟨.fresh, [], fun _ => 0, []⟩

def returned (h : History) (tokens : List UInt64) (t : FdTable) : History :=
  { h with table := t, live := tokens ++ h.live, takes := counted h.takes h.table.mark t.mark }

def after (h : History) : Except Errno UInt64 × FdTable → History
  | (.ok token, t) => h.returned [token] t
  | (.error _, t) => h.returned [] t

def step (owner : Owner) (h : History) : Call → Option History
  | .openPath perms found => some (h.after (h.table.openFound owner perms found))
  | .create made => some (h.after (h.table.createFile owner made))
  | .dup token => some (h.after (h.table.dup owner token))
  | .pipe chan =>
    match h.table.createPipe owner chan with
    | (.ok (r, w), t) => some (h.returned [r, w] t)
    | (.error _, t) => some (h.returned [] t)
  | .close token =>
    match h.table.close token with
    | (.ok _, t) =>
      let i := fdTokenIdx token
      let token := h.table.tokenOf i
      some { h with table := t, live := h.live.filter (· ≠ token), closed := (token, h.takes i) :: h.closed }
    | (.error _, t) => some (h.returned [] t)

def machine (owner : Owner) : Machine History Call where
  step := step owner

end History

/-! ## Marks -/

namespace FdTable

variable {t t' : FdTable} {owner : Owner} {i : Fin 16} {rest : List (Fin 16)}

/-- The mark of a slot that `alloc_fd` takes. -/
def taken (m : Fin 16 → Bool × UInt32) (i : Fin 16) (used : Bool) : Fin 16 → Bool × UInt32 :=
  update m i (used, nextEpoch (m i).2)

theorem mark_update (t : FdTable) (i : Fin 16) (fd : VfsFd) :
    mark (update t i fd) = update t.mark i (fd.used, fd.epoch) := by
  funext j
  by_cases hj : j = i
  · subst hj
    simp [mark]
  · simp [mark, hj]

@[simp] theorem mark_fdSet (t : FdTable) (i : Fin 16) (ino size : Nat) (fs : Fs) (pos mnt : Nat) :
    (t.fdSet i ino size fs pos mnt).mark = t.mark := by
  rw [fdSet, mark_update]
  exact update_eq_self i t.mark

@[simp] theorem mark_fdSetFlags (t : FdTable) (i : Fin 16) (flags : UInt32) : (t.fdSetFlags i flags).mark = t.mark := by
  rw [fdSetFlags, mark_update]
  exact update_eq_self i t.mark

theorem mark_fdClear (t : FdTable) (i : Fin 16) : (t.fdClear i).mark = update t.mark i (false, (t i).epoch) := by
  rw [fdClear, mark_update]

theorem tokenOf_eq (t : FdTable) (i : Fin 16) : t.tokenOf i = fdToken i (t.mark i).2 := rfl

theorem allocFd_cases (t : FdTable) (owner : Owner) (perms : UInt32) :
    (t.freeSlots owner = [] ∧ t.allocFd owner perms = (.error .badFd, t)) ∨
    ∃ i rest t', t.freeSlots owner = i :: rest ∧ t.allocFd owner perms = (.ok i, t') ∧
      t'.mark = taken t.mark i true := by
  have hhead : (t.freeSlots owner).head? =
      (finRange 16).find? fun i => owner.first ≤ i.val && !(t i).used := head?_filter
  unfold allocFd
  rw [← hhead]
  cases hfree : t.freeSlots owner with
  | nil => exact .inl ⟨rfl, rfl⟩
  | cons i rest =>
    refine .inr ⟨i, rest, _, rfl, rfl, ?_⟩
    rw [mark_update]
    rfl

theorem unused_of_free (h : t.freeSlots owner = i :: rest) : (t.mark i).1 = false := by
  have hmem : i ∈ t.freeSlots owner := by simp [h]
  have hfree := (mem_filter.mp hmem).2
  simp only [Bool.and_eq_true, decide_eq_true_eq, Bool.not_eq_true'] at hfree
  exact hfree.2

theorem fdCheck_fdToken (t : FdTable) (i : Fin 16) (e : UInt32) : t.fdCheck (fdToken i e) =
      if (t.mark i).1 = true ∧ (t.mark i).2.toNat % 4096 = e.toNat % 4096 then .ok i else .error .badFd := by
  have hepoch : (t i).epoch &&& 0xFFF = fdTokenEpoch (fdToken i e) ↔
      (t i).epoch.toNat % 4096 = e.toNat % 4096 := by
    rw [← UInt32.toNat_inj, toNat_fdTokenEpoch, UInt32.toNat_and]
    rw [show (0xFFF : UInt32).toNat = 2 ^ 12 - 1 from rfl, Nat.and_two_pow_sub_one_eq_mod]
  unfold fdCheck mark
  rw [fdTokenIdx_fdToken]
  cases hused : (t i).used <;> simp [hepoch, hused, ite_not]

theorem fdCheck_tokenOf (h : (t.mark i).1 = true) : t.fdCheck (t.tokenOf i) = .ok i := by
  rw [tokenOf_eq, fdCheck_fdToken]
  simp [h]

/-- The epoch of a slot that was taken `n` times: it counts up and leaves out 0 when it wraps. -/
def epochAfter : Nat → Nat
  | 0 => 0
  | n + 1 => n % 4294967295 + 1

theorem toNat_nextEpoch {e : UInt32} {n : Nat} (h : e.toNat = epochAfter n) :
    (nextEpoch e).toNat = epochAfter (n + 1) := by
  have hsum : (e + 1).toNat = (e.toNat + 1) % 4294967296 := UInt32.toNat_add e 1
  have hzero : e + 1 = 0 ↔ (e.toNat + 1) % 4294967296 = 0 := by rw [← UInt32.toNat_inj, hsum]; rfl
  unfold nextEpoch
  cases n with
  | zero =>
    rw [if_neg (by rw [hzero, h]; decide), hsum, h]
    rfl
  | succ n =>
    simp only [epochAfter] at h ⊢
    split
    · rename_i hwrap
      have := hzero.mp hwrap
      show 1 = _
      omega
    · rename_i hwrap
      have := mt hzero.mpr hwrap
      omega

theorem nextEpoch_ne (e : UInt32) : nextEpoch e ≠ e := by
  have hsum : (e + 1).toNat = (e.toNat + 1) % 4294967296 := UInt32.toNat_add e 1
  unfold nextEpoch
  split
  · rintro rfl
    contradiction
  · intro h
    rw [h] at hsum
    have := e.toNat_lt
    omega

end FdTable

/-! ## The invariant -/

section

open FdTable

theorem counted_self (takes : Fin 16 → Nat) (m : Fin 16 → Bool × UInt32) : counted takes m m = takes :=
  funext fun _ => if_pos rfl

theorem counted_taken {takes : Fin 16 → Nat} {m m' : Fin 16 → Bool × UInt32} {i : Fin 16}
    (h : (m' i).2 = (m i).2) (used : Bool) :
    counted takes m (taken m' i used) = update (counted takes m m') i (counted takes m m' i + 1) := by
  funext j
  by_cases hj : j = i
  · subst hj
    simp [counted, taken, h, nextEpoch_ne]
  · simp [counted, taken, hj]

/-- What a run keeps: the epoch of a slot says how often it was taken, the live tokens are those of used slots,
and the token of a closed descriptor is older than what stands in its slot. -/
structure Dated (m : Fin 16 → Bool × UInt32) (takes : Fin 16 → Nat) (live : List UInt64)
    (closed : List (UInt64 × Nat)) : Prop where
  epoch : ∀ i, (m i).2.toNat = epochAfter (takes i)
  begun : ∀ i, (m i).1 = true → 1 ≤ takes i
  opened : ∀ token ∈ live, ∃ i, (m i).1 = true ∧ token = fdToken i (m i).2
  distinct : live.Nodup
  older : ∀ c ∈ closed, ∃ i e, c.1 = fdToken i e ∧
    e.toNat = epochAfter c.2 ∧ 1 ≤ c.2 ∧ c.2 ≤ takes i ∧
    ((m i).1 = true → c.2 < takes i)

variable {m : Fin 16 → Bool × UInt32} {takes : Fin 16 → Nat} {live : List UInt64} {closed : List (UInt64 × Nat)}
variable {i : Fin 16} {owner : Owner}

theorem Dated.fresh : Dated FdTable.fresh.mark (fun _ => 0) [] [] where
  epoch _ := rfl
  begun _ h := nomatch h
  opened _ h := nomatch h
  distinct := .nil
  older _ h := nomatch h

section

variable (h : Dated m takes live closed)
include h

theorem Dated.not_live (hfree : (m i).1 = false) (e : UInt32) : fdToken i e ∉ live := by
  intro hmem
  obtain ⟨j, hused, heq⟩ := h.opened _ hmem
  obtain ⟨rfl, -⟩ := fdToken_inj heq
  rw [hfree] at hused
  cases hused

theorem Dated.take (hfree : (m i).1 = false) (used : Bool) :
    Dated (taken m i used) (update takes i (takes i + 1)) live closed := by
  have hother : ∀ {j}, j ≠ i → taken m i used j = m j ∧ update takes i (takes i + 1) j = takes j :=
    fun hj => by simp [taken, hj]
  have hself : taken m i used i = (used, nextEpoch (m i).2) := by simp [taken]
  refine ⟨fun j => ?_, fun j => ?_, fun token hmem => ?_, h.distinct, fun c hmem => ?_⟩
  · by_cases hj : j = i
    · subst hj
      rw [hself, update_self]
      exact toNat_nextEpoch (h.epoch j)
    · rw [(hother hj).1, (hother hj).2]
      exact h.epoch j
  · by_cases hj : j = i
    · subst hj
      rw [update_self]
      omega
    · rw [(hother hj).1, (hother hj).2]
      exact h.begun j
  · obtain ⟨j, hused, heq⟩ := h.opened token hmem
    have hj : j ≠ i := by
      rintro rfl
      rw [hfree] at hused
      cases hused
    exact ⟨j, by rwa [(hother hj).1], by rwa [(hother hj).1]⟩
  · obtain ⟨j, e, heq, he, hpos, hle, hlt⟩ := h.older c hmem
    refine ⟨j, e, heq, he, hpos, ?_⟩
    by_cases hj : j = i
    · subst hj
      rw [update_self]
      exact ⟨by omega, fun _ => by omega⟩
    · rw [(hother hj).1, (hother hj).2]
      exact ⟨hle, hlt⟩

theorem Dated.issue (hused : (m i).1 = true) (hnew : fdToken i (m i).2 ∉ live) :
    Dated m takes (fdToken i (m i).2 :: live) closed where
  epoch := h.epoch
  begun := h.begun
  opened token hmem := by
    rcases mem_cons.mp hmem with rfl | hmem
    · exact ⟨i, hused, rfl⟩
    · exact h.opened token hmem
  distinct := nodup_cons.mpr ⟨hnew, h.distinct⟩
  older := h.older

theorem Dated.close (hused : (m i).1 = true) :
    Dated (update m i (false, (m i).2)) takes (live.filter (· ≠ fdToken i (m i).2))
      ((fdToken i (m i).2, takes i) :: closed) := by
  have hepoch : ∀ j, (update m i (false, (m i).2) j).2 = (m j).2 := by
    intro j
    by_cases hj : j = i
    · subst hj
      simp
    · simp [hj]
  have hused' : ∀ {j}, (update m i (false, (m i).2) j).1 = true → j ≠ i ∧ (m j).1 = true := by
    intro j hj
    by_cases heq : j = i
    · subst heq
      simp at hj
    · exact ⟨heq, by simpa [heq] using hj⟩
  refine ⟨fun j => ?_, fun j hj => h.begun j (hused' hj).2, fun token hmem => ?_, h.distinct.filter _,
    fun c hmem => ?_⟩
  · rw [hepoch]
    exact h.epoch j
  · obtain ⟨hmem, hne⟩ := mem_filter.mp hmem
    obtain ⟨j, hj, rfl⟩ := h.opened token hmem
    have hji : j ≠ i := by
      rintro rfl
      simp at hne
    exact ⟨j, by simpa [hji] using hj, by rw [hepoch]⟩
  · rcases mem_cons.mp hmem with rfl | hmem
    · refine ⟨i, (m i).2, rfl, h.epoch i, h.begun i hused, Nat.le_refl _, fun hi => ?_⟩
      exact absurd rfl (hused' hi).1
    · obtain ⟨j, e, heq, he, hpos, hle, hlt⟩ := h.older c hmem
      exact ⟨j, e, heq, he, hpos, hle, fun hj => hlt (hused' hj).2⟩

end

/-- The tokens differ in their 12 bits; across the wrap of the epoch they come back one step earlier. -/
theorem Dated.dead {t : FdTable} (h : Dated t.mark takes live closed) {c : UInt64 × Nat} (hmem : c ∈ closed)
    (hfew : takes (fdTokenIdx c.1) < c.2 + 4095 ∨
      takes (fdTokenIdx c.1) < c.2 + 4096 ∧ takes (fdTokenIdx c.1) < 2 ^ 32) : t.fdCheck c.1 = .error .badFd := by
  obtain ⟨i, e, heq, he, hpos, hle, hlt⟩ := h.older c hmem
  rw [heq, fdTokenIdx_fdToken] at hfew
  rw [heq, fdCheck_fdToken]
  refine if_neg fun ⟨hused, hmod⟩ => ?_
  have hmore := hlt hused
  rw [h.epoch, he] at hmod
  obtain ⟨n, hn⟩ := Nat.exists_eq_add_of_le' hpos
  obtain ⟨k, hk⟩ := Nat.exists_eq_add_of_le' (Nat.lt_of_lt_of_le Nat.zero_lt_one (hpos.trans hle))
  rw [hn, hk] at hmod hfew hmore
  simp only [epochAfter] at hmod
  have hwrap : k / 4294967295 = n / 4294967295 ∨ k / 4294967295 = n / 4294967295 + 1 := by omega
  rcases hwrap with hdiv | hdiv <;> omega

/-! ## Calls -/

/-- A call that returns a token takes the first free slot for it, or fails with a slot taken or not. -/
inductive OneSlot (t : FdTable) (owner : Owner) : Except Errno UInt64 × FdTable → Prop
  | untouched {e : Errno} : OneSlot t owner (.error e, t)
  | failed {i : Fin 16} {rest : List (Fin 16)} {e : Errno} {t' : FdTable} {used : Bool} :
    t.freeSlots owner = i :: rest → t'.mark = taken t.mark i used → OneSlot t owner (.error e, t')
  | returned {i : Fin 16} {rest : List (Fin 16)} {t' : FdTable} :
    t.freeSlots owner = i :: rest → t'.mark = taken t.mark i true → OneSlot t owner (.ok (t'.tokenOf i), t')

/-- The slot is filled in after its token was made. -/
theorem OneSlot.filled {t t' u : FdTable} {i : Fin 16} {rest : List (Fin 16)}
    (hfree : t.freeSlots owner = i :: rest) (hmark : t'.mark = taken t.mark i true) (hu : u.mark = t'.mark) :
    OneSlot t owner (.ok (t'.tokenOf i), u) := by
  have htoken : t'.tokenOf i = u.tokenOf i := by rw [tokenOf_eq, tokenOf_eq, hu]
  rw [htoken]
  exact .returned hfree (hu.trans hmark)

theorem OneSlot.openFound (t : FdTable) (owner : Owner) (perms : UInt32) (found : Found) :
    OneSlot t owner (t.openFound owner perms found) := by
  rcases allocFd_cases t owner perms with ⟨-, heq⟩ | ⟨i, rest, t', hfree, heq, hmark⟩
  · cases found <;> simp only [FdTable.openFound, heq] <;> exact .untouched
  cases found with simp only [FdTable.openFound, heq]
  | refused e => exact .untouched
  | missing e =>
    have hepoch : (t' i).epoch = (t'.mark i).2 := rfl
    have hcleared : (t'.fdClear i).mark = taken t.mark i false := by
      rw [mark_fdClear, hepoch, hmark]
      simp [taken]
    exact .failed hfree hcleared
  | unread e => exact .failed hfree hmark
  | node ino size fs mnt => exact .filled hfree hmark (by simp)

theorem OneSlot.createFile (t : FdTable) (owner : Owner) (made : Except Errno (Nat × Nat)) :
    OneSlot t owner (t.createFile owner made) := by
  rcases made with e | ⟨ino, mnt⟩
  · exact .untouched
  · rcases allocFd_cases t owner (permRead ||| permWrite ||| permSeek) with
      ⟨-, heq⟩ | ⟨i, rest, t', hfree, heq, hmark⟩
    · simp only [FdTable.createFile, heq]
      exact .untouched
    · simp only [FdTable.createFile, heq]
      exact .filled hfree hmark (by simp)

theorem OneSlot.dup (t : FdTable) (owner : Owner) (token : UInt64) : OneSlot t owner (t.dup owner token) := by
  unfold FdTable.dup
  split
  · exact .untouched
  · rename_i idx _
    rcases allocFd_cases t owner (t idx).perms with ⟨-, heq⟩ | ⟨i, rest, t', hfree, heq, hmark⟩
    · simp only [heq]
      exact .untouched
    · simp only [heq]
      exact .filled hfree hmark (by simp)

theorem Dated.unchanged {h : History} (hd : Dated h.table.mark h.takes h.live h.closed) :
    Dated h.table.mark (counted h.takes h.table.mark h.table.mark) h.live h.closed := by
  rw [counted_self]
  exact hd

theorem Dated.after {h : History} (hd : Dated h.table.mark h.takes h.live h.closed)
    {r : Except Errno UInt64 × FdTable} (hr : OneSlot h.table owner r) :
    Dated (h.after r).table.mark (h.after r).takes (h.after r).live (h.after r).closed := by
  have htake : ∀ {i rest used} {t' : FdTable}, h.table.freeSlots owner = i :: rest →
      t'.mark = taken h.table.mark i used → Dated t'.mark (counted h.takes h.table.mark t'.mark) h.live h.closed := by
    intro i rest used t' hfree hmark
    rw [hmark, counted_taken rfl, counted_self]
    exact hd.take (unused_of_free hfree) used
  cases hr with
  | untouched => exact hd.unchanged
  | failed hfree hmark => exact htake hfree hmark
  | @returned i rest t' hfree hmark =>
    have hused : (t'.mark i).1 = true := by simp [hmark, taken]
    exact (htake hfree hmark).issue hused (hd.not_live (unused_of_free hfree) _)

theorem Dated.pipe {h h' : History} {chan : Except Errno Nat}
    (hd : Dated h.table.mark h.takes h.live h.closed) (hstep : h.step owner (.pipe chan) = some h') :
    Dated h'.table.mark h'.takes h'.live h'.closed := by
  rcases allocFd_cases h.table owner permRead with ⟨-, heq⟩ | ⟨r, rest, t₁, hfree, heq, hmark⟩
  · simp only [History.step, FdTable.createPipe, heq, Option.some.injEq] at hstep
    subst hstep
    exact hd.unchanged
  · have hunused := unused_of_free hfree
    have hfirst : Dated t₁.mark (counted h.takes h.table.mark t₁.mark) h.live h.closed := by
      rw [hmark, counted_taken rfl, counted_self]
      exact hd.take hunused true
    rcases allocFd_cases t₁ owner permWrite with ⟨-, heq₂⟩ | ⟨w, rest₂, t₂, hfree₂, heq₂, hmark₂⟩
    · simp only [History.step, FdTable.createPipe, heq, heq₂, Option.some.injEq] at hstep
      subst hstep
      exact hfirst
    · have hunused₂ := unused_of_free hfree₂
      have hwr : w ≠ r := by
        rintro rfl
        simp [hmark, taken] at hunused₂
      have hepoch : (t₁.mark w).2 = (h.table.mark w).2 := by simp [hmark, taken, hwr]
      have hsecond : Dated t₂.mark (counted h.takes h.table.mark t₂.mark) h.live h.closed := by
        rw [hmark₂, counted_taken hepoch]
        exact hfirst.take hunused₂ true
      cases chan with
      | error e =>
        simp only [History.step, FdTable.createPipe, heq, heq₂, Option.some.injEq] at hstep
        subst hstep
        exact hsecond
      | ok id =>
        simp only [History.step, FdTable.createPipe, heq, heq₂, Option.some.injEq] at hstep
        subst hstep
        have husedw : (t₂.mark w).1 = true := by simp [hmark₂, taken]
        have husedr : (t₂.mark r).1 = true := by simp [hmark₂, taken, hwr.symm, hmark]
        have hw := hsecond.issue husedw (hd.not_live (by rw [← hunused₂, hmark]; simp [taken, hwr]) _)
        have hnew : fdToken r (t₂.mark r).2 ∉ fdToken w (t₂.mark w).2 :: h.live := by
          intro hmem
          rcases mem_cons.mp hmem with heq | hmem
          · exact hwr (fdToken_inj heq).1.symm
          · exact hd.not_live hunused _ hmem
        simpa [History.returned, tokenOf_eq] using hw.issue husedr hnew

theorem Dated.step {h h' : History} {c : Call} (hd : Dated h.table.mark h.takes h.live h.closed)
    (hstep : h.step owner c = some h') : Dated h'.table.mark h'.takes h'.live h'.closed := by
  cases c with
  | openPath perms found =>
    cases hstep
    exact hd.after (.openFound ..)
  | create made =>
    cases hstep
    exact hd.after (.createFile ..)
  | dup token =>
    cases hstep
    exact hd.after (.dup ..)
  | pipe chan => exact hd.pipe hstep
  | close token =>
    cases hcheck : h.table.fdCheck token with
    | error e =>
      simp only [History.step, FdTable.close, hcheck, Option.some.injEq] at hstep
      subst hstep
      exact hd.unchanged
    | ok idx =>
      have hidx : idx = fdTokenIdx token ∧ (h.table.mark idx).1 = true := by
        unfold fdCheck at hcheck
        dsimp only at hcheck
        split at hcheck
        · cases hcheck
        · rename_i hused
          cases hcheck
          exact ⟨rfl, by simpa [mark] using (not_or.mp hused).1⟩
      simp only [History.step, FdTable.close, hcheck, Option.some.injEq] at hstep
      subst hstep
      rw [← hidx.1, mark_fdClear]
      exact hd.close hidx.2

end

/-- In every run the token of a closed descriptor is refused until its slot has been taken 4096 times more, or 4095
times if the epoch has wrapped. What was returned and not closed is accepted, and no two of these tokens are
equal. -/
theorem closed_tokens_dead {owner : Owner} {h : History}
    (hrun : (History.machine owner).Reach Machine.always .fresh h) :
    (∀ c ∈ h.closed, h.takes (fdTokenIdx c.1) < c.2 + 4095 ∨
        h.takes (fdTokenIdx c.1) < c.2 + 4096 ∧ h.takes (fdTokenIdx c.1) < 2 ^ 32 →
      h.table.fdCheck c.1 = .error .badFd) ∧
    (∀ token ∈ h.live, ∃ i, h.table.fdCheck token = .ok i) ∧ h.live.Nodup := by
  have hd : Dated h.table.mark h.takes h.live h.closed :=
    hrun.invariant (I := fun h => Dated h.table.mark h.takes h.live h.closed) .fresh
      fun hd _ hstep => hd.step hstep
  refine ⟨fun c hmem => hd.dead hmem, fun token hmem => ?_, hd.distinct⟩
  obtain ⟨i, hused, rfl⟩ := hd.opened token hmem
  exact ⟨i, FdTable.fdCheck_tokenOf hused⟩

/-- The slot of the closed token is taken twice more, once by an `open` that fails. -/
theorem closed_tokens_dead_reused :
    ∃ h, (History.machine .process).Reach Machine.always .fresh h ∧
      h.closed = [(fdToken 3 1, 1)] ∧ h.live = [fdToken 4 1, fdToken 3 3] ∧ h.takes 3 = 3 ∧
      h.table.fdCheck (fdToken 3 1) = .error .badFd ∧
      (∀ token ∈ h.live, ∃ i, h.table.fdCheck token = .ok i) ∧ h.live.Nodup := by
  let file : Call := .openPath (permRead ||| permSeek) (.node 5 100 .onyx mntRoot)
  refine Machine.exists_reach_imp
    (P := fun h => h.closed = [(fdToken 3 1, 1)] ∧ h.live = [fdToken 4 1, fdToken 3 3] ∧ h.takes 3 = 3)
    [file, .close (fdToken 3 1), .openPath permRead (.missing .noEnt), file, .dup (fdToken 3 3)]
    (by decide +kernel) ?_
  rintro h hrun ⟨hclosed, hlive, htakes⟩
  obtain ⟨hdead, hrest⟩ := closed_tokens_dead hrun
  refine ⟨hclosed, hlive, htakes, hdead (fdToken 3 1, 1) (by simp [hclosed]) (.inl ?_), hrest⟩
  rw [fdTokenIdx_fdToken, htakes]
  omega

/-! ## Reuse -/

theorem openPath_three {h : History} (hfree : (h.table.mark 3).1 = false) (perms : UInt32)
    (ino size : Nat) (fs : Fs) (mnt : Nat) :
    ∃ h', (History.machine .process).step h (.openPath perms (.node ino size fs mnt)) = some h' ∧
      h'.table.mark 3 = (true, FdTable.nextEpoch (h.table.mark 3).2) ∧ h'.takes 3 = h.takes 3 + 1 ∧
      h'.closed = h.closed := by
  have hslots : finRange 16 = 0 :: 1 :: 2 :: 3 :: (finRange 16).drop 4 := by decide
  have hfirst : ∃ rest, h.table.freeSlots .process = 3 :: rest := by
    have hunused : (h.table 3).used = false := hfree
    unfold FdTable.freeSlots
    rw [hslots, filter_cons_of_neg (by simp [Owner.first]), filter_cons_of_neg (by simp [Owner.first]),
      filter_cons_of_neg (by simp [Owner.first]), filter_cons_of_pos (by rw [hunused]; rfl)]
    exact ⟨_, rfl⟩
  obtain ⟨rest, hfirst⟩ := hfirst
  rcases FdTable.allocFd_cases h.table .process perms with ⟨hnone, -⟩ | ⟨i, rest', t', hfree', heq, hmark⟩
  · rw [hfirst] at hnone
    cases hnone
  · obtain rfl : (3 : Fin 16) = i := by
      rw [hfirst] at hfree'
      exact (cons.inj hfree').1
    refine ⟨_, rfl, ?_⟩
    simp [FdTable.openFound, heq, History.after, History.returned, hmark, FdTable.taken, counted,
      FdTable.nextEpoch_ne]

theorem reopened (n : Nat) (hn : n < 5000) :
    ∃ h, (History.machine .process).Reach Machine.always .fresh h ∧
      h.table.mark 3 = (true, UInt32.ofNat (n + 1)) ∧
        h.takes 3 = n + 1 ∧ (0 < n → (fdToken 3 1, 1) ∈ h.closed) := by
  induction n with
  | zero =>
    obtain ⟨h, hstep, hmark, htakes, -⟩ := openPath_three (h := .fresh) rfl permRead 5 100 .onyx mntRoot
    exact ⟨h, Machine.Reach.refl.step trivial hstep, hmark, htakes, fun h => absurd h (Nat.lt_irrefl 0)⟩
  | succ n ih =>
    obtain ⟨h, hrun, hmark, htakes, hclosed⟩ := ih (by omega)
    -- Close what stands in the slot, and open again.
    have hcheck : h.table.fdCheck (h.table.tokenOf 3) = .ok 3 := FdTable.fdCheck_tokenOf (by simp [hmark])
    let h₁ : History :=
      { h with
        table := h.table.fdClear 3
        live := h.live.filter (· ≠ h.table.tokenOf 3)
        closed := (h.table.tokenOf 3, h.takes 3) :: h.closed }
    have hclose : (History.machine .process).step h (.close (h.table.tokenOf 3)) = some h₁ := by
      have hidx : fdTokenIdx (h.table.tokenOf 3) = 3 := fdTokenIdx_fdToken 3 _
      simp only [History.machine, History.step, FdTable.close, hcheck, hidx, h₁]
    have hmark₁ : h₁.table.mark 3 = (false, UInt32.ofNat (n + 1)) := by
      have hepoch : (h.table 3).epoch = UInt32.ofNat (n + 1) := congrArg Prod.snd hmark
      simp [h₁, FdTable.mark_fdClear, hepoch]
    obtain ⟨h₂, hopen, hmark₂, htakes₂, hclosed₂⟩ :=
      openPath_three (h := h₁) (by rw [hmark₁]) permRead 5 100 .onyx mntRoot
    refine ⟨h₂, (hrun.step trivial hclose).step trivial hopen, ?_, by rw [htakes₂, ← htakes], fun _ => ?_⟩
    · rw [hmark₂, hmark₁]
      have hne : UInt32.ofNat (n + 1) + 1 ≠ 0 := by
        intro h0
        have := congrArg UInt32.toNat h0
        simp [UInt32.toNat_add] at this
        omega
      rw [FdTable.nextEpoch, if_neg hne, UInt32.ofNat_add (n + 1) 1]
      rfl
    · rw [hclosed₂]
      rcases Nat.eq_zero_or_pos n with rfl | hpos
      · exact mem_cons.mpr (.inl (by rw [FdTable.tokenOf_eq, hmark, htakes]; rfl))
      · exact mem_cons_of_mem _ (hclosed hpos)

/-- When its slot has been taken 4096 times more, the first token is accepted again, for a descriptor that it was
not returned for. -/
theorem token_revived :
    ∃ h, (History.machine .process).Reach Machine.always .fresh h ∧ (fdToken 3 1, 1) ∈ h.closed ∧
      h.takes 3 = 1 + 4096 ∧ h.table.fdCheck (fdToken 3 1) = .ok 3 := by
  obtain ⟨h, hrun, hmark, htakes, hclosed⟩ := reopened 4096 (by omega)
  refine ⟨h, hrun, hclosed (by omega), htakes, ?_⟩
  rw [FdTable.fdCheck_fdToken, hmark]
  rfl

end Vfs
