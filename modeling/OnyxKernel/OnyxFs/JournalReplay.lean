import OnyxKernel.OnyxFs.Journal

/-!
# What a crash leaves in the journal

The journal area has at every moment one of two shapes.

* `Quiet`: no slot holds a commit marker. Stale entries of torn transactions may be anywhere;
  recovery scans over all of them and does nothing.
* `Marked T j`: the marker of the transaction `T` is in the slot after its last entry, the first `j`
  entries are zeroed and the others are as `T` logged them.
-/

namespace OnyxFs

open Infra Onyx StateProg Function Bytes List

/-! ## Entries -/

def covered (x : Block) : Bytes 4088 := x.slice 0 4088

theorem covered_overlay (y : Block) (data : Bytes 4088) : covered (y.blit 0 data) = data :=
  slice_blit_self y 0 data (by omega)

theorem journalEntryType_logEntry (b : UInt32) (x : Block) : journalEntryType (logEntry b x) = journalBlockWrite := by
  unfold journalEntryType logEntry
  rw [le32_blit_outside _ _ (by omega), le32_put32_ne _ _ (by omega), le32_put32_self _ _ (by omega)]

theorem journalReplayEntry_logEntry (b : UInt32) (x : Block) :
    journalReplayEntry (logEntry b x) = some (b, covered x) := by
  have hnum : (logEntry b x).le32 4 = b := by
    unfold logEntry
    rw [le32_blit_outside _ _ (by omega), le32_put32_self _ _ (by omega)]
  have hdata : (logEntry b x).slice 8 4088 = covered x := slice_blit_self _ 8 _ (by omega)
  unfold journalReplayEntry
  rw [if_neg (by simp [journalEntryType_logEntry]), hnum, hdata]

def Calm (entry : Block) : Prop := journalScanStep (journalEntryType entry) = .continue

theorem calm_zero : Calm zero := by
  simp [Calm, journalEntryType, journalScanStep]

theorem calm_logEntry (b : UInt32) (x : Block) : Calm (logEntry b x) := by
  simp [Calm, journalEntryType_logEntry, journalScanStep]

theorem journalEntryType_commitEntry : journalEntryType commitEntry = journalCommitEnd := by
  unfold journalEntryType commitEntry
  rw [le32_put32_self _ _ (by omega)]

theorem journalScanStep_commitEntry : journalScanStep (journalEntryType commitEntry) = .commit := by
  rw [journalEntryType_commitEntry]
  decide

theorem journalReplayEntry_zero : journalReplayEntry zero = none := by
  unfold journalReplayEntry
  rw [if_pos]
  simp [journalEntryType, journalBlockWrite]

/-! ## Scan and replay -/

theorem scanCommit_eq_none {d : Disk Block} {start : Nat} :
    ∀ (n i : Nat), (∀ k, i ≤ k → k < i + n → Calm (d (start + k))) → scanCommit d start n i = none
  | 0, _, _ => rfl
  | n + 1, i, h => by
    unfold scanCommit
    rw [h i (Nat.le_refl i) (by omega)]
    exact scanCommit_eq_none n (i + 1) fun k h1 h2 => h k (by omega) (by omega)

theorem scanCommit_eq_some {d : Disk Block} {start m : Nat} (hm : d (start + m) = commitEntry) :
    ∀ (n i : Nat), i ≤ m → m < i + n → (∀ k, i ≤ k → k < m → Calm (d (start + k))) →
      scanCommit d start n i = some m
  | 0, _, h1, h2, _ => by omega
  | n + 1, i, h1, h2, h => by
    unfold scanCommit
    by_cases him : i = m
    · subst him
      rw [hm, journalScanStep_commitEntry]
    · rw [h i (Nat.le_refl i) (by omega)]
      exact scanCommit_eq_some hm n (i + 1) (by omega) (by omega) fun k h3 h4 =>
        h k (by omega) h4

/-- The writes of replaying the log entries `L` in order. -/
def replayOf : List (Nat × Block) → Disk Block → List (Nat × Block)
  | [], _ => []
  | w :: L, d =>
    (w.1, (d w.1).blit 0 (covered w.2)) :: replayOf L (update d w.1 ((d w.1).blit 0 (covered w.2)))

theorem replayOf_take : ∀ (L : List (Nat × Block)) (k : Nat) (d : Disk Block),
    (replayOf L d).take k = replayOf (L.take k) d
  | [], k, d => by simp [replayOf]
  | _ :: _, 0, _ => rfl
  | w :: L, k + 1, d => by
    simp only [replayOf, take_succ_cons]
    rw [replayOf_take L k]

theorem mem_replayOf {w : Nat × Block} : ∀ {L : List (Nat × Block)} {d : Disk Block},
    w ∈ replayOf L d → ∃ e ∈ L, e.1 = w.1 ∧ covered w.2 = covered e.2
  | [], _, h => by simp [replayOf] at h
  | e :: L, d, h => by
    rcases mem_cons.mp h with rfl | h
    · exact ⟨e, mem_cons_self, rfl, covered_overlay _ _⟩
    · obtain ⟨e', he', h'⟩ := mem_replayOf h
      exact ⟨e', mem_cons_of_mem _ he', h'⟩

theorem replayOf_concat (L : List (Nat × Block)) (w : Nat × Block) (d : Disk Block) :
    replayOf (L ++ [w]) d = replayOf L d ++
      [(w.1, (applyWrites (replayOf L d) d w.1).blit 0 (covered w.2))] := by
  induction L generalizing d with
  | nil => rfl
  | cons v L ih => simp only [cons_append, replayOf, applyWrites_cons, ih]

variable {L : List (Nat × Block)}

theorem applyWrites_replayOf_of_not_mem {b : Nat}
    (h : ∀ w ∈ L, w.1 ≠ b) (d : Disk Block) : applyWrites (replayOf L d) d b = d b := by
  refine applyWrites_of_not_mem (fun w hw => ?_) d
  obtain ⟨e, he, hb, -⟩ := mem_replayOf hw
  exact fun hwb => h e he (hb.trans hwb)

theorem overlay_overlay (y : Block) (data data' : Bytes 4088) : (y.blit 0 data).blit 0 data' = y.blit 0 data' := by
  refine ext_get fun i hi => ?_
  by_cases h : i < 4088
  · rw [get_blit_inside _ _ _ hi (by omega) (by omega), get_blit_inside _ _ _ hi (by omega) (by omega)]
  · rw [get_blit_outside _ _ _ (by omega), get_blit_outside _ _ _ (by omega), get_blit_outside _ _ _ (by omega)]

theorem applyWrites_replayOf {b : Nat} {x : Block}
    (h : lastWrite L b = some x) (d : Disk Block) :
    applyWrites (replayOf L d) d b = (d b).blit 0 (covered x) := by
  induction L using reverseRecOn generalizing b x with
  | nil => cases h
  | append_singleton L w ih =>
    rw [replayOf_concat, applyWrites_concat]
    rw [lastWrite_concat] at h
    by_cases hw : w.1 = b
    · rw [if_pos hw] at h
      cases h
      subst hw
      rw [update_self]
      cases hlast : lastWrite L w.1 with
      | none => rw [applyWrites_replayOf_of_not_mem (lastWrite_eq_none_iff.mp hlast)]
      | some y => rw [ih hlast, overlay_overlay]
    · rw [if_neg hw] at h
      rw [update_of_ne (Ne.symm hw)]
      exact ih h

/-! ## The shapes of the journal area -/

def InJournal (sb : Super) (b : Nat) : Prop :=
  sb.journalStart.toNat ≤ b ∧ b < sb.journalStart.toNat + sb.journalSize.toNat

instance (sb : Super) (b : Nat) : Decidable (InJournal sb b) :=
  inferInstanceAs (Decidable (_ ∧ _))

/-- The block is one that an entry can name and that lies outside the journal. -/
def Loggable (sb : Super) (b : Nat) : Prop := b < 2 ^ 32 ∧ ¬ InJournal sb b

instance (sb : Super) (b : Nat) : Decidable (Loggable sb b) := inferInstanceAs (Decidable (_ ∧ _))

def Quiet (sb : Super) (d : Disk Block) : Prop :=
  ∀ i, i < sb.journalSize.toNat → Calm (d (sb.journalStart.toNat + i))

/-- The marker of `T` is on disk and its first `j` entries are zeroed. -/
structure Marked (sb : Super) (T : List (Nat × Block)) (j : Nat) (d : Disk Block) : Prop where
  fits : T.length < sb.journalSize.toNat
  le : j ≤ T.length
  marker : d (sb.journalStart.toNat + T.length) = commitEntry
  zeroed : ∀ i, i < j → d (sb.journalStart.toNat + i) = zero
  logged : ∀ i w, T[i]? = some w → j ≤ i →
    d (sb.journalStart.toNat + i) = logEntry (UInt32.ofNat w.1) w.2
  beyond : ∀ i, T.length < i → i < sb.journalSize.toNat → Calm (d (sb.journalStart.toNat + i))
  home : ∀ b x, lastWrite T b = some x → (∀ w ∈ T.drop j, w.1 ≠ b) → covered (d b) = covered x

/-- Every block logged in `T` has the covered bytes of its last entry. -/
def Synced (T : List (Nat × Block)) (d : Disk Block) : Prop :=
  ∀ b x, lastWrite T b = some x → covered (d b) = covered x

section Shapes

variable {sb : Super} {T : List (Nat × Block)} {j : Nat} {d : Disk Block} {b : Nat}

theorem recoverWrites_of_quiet (h : Quiet sb d) : recoverWrites sb d = [] := by
  unfold recoverWrites
  split
  · rfl
  · rw [scanCommit_eq_none _ _ fun k _ hk => h k (by omega)]

theorem Marked.calm (h : Marked sb T j d) {i : Nat} (hi : i < T.length) : Calm (d (sb.journalStart.toNat + i)) := by
  by_cases hj : i < j
  · rw [h.zeroed i hj]
    exact calm_zero
  · rw [h.logged i _ (getElem?_eq_getElem hi) (by omega)]
    exact calm_logEntry _ _

theorem Marked.scan (h : Marked sb T j d) :
    scanCommit d sb.journalStart.toNat sb.journalSize.toNat 0 = some T.length := by
  refine scanCommit_eq_some h.marker _ _ (Nat.zero_le _) ?_ fun k _ hk => h.calm hk
  have := h.fits
  omega

theorem replayWrites_skip {start : Nat} : ∀ (j m i : Nat) (d : Disk Block),
    (∀ k, i ≤ k → k < i + j → d (start + k) = zero) →
      replayWrites start (j + m) i d = replayWrites start m (i + j) d
  | 0, m, i, d, _ => by rw [Nat.zero_add, Nat.add_zero]
  | j + 1, m, i, d, h => by
    have h0 : d (start + i) = zero := h i (Nat.le_refl i) (by omega)
    have hrest := replayWrites_skip j m (i + 1) d fun k h1 h2 => h k (by omega) (by omega)
    rw [Nat.add_assoc i 1 j, Nat.add_comm 1 j] at hrest
    rw [← hrest, Nat.add_right_comm]
    simp only [replayWrites, h0, journalReplayEntry_zero]

/-- Replaying slots that hold the entries `L` is `replayOf L`, as no entry names a slot. -/
theorem replayWrites_logged : ∀ (L : List (Nat × Block)) (i : Nat) (d : Disk Block),
    (∀ w ∈ L, Loggable sb w.1) → i + L.length ≤ sb.journalSize.toNat →
    (∀ k w, L[k]? = some w →
      d (sb.journalStart.toNat + (i + k)) = logEntry (UInt32.ofNat w.1) w.2) →
    replayWrites sb.journalStart.toNat L.length i d = replayOf L d
  | [], _, _, _, _, _ => rfl
  | w :: L, i, d, hT, hn, h => by
    have hw : Loggable sb w.1 := hT w mem_cons_self
    have hnum : (UInt32.ofNat w.1).toNat = w.1 := by
      rw [UInt32.toNat_ofNat', Nat.mod_eq_of_lt hw.1]
    have h0 : d (sb.journalStart.toNat + i) = logEntry (UInt32.ofNat w.1) w.2 := h 0 w (by simp)
    rw [length_cons] at hn ⊢
    unfold replayWrites replayOf
    rw [h0, journalReplayEntry_logEntry]
    simp only [hnum]
    congr 1
    refine replayWrites_logged L (i + 1) _ (fun v hv => hT v (mem_cons_of_mem _ hv)) (by omega) fun k v hv => ?_
    have hk : k < L.length := (List.getElem?_eq_some_iff.mp hv).1
    have hne : sb.journalStart.toNat + (i + 1 + k) ≠ w.1 := by
      intro he
      exact hw.2 ⟨by omega, by omega⟩
    rw [update_of_ne hne, ← h (k + 1) v (by simpa using hv)]
    congr 2
    omega

theorem Marked.recoverWrites (h : Marked sb T j d) (hj : sb.hasJournal = true)
    (hT : ∀ w ∈ T, Loggable sb w.1) : OnyxFs.recoverWrites sb d =
      replayOf (T.drop j) d ++ zeroWrites sb.journalStart.toNat (T.length + 1) := by
  have hlen : j + (T.drop j).length = T.length := by
    rw [length_drop]
    have := h.le
    omega
  unfold OnyxFs.recoverWrites
  rw [if_neg (by simp [hj]), h.scan]
  simp only
  congr 1
  rw [← hlen, replayWrites_skip j _ 0 d fun k _ hk => h.zeroed k (by omega), Nat.zero_add]
  refine replayWrites_logged (T.drop j) j d (fun w hw => hT w (mem_of_mem_drop hw)) ?_ ?_
  · have := h.fits
    omega
  · intro k w hw
    rw [getElem?_drop] at hw
    exact h.logged (j + k) w hw (Nat.le_add_right j k)

/-! ## Crashes inside `journal_recover` -/

theorem zeroWrites_take (start n k : Nat) : (zeroWrites start n).take k = zeroWrites start (min k n) := by
  unfold zeroWrites
  rw [← map_take, take_range]

theorem applyWrites_zeroWrites_lt {start n i : Nat} (h : i < n) (d : Disk Block) :
    applyWrites (zeroWrites start n) d (start + i) = zero := by
  induction n with
  | zero => omega
  | succ n ih =>
    rw [zeroWrites_succ, applyWrites_concat]
    by_cases hi : i = n
    · subst hi
      rw [update_self]
    · rw [update_of_ne (by simp only; omega)]
      exact ih (by omega)

theorem applyWrites_zeroWrites_of_ne {start n b : Nat} (h : b < start ∨ start + n ≤ b)
    (d : Disk Block) : applyWrites (zeroWrites start n) d b = d b := by
  refine applyWrites_of_not_mem (fun w hw => ?_) d
  obtain ⟨i, hi, rfl⟩ := mem_map.mp hw
  have := mem_range.mp hi
  omega

theorem Loggable.ne_slot {b i : Nat} (h : Loggable sb b) (hi : i < sb.journalSize.toNat) :
    b ≠ sb.journalStart.toNat + i := by
  intro he
  exact h.2 ⟨by omega, by omega⟩

theorem loggable_of_lastWrite {x : Block} (hT : ∀ w ∈ T, Loggable sb w.1)
    (h : lastWrite T b = some x) : Loggable sb b := by
  have hne : ¬ ∀ w ∈ T, w.1 ≠ b := fun hall => by
    rw [lastWrite_eq_none_iff.mpr hall] at h
    cases h
  push Not at hne
  obtain ⟨w, hw, rfl⟩ := hne
  exact hT w hw

section

variable (hT : ∀ w ∈ T, Loggable sb w.1)
include hT

theorem Synced.zero (hs : Synced T d) {k : Nat} (hk : k ≤ sb.journalSize.toNat) :
    Synced T (applyWrites (zeroWrites sb.journalStart.toNat k) d) := by
  intro b x hx
  have hb := loggable_of_lastWrite hT hx
  have hne : b < sb.journalStart.toNat ∨ sb.journalStart.toNat + k ≤ b := by
    by_contra hc
    exact hb.2 ⟨by omega, by omega⟩
  rw [applyWrites_zeroWrites_of_ne hne]
  exact hs b x hx

variable (h : Marked sb T j d)
include h

theorem Marked.replay {L : List (Nat × Block)} (hL : ∀ w ∈ L, w ∈ T.drop j) :
    Marked sb T j (applyWrites (replayOf L d) d) := by
  have hslot : ∀ i, i < sb.journalSize.toNat →
      applyWrites (replayOf L d) d (sb.journalStart.toNat + i) = d (sb.journalStart.toNat + i) := by
    intro i hi
    refine applyWrites_replayOf_of_not_mem (fun w hw => ?_) d
    exact (hT w (mem_of_mem_drop (hL w hw))).ne_slot hi
  have hfits := h.fits
  refine ⟨h.fits, h.le, ?_, fun i hi => ?_, fun i w hw hi => ?_, fun i h1 h2 => ?_, ?_⟩
  · rw [hslot _ h.fits, h.marker]
  · have := h.le
    rw [hslot i (by omega), h.zeroed i hi]
  · have := (List.getElem?_eq_some_iff.mp hw).1
    rw [hslot i (by omega), h.logged i w hw hi]
  · rw [hslot i h2]
    exact h.beyond i h1 h2
  · intro b x hx hb
    rw [applyWrites_replayOf_of_not_mem fun w hw => hb w (hL w hw)]
    exact h.home b x hx hb

omit hT in
theorem Marked.synced : Synced T (applyWrites (replayOf (T.drop j) d) d) := by
  intro b x hx
  cases hlast : lastWrite (T.drop j) b with
  | none =>
    have hb := lastWrite_eq_none_iff.mp hlast
    rw [applyWrites_replayOf_of_not_mem hb]
    exact h.home b x hx hb
  | some y =>
    rw [applyWrites_replayOf hlast, covered_overlay]
    rw [← take_append_drop j T, lastWrite_append, hlast, Option.some_or] at hx
    cases hx
    rfl

theorem Marked.zero (hs : Synced T d) {k : Nat} (hk : k ≤ T.length) :
    Marked sb T (max j k) (applyWrites (zeroWrites sb.journalStart.toNat k) d) := by
  have hfits := h.fits
  have hle := h.le
  refine ⟨h.fits, by omega, ?_, fun i hi => ?_, fun i w hw hi => ?_, fun i h1 h2 => ?_, ?_⟩
  · rw [applyWrites_zeroWrites_of_ne (by omega), h.marker]
  · by_cases hik : i < k
    · exact applyWrites_zeroWrites_lt hik d
    · rw [applyWrites_zeroWrites_of_ne (by omega), h.zeroed i (by omega)]
  · rw [applyWrites_zeroWrites_of_ne (by omega), h.logged i w hw (by omega)]
  · rw [applyWrites_zeroWrites_of_ne (by omega)]
    exact h.beyond i h1 h2
  · exact fun b x hx _ => hs.zero hT (by omega) b x hx

theorem Marked.erased (hs : Synced T d) :
    Quiet sb (applyWrites (zeroWrites sb.journalStart.toNat (T.length + 1)) d) ∧
      Synced T (applyWrites (zeroWrites sb.journalStart.toNat (T.length + 1)) d) := by
  have hfits := h.fits
  refine ⟨fun i hi => ?_, hs.zero hT (by omega)⟩
  by_cases hiT : i < T.length + 1
  · rw [applyWrites_zeroWrites_lt hiT]
    exact calm_zero
  · rw [applyWrites_zeroWrites_of_ne (by omega)]
    exact h.beyond i (by omega) hi

theorem Marked.recover_take (hj : sb.hasJournal = true) (k : Nat) :
    (∃ j', Marked sb T j' (applyWrites ((OnyxFs.recoverWrites sb d).take k) d)) ∨
      Quiet sb (applyWrites ((OnyxFs.recoverWrites sb d).take k) d) ∧
        Synced T (applyWrites ((OnyxFs.recoverWrites sb d).take k) d) := by
  rw [h.recoverWrites hj hT, take_append, replayOf_take, zeroWrites_take, applyWrites_append]
  set r := (replayOf (T.drop j) d).length with hr
  by_cases hk : k < r
  · -- The crash comes before the last replayed entry: no slot has been touched yet.
    refine .inl ⟨j, ?_⟩
    have hzero : min (k - r) (T.length + 1) = 0 := by omega
    rw [hzero]
    exact h.replay hT fun w hw => mem_of_mem_take hw
  · have hall : replayOf ((T.drop j).take k) d = replayOf (T.drop j) d := by
      rw [← replayOf_take, take_of_length_le (by omega)]
    have hdone := h.replay hT (L := T.drop j) fun w hw => hw
    rw [hall]
    by_cases hm : k - r ≤ T.length
    · rw [Nat.min_eq_left (by omega)]
      exact .inl ⟨_, hdone.zero hT h.synced hm⟩
    · rw [Nat.min_eq_right (by omega)]
      exact .inr (hdone.erased hT h.synced)

theorem Marked.recover (hj : sb.hasJournal = true) :
    Quiet sb (applyWrites (OnyxFs.recoverWrites sb d) d) ∧
      Synced T (applyWrites (OnyxFs.recoverWrites sb d) d) := by
  rw [h.recoverWrites hj hT, applyWrites_append]
  exact (h.replay hT fun w hw => hw).erased hT h.synced

end

/-! ## Crashes inside a transaction -/

/-- The transaction `T` is logged and written in place, and not committed. -/
structure Pending (sb : Super) (T : List (Nat × Block)) (d : Disk Block) : Prop where
  le : T.length ≤ sb.journalSize.toNat
  quiet : Quiet sb d
  logged : ∀ i w, T[i]? = some w →
    d (sb.journalStart.toNat + i) = logEntry (UInt32.ofNat w.1) w.2
  home : ∀ b x, lastWrite T b = some x → d b = x

theorem Pending.nil (h : Quiet sb d) : Pending sb [] d :=
  ⟨Nat.zero_le _, h, fun _ _ hw => by simp at hw, nofun⟩

theorem Quiet.update_slot (h : Quiet sb d) {i : Nat} {e : Block} (he : Calm e) :
    Quiet sb (update d (sb.journalStart.toNat + i) e) := by
  intro k hk
  by_cases hki : k = i
  · subst hki
    rw [update_self]
    exact he
  · rw [update_of_ne (by omega)]
    exact h k hk

theorem Quiet.update_home (h : Quiet sb d) (hb : Loggable sb b) (x : Block) : Quiet sb (update d b x) := by
  intro k hk
  rw [update_of_ne (hb.ne_slot hk).symm]
  exact h k hk

/-- A crash while an entry is logged and its block written leaves no marker. -/
theorem Pending.log_take (h : Pending sb T d) (hb : Loggable sb b) (x : Block) (k : Nat) :
    Quiet sb
      (applyWrites ((logWrites sb.journalStart.toNat T.length b x).take k) d) := by
  have hentry := h.quiet.update_slot (i := T.length) (calm_logEntry (UInt32.ofNat b) x)
  rcases k with _ | _ | k
  · exact h.quiet
  · exact hentry
  · rw [take_of_length_le (by simp [logWrites])]
    exact hentry.update_home hb x

theorem Pending.log (h : Pending sb T d) (hT : ∀ w ∈ T, Loggable sb w.1)
    (hb : Loggable sb b) (x : Block) (hroom : T.length < sb.journalSize.toNat) :
    Pending sb (T ++ [(b, x)]) (applyWrites (logWrites sb.journalStart.toNat T.length b x) d) := by
  refine ⟨by simp; omega, h.log_take hb x 2, fun i w hw => ?_, fun c y hy => ?_⟩
  · rw [logWrites, applyWrites_cons, applyWrites_cons, applyWrites_nil]
    rcases Nat.lt_trichotomy i T.length with hi | rfl | hi
    · rw [getElem?_append_left hi] at hw
      rw [update_of_ne (hb.ne_slot (by omega)).symm, update_of_ne (by simp only; omega), h.logged i w hw]
    · rw [getElem?_concat_length] at hw
      cases hw
      rw [update_of_ne (hb.ne_slot hroom).symm, update_self]
    · rw [getElem?_eq_none (by simp; omega)] at hw
      cases hw
  · rw [logWrites, applyWrites_cons, applyWrites_cons, applyWrites_nil]
    rw [lastWrite_concat] at hy
    by_cases hbc : b = c
    · rw [if_pos hbc] at hy
      cases hy
      subst hbc
      rw [update_self]
    · rw [if_neg hbc] at hy
      have hslot := (loggable_of_lastWrite hT hy).ne_slot hroom
      rw [update_of_ne (Ne.symm hbc), update_of_ne hslot, h.home c y hy]

theorem Pending.mark (h : Pending sb T d) (hT : ∀ w ∈ T, Loggable sb w.1)
    (hroom : T.length < sb.journalSize.toNat) :
    Marked sb T 0 (update d (sb.journalStart.toNat + T.length) commitEntry) := by
  refine ⟨hroom, Nat.zero_le _, update_self .., fun i hi => by omega, fun i w hw _ => ?_,
    fun i h1 h2 => ?_, fun b x hx _ => ?_⟩
  · have := (List.getElem?_eq_some_iff.mp hw).1
    rw [update_of_ne (by omega), h.logged i w hw]
  · rw [update_of_ne (by omega)]
    exact h.quiet i h2
  · rw [update_of_ne ((loggable_of_lastWrite hT hx).ne_slot hroom), h.home b x hx]

theorem commitEntry_ne_zero : commitEntry ≠ zero := by
  intro he
  have htype := journalEntryType_commitEntry
  rw [he] at htype
  simp [journalEntryType, journalCommitEnd] at htype

theorem marker_not_mem_zeroWrites (b start n : Nat) : (b, commitEntry) ∉ zeroWrites start n := by
  intro hmem
  obtain ⟨i, -, he⟩ := mem_map.mp hmem
  exact commitEntry_ne_zero (Prod.mk.inj he).2.symm

theorem Quiet.zero (h : Quiet sb d) (k : Nat) : Quiet sb (applyWrites (zeroWrites sb.journalStart.toNat k) d) := by
  induction k with
  | zero => exact h
  | succ k ih =>
    rw [zeroWrites_succ, applyWrites_concat]
    exact ih.update_slot calm_zero

section

variable (h : Pending sb T d) (hT : ∀ w ∈ T, Loggable sb w.1)
include h hT

theorem Pending.synced_mark
    (hroom : T.length < sb.journalSize.toNat) :
    Synced T (update d (sb.journalStart.toNat + T.length) commitEntry) := by
  intro b x hx
  rw [update_of_ne ((loggable_of_lastWrite hT hx).ne_slot hroom), h.home b x hx]

theorem Pending.commit : Quiet sb
      (applyWrites (commitWrites sb.journalStart.toNat sb.journalSize.toNat T.length) d) := by
  unfold commitWrites
  split
  · exact h.quiet
  split
  · rename_i hroom
    rw [applyWrites_cons]
    exact ((h.mark hT hroom).erased hT (h.synced_mark hT hroom)).1
  · exact h.quiet.zero _

/-- A crash after `k` of the writes of `journal_commit`: before the marker nothing is left to
recover, from the marker on the transaction is. -/
theorem Pending.commit_take (k : Nat)
    {ws : List (Nat × Block)} (hws : ws = (commitWrites sb.journalStart.toNat sb.journalSize.toNat T.length).take k) :
    ((sb.journalStart.toNat + T.length, commitEntry) ∉ ws ∧ Quiet sb (applyWrites ws d)) ∨
    ((sb.journalStart.toNat + T.length, commitEntry) ∈ ws ∧
      ((∃ j, Marked sb T j (applyWrites ws d)) ∨
        Quiet sb (applyWrites ws d) ∧ Synced T (applyWrites ws d))) := by
  subst hws
  unfold commitWrites
  by_cases h0 : T.length = 0
  · rw [if_pos h0, take_nil]
    exact .inl ⟨not_mem_nil, h.quiet⟩
  rw [if_neg h0]
  by_cases hroom : T.length < sb.journalSize.toNat
  · rw [if_pos hroom]
    cases k with
    | zero => exact .inl ⟨not_mem_nil, h.quiet⟩
    | succ k =>
      refine .inr ⟨mem_cons_self, ?_⟩
      have hmark := h.mark hT hroom
      have hsync := h.synced_mark hT hroom
      rw [take_succ_cons, zeroWrites_take, applyWrites_cons]
      by_cases hk : k ≤ T.length
      · rw [Nat.min_eq_left (by omega)]
        exact .inl ⟨_, hmark.zero hT hsync hk⟩
      · rw [Nat.min_eq_right (by omega)]
        exact .inr (hmark.erased hT hsync)
  · rw [if_neg hroom, zeroWrites_take]
    exact .inl ⟨marker_not_mem_zeroWrites _ _ _, h.quiet.zero _⟩

end

end Shapes

end OnyxFs
