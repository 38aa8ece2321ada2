import OnyxKernel.OnyxFs.Holes
import OnyxKernel.OnyxFs.TruncateSpec

/-!
# `truncate_to_length`

A call that drops no table entry sets the size, keeps the bytes before both ends, gives back exactly the blocks
behind the new end and touches no other file. The bytes that it adds are zero where it adds blocks. Where the
file already has blocks, in the last one before the old end or behind it, they are what an earlier shrink has
left there. `truncateToLength_resized_iff` says for which files this is what was asked for.
-/

namespace OnyxFs

open Infra Onyx Bytes

/-! ## The blocks of a file -/

section

variable {v : Volume} {d d' : Disk Block} {ino i j b : Nat} {length : UInt64}

/-- The file has the block `b`, as one of its blocks or as its table. -/
def Holds (v : Volume) (d : Disk Block) (ino b : Nat) : Prop :=
  (∃ idx, blockAt v d ino idx ≠ 0 ∧ (blockAt v d ino idx).toNat = b) ∨
    (inodeAt v d ino).indirect ≠ 0 ∧ (inodeAt v d ino).indirect.toNat = b

/-- The file has the block `b` and does not need it for `length` bytes. -/
def HoldsPast (v : Volume) (d : Disk Block) (ino length b : Nat) : Prop :=
  (∃ idx, length ≤ idx * 4096 ∧ blockAt v d ino idx ≠ 0 ∧ (blockAt v d ino idx).toNat = b) ∨
    length ≤ 10 * 4096 ∧ (inodeAt v d ino).indirect ≠ 0 ∧ (inodeAt v d ino).indirect.toNat = b

theorem HoldsPast.holds {length : Nat} (h : HoldsPast v d ino length b) : Holds v d ino b := by
  rcases h with ⟨idx, -, h⟩ | ⟨-, h⟩
  · exact .inl ⟨idx, h⟩
  · exact .inr h

theorem ref_of_blockAt (hi : live v d ino = true) {idx : Nat} (h0 : blockAt v d ino idx ≠ 0) :
    (diskView v d).ref (ino, slotOf idx (lt_of_blockPtr h0)) = some (blockAt v d ino idx).toNat := by
  refine ref_of_ptr hi ?_ h0
  exact (blockPtr_of_lt (lt_of_blockPtr h0)).symm

theorem ref_of_indirect (hi : live v d ino = true) (h0 : (inodeAt v d ino).indirect ≠ 0) :
    (diskView v d).ref (ino, .table) = some (inodeAt v d ino).indirect.toNat :=
  ref_of_ptr hi rfl h0

theorem holds_iff_ref (hi : live v d ino = true) : Holds v d ino b ↔ ∃ s, (diskView v d).ref (ino, s) = some b := by
  constructor
  · rintro (⟨idx, h0, rfl⟩ | ⟨h0, rfl⟩)
    · exact ⟨_, ref_of_blockAt hi h0⟩
    · exact ⟨.table, ref_of_indirect hi h0⟩
  · rintro ⟨s, hs⟩
    obtain ⟨-, h0, rfl⟩ := diskView_ref.mp hs
    -- a direct slot and a table entry have a block index, the table has none
    have hblock (idx : Nat) (hidx : idx < 1034) (hslot : slotOf idx hidx = s) :
        blockAt v d ino idx = (inodeAt v d ino).ptr (entsAt d (inodeAt v d ino)) s := by
      rw [← hslot]
      exact blockPtr_of_lt hidx
    cases s with
    | direct k =>
      have := hblock k.1 (by omega) (dif_pos k.2)
      exact .inl ⟨k.1, by rw [this]; exact h0, by rw [this]⟩
    | table => exact .inr ⟨h0, rfl⟩
    | entry k =>
      have hslot : slotOf (10 + k.1) (by omega) = .entry k := by
        rw [slotOf, dif_neg (by omega)]
        simp
      have := hblock (10 + k.1) (by omega) hslot
      exact .inl ⟨10 + k.1, by rw [this]; exact h0, by rw [this]⟩

theorem BlocksOwned.used_iff_holds (hb : BlocksOwned v d) :
    Used v d b ↔ ∃ i, live v d i = true ∧ Holds v d i b := by
  rw [hb.owns.used_iff]
  constructor
  · rintro (⟨⟨i, s⟩, hs⟩ | hno)
    · have hi := (diskView_ref.mp hs).1
      exact ⟨i, hi, (holds_iff_ref hi).mpr ⟨s, hs⟩⟩
    · exact hno.elim
  · rintro ⟨i, hi, h⟩
    obtain ⟨s, hs⟩ := (holds_iff_ref hi).mp h
    exact .inl ⟨(i, s), hs⟩

theorem BlocksOwned.holder_unique (hb : BlocksOwned v d) (hi : live v d i = true) (hj : live v d j = true)
    (h : Holds v d i b) (h' : Holds v d j b) : i = j := by
  obtain ⟨s, hs⟩ := (holds_iff_ref hi).mp h
  obtain ⟨s', hs'⟩ := (holds_iff_ref hj).mp h'
  exact congrArg Prod.fst (hb.owns.inj hs hs')

theorem BlocksOwned.block_ne_table (hb : BlocksOwned v d) (hi : live v d ino = true) {idx : Nat}
    (h0 : blockAt v d ino idx ≠ 0) : (blockAt v d ino idx).toNat ≠ (inodeAt v d ino).indirect.toNat := by
  intro he
  have ht : (inodeAt v d ino).indirect ≠ 0 := by
    intro hz
    rw [hz] at he
    exact h0 (UInt32.toNat_inj.mp he)
  have hs := hb.owns.inj (ref_of_blockAt hi h0) (he ▸ ref_of_indirect hi ht)
  exact slotOf_ne_table (lt_of_blockPtr h0) (congrArg Prod.snd hs)

/-! ## Other files -/

section

variable (h : Around v d d' ino length)
include h

section

variable (hb : BlocksOwned v d) (hi : live v d ino = true) (hj : live v d j = true) (hne : j ≠ ino)
include hb hi hj hne

theorem Around.same_block (hold : Holds v d j b) : d' b = d b := by
  refine h.block b (hb.used_iff_holds.mpr ⟨j, hj, hold⟩) ?_
  rintro rfl
  by_cases h0 : (inodeAt v d ino).indirect = 0
  · obtain ⟨s, hs⟩ := (holds_iff_ref hj).mp hold
    obtain ⟨-, hp, he⟩ := diskView_ref.mp hs
    rw [h0] at he
    exact hp (UInt32.toNat_inj.mp he)
  · exact hne (hb.holder_unique hj hi hold (.inr ⟨h0, rfl⟩))

theorem Around.blockAt_other (idx : Nat) : blockAt v d' j idx = blockAt v d j idx := by
  unfold blockAt
  rw [h.inode j hj hne]
  refine blockPtr_congr_ents (fun h0 k hk => ?_) idx
  rw [entsAt, entsAt, h.same_block hb hi hj hne (.inr ⟨h0, rfl⟩)]

theorem Around.holds_other : Holds v d' j b ↔ Holds v d j b := by
  unfold Holds
  simp only [h.blockAt_other hb hi hj hne, h.inode j hj hne]

end

theorem Around.returned_iff (hb : BlocksOwned v d) (hi : live v d ino = true) :
    Used v d b ∧ ¬ Used v d' b ↔ Holds v d ino b ∧ ¬ Holds v d' ino b := by
  rw [hb.used_iff_holds, h.owned.used_iff_holds, h.sameLive]
  constructor
  · rintro ⟨⟨j, hj, hold⟩, hno⟩
    have hji : j = ino := by
      by_contra hne
      exact hno ⟨j, hj, (h.holds_other hb hi hj hne).mpr hold⟩
    subst hji
    exact ⟨hold, fun hc => hno ⟨j, hj, hc⟩⟩
  · rintro ⟨hold, hno⟩
    refine ⟨⟨ino, hi, hold⟩, ?_⟩
    rintro ⟨j, hj, hc⟩
    by_cases hne : j = ino
    · exact hno (hne ▸ hc)
    · exact hne (hb.holder_unique hj hi ((h.holds_other hb hi hj hne).mp hc) hold)

end

theorem fileAt_eq (p : Nat) : fileAt v d ino p =
    if blockAt v d ino (p / 4096) = 0 then 0 else (d (blockAt v d ino (p / 4096)).toNat).get (p % 4096) := by
  unfold fileAt fileByte fileBlock blockAt
  split
  · exact get_zero _
  · rfl

theorem Around.same_byte (h : Around v d d' ino length) (hb : BlocksOwned v d) (hi : live v d ino = true) {p : Nat}
    (hp : blockAt v d' ino (p / 4096) = blockAt v d ino (p / 4096)) : fileAt v d' ino p = fileAt v d ino p := by
  rw [fileAt_eq, fileAt_eq, hp]
  split
  · rfl
  · rename_i h0
    rw [h.block _ (hb.used_iff_holds.mpr ⟨ino, hi, .inl ⟨_, h0, rfl⟩⟩) (hb.block_ne_table hi h0)]

theorem FileShrunk.holds_iff (h : FileShrunk v d d' ino length) (hb : BlocksOwned v d) (hi : live v d ino = true) :
    Holds v d ino b ∧ ¬ Holds v d' ino b ↔ HoldsPast v d ino length.toNat b := by
  have hkept (idx : Nat) (hlt : idx * 4096 < length.toNat) : blockAt v d' ino idx = blockAt v d ino idx := by
    rw [h.blocks, if_pos hlt]
  constructor
  · rintro ⟨⟨idx, h0, rfl⟩ | ⟨h0, rfl⟩, hno⟩
    · refine .inl ⟨idx, ?_, h0, rfl⟩
      by_contra hlt
      exact hno (.inl ⟨idx, by rw [hkept idx (by omega)]; exact ⟨h0, rfl⟩⟩)
    · refine .inr ⟨?_, h0, rfl⟩
      by_contra hlt
      refine hno (.inr ?_)
      rw [h.table, if_neg hlt]
      exact ⟨h0, rfl⟩
  · intro hpast
    refine ⟨hpast.holds, ?_⟩
    -- what the file has left is before the new end
    rintro (⟨idx, h0, rfl⟩ | ⟨h0, rfl⟩)
    · rw [h.blocks] at hpast h0
      split_ifs at hpast h0 with hlt
      · rcases hpast with ⟨idx', hge, h0', he⟩ | ⟨hge, h0', he⟩
        · have := hb.flight.block_inj hi (Inode.SamePtrs.refl _) rfl h0' h0 he
          omega
        · exact hb.block_ne_table hi h0 he.symm
      · exact h0 rfl
    · rw [h.table] at hpast h0
      split_ifs at hpast h0 with hle
      · exact h0 rfl
      · rcases hpast with ⟨idx', hge, h0', he⟩ | ⟨hge, -⟩
        · exact hb.block_ne_table hi h0' he
        · exact hle hge

theorem FileGrown.holds (h : FileGrown v d d' ino length) (hold : Holds v d ino b) : Holds v d' ino b := by
  rcases hold with ⟨idx, h0, rfl⟩ | ⟨h0, rfl⟩
  · exact .inl ⟨idx, by rw [h.keeps idx h0]; exact ⟨h0, rfl⟩⟩
  · exact .inr (by rw [h.table h0]; exact ⟨h0, rfl⟩)

end

/-! ## What a caller sees -/

/-- `read` of one byte, on a device that works. -/
def readByte (s : FsState) (ino i : Nat) : Except Errno (List UInt8) :=
  ((exec (read ino i 1)).run { s with fault := fun _ => none }).1

theorem copied_one (d : Disk Block) (x : Inode) (i : Nat) :
    copied d x 1 i 1 = if blockPtr x (entsAt d x) (i / 4096) = 0 then [] else [fileByte d x (entsAt d x) i] := by
  have hchunk : min (4096 - i % 4096) 1 = 1 := by omega
  simp only [copied, one_ne_zero, if_false, hchunk, List.append_nil]
  split
  · rfl
  · simp [bytesFrom]

theorem readByte_eq {s : FsState} (hs : s.Sound) {ino i : Nat} (hi : live s.vol s.home ino = true)
    (hlt : i < (inodeAt s.vol s.home ino).size.toNat) (h32 : i < 2 ^ 32 - 1) : readByte s ino i =
      .ok (if blockAt s.vol s.home ino (i / 4096) = 0 then [] else [fileAt s.vol s.home ino i]) := by
  have hcalm : FsState.NoFaults { s with fault := fun _ => none } := fun _ => rfl
  obtain ⟨u, hrun, -⟩ := (read_gives hcalm (known_of_live hi) i 1).run_still (.refl _)
  have hsize : min 1 (min (inodeAt s.vol s.home ino).size.toNat (2 ^ 32 - 1) - i) = 1 := by omega
  have hread : readByte s ino i = .ok (copied s.disk (inodeAt s.vol s.disk ino) 1 i 1) := by
    unfold readByte
    rw [hrun]
    show Except.ok (copied s.disk (inodeAt s.vol s.disk ino)
      (min 1 (min (inodeAt s.vol s.disk ino).size.toNat (2 ^ 32 - 1) - i)) i
      (min 1 (min (inodeAt s.vol s.disk ino).size.toNat (2 ^ 32 - 1) - i))) = _
    rw [hs.inodeAt_disk hi, hsize]
  rw [hread, copied_one, ← hs.blockAt_disk hi, ← hs.fileAt_disk hi]
  rfl

/-- What `truncate_to_length` is asked to make of the file `ino` when it takes `s` to `t`. -/
structure Resized (s t : FsState) (ino length : Nat) : Prop where
  size : (inodeAt t.vol t.home ino).size.toNat = length
  kept : ∀ i, i < (inodeAt s.vol s.home ino).size.toNat → i < length → readByte t ino i = readByte s ino i
  zero : ∀ i, (inodeAt s.vol s.home ino).size.toNat ≤ i → i < length → readByte t ino i = .ok [0]
  returned : ∀ b, Used s.vol s.home b ∧ ¬ Used t.vol t.home b ↔ HoldsPast s.vol s.home ino length b
  others : ∀ j, live s.vol s.home j = true → j ≠ ino →
    live t.vol t.home j = true ∧ inodeAt t.vol t.home j = inodeAt s.vol s.home j ∧
      ∀ b, Holds s.vol s.home j b → Used t.vol t.home b ∧ t.home b = s.home b

/-- The file has no block behind a new end that is not before the old one; up to the new end, the bytes behind the
old one are zero, and the last block before it is there. -/
structure NothingBehind (s : FsState) (ino length : Nat) : Prop where
  blocks : (inodeAt s.vol s.home ino).size.toNat ≤ length → ∀ b, ¬ HoldsPast s.vol s.home ino length b
  bytes : ∀ p, (inodeAt s.vol s.home ino).size.toNat ≤ p → p < length → fileAt s.vol s.home ino p = 0
  tail : ∀ p, (inodeAt s.vol s.home ino).size.toNat ≤ p → p < length →
    p / 4096 * 4096 < (inodeAt s.vol s.home ino).size.toNat → blockAt s.vol s.home ino (p / 4096) ≠ 0

section

variable {s t : FsState} {d' : Disk Block} {ino : Nat} {length : UInt64}
variable (hs : s.Sound) (ht : t.Sound) (hvol : t.vol = s.vol) (hhome : t.home = d') (hi : live s.vol s.home ino = true)

include hs hi in
theorem Around.others (h : Around s.vol s.home d' ino length) {j : Nat}
    (hj : live s.vol s.home j = true) (hne : j ≠ ino) :
    live s.vol d' j = true ∧ inodeAt s.vol d' j = inodeAt s.vol s.home j ∧
      ∀ b, Holds s.vol s.home j b → Used s.vol d' b ∧ d' b = s.home b := by
  have hlive : live s.vol d' j = true := by rw [h.sameLive]; exact hj
  refine ⟨hlive, h.inode j hj hne, fun b hold => ⟨?_, h.same_block hs.owned hi hj hne hold⟩⟩
  exact h.owned.used_iff_holds.mpr ⟨j, hlive, (h.holds_other hs.owned hi hj hne).mpr hold⟩

include ht hvol hhome hi in
theorem Around.readByte_after (h : Around s.vol s.home d' ino length) {i : Nat} (h2 : i < length.toNat)
    (h32 : i < 2 ^ 32 - 1) :
    readByte t ino i = .ok (if blockAt s.vol d' ino (i / 4096) = 0 then [] else [fileAt s.vol d' ino i]) := by
  have hlive : live t.vol t.home ino = true := by rw [hvol, hhome, h.sameLive]; exact hi
  have hsize : (inodeAt t.vol t.home ino).size.toNat = length.toNat := by rw [hvol, hhome, h.size]
  rw [readByte_eq ht hlive (by omega) h32, hvol, hhome]

include hs ht hvol hhome hi

theorem Around.readByte_kept (h : Around s.vol s.home d' ino length) {i : Nat}
    (h1 : i < (inodeAt s.vol s.home ino).size.toNat) (h2 : i < length.toNat) (h32 : i < 2 ^ 32 - 1)
    (hp : blockAt s.vol d' ino (i / 4096) = blockAt s.vol s.home ino (i / 4096)) :
    readByte t ino i = readByte s ino i := by
  rw [h.readByte_after ht hvol hhome hi h2 h32, readByte_eq hs hi h1 h32, hp, h.same_byte hs.owned hi hp]

theorem FileShrunk.resized_state (h : FileShrunk s.vol s.home d' ino length)
    (hcap : length.toNat ≤ 1034 * 4096) (hlt : length.toNat < (inodeAt s.vol s.home ino).size.toNat) :
    Resized s t ino length.toNat := by
  constructor
  · rw [hvol, hhome, h.size]
  · intro i h1 h2
    refine h.readByte_kept hs ht hvol hhome hi h1 h2 (by omega) ?_
    rw [h.blocks, if_pos (by omega)]
  · intro i h1 h2
    omega
  · intro b
    rw [hvol, hhome, h.returned_iff hs.owned hi, h.holds_iff hs.owned hi]
  · intro j hj hne
    rw [hvol, hhome]
    exact h.others hs hi hj hne

theorem FileGrown.readByte_zero_iff (h : FileGrown s.vol s.home d' ino length)
    {i : Nat} (h2 : i < length.toNat) (h32 : i < 2 ^ 32 - 1) :
    readByte t ino i = .ok [0] ↔ fileAt s.vol s.home ino i = 0 ∧
      (i / 4096 * 4096 < (inodeAt s.vol s.home ino).size.toNat → blockAt s.vol s.home ino (i / 4096) ≠ 0) := by
  rw [h.readByte_after ht hvol hhome hi h2 h32]
  by_cases h0 : blockAt s.vol s.home ino (i / 4096) = 0
  · have hzero : fileAt s.vol s.home ino i = 0 := by rw [fileAt_eq, if_pos h0]
    rw [and_iff_right hzero]
    by_cases hnew : blockAt s.vol d' ino (i / 4096) = 0
    · -- only the last block before the old end is not filled in
      rw [if_pos hnew]
      have htail : i / 4096 * 4096 < (inodeAt s.vol s.home ino).size.toNat := by
        by_contra hge
        exact h.mapped (i / 4096) (by omega) (by omega) hnew
      simp [h0, htail]
    · obtain ⟨hge, hblank⟩ := h.new _ h0 hnew
      have hbyte : fileAt s.vol d' ino i = 0 := by
        rw [fileAt_eq, if_neg hnew, hblank, get_zero]
      rw [if_neg hnew, hbyte]
      simp only [true_iff]
      intro hlt
      omega
  · have hsame := h.keeps _ h0
    rw [hsame, if_neg h0, h.same_byte hs.owned hi hsame]
    simp [h0]

theorem FileGrown.resized_state_iff (h : FileGrown s.vol s.home d' ino length)
    (hcap : length.toNat ≤ 1034 * 4096) (hle : (inodeAt s.vol s.home ino).size.toNat ≤ length.toNat) :
    Resized s t ino length.toNat ↔ NothingBehind s ino length.toNat := by
  have hzero (i : Nat) (h1 : (inodeAt s.vol s.home ino).size.toNat ≤ i) (h2 : i < length.toNat) :=
    h.readByte_zero_iff hs ht hvol hhome hi h2 (by omega)
  have hnone (b : Nat) : ¬ (Used s.vol s.home b ∧ ¬ Used t.vol t.home b) := by
    rw [hvol, hhome, h.returned_iff hs.owned hi]
    exact fun hc => hc.2 (h.holds hc.1)
  constructor
  · intro hr
    refine ⟨fun _ b hpast => hnone b ((hr.returned b).mpr hpast), fun p h1 h2 => ?_, fun p h1 h2 h3 => ?_⟩
    · exact ((hzero p h1 h2).mp (hr.zero p h1 h2)).1
    · exact ((hzero p h1 h2).mp (hr.zero p h1 h2)).2 h3
  · intro hn
    constructor
    · rw [hvol, hhome, h.size]
    · intro i h1 h2
      refine h.readByte_kept hs ht hvol hhome hi h1 h2 (by omega) ?_
      by_cases h0 : blockAt s.vol s.home ino (i / 4096) = 0
      · by_contra hne
        have := (h.new _ h0 (by rw [h0] at hne; exact hne)).1
        omega
      · exact h.keeps _ h0
    · intro i h1 h2
      exact (hzero i h1 h2).mpr ⟨hn.bytes i h1 h2, hn.tail i h1 h2⟩
    · intro b
      exact iff_of_false (hnone b) (hn.blocks hle b)
    · intro j hj hne
      rw [hvol, hhome]
      exact h.others hs hi hj hne

end

/-- A call of `truncate_to_length` that drops no table entry and returns `Ok` makes of the file what was asked for
if and only if nothing stands behind its old end. -/
theorem truncateToLength_resized_iff {s t : FsState} {ino : Nat} {length : UInt64} (hs : s.Sound)
    (hi : live s.vol s.home ino = true) (hcap : length.toNat ≤ 1034 * 4096)
    (hn : DropsNoEntry (inodeAt s.vol s.home ino) (entsAt s.home (inodeAt s.vol s.home ino)) length)
    (hrun : (truncateToLength ino length).run s = (.ok (), t)) :
    Resized s t ino length.toNat ↔ NothingBehind s ino length.toNat := by
  have hspec := truncateToLength_spec (e := s.env) (D := fun d' => Around s.vol s.home d' ino length ∧
      (length.toNat ≤ 1034 * 4096 → FileResized s.vol s.home d' ino length))
    (truncateToLengthBody_resizes hs.layout (FsState.start hs.head) hs.owned hi hn)
  obtain ⟨d', ⟨har, hd'⟩, hon⟩ := hspec.ok hrun
  have ht : t.Sound := hon.sound hs.layout har.owned
  have hd' := hd' hcap
  have hvol : t.vol = s.vol := hon.vol
  have hhome : t.home = d' := hon.home
  unfold FileResized at hd'
  split at hd'
  · rename_i hlt
    rw [UInt64.lt_iff_toNat_lt] at hlt
    refine iff_of_true (hd'.resized_state hs ht hvol hhome hi hcap hlt) ⟨?_, ?_, ?_⟩
    · intro hle
      omega
    · intro p h1 h2
      omega
    · intro p h1 h2
      omega
  · rename_i hge
    rw [UInt64.lt_iff_toNat_lt] at hge
    exact hd'.resized_state_iff hs ht hvol hhome hi hcap (by omega)

/-! ## A file of three bytes -/

theorem tiny_holdsPast {size : UInt64} {held : Bool} {data : Block} {length b : Nat}
    (h : HoldsPast (tinyVolume size held data).vol (tinyVolume size held data).home 1 length b) : length = 0 := by
  have hlive : live (tinyVolume size held data).vol (tinyVolume size held data).home 1 = true := by
    rw [tiny_live]
    rfl
  rcases h with ⟨idx, hle, h0, -⟩ | ⟨-, h0, -⟩
  · have hslot := congrArg Prod.snd ((tiny_ref _ _).mp (ref_of_blockAt hlive h0)).1
    have hfirst : slotOf 0 (by omega) = .direct 0 := rfl
    have := slotOf_inj (lt_of_blockPtr h0) (by omega) (hslot.trans hfirst.symm)
    omega
  · have hslot := congrArg Prod.snd ((tiny_ref _ _).mp (ref_of_indirect hlive h0)).1
    cases hslot

/-- Three more bytes for a file with zeros behind its end. -/
theorem truncateToLength_resized_clean :
    Resized (tinyVolume 3 true zero) ((truncateToLength 1 6).run (tinyVolume 3 true zero)).2 1 6 := by
  have hlive : live (tinyVolume 3 true zero).vol (tinyVolume 3 true zero).home 1 = true := by
    rw [tiny_live]
    rfl
  have hok : ((truncateToLength 1 6).run (tinyVolume 3 true zero)).1 = .ok () := by decide +kernel
  have hzero : ∀ p < 6, fileAt (tinyVolume 3 true zero).vol (tinyVolume 3 true zero).home 1 p = 0 := by
    decide +kernel
  have hblock : blockAt (tinyVolume 3 true zero).vol (tinyVolume 3 true zero).home 1 0 ≠ 0 := by
    decide +kernel
  refine (@truncateToLength_resized_iff _ _ _ 6 tiny_sound hlive (by decide)
    (by rw [tiny_inodeAt]; exact fun _ h0 => absurd rfl h0) (by rw [← hok])).mpr
    ⟨fun _ b hpast => ?_, fun p _ hp => hzero p hp, fun p _ hp _ => ?_⟩
  · exact absurd (tiny_holdsPast hpast) (by decide)
  · have hp : p < 6 := hp
    have hidx : p / 4096 = 0 := by omega
    rw [hidx]
    exact hblock

def staleBlock : Block := zero.set 5 9

/-- A file of three bytes whose block has an old byte at position 5 gets a size of 6: the old byte is read. -/
theorem truncateToLength_reads_stale :
    (tinyVolume 3 true staleBlock).Sound ∧
    live (tinyVolume 3 true staleBlock).vol (tinyVolume 3 true staleBlock).home 1 = true ∧
    ((truncateToLength 1 6).run (tinyVolume 3 true staleBlock)).1 = .ok () ∧
    ¬ Resized (tinyVolume 3 true staleBlock) ((truncateToLength 1 6).run (tinyVolume 3 true staleBlock)).2 1 6 := by
  have hsize : (tinyInode 3 true).size.toNat = 3 := rfl
  have hread : readByte ((truncateToLength 1 6).run (tinyVolume 3 true staleBlock)).2 1 5 = .ok [9] := by
    decide +kernel
  refine ⟨tiny_sound, by rw [tiny_live]; rfl, by decide +kernel, fun hr => ?_⟩
  have hzero := hr.zero 5 (by rw [tiny_inodeAt, hsize]; decide) (by decide)
  rw [hread] at hzero
  exact absurd hzero (by decide)

end OnyxFs
