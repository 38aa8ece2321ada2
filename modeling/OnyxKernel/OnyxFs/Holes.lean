import OnyxKernel.Vfs.ReadWrite

/-!
# Writing past the end of a file

`write` allocates the blocks it stores into and no others, and stores the new size. `read` ends at the first
position without a block. So a gap of whole blocks between the old end and the offset is not read as zeros.
Within a block that the file already has, `write` leaves the bytes of the gap as they are, and these need not
be zero after an earlier shrink.

`holesReadZero_iff` says for which files and offsets a gap is read as zeros, and when `read` returns all the
bytes that the size promises.
-/

namespace OnyxFs

open Infra Onyx StateProg Bytes

variable {s : FsState}

/-! ## After a write past the end -/

/-- The whole file is read after a write that took `s` to `t`, with zeros between the old end and the offset
of the write. -/
def HolesReadZero (s t : FsState) (ino off : Nat) : Prop :=
  ∃ bytes u, (exec (read ino 0 (inodeAt t.vol t.home ino).size.toNat)).run t = (.ok bytes, u) ∧
    bytes.length = (inodeAt t.vol t.home ino).size.toNat ∧
    ∀ p, (inodeAt s.vol s.home ino).size.toNat ≤ p → p < off → bytes[p]? = some 0

/-- Below the offset there is a block at every position, or the one that the write itself adds. -/
def NoBlockMissing (s : FsState) (ino off len : Nat) : Prop :=
  ∀ p < off, blockAt s.vol s.home ino (p / 4096) ≠ 0 ∨
    p / 4096 = off / 4096 ∧ 0 < len ∧ off < 1034 * 4096

/-- The blocks that the file has behind its end hold zeros up to the offset. -/
def NothingStale (s : FsState) (ino off : Nat) : Prop :=
  ∀ p, (inodeAt s.vol s.home ino).size.toNat ≤ p → p < off → fileAt s.vol s.home ino p = 0

/-- In terms of the file after the write: all of it has blocks, and the gap holds zeros. -/
theorem holesReadZero_iff_mapped {s t : FsState} {ino off : Nat} (ht : t.Sound) (hcalm : t.NoFaults)
    (hi : live t.vol t.home ino = true) (hoff : off ≤ (inodeAt t.vol t.home ino).size.toNat) :
    HolesReadZero s t ino off ↔
      (∀ p, p < (inodeAt t.vol t.home ino).size.toNat → blockAt t.vol t.home ino (p / 4096) ≠ 0) ∧
        ∀ p, (inodeAt s.vol s.home ino).size.toNat ≤ p → p < off → fileAt t.vol t.home ino p = 0 := by
  set size := (inodeAt t.vol t.home ino).size.toNat with hsize
  have hread := readsAll_iff hcalm (known_of_live hi) 0 size
  have hmapped : Mapped t ino 0 size ↔ ∀ p < size, blockAt t.vol t.home ino (p / 4096) ≠ 0 := by
    unfold Mapped
    simp only [ht.blockAt_disk hi, Nat.zero_le, true_implies, Nat.zero_add]
  rw [ht.inodeAt_disk hi, ← hsize, Nat.sub_zero, Nat.min_self, hmapped] at hread
  have hget (p : Nat) (hp : p < size) :
      ((List.range size).map fun i => fileAt t.vol t.home ino (0 + i))[p]? = some (fileAt t.vol t.home ino p) := by
    simp [hp]
  constructor
  · rintro ⟨bytes, u', hrun', hlen, hzero⟩
    have hall := hread.mp ⟨bytes, u', hrun', (min_le_left _ _).trans hlen.ge⟩
    refine ⟨hall, fun p h1 h2 => ?_⟩
    obtain ⟨u, hrun⟩ := read_sound ht hi hcalm hall (Nat.zero_add size).le
    obtain ⟨heq, -⟩ := Prod.mk.inj (hrun'.symm.trans hrun)
    have hp := hzero p h1 h2
    rwa [Except.ok.inj heq, hget p (by omega), Option.some.injEq] at hp
  · rintro ⟨hall, hzero⟩
    obtain ⟨u, hrun⟩ := read_sound ht hi hcalm hall (Nat.zero_add size).le
    refine ⟨_, u, hrun, by simpa using hsize, fun p h1 h2 => ?_⟩
    rw [hget p (by omega), hzero p h1 h2]

/-- After a write past the end that adds no table entry, the gap is read as zeros if and only if no block is
missing below the offset and no old bytes stand behind the end; and `read` returns what the size of a file
promises if and only if there is a block at every position. -/
theorem holesReadZero_iff {s t : FsState} {ino off n : Nat} {data : List UInt8} (hs : s.Sound)
    (hcalm : s.NoFaults) (hi : live s.vol s.home ino = true)
    (hpast : (inodeAt s.vol s.home ino).size.toNat < off) (h32 : off < 2 ^ 32)
    (hent : EntriesExist (inodeAt s.vol s.home ino) (entsAt s.home (inodeAt s.vol s.home ino)) off data.length)
    (hw : (write ino data off).run s = (.ok n, t)) :
    (HolesReadZero s t ino off ↔ NoBlockMissing s ino off data.length ∧ NothingStale s ino off) ∧
      ∀ (u : FsState) (i o len : Nat), u.NoFaults → Known u.vol i →
        (ReadsAll u i o len ↔ Mapped u i o (min len ((inodeAt u.vol u.disk i).size.toNat - o))) := by
  refine ⟨?_, fun u i o len hu hknown => readsAll_iff hu hknown o len⟩
  have hspec := transaction_spec (e := s.env) (D := fun n d' => FileWritten s.vol s.home d' ino data off n ∧
      n = storedBytes off data.length ∧
      ∀ idx, blockAt s.vol d' ino idx ≠ 0 → blockAt s.vol s.home ino idx ≠ 0 ∨ Touched off n idx)
    (writeBody_touches hs.layout (FsState.start hs.head) hs.owned hi hent)
  obtain ⟨d', ⟨hd', hn, honly⟩, hon⟩ := hspec.ok hw
  have ht : t.Sound := hon.sound hs.layout hd'.owned
  have hvol : t.vol = s.vol := hon.vol
  have hlive : live t.vol t.home ino = true := by
    rw [hvol, hon.home, hd'.live]
    exact hi
  have hend : off + n < 2 ^ 32 := by
    unfold storedBytes at hn
    omega
  have hsize : (inodeAt t.vol t.home ino).size.toNat = off + n := by
    rw [hvol, hon.home, hd'.size, sizeAfter_toNat _ hend]
    omega
  rw [holesReadZero_iff_mapped ht (fun k => by rw [hon.fault]; exact hcalm k) hlive (by omega), hsize, hvol, hon.home]
  refine and_congr ⟨fun hall p hp => ?_, fun hno p hp => ?_⟩ (forall_congr' fun p => forall₂_congr fun _ hp => ?_)
  · rcases honly _ (hall p (by omega)) with hold | ⟨q, h1, h2, h3⟩
    · exact .inl hold
    · unfold storedBytes at hn
      exact .inr ⟨by omega, by omega, by omega⟩
  · by_cases hlt : p < off
    · rcases hno p hlt with hold | ⟨hidx, hpos, hcap⟩
      · exact hd'.kept _ hold
      · rw [hidx]
        unfold storedBytes at hn
        exact hd'.mapped off le_rfl (by omega)
    · exact hd'.mapped p (by omega) hp
  · rw [hd'.bytes, spliceAt, if_neg (by omega)]

/-! ## A file of one block or none -/

def tinyInode (size : UInt64) (held : Bool) : Inode :=
  { Inode.zero with
    mode := 0o100644
    size
    nlink := 1
    blocks := fun i => if held ∧ i = 0 then 4 else 0 }

/-- A volume with this file under the inode number 1; `data` is its block, or a free one. -/
def tinyVolume (size : UInt64) (held : Bool) (data : Block) : FsState where
  version := 2
  sb :=
    { magic := onyfsMagic, blockSize := 4096, totalBlocks := 36, inodeCount := 32
      inodeTableStart := 3, dataBitmapStart := 2, dataBlocksStart := 4, journalStart := 40
      journalSize := 0 }
  buf := zero
  head := 0
  jiffies := 0
  disk := fun b =>
    if b = 1 then zero.setBit 0
    else if b = 2 then if held then zero.setBit 0 else zero
    else if b = 3 then zero.blit 0 (tinyInode size held).toBytes
    else if b = 4 then data
    else zero
  ticks := 0
  fault := fun _ => none
  trace := []
  inPlace := []

section

variable {size : UInt64} {held : Bool} {data : Block}

variable (size held data) in
theorem tiny_home_all (b : Nat) : Home (tinyVolume size held data).sb b := by
  rintro - ⟨hge, hlt⟩
  have h0 : (tinyVolume size held data).sb.journalSize.toNat = 0 := rfl
  omega

theorem tiny_home : (tinyVolume size held data).home = (tinyVolume size held data).disk :=
  funext fun b => homeOf_of_home (tiny_home_all size held data b) _

theorem tiny_live (ino : Nat) :
    live (tinyVolume size held data).vol (tinyVolume size held data).home ino = decide (ino = 1) := by
  rw [tiny_home]
  exact live_first rfl rfl ino

theorem tiny_inodeAt :
    inodeAt (tinyVolume size held data).vol (tinyVolume size held data).home 1 = tinyInode size held := by
  rw [tiny_home]
  exact inodeAt_first (x := tinyInode size held) rfl rfl rfl

theorem tiny_used (b : Nat) :
    Used (tinyVolume size held data).vol (tinyVolume size held data).home b ↔ held = true ∧ b = 4 := by
  have hrange : InData (tinyVolume size held data).vol.sb b ↔ 4 ≤ b ∧ b < 36 := Iff.rfl
  have hstart : (tinyVolume size held data).vol.sb.dataBlocksStart.toNat = 4 := rfl
  have hdisk : (tinyVolume size held data).disk 2 = if held then zero.setBit 0 else zero := rfl
  unfold Used
  rw [hrange, tiny_home, hstart]
  show _ ∧ ((tinyVolume size held data).disk 2).getBit (b - 4) = true ↔ _
  rw [hdisk]
  cases held with
  | false => simp [getBit]
  | true =>
    rw [if_pos rfl, getBit_setBit_zero, decide_eq_true_eq]
    simp only [true_and]
    omega

theorem tiny_ref (p : Nat × Slot) (b : Nat) :
    (diskView (tinyVolume size held data).vol (tinyVolume size held data).home).ref p = some b ↔
      p = (1, .direct 0) ∧ held = true ∧ b = 4 := by
  obtain ⟨ino, s⟩ := p
  rw [diskView_ref, tiny_live, decide_eq_true_eq, Prod.mk.injEq, and_assoc]
  refine and_congr_right fun h1 => ?_
  subst h1
  rw [tiny_inodeAt]
  cases s with
  | direct k =>
    simp only [Inode.ptr, tinyInode, Slot.direct.injEq]
    by_cases hk : k = 0
    · cases held <;> simp [hk, eq_comm]
    · simp [hk]
  | table | entry j => simp [Inode.ptr, tinyInode, Inode.zero]

theorem tiny_layout : Layout (tinyVolume size held data).vol := by
  have hend : inodeTableEnd (tinyVolume size held data).vol = 4 := by
    simp [inodeTableEnd, inodesPerBlock, FsState.vol, tinyVolume]
  exact layout_of_small rfl hend rfl rfl rfl fun b _ => tiny_home_all size held data b

theorem tiny_sound : (tinyVolume size held data).Sound := by
  refine ⟨tiny_layout, ⟨⟨fun {p q b} hp hq => ?_, fun b => ?_, fun _ h => h⟩, fun ino hi => ?_⟩,
    fun _ => Nat.zero_le _⟩
  · rw [tiny_ref] at hp hq
    exact hp.1.trans hq.1.symm
  · rw [tiny_used]
    constructor
    · intro hb
      exact .inl ⟨(1, .direct 0), (tiny_ref _ _).mpr ⟨rfl, hb⟩⟩
    · rintro (⟨p, hp⟩ | hno)
      · exact ((tiny_ref p b).mp hp).2
      · exact hno.elim
  · rw [tiny_live, decide_eq_true_eq] at hi
    subst hi
    rw [tiny_inodeAt]
    rfl

end

/-- The first byte of an empty file is written at position 3: the gap is read as zeros. -/
theorem holesReadZero_within_block :
    HolesReadZero (tinyVolume 0 false zero) ((write 1 [7] 3).run (tinyVolume 0 false zero)).2 1 3 := by
  have hok : ((write 1 [7] 3).run (tinyVolume 0 false zero)).1 = .ok 1 := by decide +kernel
  have hsize : (tinyInode 0 false).size.toNat = 0 := rfl
  refine (holesReadZero_iff tiny_sound (fun _ => rfl) (by rw [tiny_live]; rfl)
    (by rw [tiny_inodeAt, hsize]; decide) (by decide)
    (entriesExist_direct _ _ (by decide : 3 + [(7 : UInt8)].length ≤ 40960)) (by rw [← hok])).1.mpr ⟨?_, ?_⟩
  · intro p hp
    exact .inr ⟨by omega, by decide, by decide⟩
  · intro p _ hp
    have hzero : ∀ p < 3, fileAt (tinyVolume 0 false zero).vol (tinyVolume 0 false zero).home 1 p = 0 := by
      decide +kernel
    exact hzero p hp

/-- The first byte of an empty file is written at position 4096. The file has 4097 bytes then, and `read` of
all of it returns none. -/
theorem hole_ends_read :
    (tinyVolume 0 false zero).Sound ∧ (tinyVolume 0 false zero).NoFaults ∧
    live (tinyVolume 0 false zero).vol (tinyVolume 0 false zero).home 1 = true ∧
    (inodeAt (tinyVolume 0 false zero).vol (tinyVolume 0 false zero).home 1).size.toNat = 0 ∧
    ((write 1 [7] 4096).run (tinyVolume 0 false zero)).1 = .ok 1 ∧
    ¬HolesReadZero (tinyVolume 0 false zero) ((write 1 [7] 4096).run (tinyVolume 0 false zero)).2 1 4096 := by
  have hsize : (inodeAt ((write 1 [7] 4096).run (tinyVolume 0 false zero)).2.vol
      ((write 1 [7] 4096).run (tinyVolume 0 false zero)).2.home 1).size.toNat = 4097 := by decide +kernel
  have hread : ((exec (read 1 0 4097)).run ((write 1 [7] 4096).run (tinyVolume 0 false zero)).2).1 =
      .ok [] := by decide +kernel
  refine ⟨tiny_sound, fun _ => rfl, by rw [tiny_live]; rfl, by rw [tiny_inodeAt]; rfl, by decide +kernel, ?_⟩
  rintro ⟨bytes, u, hrun, hlen, -⟩
  rw [hsize] at hrun hlen
  rw [hrun] at hread
  rw [Except.ok.inj hread] at hlen
  cases hlen

end OnyxFs
