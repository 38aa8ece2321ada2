import OnyxKernel.OnyxFs.FileBlind
import OnyxKernel.OnyxFs.WriteSpec

/-!
# Reading what was written

`read` on a device without errors, and the read-after-write property of `write`.
-/

namespace OnyxFs

open Infra Onyx StateProg Bytes

/-! ## `read` -/

section

open List

variable {d : Disk Block} {x : Inode} {s : FsState}

/-- `n` bytes of a file from a position on. -/
def bytesFrom (d : Disk Block) (x : Inode) (off n : Nat) : List UInt8 :=
  (range n).map fun i => fileByte d x (entsAt d x) (off + i)

/-- What `read` copies: the bytes up to the first position without a block. -/
def copied (d : Disk Block) (x : Inode) : (fuel off n : Nat) → List UInt8
  | 0, _, _ => []
  | fuel + 1, off, n =>
    if n = 0 then []
    else if blockPtr x (entsAt d x) (off / 4096) = 0 then []
    else
      let chunk := min (4096 - off % 4096) n
      bytesFrom d x off chunk ++ copied d x fuel (off + chunk) (n - chunk)

@[simp]
theorem length_bytesFrom (off n : Nat) : (bytesFrom d x off n).length = n := by
  simp [bytesFrom]

theorem bytesFrom_add (off n m : Nat) :
    bytesFrom d x off (n + m) = bytesFrom d x off n ++ bytesFrom d x (off + n) m := by
  simp only [bytesFrom, range_add, map_append, map_map, Function.comp_def, Nat.add_assoc]

/-- The range is copied up to the first position without a block. -/
theorem copied_eq_bytesFrom : ∀ fuel off n, n ≤ fuel → ∃ k ≤ n,
    copied d x fuel off n = bytesFrom d x off k ∧ (∀ i < k, blockPtr x (entsAt d x) ((off + i) / 4096) ≠ 0) ∧
      (k < n → blockPtr x (entsAt d x) ((off + k) / 4096) = 0)
  | 0, off, n, hn => ⟨0, Nat.zero_le n, by simp [copied, bytesFrom], nofun, by omega⟩
  | fuel + 1, off, n, hn => by
    unfold copied
    split_ifs with h0 hhole
    · exact ⟨0, Nat.zero_le n, by simp [bytesFrom], nofun, by omega⟩
    · exact ⟨0, Nat.zero_le n, by simp [bytesFrom], nofun, fun _ => hhole⟩
    · set chunk := min (4096 - off % 4096) n with hchunk
      obtain ⟨k, hk, heq, hall, hstop⟩ := copied_eq_bytesFrom fuel (off + chunk) (n - chunk) (by omega)
      refine ⟨chunk + k, by omega, by simp only [heq, bytesFrom_add], fun i hi => ?_, fun hlt => ?_⟩
      · by_cases hin : i < chunk
        · have hdiv : (off + i) / 4096 = off / 4096 := by omega
          rwa [hdiv]
        · have hi' := hall (i - chunk) (by omega)
          rwa [Nat.add_assoc, Nat.add_sub_cancel' (Nat.le_of_not_lt hin)] at hi'
      · rw [← Nat.add_assoc]
        exact hstop (by omega)

theorem length_copied_le (off n : Nat) : (copied d x n off n).length ≤ n := by
  obtain ⟨k, hk, heq, -⟩ := copied_eq_bytesFrom (d := d) (x := x) n off n le_rfl
  rwa [heq, length_bytesFrom]

theorem length_copied_iff (off n : Nat) :
    (copied d x n off n).length = n ↔ ∀ i < n, blockPtr x (entsAt d x) ((off + i) / 4096) ≠ 0 := by
  obtain ⟨k, hk, heq, hall, hstop⟩ := copied_eq_bytesFrom (d := d) (x := x) n off n le_rfl
  rw [heq, length_bytesFrom]
  constructor
  · rintro rfl
    exact hall
  · exact fun h => hk.eq_of_not_lt fun hlt => h k hlt (hstop hlt)

theorem copied_eq_iff (off n : Nat) : copied d x n off n = bytesFrom d x off n ↔
    ∀ i < n, blockPtr x (entsAt d x) ((off + i) / 4096) ≠ 0 := by
  obtain ⟨k, -, heq, -⟩ := copied_eq_bytesFrom (d := d) (x := x) n off n le_rfl
  rw [← length_copied_iff, heq, length_bytesFrom]
  refine ⟨fun h => by simpa using congrArg length h, fun h => by rw [h]⟩

section

variable (hs : s.NoFaults)
include hs

theorem Gives.fetch {α : Type} {f : Block → FsProg α} {r : Except Errno α} {blk : Nat}
    (h : Gives s (f (s.disk blk)) r) : Gives s (fetch blk >>= f) r := by
  intro t ht
  have hrun : (readLocal blk).run t = (.ok (s.disk blk), { t with ticks := t.ticks + 1 }) := by
    simp only [readLocal, ht.fault, hs t.ticks, ht.disk]
  rw [exec_bind, exec_fetch, StateProg.wp_bind]
  refine StateProg.wp_of_run_ok hrun ?_
  exact h _ { ht with }

theorem readTarget_gives (idx : Nat) : ∃ target, Gives s (readTarget x idx) (.ok target) ∧
      target.getD 0 = blockPtr x (entsAt s.disk x) idx := by
  unfold readTarget
  split_ifs with h10 hno
  · exact ⟨_, Gives.pure _, (blockPtr_direct x _ h10).symm⟩
  · refine ⟨_, Gives.pure _, ?_⟩
    by_cases hidx : idx < 1034
    · rw [blockPtr_entry x _ h10 hidx, if_pos (hno.resolve_right (by omega))]
      rfl
    · simp [blockPtr, hidx]
  · rw [not_or] at hno
    refine ⟨_, Gives.fetch hs (Gives.pure _), ?_⟩
    rw [blockPtr_entry x _ h10 (by omega), if_neg hno.1]
    rfl

theorem readLoop_gives : ∀ fuel off n acc, Gives s
    (readLoop x fuel off n acc) (.ok (acc ++ copied s.disk x fuel off n))
  | 0, off, n, acc => by
    simpa [readLoop, copied] using Gives.pure (s := s) acc
  | fuel + 1, off, n, acc => by
    unfold readLoop copied
    by_cases h0 : n = 0
    · rw [if_pos h0, if_pos h0, append_nil]
      exact Gives.pure acc
    · rw [if_neg h0, if_neg h0]
      obtain ⟨target, htarget, hblk⟩ := readTarget_gives hs (x := x) (off / 4096)
      refine htarget.next ?_
      rw [← hblk]
      cases target with
      | none =>
        simpa using Gives.pure (s := s) acc
      | some blk =>
        by_cases hb : blk = 0
        · simpa [hb] using Gives.pure (s := s) acc
        · simp only [Option.getD_some, if_neg hb]
          refine Gives.load hs ?_
          have hnext := readLoop_gives fuel (off + min (4096 - off % 4096) n) (n - min (4096 - off % 4096) n)
            (acc ++ (range (min (4096 - off % 4096) n)).map fun i =>
              (s.disk blk.toNat).get (off % 4096 + i))
          have hbytes : bytesFrom s.disk x off (min (4096 - off % 4096) n) =
              (range (min (4096 - off % 4096) n)).map fun i =>
                (s.disk blk.toNat).get (off % 4096 + i) := by
            refine map_congr_left fun i hi => ?_
            have hlt : i < min (4096 - off % 4096) n := mem_range.mp hi
            have hdiv : (off + i) / 4096 = off / 4096 := by omega
            have hmod : (off + i) % 4096 = off % 4096 + i := by omega
            rw [fileByte, fileBlock, hdiv, hmod, ← hblk, Option.getD_some, if_neg hb]
          rw [← hbytes, append_assoc] at hnext
          rw [← hbytes]
          exact hnext

theorem read_gives {ino : Nat} (hino : Known s.vol ino) (off len : Nat) :
    let x := inodeAt s.vol s.disk ino
    let n := min len (min x.size.toNat (2 ^ 32 - 1) - off)
    Gives s (read ino off len) (.ok (copied s.disk x n off n)) := by
  have hnode := readInode_gives hs ino
  rw [readInodeAt, if_pos hino] at hnode
  exact hnode.next (readLoop_gives hs _ _ _ [])

end

end

/-! ## How much `read` returns -/

/-- `read` returns all the bytes that the size of the file promises. -/
def ReadsAll (s : FsState) (ino off len : Nat) : Prop :=
  ∃ bytes u, (exec (read ino off len)).run s = (.ok bytes, u) ∧
    min len ((inodeAt s.vol s.disk ino).size.toNat - off) ≤ bytes.length

def Mapped (s : FsState) (ino off n : Nat) : Prop :=
  ∀ p, off ≤ p → p < off + n → blockAt s.vol s.disk ino (p / 4096) ≠ 0

variable {s : FsState}

theorem Mapped.end_le {ino off n : Nat} (h : Mapped s ino off n) (hn : 0 < n) : off + n ≤ 1034 * 4096 := by
  have := lt_of_blockPtr (h (off + n - 1) (by omega) (by omega))
  omega

theorem readsAll_iff (hcalm : s.NoFaults) {ino : Nat} (hino : Known s.vol ino) (off len : Nat) :
    ReadsAll s ino off len ↔ Mapped s ino off (min len ((inodeAt s.vol s.disk ino).size.toNat - off)) := by
  obtain ⟨u, hrun, -⟩ := (read_gives hcalm hino off len).run_still (.refl s)
  set x := inodeAt s.vol s.disk ino with hx
  set n := min len (x.size.toNat - off) with hn
  set m := min len (min x.size.toNat (2 ^ 32 - 1) - off) with hm
  have hread : ReadsAll s ino off len ↔ n ≤ (copied s.disk x m off m).length := by
    constructor
    · rintro ⟨bytes, u', hrun', hle⟩
      obtain ⟨hbytes, -⟩ := Prod.mk.inj (hrun'.symm.trans hrun)
      rwa [Except.ok.inj hbytes] at hle
    · intro hle
      exact ⟨_, u, hrun, hle⟩
  have hle := length_copied_le (d := s.disk) (x := x) off m
  rw [hread]
  constructor
  · intro hfull
    have hmn : m = n := by omega
    rw [hmn] at hle hfull
    have hall := (length_copied_iff off n).mp (Nat.le_antisymm hle hfull)
    intro p h1 h2
    have hp := hall (p - off) (by omega)
    rwa [Nat.add_sub_cancel' h1] at hp
  · intro hmap
    -- the cut at `u32::MAX` is past the last block index
    have hmn : m = n := by
      rcases Nat.eq_zero_or_pos n with h0 | hpos
      · omega
      · have := hmap.end_le hpos
        omega
    rw [hmn, (length_copied_iff off n).mpr fun i hi => hmap (off + i) (by omega) (by omega)]

variable {e : Env} {d : Disk Block} {b : Block} {t : FsState} {ino : Nat}

def Dense (v : Volume) (d : Disk Block) (ino : Nat) : Prop :=
  ∀ p, p < (inodeAt v d ino).size.toNat → blockAt v d ino (p / 4096) ≠ 0

theorem Dense.size_le {v : Volume} (h : Dense v d ino) : (inodeAt v d ino).size.toNat ≤ 1034 * 4096 := by
  by_contra hc
  have := lt_of_blockPtr (h (1034 * 4096) (by omega))
  omega

/-! ## Read after write -/

/-- A state between operations that is in order. -/
structure FsState.Sound (s : FsState) : Prop where
  layout : Layout s.vol
  owned : BlocksOwned s.vol s.home
  head : s.sb.hasJournal = true → s.head ≤ s.sb.journalSize.toNat

theorem On.sound (h : On e d t) (hl : Layout e.toVolume) (hb : BlocksOwned e.toVolume d) :
    t.Sound := by
  refine ⟨?_, ?_, h.head⟩
  · rw [h.vol]
    exact hl
  · rw [h.vol, h.home]
    exact hb

/-! ## The device and its home blocks -/

theorem FsState.home_eq {s : FsState} {b : Nat} (h : Home s.sb b) : s.home b = s.disk b := homeOf_of_home h _

section

variable {s : FsState} {ino : Nat} (hs : s.Sound) (hi : live s.vol s.home ino = true)
include hs hi

theorem FsState.Sound.inodeAt_disk : inodeAt s.vol s.disk ino = inodeAt s.vol s.home ino := by
  have hbounds := live_bounds hi
  have hhome := hs.layout.home_table _ (inTable_inodeBlock hbounds.1 hbounds.2)
  unfold inodeAt
  rw [FsState.home_eq hhome]

theorem FsState.Sound.blockAt_disk (idx : Nat) : blockAt s.vol s.disk ino idx = blockAt s.vol s.home ino idx := by
  unfold blockAt
  rw [hs.inodeAt_disk hi]
  by_cases h10 : idx < 10
  · rw [blockPtr_direct _ _ h10, blockPtr_direct _ _ h10]
  by_cases hidx : idx < 1034
  · rw [blockPtr_entry _ _ h10 hidx, blockPtr_entry _ _ h10 hidx]
    split_ifs with h0
    · rfl
    · have hf := hs.owned.flight
      have hhome := hs.layout.home_data _ (hf.inData_of_ref (hf.ref_table hi h0))
      exact congrArg (fun b => indEntry b _) (FsState.home_eq hhome).symm
  · unfold blockPtr
    rw [dif_neg hidx, dif_neg hidx]

theorem FsState.Sound.fileAt_disk : fileAt s.vol s.disk ino = fileAt s.vol s.home ino := by
  refine fileByte_congr (hs.blockAt_disk hi) fun idx h0 => ?_
  have hf := hs.owned.flight
  have hhome := hs.layout.home_data _ (hf.inData_of_ref (hf.ref_block hi (Inode.SamePtrs.refl _) rfl h0))
  exact (FsState.home_eq hhome).symm

theorem read_sound (hcalm : s.NoFaults) (hd : Dense s.vol s.home ino) {off n : Nat}
    (hn : off + n ≤ (inodeAt s.vol s.home ino).size.toNat) : ∃ u, (exec (read ino off n)).run s =
      (.ok ((List.range n).map fun i => fileAt s.vol s.home ino (off + i)), u) := by
  have hrun := (read_gives hcalm (known_of_live hi) off n).run
  have hx := hs.inodeAt_disk hi
  have hcap := hd.size_le
  have hmin : min n (min (inodeAt s.vol s.home ino).size.toNat (2 ^ 32 - 1) - off) = n := by omega
  have hall : ∀ i < n, blockPtr (inodeAt s.vol s.home ino) (entsAt s.disk (inodeAt s.vol s.home ino))
      ((off + i) / 4096) ≠ 0 := fun i hi' => by
    have hblock := hd (off + i) (by omega)
    rwa [← hs.blockAt_disk hi, blockAt, hx] at hblock
  rw [hx, hmin, (copied_eq_iff off n).mpr hall] at hrun
  refine ⟨_, Prod.ext (hrun.trans ?_) rfl⟩
  rw [← hs.fileAt_disk hi, bytesFrom, fileAt, hx]

end

theorem sizeAfter_toNat (size : UInt64) {stop : Nat} (h : stop < 2 ^ 32) :
    (sizeAfter size stop).toNat = max size.toNat stop := by
  unfold sizeAfter
  rw [Nat.mod_eq_of_lt h]
  split
  · rw [UInt64.toNat_ofNat_of_lt' (by simp only [UInt64.size]; omega)]
    omega
  · omega

/-! ## A volume with one file

The file has the inode number 1 and eleven blocks: the ten direct ones at 4 to 13, the table at 14
and its first entry at 15. The journal, if there is one, starts at block 40. -/

def sampleInode : Inode :=
  { Inode.zero with
    mode := 0o100644
    size := 11 * 4096
    nlink := 1
    blocks := fun i => 4 + UInt32.ofNat i.1
    indirect := 14 }

def sampleVolume (journalSize : UInt32) : FsState where
  version := 2
  sb :=
    { magic := onyfsMagic, blockSize := 4096, totalBlocks := 36, inodeCount := 32
      inodeTableStart := 3, dataBitmapStart := 2, dataBlocksStart := 4, journalStart := 40
      journalSize := journalSize }
  buf := zero
  head := 0
  jiffies := 0
  disk := fun b =>
    if b = 1 then zero.setBit 0
    else if b = 2 then (zero.set 0 0xFF).set 1 0x0F
    else if b = 3 then zero.blit 0 sampleInode.toBytes
    else if b = 14 then setIndEntry zero 0 15
    else if b = 15 then zero.set 0 1
    else zero
  ticks := 0
  fault := fun _ => none
  trace := []
  inPlace := []

section

variable {J : UInt32}

theorem sample_home_of_lt {b : Nat} (h : b < 40) : Home (sampleVolume J).sb b := by
  rintro - ⟨hin, -⟩
  have : (sampleVolume J).sb.journalStart.toNat = 40 := rfl
  omega

theorem sample_home : (sampleVolume J).home = (sampleVolume J).disk := by
  funext b
  by_cases hb : b < 40
  · exact homeOf_of_home (sample_home_of_lt hb) _
  · have hzero : (sampleVolume J).disk b = zero := by
      simp only [sampleVolume]
      iterate 5 rw [if_neg (by omega)]
    unfold FsState.home homeOf
    rw [hzero, ite_self]

theorem sample_live (ino : Nat) : live (sampleVolume J).vol (sampleVolume J).home ino = decide (ino = 1) := by
  rw [sample_home]
  exact live_first rfl rfl ino

theorem sample_inodeAt : inodeAt (sampleVolume J).vol (sampleVolume J).home 1 = sampleInode := by
  rw [sample_home]
  exact inodeAt_first (x := sampleInode) rfl rfl rfl

theorem sample_entsAt (j : Nat) : entsAt (sampleVolume J).home sampleInode j = if j = 0 then 15 else 0 := by
  rw [sample_home]
  show indEntry (setIndEntry zero 0 15) j = _
  rw [indEntry_setIndEntry _ (by omega), indEntry_zero]

theorem sample_used (b : Nat) : Used (sampleVolume J).vol (sampleVolume J).home b ↔ 4 ≤ b ∧ b < 16 := by
  have hbit : ∀ k, ((sampleVolume J).disk 2).getBit k = decide (k < 12) := by
    intro k
    show ((zero.set 0 0xFF).set 1 0x0F : Block).getBit k = _
    by_cases hk : k < 16
    · have hall : ∀ k < 16, ((zero.set 0 0xFF).set 1 0x0F : Block).getBit k =
          decide (k < 12) := by decide +kernel
      exact hall k hk
    · have h0 : k / 8 ≠ 0 := by omega
      have h1 : k / 8 ≠ 1 := by omega
      rw [getBit, get_set_ne _ _ h1, get_set_ne _ _ h0]
      simp
      omega
  have hrange : InData (sampleVolume J).vol.sb b ↔ 4 ≤ b ∧ b < 36 := Iff.rfl
  unfold Used
  rw [hrange, sample_home]
  show _ ∧ ((sampleVolume J).disk 2).getBit (b - 4) = true ↔ _
  rw [hbit, decide_eq_true_eq]
  omega

def sampleRef : Slot → Nat → Prop
  | .direct k, b => b = 4 + k.1
  | .table, b => b = 14
  | .entry j, b => j.1 = 0 ∧ b = 15

theorem sample_ref (p : Nat × Slot) (b : Nat) :
    (diskView (sampleVolume J).vol (sampleVolume J).home).ref p = some b ↔
      p.1 = 1 ∧ sampleRef p.2 b := by
  obtain ⟨ino, s⟩ := p
  rw [diskView_ref, sample_live, decide_eq_true_eq]
  refine and_congr_right fun h1 => ?_
  subst h1
  rw [sample_inodeAt]
  cases s with
  | direct k =>
    have hall : ∀ k : Fin 10, sampleInode.blocks k ≠ 0 ∧ (sampleInode.blocks k).toNat = 4 + k.1 := by
      decide
    rw [Inode.ptr, (hall k).2]
    exact ⟨fun h => h.2.symm, fun h => ⟨(hall k).1, h.symm⟩⟩
  | table =>
    have h14 : sampleInode.indirect ≠ 0 := by decide
    exact ⟨fun h => h.2.symm, fun h => ⟨h14, h.symm⟩⟩
  | entry j =>
    have h14 : sampleInode.indirect ≠ 0 := by decide
    rw [Inode.ptr, if_neg h14, sample_entsAt]
    by_cases hj : j.1 = 0
    · rw [if_pos hj]
      exact ⟨fun h => ⟨hj, h.2.symm⟩, fun h => ⟨by decide, h.2.symm⟩⟩
    · rw [if_neg hj]
      exact ⟨fun h => absurd rfl h.1, fun h => absurd h.1 hj⟩

theorem sample_layout : Layout (sampleVolume J).vol := by
  have hend : inodeTableEnd (sampleVolume J).vol = 4 := by
    simp [inodeTableEnd, inodesPerBlock, FsState.vol, sampleVolume]
  exact layout_of_small rfl hend rfl rfl rfl fun _ => sample_home_of_lt

theorem sample_owned : BlocksOwned (sampleVolume J).vol (sampleVolume J).home := by
  refine ⟨⟨fun {p q b} hp hq => ?_, fun b => ?_, fun _ h => h⟩, fun ino hi => ?_⟩
  · rw [sample_ref] at hp hq
    obtain ⟨i, s⟩ := p
    obtain ⟨j, s'⟩ := q
    obtain ⟨rfl, hs⟩ : i = 1 ∧ sampleRef s b := hp
    obtain ⟨rfl, hs'⟩ : j = 1 ∧ sampleRef s' b := hq
    cases s <;> cases s' <;> simp only [sampleRef] at hs hs' <;>
      simp only [Prod.mk.injEq, true_and, reduceCtorEq, Slot.direct.injEq, Slot.entry.injEq, Fin.ext_iff] <;> omega
  · rw [sample_used]
    constructor
    · intro hb
      refine .inl ?_
      by_cases h14 : b < 14
      · exact ⟨(1, .direct ⟨b - 4, by omega⟩), (sample_ref _ _).mpr
          ⟨rfl, by simp only [sampleRef]; omega⟩⟩
      · by_cases h15 : b = 14
        · exact ⟨(1, .table), (sample_ref _ _).mpr ⟨rfl, h15⟩⟩
        · exact ⟨(1, .entry ⟨0, by omega⟩), (sample_ref _ _).mpr ⟨rfl, rfl, by omega⟩⟩
    · rintro (⟨⟨i, s⟩, hp⟩ | hno)
      · obtain ⟨-, hs⟩ := (sample_ref _ _).mp hp
        cases s <;> simp only [sampleRef] at hs <;> omega
      · exact hno.elim
  · rw [sample_live, decide_eq_true_eq] at hi
    subst hi
    rw [sample_inodeAt]
    rfl

theorem sample_sound : (sampleVolume J).Sound := ⟨sample_layout, sample_owned, fun _ => Nat.zero_le _⟩

theorem sample_dense : Dense (sampleVolume J).vol (sampleVolume J).home 1 := by
  intro p hp
  have hsize : sampleInode.size.toNat = 11 * 4096 := rfl
  rw [sample_inodeAt, hsize] at hp
  rw [blockAt, sample_inodeAt]
  by_cases h10 : p / 4096 < 10
  · have hall : ∀ k : Fin 10, sampleInode.blocks k ≠ 0 := by decide
    rw [blockPtr_direct _ _ h10]
    exact hall _
  · have h14 : sampleInode.indirect ≠ 0 := by decide
    rw [blockPtr_entry _ _ h10 (by omega), if_neg h14, sample_entsAt, if_pos (by omega)]
    decide

end

/-- Every range inside the size after the write is read as the old bytes with `data` over them. -/
def ReadsBack (s t : FsState) (ino off : Nat) (data : List UInt8) : Prop :=
  ∀ o n, o + n ≤ (inodeAt t.vol t.home ino).size.toNat → ∃ u, (exec (read ino o n)).run t =
    (.ok ((List.range n).map fun i =>
      spliceAt (fileAt s.vol s.home ino) off data.length (fun k => data.getD k 0) (o + i)), u)

/-- At every position of the file there is a block, or the write stores into that block. -/
def NoHoleLeft (s : FsState) (ino off len : Nat) : Prop :=
  ∀ p < (inodeAt s.vol s.home ino).size.toNat,
    blockAt s.vol s.home ino (p / 4096) ≠ 0 ∨ Touched off len (p / 4096)

/-- The size after a write of `data` at `off` that adds no table entry, and that every range is read back
if and only if the write leaves no hole. -/
theorem write_then_read_iff {s t : FsState} {ino off : Nat} {data : List UInt8} (hs : s.Sound)
    (hcalm : s.NoFaults) (hi : live s.vol s.home ino = true)
    (hoff : off ≤ (inodeAt s.vol s.home ino).size.toNat)
    (hcap : off + data.length ≤ 1034 * 4096)
    (hent : EntriesExist (inodeAt s.vol s.home ino) (entsAt s.home (inodeAt s.vol s.home ino)) off data.length)
    (hw : (write ino data off).run s = (.ok data.length, t)) :
    (inodeAt t.vol t.home ino).size.toNat = max (inodeAt s.vol s.home ino).size.toNat (off + data.length) ∧
      (ReadsBack s t ino off data ↔ NoHoleLeft s ino off data.length) := by
  have hspec := transaction_spec (e := s.env) (D := fun n d' => FileWritten s.vol s.home d' ino data off n ∧
      n = storedBytes off data.length ∧
      ∀ idx, blockAt s.vol d' ino idx ≠ 0 → blockAt s.vol s.home ino idx ≠ 0 ∨ Touched off n idx)
    (writeBody_touches hs.layout (FsState.start hs.head) hs.owned hi hent)
  obtain ⟨d', ⟨hd', -, honly⟩, hon⟩ := hspec.ok hw
  have ht : t.Sound := hon.sound hs.layout hd'.owned
  have hvol : t.vol = s.vol := hon.vol
  have hquiet : t.NoFaults := fun k => by
    rw [hon.fault]
    exact hcalm k
  have hlive : live t.vol t.home ino = true := by
    rw [hvol, hon.home, hd'.live]
    exact hi
  have hsize : (inodeAt t.vol t.home ino).size.toNat =
      max (inodeAt s.vol s.home ino).size.toNat (off + data.length) := by
    rw [hvol, hon.home, hd'.size, sizeAfter_toNat _ (by omega)]
  refine ⟨hsize, fun hback p hp => ?_, fun hno o n hn => ?_⟩
  · -- Reading the whole file back, `read` meets no position without a block.
    obtain ⟨u, hu⟩ := hback 0 _ (Nat.zero_add _).le
    have hall := (readsAll_iff hquiet (known_of_live hlive) 0 _).mp
      ⟨_, u, hu, by rw [List.length_map, List.length_range]; exact min_le_left _ _⟩
    rw [ht.inodeAt_disk hlive, Nat.sub_zero, Nat.min_self] at hall
    have hblock := hall p (Nat.zero_le p) (by omega)
    rw [ht.blockAt_disk hlive, hvol, hon.home] at hblock
    exact honly _ hblock
  · -- The blocks below the old size are still there, and `write` allocated the others.
    have hdense : Dense t.vol t.home ino := by
      intro p hp
      rw [hsize] at hp
      rw [hvol, hon.home]
      by_cases hnew : off ≤ p ∧ p < off + data.length
      · exact hd'.mapped p hnew.1 hnew.2
      rcases hno p (by omega) with hold | ⟨q, h1, h2, h3⟩
      · exact hd'.kept _ hold
      · rw [← h3]
        exact hd'.mapped q h1 h2
    have hread := read_sound ht hlive hquiet hdense hn
    rwa [hvol, hon.home, hd'.bytes] at hread

/-- A byte in the middle of the file: positions before and after it are as they were. -/
theorem write_then_read_iff_sampleVolume :
    ∃ u, (exec (read 1 2 3)).run ((write 1 [7] 3).run (sampleVolume 0)).2 = (.ok [0, 7, 0], u) := by
  have hsize : (inodeAt (sampleVolume 0).vol (sampleVolume 0).home 1).size.toNat = 11 * 4096 := by
    rw [sample_inodeAt]
    rfl
  have hok : ((write 1 [7] 3).run (sampleVolume 0)).1 = .ok [(7 : UInt8)].length := by
    decide +kernel
  have hi : live (sampleVolume 0).vol (sampleVolume 0).home 1 = true := by
    rw [sample_live]
    rfl
  have hread := write_then_read_iff (s := sampleVolume 0) (t := ((write 1 [7] 3).run (sampleVolume 0)).2)
    sample_sound (fun _ => rfl) hi (by omega) (by decide)
    (entriesExist_direct _ _ (by decide : 3 + [(7 : UInt8)].length ≤ 40960)) (by rw [← hok])
  obtain ⟨u, hu⟩ := hread.2.mpr (fun p hp => .inl (sample_dense p hp)) 2 3 (by rw [hread.1, hsize]; decide)
  refine ⟨u, hu.trans ?_⟩
  have hold : ∀ i < 5, fileAt (sampleVolume 0).vol (sampleVolume 0).home 1 i = 0 := by
    decide +kernel
  simp [spliceAt, hold, List.range_succ]

/-- Writing one byte right behind the file loses the block before it: the new table entry is stored
into a copy of the data bitmap, and that becomes the table. -/
theorem write_then_read_loses_block :
    (sampleVolume 0).Sound ∧ (sampleVolume 0).NoFaults ∧
    live (sampleVolume 0).vol (sampleVolume 0).home 1 = true ∧
    Dense (sampleVolume 0).vol (sampleVolume 0).home 1 ∧
    (inodeAt (sampleVolume 0).vol (sampleVolume 0).home 1).size.toNat = 11 * 4096 ∧
    ((write 1 [7] (11 * 4096)).run (sampleVolume 0)).1 = .ok 1 ∧
    fileAt (sampleVolume 0).vol (sampleVolume 0).home 1 (10 * 4096) = 1 ∧
    ((exec (read 1 (10 * 4096) 1)).run
      ((write 1 [7] (11 * 4096)).run (sampleVolume 0)).2).1 = .ok [0] := by
  refine ⟨sample_sound, fun _ => rfl, by rw [sample_live]; rfl, sample_dense, ?_, ?_, ?_, ?_⟩
  · rw [sample_inodeAt]
    rfl
  · decide +kernel
  · decide +kernel
  · decide +kernel

end OnyxFs
