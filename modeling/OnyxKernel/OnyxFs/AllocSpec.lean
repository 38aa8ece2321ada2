import OnyxKernel.OnyxFs.OwnershipSteps

/-!
# What the allocators do

One specification for each function of `inode` and `alloc/bitmap`, as a change of the home blocks.
Ownership follows from these with the steps of `OwnershipSteps`; nothing later unfolds an allocator.
-/

namespace OnyxFs

open Infra Onyx

/-! ## The bitmap scan -/

/-- Bit `i` is the lowest clear one, and the scan gets to it. -/
structure LowestClear (b : Block) (limit i : Nat) : Prop where
  lt : i < min limit (4096 * 8)
  clear : b.getBit i = false
  below : ∀ j < i, b.getBit j = true

def AllSet (b : Block) (limit : Nat) : Prop := ∀ j < min limit (4096 * 8), b.getBit j = true

variable {e : Env} {d : Disk Block} {b : Block} {t : FsState} {limit i : Nat}

theorem scanBits_spec {byte : UInt8} {base n bit : Nat} :
    match scanBits byte base limit n bit with
    | some (some k) => ∃ j, bit ≤ j ∧ j < bit + n ∧
        k = base + j ∧ k < limit ∧ byte.toBitVec.getLsbD j = false ∧
      ∀ j, bit ≤ j → base + j < k → byte.toBitVec.getLsbD j = true
    | some none => limit < base + (bit + n) ∧
      ∀ j, bit ≤ j → base + j < limit → byte.toBitVec.getLsbD j = true
    | none => ∀ j, bit ≤ j → j < bit + n → byte.toBitVec.getLsbD j = true := by
  fun_induction scanBits byte base limit n bit <;> grind

theorem getLsbD_ff (j : Nat) (hj : j < 8) : (0xFF : UInt8).toBitVec.getLsbD j = true := by
  have hall : ∀ i ∈ List.range 8, (0xFF : UInt8).toBitVec.getLsbD i = true := by decide
  exact hall j (List.mem_range.mpr hj)

/-- The bits that a scan passes over are set. -/
theorem scanBytes_spec {n : Nat} :
    match scanBytes b limit n i with
    | some k => k < limit ∧ k / 8 < i + n ∧ b.getBit k = false ∧
        ∀ j, i * 8 ≤ j → j < k → b.getBit j = true
    | none => ∀ j, i * 8 ≤ j → j < (i + n) * 8 → j < limit → b.getBit j = true := by
  have hbyte : ∀ i j, i * 8 ≤ j → j < i * 8 + 8 → b.getBit j = (b.get i).toBitVec.getLsbD (j - i * 8) :=
    fun i j h1 h2 => by rw [Bytes.getBit, show j / 8 = i by omega, show j % 8 = j - i * 8 by omega]
  fun_induction scanBytes b limit n i with
  | case1 i => intro j h1 h2 _; omega
  | case2 n i hff ih =>
    have hset : ∀ j, i * 8 ≤ j → j < i * 8 + 8 → b.getBit j = true := fun j h1 h2 => by
      rw [hbyte i j h1 h2, hff]
      exact getLsbD_ff _ (by omega)
    grind
  | case3 n i hff ih =>
    have hb := @scanBits_spec limit (b.get i) (i * 8) 8 0
    cases hs : scanBits (b.get i) (i * 8) limit 8 0 with
    | none => grind
    | some r => cases r with
      | none => grind
      | some k => grind

theorem scanBytes_lowest (h : scanBytes b limit 4096 0 = some i) : LowestClear b limit i := by
  have hspec := @scanBytes_spec b limit 0 4096
  rw [h] at hspec
  obtain ⟨hlt, hbyte, hclear, hbelow⟩ := hspec
  exact ⟨by omega, hclear, fun j hj => hbelow j (by omega) hj⟩

theorem scanBytes_full (h : scanBytes b limit 4096 0 = none) : AllSet b limit := by
  have hspec := @scanBytes_spec b limit 0 4096
  rw [h] at hspec
  exact fun j hj => hspec j (by omega) (by omega) (by omega)

/-! ## Inodes -/

section

variable (hl : Layout e.toVolume) (h : At e d b t)
include hl h

theorem readInode_spec (ino : Nat) :
    Does e (readInode ino) (fun x u => x = inodeAt e.toVolume d ino ∧ On e d u) t := by
  unfold readInode
  split
  · exact .fail h.stopped
  refine (volume_spec h).bind ?_
  rintro v u ⟨rfl, hu⟩
  split
  · exact .fail hu.stopped
  have hhome : Home e.sb (inodeBlock e.toVolume ino) := hl.home_table _ ⟨Nat.le_add_right _ _, by omega⟩
  refine load_getBuf hu hhome fun u hu => ?_
  exact .pure ⟨rfl, hu.on⟩

theorem writeInode_spec {ino : Nat} (hi : InTable e.toVolume (inodeBlock e.toVolume ino)) (x : Inode) :
    Does e (writeInode ino x) (fun _ u => e.version ≠ 1 ∧ On e (setInode e.toVolume d ino x) u) t := by
  refine (volume_spec h).bind ?_
  rintro v u ⟨rfl, hu⟩
  split
  · exact .fail hu.stopped
  rename_i hv
  refine load_getBuf hu (hl.home_table _ hi) fun u hu => ?_
  exact (putBuf_spec hu (hi.target hl) _).mono fun _ u hu => ⟨hv, hu.on⟩

omit hl in
theorem checkV2_spec : Does e checkV2 (fun _ => At e d b) t := by
  refine (volume_spec h).bind ?_
  rintro v u ⟨rfl, hu⟩
  split
  · exact .fail hu.stopped
  · exact .pure hu

/-! ## Data blocks -/

def setUsed (v : Volume) (d : Disk Block) (i : Nat) : Disk Block :=
  Function.update d v.sb.dataBitmapStart.toNat ((d v.sb.dataBitmapStart.toNat).setBit i)

def clearUsed (v : Volume) (d : Disk Block) (i : Nat) : Disk Block :=
  Function.update d v.sb.dataBitmapStart.toNat ((d v.sb.dataBitmapStart.toNat).clearBit i)

/-- `blk` is a free data block of `d`, and `d'` is `d` with its bit set. -/
structure Allocated (v : Volume) (d : Disk Block) (blk : UInt32) (d' : Disk Block) : Prop where
  data : InData v.sb blk.toNat
  inBlock : (blk.toNat - v.sb.dataBlocksStart.toNat) / 8 < 4096
  clear : (d v.sb.dataBitmapStart.toNat).getBit (blk.toNat - v.sb.dataBlocksStart.toNat) = false
  disk : d' = setUsed v d (blk.toNat - v.sb.dataBlocksStart.toNat)

theorem allocDataBlock_spec :
    Does e allocDataBlock (fun blk u => ∃ d', Allocated e.toVolume d blk d' ∧ On e d' u) t := by
  refine (volume_spec h).bind ?_
  rintro v u ⟨rfl, hu⟩
  split
  · exact .fail hu.stopped
  refine load_getBuf hu hl.home_dataBitmap fun u hu => ?_
  split
  · exact .fail hu.stopped
  rename_i i hscan
  obtain ⟨hlt, hclear, -⟩ := scanBytes_lowest hscan
  refine (putBuf_spec hu (target_dataBitmap hl) _).bind fun _ u hu => .pure ?_
  -- The block number fits, so storing it as a `u32` loses nothing.
  have hdata : InData e.sb (e.sb.dataBlocksStart.toNat + i) := ⟨by omega, by omega⟩
  have hnat : (UInt32.ofNat (e.sb.dataBlocksStart.toNat + i)).toNat =
      e.sb.dataBlocksStart.toNat + i := UInt32.toNat_ofNat_of_lt' (InData.lt (v := e.toVolume) hdata)
  have hidx : e.sb.dataBlocksStart.toNat + i - e.sb.dataBlocksStart.toNat = i := by omega
  refine ⟨_, ⟨?_, ?_, ?_, rfl⟩, ?_⟩
  · rw [hnat]
    exact hdata
  · rw [hnat, hidx]
    omega
  · rw [hnat, hidx]
    exact hclear
  · rw [hnat, hidx]
    exact hu.on

theorem freeDataBlock_spec (blk : UInt32) : Does e (freeDataBlock blk)
      (fun _ => On e (clearUsed e.toVolume d (blk.toNat - e.sb.dataBlocksStart.toNat))) t := by
  refine (volume_spec h).bind ?_
  rintro v u ⟨rfl, hu⟩
  split
  · exact .fail hu.stopped
  split
  · exact .fail hu.stopped
  refine load_getBuf hu hl.home_dataBitmap fun u hu => ?_
  exact (putBuf_spec hu (target_dataBitmap hl) _).mono fun _ _ hu => hu.on

theorem allocZeroBlock_spec : Does e allocZeroBlock
      (fun blk u => ∃ d', Allocated e.toVolume d blk d' ∧
        On e (Function.update d' blk.toNat Bytes.zero) u) t := by
  refine (allocDataBlock_spec hl h).bind ?_
  rintro blk u ⟨d', hblk, b', hu⟩
  refine (putBuf_spec hu (hblk.data.target hl) _).bind fun _ u hu => .pure ?_
  exact ⟨d', hblk, hu.on⟩

/-! ## Inode numbers -/

theorem allocInode_spec : Does e allocInode
      (fun ino u => ∃ i, ino = i + 1 ∧ i < e.sb.inodeCount.toNat ∧ i / 8 < 4096 ∧
        (d inodeBitmapBlk).getBit i = false ∧
        On e (Function.update d inodeBitmapBlk ((d inodeBitmapBlk).setBit i)) u) t := by
  refine (volume_spec h).bind ?_
  rintro v u ⟨rfl, hu⟩
  split
  · exact .fail hu.stopped
  refine load_getBuf hu hl.home_inodeBitmap fun u hu => ?_
  split
  · exact .fail hu.stopped
  rename_i i hscan
  obtain ⟨hlt, hclear, -⟩ := scanBytes_lowest hscan
  refine (putBuf_spec hu (target_inodeBitmap hl) _).bind fun _ u hu => .pure ?_
  exact ⟨i, rfl, by omega, by omega, hclear, hu.on⟩

end

end OnyxFs
