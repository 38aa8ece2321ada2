import OnyxKernel.OnyxFs.Ops

/-!
# Directory listings and growth

`readdir_entry`, and the size that `mount` gives a volume.
-/

namespace OnyxFs

open Infra Onyx

/-! ## `readdir_entry` -/

/-- The loop of `readdir_entry` from entry `idx` on; `last` is the block index that the scratch block holds. -/
def readdirLoop (version : Nat) (x : Inode) : (fuel idx : Nat) → (last : Option Nat) →
    FsProg (Option Dirent)
  | 0, _, _ => pure none
  | fuel + 1, idx, last =>
    let blockIdx := idx / direntsPerBlock version
    if h : blockIdx < 10 then
      if x.blocks ⟨blockIdx, h⟩ = 0 then pure none
      else do
        .onlyIf (last ≠ some blockIdx) (load (x.blocks ⟨blockIdx, h⟩).toNat)
        let b ← getBuf
        let d := parseDirent version b (idx % direntsPerBlock version)
        if d.inode = 0 then readdirLoop version x fuel (idx + 1) (some blockIdx)
        else pure (some d)
    else pure none

/-- `readdir_entry`: the inode number and the bytes put into a buffer of `nameLen` bytes, before the NUL. -/
def readdirEntry (dirIno idx nameLen : Nat) : FsProg (Option (Nat × List UInt8)) := do
  let x ← readInode dirIno
  if fileType x.mode ≠ fileType dtDir then .fail .notDir
  else do
    let v ← volume
    let found ← readdirLoop v.version x (direntsPerBlock v.version * 10 - idx) idx none
    pure (found.map fun d => (d.inode.toNat, (List.range (min d.len (nameLen - 1))).map d.name.get))

/-! ## The size of a volume -/

/-- `onyxfs_growth_limit`. -/
def growthLimit (dataBlocksStart : UInt32) : Nat := min (dataBlocksStart.toNat + 32768) 262144

/-- `onyxfs_growth_target`. -/
def growthTarget (total dataBlocksStart : UInt32) (deviceBlocks : Nat) : Option UInt32 :=
  if deviceBlocks ≤ total.toNat then none
  else
    let size := min deviceBlocks (growthLimit dataBlocksStart)
    if total.toNat < size then some (UInt32.ofNat size) else none

/-- `grow_to_device`, as far as `G_SB` is concerned. The device has `sectors` sectors, whatever part of it the
volume was given. -/
def growToDevice (sb : Super) (sectors : Nat) : Super :=
  match growthTarget sb.totalBlocks sb.dataBlocksStart (sectors / 8) with
  | none => sb
  | some total => { sb with totalBlocks := total }

/-- What `mount` makes of block 0: `G_VERSION` and `G_SB`. -/
def mountSuper (b : Block) (sectors : Nat) : Option (Nat × Super) :=
  match Super.fromBytes b with
  | none => none
  | some sb =>
    if sb.blockSize ≠ 4096 then none
    else some (if sb.magic = onyfsMagic then 2 else 1, growToDevice sb sectors)

theorem growToDevice_total (sb : Super) (sectors : Nat) :
    (growToDevice sb sectors).totalBlocks.toNat =
      max sb.totalBlocks.toNat (min (sectors / 8) (growthLimit sb.dataBlocksStart)) := by
  have hlimit : growthLimit sb.dataBlocksStart ≤ 262144 := Nat.min_le_right _ _
  simp only [growToDevice, growthTarget]
  split_ifs <;> simp only [UInt32.toNat_ofNat'] <;> omega

@[simp]
theorem growToDevice_dataBlocksStart (sb : Super) (sectors : Nat) :
    (growToDevice sb sectors).dataBlocksStart = sb.dataBlocksStart := by
  unfold growToDevice
  split <;> rfl

/-- The first `total` blocks of a volume that starts at sector `lba` are on a device of `sectors` sectors. -/
def OnDevice (sectors lba total : Nat) : Prop := ∀ k < total, lba + 8 * k + 8 ≤ sectors

/-- A volume that lay on its device still does after `mount` when what `grow_to_device` takes for the size of
the device fits behind its first sector. The other two bounds hold always. -/
theorem mountSuper_within_iff {b : Block} {sectors lba version : Nat} {old sb : Super}
    (hold : Super.fromBytes b = some old) (hmount : mountSuper b sectors = some (version, sb))
    (hlies : OnDevice sectors lba old.totalBlocks.toNat)
    (hbits : old.totalBlocks.toNat ≤ old.dataBlocksStart.toNat + 32768) :
    (old.totalBlocks ≤ sb.totalBlocks ∧ OnDevice sectors lba sb.totalBlocks.toNat ∧
      ∀ k, sb.dataBlocksStart.toNat ≤ k → k < sb.totalBlocks.toNat → k - sb.dataBlocksStart.toNat < 32768) ↔
    OnDevice sectors lba (min (sectors / 8) (growthLimit old.dataBlocksStart)) := by
  have hsb : sb = growToDevice old sectors := by
    simp only [mountSuper, hold] at hmount
    split at hmount
    · cases hmount
    · exact (Prod.mk.inj (Option.some.inj hmount)).2.symm
  have htotal := growToDevice_total old sectors
  have hlimit : growthLimit old.dataBlocksStart ≤ old.dataBlocksStart.toNat + 32768 := Nat.min_le_left _ _
  rw [← hsb] at htotal
  constructor
  · rintro ⟨-, hdev, -⟩ k hk
    exact hdev k (by omega)
  · intro hdev
    refine ⟨UInt32.le_iff_toNat_le.mpr (by omega), fun k hk => ?_, fun k hstart hk => ?_⟩
    · have hcases : k < old.totalBlocks.toNat ∨ k < min (sectors / 8) (growthLimit old.dataBlocksStart) := by omega
      exact hcases.elim (hlies k) (hdev k)
    · rw [hsb, growToDevice_dataBlocksStart] at hstart ⊢
      omega

/-- The superblock of a volume of 16 blocks with its data from block 4 on. -/
def sixteenBlocks : Block := (((Bytes.zero.put32 0 onyfsMagic).put32 8 4096).put32 12 16).put32 28 4

theorem sixteenBlocks_whole_device : ∃ old sb,
    Super.fromBytes sixteenBlocks = some old ∧ mountSuper sixteenBlocks 288 = some (2, sb) ∧
    OnDevice 288 0 sb.totalBlocks.toNat := by
  refine ⟨_, _, rfl, rfl, ((mountSuper_within_iff (b := sixteenBlocks) rfl rfl ?_ ?_).mpr ?_).2.1⟩
  · exact fun k (hk : k < 16) => by omega
  · exact Nat.le_of_ble_eq_true rfl
  · intro k hk
    have hwhole : k < 288 / 8 := Nat.lt_of_lt_of_le hk (Nat.min_le_left _ _)
    omega

/-- Behind a first sector 8 the 16 blocks are on a device of 36, but not the 36 that the volume then has. -/
theorem sixteenBlocks_behind_offset : ∃ old sb,
    Super.fromBytes sixteenBlocks = some old ∧ mountSuper sixteenBlocks 288 = some (2, sb) ∧
    OnDevice 288 8 old.totalBlocks.toNat ∧ old.totalBlocks.toNat ≤ old.dataBlocksStart.toNat + 32768 ∧
    ¬ OnDevice 288 8 sb.totalBlocks.toNat := by
  refine ⟨_, _, rfl, rfl, fun k (hk : k < 16) => by omega, by decide, fun h => ?_⟩
  exact absurd (h 35 (by decide)) (by decide)

end OnyxFs
