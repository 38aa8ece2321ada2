import OnyxKernel.OnyxFs.Command

/-!
# Inodes and bitmaps

`read_inode`, `write_inode` and `stat` of `fs/onyxfs/inode`, and the bitmap allocators of
`fs/onyxfs/alloc/bitmap`. All of them go through the shared scratch block, so each one leaves the
block it worked on there.
-/

namespace OnyxFs

open Infra Onyx

/-! ## Inodes -/

def inodesPerBlock (version : Nat) : Nat := if version = 1 then 64 else 32

def decodeInode (version slot : Nat) (b : Block) : Inode :=
  if version = 1 then Inode.fromBytesV1 b (slot * 64) else Inode.fromBytes b (slot * 128)

/-- The table block that holds inode `ino`. -/
def inodeBlock (v : Volume) (ino : Nat) : Nat := v.sb.inodeTableStart.toNat + (ino - 1) / inodesPerBlock v.version

def inodeTableEnd (v : Volume) : Nat :=
  v.sb.inodeTableStart.toNat +
    (v.sb.inodeCount.toNat + (inodesPerBlock v.version - 1)) / inodesPerBlock v.version

/-- `read_inode`. A slot always lies inside its block, so the range checks on it never fire. -/
def readInode (ino : Nat) : FsProg Inode := do
  if ino = 0 then .fail .inval
  else do
    let v ← volume
    if inodeTableEnd v ≤ inodeBlock v ino then .fail .inval
    else do
      load (inodeBlock v ino)
      let b ← getBuf
      pure (decodeInode v.version ((ino - 1) % inodesPerBlock v.version) b)

/-- `write_inode`. It does not check the inode number. -/
def writeInode (ino : Nat) (x : Inode) : FsProg Unit := do
  let v ← volume
  if v.version = 1 then .fail .noSys
  else do
    load (inodeBlock v ino)
    let b ← getBuf
    putBuf (inodeBlock v ino) (b.blit ((ino - 1) % inodesPerBlock v.version * 128) x.toBytes)

/-- `OnyfsStat`. -/
structure Stat where
  ino : Nat
  size : UInt64
  mode : UInt32
  uid : UInt32
  gid : UInt32
  mtime : UInt64
  atime : UInt64
  ctime : UInt64
  deriving DecidableEq

def Inode.stat (x : Inode) (ino : Nat) : Stat where
  ino := ino
  size := x.size
  mode := x.mode
  uid := x.uid
  gid := x.gid
  mtime := x.mtime
  atime := x.atime
  ctime := x.ctime

def stat (ino : Nat) : FsProg Stat := do
  let x ← readInode ino
  pure (x.stat ino)

def checkV2 : FsProg Unit := do
  let v ← volume
  if v.version = 1 then .fail .noSys else pure ()

/-! ## Bitmaps -/

/-- The bits of one byte from `bit` on. `some none` is the return with `NoSpace`. -/
def scanBits (byte : UInt8) (base limit : Nat) : (n bit : Nat) → Option (Option Nat)
  | 0, _ => none
  | n + 1, bit =>
    if limit ≤ base + bit then some none
    else if byte.toBitVec.getLsbD bit = false then some (some (base + bit))
    else scanBits byte base limit n (bit + 1)

/-- The bytes of a bitmap from byte `i` on: the first clear bit below `limit`. -/
def scanBytes (b : Block) (limit : Nat) : (n i : Nat) → Option Nat
  | 0, _ => none
  | n + 1, i =>
    if b.get i = 0xFF then scanBytes b limit n (i + 1)
    else (scanBits (b.get i) (i * 8) limit 8 0).getD (scanBytes b limit n (i + 1))

/-- `total_blocks.saturating_sub(data_blocks_start)` -/
def dataBlockCount (sb : Super) : Nat := sb.totalBlocks.toNat - sb.dataBlocksStart.toNat

def allocDataBlock : FsProg UInt32 := do
  let v ← volume
  if dataBlockCount v.sb = 0 then .fail .noSpace
  else do
    load v.sb.dataBitmapStart.toNat
    let b ← getBuf
    match scanBytes b (dataBlockCount v.sb) 4096 0 with
    | none => .fail .noSpace
    | some i => do
      putBuf v.sb.dataBitmapStart.toNat (b.setBit i)
      pure (UInt32.ofNat (v.sb.dataBlocksStart.toNat + i))

def freeDataBlock (blk : UInt32) : FsProg Unit := do
  let v ← volume
  if blk.toNat < v.sb.dataBlocksStart.toNat then .fail .inval
  else if 4096 * 8 ≤ blk.toNat - v.sb.dataBlocksStart.toNat then .fail .inval
  else do
    load v.sb.dataBitmapStart.toNat
    let b ← getBuf
    putBuf v.sb.dataBitmapStart.toNat (b.clearBit (blk.toNat - v.sb.dataBlocksStart.toNat))

/-- `alloc_zero_block` of `write/meta/extend.rs`; `write` has the same lines inline. -/
def allocZeroBlock : FsProg UInt32 := do
  let blk ← allocDataBlock
  putBuf blk.toNat Bytes.zero
  pure blk

def inodeBitmapBlk : Nat := 1

def allocInode : FsProg Nat := do
  let v ← volume
  if v.sb.inodeCount = 0 then .fail .noSpace
  else do
    load inodeBitmapBlk
    let b ← getBuf
    match scanBytes b v.sb.inodeCount.toNat 4096 0 with
    | none => .fail .noSpace
    | some i => do
      putBuf inodeBitmapBlk (b.setBit i)
      pure (i + 1)

/-- `if blk != 0 { free_data_block(blk)?; }` -/
def freeIfSet (blk : UInt32) : FsProg Unit := if blk = 0 then pure () else freeDataBlock blk

/-- The direct blocks of `x` from index `i` on. -/
def freeDirect (x : Inode) : FsProg Unit :=
  .forUpTo 10 0 fun i => if h : i < 10 then freeIfSet (x.blocks ⟨i, h⟩) else pure ()

/-- The entries of an indirect block that was read into a local buffer. -/
def freeEntries (table : Block) : FsProg Unit := .forUpTo 1024 0 fun i => freeIfSet (indEntry table i)

/-- The table `ind` and its entries, as `free_inode` frees them: the table is read into a local
buffer before any entry is freed. -/
def freeTable (ind : UInt32) : FsProg Unit := do
  let table ← fetch ind.toNat
  freeEntries table
  freeDataBlock ind

/-- The table of tables `dind` of a double indirect inode. -/
def freeTables (dind : UInt32) : FsProg Unit := do
  let tables ← fetch dind.toNat
  .forUpTo 1024 0 fun i => .onlyIf (indEntry tables i ≠ 0) (freeTable (indEntry tables i))
  freeDataBlock dind

def freeInode (ino : Nat) : FsProg Unit := do
  if ino = 0 then .fail .inval
  else do
    let x ← readInode ino
    freeDirect x
    .onlyIf (x.indirect ≠ 0) (freeTable x.indirect)
    .onlyIf (x.doubleIndirect ≠ 0) (freeTables x.doubleIndirect)
    writeInode ino Inode.zero
    .onlyIf ((ino - 1) / 8 < 4096) (do
      load inodeBitmapBlk
      let b ← getBuf
      putBuf inodeBitmapBlk (b.clearBit (ino - 1)))

end OnyxFs
