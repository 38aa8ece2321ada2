import OnyxKernel.OnyxFs.Alloc

/-!
# File contents

`read`, `write`, `truncate` and `truncate_to_length`. Offsets and lengths are `u32`/`u64` in the
source; the loops stop at block index 1034, so no sum in them overflows.
-/

namespace OnyxFs

open Infra Onyx

/-! ## Read -/

/-- The block `read` takes the byte at block index `idx` from; `none` ends the loop. -/
def readTarget (x : Inode) (idx : Nat) : FsProg (Option UInt32) := do
  if h : idx < 10 then pure (some (x.blocks ⟨idx, h⟩))
  else if x.indirect = 0 ∨ 1024 ≤ idx - 10 then pure none
  else do
    let table ← fetch x.indirect.toNat
    pure (some (indEntry table (idx - 10)))

/-- The loop of `read`, one block a round; `acc` is what was copied so far. -/
def readLoop (x : Inode) : (fuel off remaining : Nat) → List UInt8 → FsProg (List UInt8)
  | 0, _, _, acc => pure acc
  | fuel + 1, off, remaining, acc =>
    if remaining = 0 then pure acc
    else do
      match ← readTarget x (off / 4096) with
      | none => pure acc
      | some blk =>
        if blk = 0 then pure acc
        else do
          load blk.toNat
          let b ← getBuf
          let chunk := min (4096 - off % 4096) remaining
          readLoop x fuel (off + chunk) (remaining - chunk)
            (acc ++ (List.range chunk).map fun i => b.get (off % 4096 + i))

/-- `read`: the bytes put into the caller's buffer. -/
def read (ino off len : Nat) : FsProg (List UInt8) := do
  let x ← readInode ino
  let remaining := min len (min x.size.toNat (2 ^ 32 - 1) - off)
  readLoop x remaining off remaining []

/-! ## Write -/

/-- The table entry for a data block, with the block allocated if there is none. After
`alloc_data_block` the scratch block holds the data bitmap, and the entry goes into that. -/
def writeEntry (x : Inode) (idx : Nat) : FsProg UInt32 := do
  load x.indirect.toNat
  let table ← getBuf
  if indEntry table idx ≠ 0 then pure (indEntry table idx)
  else do
    let blk ← allocDataBlock
    let pb ← getBuf
    putBuf x.indirect.toNat (setIndEntry pb idx blk)
    putBuf blk.toNat Bytes.zero
    pure blk

/-- The block that `write` puts block index `idx` into, and the inode with the blocks it added;
`none` ends the loop. -/
def writeTarget (x : Inode) (idx : Nat) : FsProg (Option (UInt32 × Inode)) := do
  if h : idx < 10 then
    if x.blocks ⟨idx, h⟩ ≠ 0 then pure (some (x.blocks ⟨idx, h⟩, x))
    else do
      let blk ← allocZeroBlock
      pure (some (blk, x.setBlock ⟨idx, h⟩ blk))
  else if 1024 ≤ idx - 10 then pure none
  else if x.indirect ≠ 0 then do
    let blk ← writeEntry x (idx - 10)
    pure (some (blk, x))
  else do
    let ind ← allocZeroBlock
    let x := { x with indirect := ind }
    let blk ← writeEntry x (idx - 10)
    pure (some (blk, x))

/-- The loop of `write`, one block a round. It returns the inode and the number of bytes written. -/
def writeLoop (data : List UInt8) : (fuel : Nat) → Inode → (written off : Nat) →
    FsProg (Inode × Nat)
  | 0, x, written, _ => pure (x, written)
  | fuel + 1, x, written, off =>
    if data.length ≤ written then pure (x, written)
    else do
      match ← writeTarget x (off / 4096) with
      | none => pure (x, written)
      | some (blk, x) => do
        let chunk := min (4096 - off % 4096) (data.length - written)
        load blk.toNat
        let b ← getBuf
        putBuf blk.toNat (b.splice (off % 4096) chunk fun i => data.getD (written + i) 0)
        writeLoop data fuel x (written + chunk) (off + chunk)

/-- The body of `write`. -/
def writeBody (ino : Nat) (data : List UInt8) (off : Nat) : FsProg Nat := do
  checkV2
  let x ← readInode ino
  let (x, written) ← writeLoop data data.length x 0 off
  let stop := (off + written) % 2 ^ 32
  let now ← jiffies
  writeInode ino
    { x with
      size := if x.size.toNat < stop then UInt64.ofNat stop else x.size
      mtime := now }
  pure written

def write (ino : Nat) (data : List UInt8) (off : Nat) : Fs Nat := transaction (writeBody ino data off)

/-! ## Truncate -/

/-- `free_indirect_block`. The entries are read from the scratch block, which holds the data bitmap
as soon as one of them has been freed. -/
def freeIndirectBlock (ind : UInt32) : FsProg Unit := do
  load ind.toNat
  .forUpTo 1024 0 fun i => do
    let pb ← getBuf
    freeIfSet (indEntry pb i)
  freeDataBlock ind

def freeDoubleIndirect (dind : UInt32) : FsProg Unit := do
  .forUpTo 1024 0 fun i => do
    load dind.toNat
    let pb ← getBuf
    .onlyIf (indEntry pb i ≠ 0) (freeIndirectBlock (indEntry pb i))
  freeDataBlock dind

def freeAllBlocks (x : Inode) : FsProg Inode := do
  freeDirect x
  .onlyIf (x.indirect ≠ 0) (freeIndirectBlock x.indirect)
  .onlyIf (x.doubleIndirect ≠ 0) (freeDoubleIndirect x.doubleIndirect)
  pure { x with blocks := fun _ => 0, indirect := 0, doubleIndirect := 0 }

/-- The body of `truncate`. -/
def truncateBody (ino : Nat) : FsProg Unit := do
  checkV2
  let x ← readInode ino
  let x ← freeAllBlocks x
  let now ← jiffies
  writeInode ino { x with size := 0, mtime := now }

def truncate (ino : Nat) : Fs Unit := transaction (truncateBody ino)

/-- The entries of the table in the scratch block from `first` on, as `shrink` drops them. -/
def shrinkEntries (first : Nat) : FsProg Unit :=
  .forUpTo (1024 - first) first fun i => do
    let pb ← getBuf
    .onlyIf (indEntry pb i ≠ 0) (do
      freeDataBlock (indEntry pb i)
      let pb ← getBuf
      setBuf (setIndEntry pb i 0))

/-- The direct blocks from `first` on. -/
def freeDirectFrom (x : Inode) (first : Nat) : FsProg Unit :=
  .forUpTo (10 - first) first fun i => if h : i < 10 then freeIfSet (x.blocks ⟨i, h⟩) else pure ()

def shrink (x : Inode) (length : Nat) : FsProg Inode := do
  let lastNeeded := (length - 1) / 4096
  if lastNeeded < 10 then do
    freeDirectFrom x (lastNeeded + 1)
    .onlyIf (x.indirect ≠ 0) (freeIndirectBlock x.indirect)
    pure { x with blocks := fun i => if lastNeeded < i.1 then 0 else x.blocks i, indirect := 0 }
  else if x.indirect = 0 then pure x
  else do
    load x.indirect.toNat
    shrinkEntries (lastNeeded - 10 + 1)
    let pb ← getBuf
    put x.indirect.toNat pb
    pure x

/-- The loop variables of `extend_to_length`. -/
structure Extending where
  inode : Inode
  indBuf : Block
  indDirty : Bool

/-- `if ind_entry(&ind_buf, ind_idx) == 0 { … }` -/
def extendEntry (e : Extending) (idx : Nat) : FsProg Extending := do
  if indEntry e.indBuf idx ≠ 0 then pure e
  else do
    let blk ← allocZeroBlock
    pure { e with indBuf := setIndEntry e.indBuf idx blk, indDirty := true }

/-- One round of `extend_to_length` for block index `idx`; `none` ends the loop. -/
def extendRound (e : Extending) (idx : Nat) : FsProg (Option Extending) := do
  if h : idx < 10 then
    if e.inode.blocks ⟨idx, h⟩ ≠ 0 then pure (some e)
    else do
      let blk ← allocZeroBlock
      pure (some { e with inode := e.inode.setBlock ⟨idx, h⟩ blk })
  else if 1024 ≤ idx - 10 then pure none
  else if e.inode.indirect ≠ 0 then do
    let e ← extendEntry e (idx - 10)
    pure (some e)
  else do
    let ind ← allocDataBlock
    let e ← extendEntry
      { inode := { e.inode with indirect := ind }, indBuf := Bytes.zero, indDirty := true } (idx - 10)
    pure (some e)

def extendLoop (last : Nat) : (fuel : Nat) → Extending → (idx : Nat) → FsProg Extending
  | 0, e, _ => pure e
  | fuel + 1, e, idx =>
    if last < idx then pure e
    else do
      match ← extendRound e idx with
      | none => pure e
      | some e => extendLoop last fuel e (idx + 1)

/-- `ind_buf` at the start of `extend_to_length`. -/
def fetchTable (x : Inode) : FsProg Block :=
  if x.indirect = 0 then pure Bytes.zero else fetch x.indirect.toNat

/-- `extend_to_length`. The loop ends at block index 1034 at the latest. -/
def extendToLength (x : Inode) (curSize length : Nat) : FsProg Inode := do
  let first := if curSize = 0 then 0 else (curSize - 1) / 4096 + 1
  let table ← fetchTable x
  let e ← extendLoop ((length - 1) / 4096) 1035
    { inode := x, indBuf := table, indDirty := false } first
  .onlyIf (e.indDirty = true) (put e.inode.indirect.toNat e.indBuf)
  pure e.inode

/-- The part of `truncate_to_length` that changes the blocks. -/
def resize (x : Inode) (length : UInt64) : FsProg Inode :=
  if length < x.size then shrink x length.toNat
  else extendToLength x x.size.toNat length.toNat

/-- The body of `truncate_to_length`; the answer says whether `journal_commit` follows. -/
def truncateToLengthBody (ino : Nat) (length : UInt64) : FsProg Bool := do
  checkV2
  let x ← readInode ino
  if length = x.size then pure false
  else if length = 0 then do
    truncateBody ino
    pure true
  else do
    let x ← resize x length
    let now ← jiffies
    writeInode ino { x with size := length, mtime := now }
    pure true

def truncateToLength (ino : Nat) (length : UInt64) : Fs Unit := do
  let changed ← exec (truncateToLengthBody ino length)
  if changed then journalCommit else pure ()

end OnyxFs
