import OnyxKernel.Infra.Bytes

/-!
# OnyxFS on-disk format

The records of `core/src/formats/onyxfs_fmt`: superblock, inode, directory entry and journal entry,
with the version 1 layouts the driver still reads. A block has 4096 bytes, an inode 10 direct block
pointers, and an indirect block 1024 entries; these three numbers are written as literals.
-/

namespace OnyxFs

open Infra Bytes

/-- `[u8; ONYFS_BLOCK_SIZE]`. -/
abbrev Block := Bytes 4096

/-! ## Superblock -/

def onyfsMagic : UInt32 := 0x32594E4F
def onyfsMagicV1 : UInt32 := 0x31594E4F

/-- `OnyfsSuper`, less the fields no modelled function reads. -/
structure Super where
  magic : UInt32
  blockSize : UInt32
  totalBlocks : UInt32
  inodeCount : UInt32
  inodeTableStart : UInt32
  dataBitmapStart : UInt32
  dataBlocksStart : UInt32
  journalStart : UInt32
  journalSize : UInt32

def Super.fromBytes (b : Block) : Option Super :=
  if b.le32 0 ≠ onyfsMagic ∧ b.le32 0 ≠ onyfsMagicV1 then none
  else some
    { magic := b.le32 0
      blockSize := b.le32 8
      totalBlocks := b.le32 12
      inodeCount := b.le32 16
      inodeTableStart := b.le32 20
      dataBitmapStart := b.le32 24
      dataBlocksStart := b.le32 28
      journalStart := b.le32 44
      journalSize := b.le32 48 }

def Super.hasJournal (sb : Super) : Bool := sb.journalStart ≠ 0 && sb.journalSize ≠ 0

/-! ## Inode -/

scoped instance neZero10 : NeZero 10 := ⟨by decide⟩

/-- `OnyfsInode`. -/
structure Inode where
  mode : UInt32
  size : UInt64
  uid : UInt32
  gid : UInt32
  nlink : UInt32
  blocks : Fin 10 → UInt32
  indirect : UInt32
  doubleIndirect : UInt32
  crtime : UInt64
  mtime : UInt64
  atime : UInt64
  ctime : UInt64
  flags : UInt32
  reserved : UInt32

/-- `OnyfsInode::default()`. -/
def Inode.zero : Inode where
  mode := 0
  size := 0
  uid := 0
  gid := 0
  nlink := 0
  blocks := fun _ => 0
  indirect := 0
  doubleIndirect := 0
  crtime := 0
  mtime := 0
  atime := 0
  ctime := 0
  flags := 0
  reserved := 0

/-- `inode.blocks[i] = blk`. -/
def Inode.setBlock (x : Inode) (i : Fin 10) (blk : UInt32) : Inode :=
  { x with blocks := Function.update x.blocks i blk }

/-- `OnyfsInode::from_bytes` on the 128 bytes at `off`. The change time is not stored. -/
def Inode.fromBytes {n : Nat} (b : Bytes n) (off : Nat) : Inode where
  mode := b.le32 off
  size := b.le64 (off + 8)
  uid := b.le32 (off + 56)
  gid := b.le32 (off + 60)
  nlink := b.le32 (off + 64)
  blocks := fun i => b.le32 (off + (16 + 4 * i.1))
  indirect := b.le32 (off + 96)
  doubleIndirect := b.le32 (off + 100)
  crtime := b.le64 (off + 104)
  mtime := b.le64 (off + 112)
  atime := b.le64 (off + 120)
  ctime := 0
  flags := b.le32 (off + 68)
  reserved := b.le32 (off + 72)

/-- The version 1 inode on the 64 bytes at `off`, as `read_inode` decodes it. -/
def Inode.fromBytesV1 {n : Nat} (b : Bytes n) (off : Nat) : Inode :=
  { Inode.zero with
    mode := b.le32 off
    size := UInt64.ofNat (b.le32 (off + 4)).toNat
    blocks := fun i => b.le32 (off + (8 + 4 * i.1))
    indirect := b.le32 (off + 48) }

def Inode.toBytes (x : Inode) : Bytes 128 :=
  ((((((((((((Bytes.zero.put32 0 x.mode).put64 8 x.size).blit 16 (Bytes.ofWords x.blocks)).put32 56
    x.uid).put32 60 x.gid).put32 64 x.nlink).put32 68 x.flags).put32 72 x.reserved).put32 96
    x.indirect).put32 100 x.doubleIndirect).put64 104 x.crtime).put64 112 x.mtime).put64 120 x.atime

theorem Inode.fromBytes_blit {n : Nat} (b : Bytes n) (off : Nat) (x : Inode) (h : off + 128 ≤ n) :
    Inode.fromBytes (b.blit off x.toBytes) off = { x with ctime := 0 } := by
  have h0 : (b.blit off x.toBytes).le32 off = x.toBytes.le32 0 := le32_blit_inside (k := 0) b _ (by omega) (by omega)
  have h32 : ∀ k, k + 4 ≤ 128 → (b.blit off x.toBytes).le32 (off + k) = x.toBytes.le32 k :=
    fun k hk => le32_blit_inside b _ (by omega) hk
  have h64 : ∀ k, k + 8 ≤ 128 → (b.blit off x.toBytes).le64 (off + k) = x.toBytes.le64 k :=
    fun k hk => le64_blit_inside b _ (by omega) hk
  have hblocks : ∀ i : Fin 10, x.toBytes.le32 (16 + 4 * i.1) = x.blocks i := by
    intro i
    unfold Inode.toBytes
    simp (disch := omega) only [le32_put32_ne, le32_put64_ne]
    rw [le32_blit_inside _ _ (by omega) (by omega), le32_ofWords]
  unfold Inode.fromBytes
  simp (disch := omega) only [h0, h32, h64, hblocks]
  unfold Inode.toBytes
  simp (disch := omega) only [le32_put32_ne, le32_put64_ne, le32_put32_self,
    le64_put64_ne, le64_put32_ne, le64_put64_self, le32_blit_outside,
    le64_blit_outside]

theorem Inode.fromBytes_blit_of_ne {n : Nat} (b : Bytes n) {off off' : Nat} (x : Inode)
    (h : off' + 128 ≤ off ∨ off + 128 ≤ off') :
    Inode.fromBytes (b.blit off x.toBytes) off' = Inode.fromBytes b off' := by
  unfold Inode.fromBytes
  simp (disch := omega) only [le32_blit_outside, le64_blit_outside]

/-! ## Directory entry -/

/-- `OnyfsDirent`. -/
structure Dirent where
  name : Bytes 32
  inode : UInt32
  dtype : UInt8
  nameLen : UInt8

/-- `OnyfsDirent::from_bytes` on the 40 bytes at `off`. -/
def Dirent.fromBytes {n : Nat} (b : Bytes n) (off : Nat) : Dirent where
  name := b.slice off 32
  inode := b.le32 (off + 32)
  dtype := b.get (off + 36)
  nameLen := b.get (off + 37)

/-- `OnyfsDirent::to_bytes`; both reserved bytes are zero in every entry the driver builds. -/
def Dirent.toBytes (e : Dirent) : Bytes 40 := (((zero.blit 0 e.name).put32 32 e.inode).set 36 e.dtype).set 37 e.nameLen

def nulPos (name : Bytes 32) : Nat := ((List.range 32).find? fun i => name.get i = 0).getD 32

/-- The length `lookup_in` gives the name: the stored one if it is in range, else up to the NUL. -/
def Dirent.len (e : Dirent) : Nat :=
  if 0 < e.nameLen.toNat ∧ e.nameLen.toNat ≤ 32 then e.nameLen.toNat else nulPos e.name

/-- A name field with the bytes of `name`, cut at 32 and padded with NULs. -/
def nameField (name : List UInt8) : Bytes 32 := fun j => name.getD j.1 0

/-! ## Journal entry -/

def journalBlockWrite : UInt32 := 1
def journalCommitEnd : UInt32 := 2

def journalEntryType (entry : Block) : UInt32 := entry.le32 0

/-- The `block_write` entry that `journal_log` builds: 4088 of the 4096 bytes are logged. -/
def logEntry (blockNum : UInt32) (data : Block) : Block :=
  ((zero.put32 0 journalBlockWrite).put32 4 blockNum).blit 8 (data.slice 0 4088)

/-- The `commit_end` entry that `journal_commit` builds. -/
def commitEntry : Block := zero.put32 0 journalCommitEnd

/-- `enum JournalScanStep`. -/
inductive ScanStep
  | continue
  | commit
  | stop
  deriving DecidableEq

/-- `journal_scan_step`: a zeroed entry has the type of `commit_start` and does not stop the scan. -/
def journalScanStep (entryType : UInt32) : ScanStep :=
  if entryType = 0 ∨ entryType = journalBlockWrite then .continue
  else if entryType = journalCommitEnd then .commit
  else .stop

def journalReplayEntry (entry : Block) : Option (UInt32 × Bytes 4088) :=
  if journalEntryType entry ≠ journalBlockWrite then none
  else some (entry.le32 4, entry.slice 8 4088)

/-! ## Indirect block -/

def indEntry (buf : Block) (idx : Nat) : UInt32 := buf.le32 (idx * 4)

def setIndEntry (buf : Block) (idx : Nat) (val : UInt32) : Block := buf.put32 (idx * 4) val

theorem indEntry_setIndEntry (buf : Block) {i j : Nat} (hi : i < 1024) (val : UInt32) :
    indEntry (setIndEntry buf i val) j = if j = i then val else indEntry buf j := by
  unfold indEntry setIndEntry
  by_cases h : j = i
  · subst h
    rw [if_pos rfl, le32_put32_self _ _ (by omega)]
  · rw [if_neg h, le32_put32_ne _ _ (by omega)]

theorem indEntry_zero (j : Nat) : indEntry zero j = 0 := le32_zero _

end OnyxFs
