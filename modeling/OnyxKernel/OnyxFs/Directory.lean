import OnyxKernel.OnyxFs.Alloc

/-!
# Directories and paths

`add_dirent` and `remove_dirent` of `fs/onyxfs/alloc`, the lookups of `fs/onyxfs/lookup` and
`readlink`. A directory has its entries in its direct blocks only. Names and paths are byte strings.
-/

namespace OnyxFs

open Infra Onyx

def direntsPerBlock (version : Nat) : Nat := if version = 1 then 113 else 102

def direntSize (version : Nat) : Nat := if version = 1 then 36 else 40

def slotInode (version : Nat) (b : Block) (slot : Nat) : UInt32 := b.le32 (slot * direntSize version + 32)

/-- The `match_len` loop: how many leading bytes of `name` agree with the stored field. -/
def matchLen (b : Block) (off : Nat) : List UInt8 → Nat → Nat
  | [], len => len
  | c :: name, len =>
    if len < 32 then
      if b.get (off + len) = c then matchLen b off name (len + 1) else len
    else len

def slotHas (version : Nat) (b : Block) (name : List UInt8) (slot : Nat) : Bool :=
  let off := slot * direntSize version
  let len := matchLen b off name 0
  slotInode version b slot ≠ 0 && len = name.length && (32 ≤ len || b.get (off + len) = 0)

/-- `write_slot!`: the inode field, the padded name and in version 2 the type and name length. -/
def writeSlot (version : Nat) (b : Block) (slot : Nat) (name : List UInt8) (target : Nat) (dtype : UInt8) : Block :=
  let off := slot * direntSize version
  let b := (b.put32 (off + 32) (UInt32.ofNat target)).blit off (nameField name)
  if version = 1 then b
  else (b.set (off + 36) dtype).set (off + 37) (UInt8.ofNat (min name.length 32))

/-- The `for blk_idx in 0..ONYFS_DIRECT_BLKS` loop over the blocks a directory has: read each into
the scratch block and stop at the first one for which `f` gives new contents. -/
def scanDirBlocks (x : Inode) (f : Block → Option Block) : FsProg (Option Unit) :=
  .findUpTo 10 0 fun i =>
    if h : i < 10 then
      if x.blocks ⟨i, h⟩ = 0 then pure none
      else do
        load (x.blocks ⟨i, h⟩).toNat
        let b ← getBuf
        match f b with
        | none => pure none
        | some b' => do
          putBuf (x.blocks ⟨i, h⟩).toNat b'
          pure (some ())
    else pure none

def findSlot (version : Nat) (test : Nat → Bool) : Option Nat := (List.range (direntsPerBlock version)).find? test

/-- The third pass of `add_dirent`: a new block in the first free direct pointer. -/
def addDirentBlock (version dirIno : Nat) (x : Inode) (name : List UInt8) (target : Nat)
    (dtype : UInt8) : FsProg Unit :=
  match (List.finRange 10).find? fun i => x.blocks i = 0 with
  | none => .fail .noSpace
  | some i => do
    let blk ← allocZeroBlock
    putBuf blk.toNat (writeSlot version Bytes.zero 0 name target dtype)
    writeInode dirIno (x.setBlock i blk)

/-- `add_dirent`: overwrite the entry of that name, else use a free slot, else add a block. -/
def addDirent (dirIno : Nat) (name : List UInt8) (target : Nat) (dtype : UInt8) : FsProg Unit := do
  let x ← readInode dirIno
  let v ← volume
  let write (b : Block) (slot : Nat) := writeSlot v.version b slot name target dtype
  let replaced ← scanDirBlocks x fun b =>
    (findSlot v.version (slotHas v.version b name)).map (write b)
  match replaced with
  | some _ => pure ()
  | none => do
    let added ← scanDirBlocks x fun b =>
      (findSlot v.version fun slot => slotInode v.version b slot = 0).map (write b)
    match added with
    | some _ => pure ()
    | none => addDirentBlock v.version dirIno x name target dtype

/-- `remove_dirent`: zero the inode field of the entry. -/
def removeDirent (dirIno : Nat) (name : List UInt8) : FsProg Unit := do
  let x ← readInode dirIno
  let v ← volume
  let removed ← scanDirBlocks x fun b =>
    (findSlot v.version (slotHas v.version b name)).map fun slot =>
      b.put32 (slot * direntSize v.version + 32) 0
  match removed with
  | some _ => pure ()
  | none => .fail .noEnt

/-! ## Lookup -/

def parseDirent (version : Nat) (b : Block) (slot : Nat) : Dirent :=
  if version = 1 then
    { name := b.slice (slot * 36) 32
      inode := b.le32 (slot * 36 + 32)
      dtype := 0
      nameLen := UInt8.ofNat (nulPos (b.slice (slot * 36) 32)) }
  else Dirent.fromBytes b (slot * 40)

/-- The test of `lookup_in` on one entry. -/
def Dirent.named (e : Dirent) (name : List UInt8) : Bool :=
  e.inode ≠ 0 && e.len = name.length && (List.range e.len).map e.name.get = name

def lookupIn (dirIno : Nat) (name : List UInt8) : FsProg (Nat × Stat) := do
  let x ← readInode dirIno
  let v ← volume
  let found ← .findUpTo 10 0 fun i =>
    if h : i < 10 then
      if x.blocks ⟨i, h⟩ = 0 then pure none
      else do
        load (x.blocks ⟨i, h⟩).toNat
        let b ← getBuf
        match findSlot v.version fun slot => (parseDirent v.version b slot).named name with
        | none => pure none
        | some slot => do
          let ino := (parseDirent v.version b slot).inode.toNat
          let st ← stat ino
          pure (some (ino, st))
    else pure none
  match found with
  | some r => pure r
  | none => .fail .noEnt

/-- `b'/'` -/
def slash : UInt8 := 47

/-- `ONYFS_ROOT_INO` -/
def rootIno : Nat := 1

/-- The loop of `lookup_nofollow`; every round takes at least one byte off the path. -/
def walkNofollow : (fuel cur : Nat) → List UInt8 → FsProg Nat
  | 0, cur, _ => pure cur
  | fuel + 1, cur, path =>
    let path := path.dropWhile (· = slash)
    if path = [] then pure cur
    else do
      let (ino, _) ← lookupIn cur (path.takeWhile (· ≠ slash))
      match path.dropWhile (· ≠ slash) with
      | [] => pure ino
      | _ :: rest => walkNofollow fuel ino rest

/-- `lookup_nofollow`. It follows no link, also not in the middle of the path. -/
def lookupNofollow (path : List UInt8) : FsProg (Nat × Stat) := do
  let ino ← walkNofollow (path.length + 1) rootIno path
  let st ← stat ino
  pure (ino, st)

/-- The `S_IFMT` bits of a mode. -/
def fileType (mode : UInt32) : UInt32 := mode &&& 0o170000

def dtDir : UInt32 := 0o040755
def dtLnk : UInt32 := 0o120755

/-- `readlink` into a buffer of `len` bytes. -/
def readlink (ino len : Nat) : FsProg (List UInt8) := do
  let v ← volume
  if v.version = 1 then .fail .noSys
  else do
    let x ← readInode ino
    if fileType x.mode ≠ fileType dtLnk then .fail .inval
    else if x.blocks 0 = 0 then .fail .io
    else do
      load (x.blocks 0).toNat
      let b ← getBuf
      pure ((List.range (min x.size.toNat len)).map b.get)

/-- The path that `lookup_follow` goes on with after a link at `path[compStart..offset]`, cut at
`RECOMPOSED_MAX`. -/
def recompose (path target : List UInt8) (compStart offset : Nat) : List UInt8 :=
  if target.head? = some slash then (target ++ path.drop offset).take 1024
  else
    let parent := (path.take (compStart - 1)).take 1024
    let base :=
      if parent = [] then [slash]
      else if parent.getLast? = some slash then parent else parent ++ [slash]
    (base ++ target ++ path.drop offset).take 1024

/-- The loop of `lookup_follow`; `again` is the recursive call on a recomposed path. -/
def followLoop (again : List UInt8 → FsProg (Nat × Stat)) (path : List UInt8) :
    (fuel cur offset : Nat) → FsProg (Nat × Stat)
  | 0, cur, _ => do
    let st ← stat cur
    pure (cur, st)
  | fuel + 1, cur, offset =>
    let compStart := offset + ((path.drop offset).takeWhile (· = slash)).length
    if path.length ≤ compStart then do
      let st ← stat cur
      pure (cur, st)
    else do
      let comp := (path.drop compStart).takeWhile (· ≠ slash)
      let (ino, st) ← lookupIn cur comp
      if fileType st.mode = fileType dtLnk then do
        let target ← readlink ino 256
        again (recompose path target compStart (compStart + comp.length))
      else followLoop again path fuel ino (compStart + comp.length)

/-- `lookup_follow` with `n` levels left: the source counts up and stops at depth 9. -/
def lookupFollow : (n : Nat) → List UInt8 → FsProg (Nat × Stat)
  | 0, _ => .fail .loop
  | n + 1, path => followLoop (lookupFollow n) path (path.length + 1) rootIno 0

def lookup (path : List UInt8) : FsProg (Nat × Stat) := lookupFollow 9 path

end OnyxFs
