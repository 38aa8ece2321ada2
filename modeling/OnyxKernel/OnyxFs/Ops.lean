import OnyxKernel.OnyxFs.Directory
import OnyxKernel.OnyxFs.File

/-!
# Operations on the tree

`create`, `mkdir`, `symlink`, `unlink` and `rename`, each a body followed by `journal_commit`.
`FsOp` lists the mutating operations of the driver.
-/

namespace OnyxFs

open Infra Onyx

/-- The inode that `create`, `mkdir` and `symlink` start from. -/
def newInode (mode nlink : UInt32) (size now : UInt64) : Inode :=
  { Inode.zero with
    mode := mode
    size := size
    nlink := nlink
    crtime := now
    mtime := now
    atime := now
    ctime := now }

/-- `name.is_empty() || name.len() > ONYFS_NAME_MAX` -/
def badName (name : List UInt8) : Bool := name.isEmpty || 32 < name.length

/-- The body of `create`. -/
def createBody (dirIno : Nat) (name : List UInt8) (mode : UInt32) : FsProg Nat := do
  checkV2
  if badName name then .fail .inval
  else do
    let ino ← allocInode
    let now ← jiffies
    writeInode ino (newInode mode 1 0 now)
    addDirent dirIno name ino 8
    pure ino

def create (dirIno : Nat) (name : List UInt8) (mode : UInt32) : Fs Nat := transaction (createBody dirIno name mode)

/-- The first block of a new directory: the entries `.` and `..`. -/
def dotBlock (ino parent : Nat) : Block :=
  let dot : Dirent := { name := nameField [46], inode := UInt32.ofNat ino, dtype := 4, nameLen := 1 }
  let dotdot : Dirent := { name := nameField [46, 46], inode := UInt32.ofNat parent, dtype := 4, nameLen := 2 }
  (Bytes.zero.blit 0 dot.toBytes).blit 40 dotdot.toBytes

/-- The body of `mkdir`. -/
def mkdirBody (dirIno : Nat) (name : List UInt8) : FsProg Nat := do
  checkV2
  if badName name then .fail .inval
  else do
    let ino ← allocInode
    let now ← jiffies
    let blk ← allocDataBlock
    putBuf blk.toNat (dotBlock ino dirIno)
    writeInode ino ((newInode dtDir 2 0 now).setBlock 0 blk)
    addDirent dirIno name ino 4
    pure ino

def mkdir (dirIno : Nat) (name : List UInt8) : Fs Nat := transaction (mkdirBody dirIno name)

/-- The body of `symlink`. -/
def symlinkBody (dirIno : Nat) (name target : List UInt8) : FsProg Nat := do
  checkV2
  if badName name then .fail .inval
  else if target = [] then .fail .inval
  else do
    let ino ← allocInode
    let now ← jiffies
    let blk ← allocDataBlock
    putBuf blk.toNat (Bytes.zero.splice 0 (min target.length 4096) fun i => target.getD i 0)
    writeInode ino ((newInode dtLnk 1 (UInt64.ofNat target.length) now).setBlock 0 blk)
    addDirent dirIno name ino 10
    pure ino

def symlink (dirIno : Nat) (name target : List UInt8) : Fs Nat := transaction (symlinkBody dirIno name target)

/-- The parent path and the file name of a path without its leading slash: the cut at the last
slash. -/
def splitLast (trimmed : List UInt8) : List UInt8 × List UInt8 :=
  let filename := (trimmed.reverse.takeWhile (· ≠ slash)).reverse
  (trimmed.take (trimmed.length - filename.length - 1), filename)

def parentIno (parent : List UInt8) : FsProg Nat :=
  if parent = [] then pure rootIno
  else do
    let (_, st) ← lookup parent
    pure st.ino

/-- The body of `unlink`. -/
def unlinkBody (path : List UInt8) : FsProg Unit := do
  if path.head? ≠ some slash then .fail .inval
  else if path.length = 1 then .fail .perm
  else do
    let (parent, filename) := splitLast (path.drop 1)
    if filename = [] then .fail .inval
    else do
      let dirIno ← parentIno parent
      let (ino, st) ← (lookupNofollow path).mapError fun _ => .noEnt
      if fileType st.mode = fileType dtDir then .fail .isDir
      else do
        removeDirent dirIno filename
        freeInode ino

def unlink (path : List UInt8) : Fs Unit := transaction (unlinkBody path)

/-- The body of `rename`. -/
def renameBody (oldPath newPath : List UInt8) : FsProg Unit := do
  if oldPath.head? ≠ some slash ∨ newPath.head? ≠ some slash then .fail .inval
  else do
    let (ino, st) ← lookupNofollow oldPath
    let (oldParent, oldName) := splitLast (oldPath.drop 1)
    let (newParent, newName) := splitLast (newPath.drop 1)
    if oldName = [] ∨ newName = [] then .fail .inval
    else do
      let oldDir ← parentIno oldParent
      let newDir ← parentIno newParent
      addDirent newDir newName ino (UInt8.ofNat ((st.mode >>> 12) &&& 0xF).toNat)
      removeDirent oldDir oldName

def rename (oldPath newPath : List UInt8) : Fs Unit := transaction (renameBody oldPath newPath)

/-- A call of one of the mutating operations. -/
inductive FsOp
  | create (dirIno : Nat) (name : List UInt8) (mode : UInt32)
  | mkdir (dirIno : Nat) (name : List UInt8)
  | symlink (dirIno : Nat) (name target : List UInt8)
  | write (ino : Nat) (data : List UInt8) (off : Nat)
  | truncate (ino : Nat)
  | truncateToLength (ino : Nat) (length : UInt64)
  | unlink (path : List UInt8)
  | rename (oldPath newPath : List UInt8)

def FsOp.prog : FsOp → Fs Unit
  | create dirIno name mode => do
    let _ ← OnyxFs.create dirIno name mode
    pure ()
  | mkdir dirIno name => do
    let _ ← OnyxFs.mkdir dirIno name
    pure ()
  | symlink dirIno name target => do
    let _ ← OnyxFs.symlink dirIno name target
    pure ()
  | write ino data off => do
    let _ ← OnyxFs.write ino data off
    pure ()
  | truncate ino => OnyxFs.truncate ino
  | truncateToLength ino length => OnyxFs.truncateToLength ino length
  | unlink path => OnyxFs.unlink path
  | rename oldPath newPath => OnyxFs.rename oldPath newPath

end OnyxFs
