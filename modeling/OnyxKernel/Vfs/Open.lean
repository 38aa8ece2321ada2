import OnyxKernel.Vfs.Mount

/-!
# `open`

`sys_open` with `open` and `create` of `fs/vfs`. The permission bits are tested twice, once in `sys_open` and
once in `open`, and the two do not take the same bits nor want the same accesses.

What the other file systems answer is given by a `Foreign`; the directory cursor of the process, which `readdir`
moves, is left out, and so is the entry that `readdir` reads once it has found a directory.
-/

namespace OnyxFs

def setUidGid (ino : Nat) (uid gid : UInt32) : Fs Unit :=
  transaction do
    checkV2
    let x ← readInode ino
    let now ← jiffies
    writeInode ino { x with uid, gid, mtime := now }

end OnyxFs

namespace Vfs

open Onyx
open OnyxFs (slash exec)

/-- The fields of a process that `open` reads. -/
structure Proc where
  uid : UInt32
  gid : UInt32
  /-- 0 for the kernel, 1 for root, 2 for users. -/
  ring : Nat
  umask : UInt32
  cwd : List UInt8
  deriving DecidableEq, Repr

/-- `PROC_RING_ROOT` -/
def ringRoot : Nat := 1

/-- `PROC_RING_USER` -/
def ringUser : Nat := 2

def Proc.isRoot (p : Proc) : Bool := p.uid = 0 || p.ring ≤ ringRoot

/-- The file systems, and the descriptors of the process that makes the call. -/
structure VfsState where
  files : Files
  fds : FdTable

/-- The answers of procfs, ipcfs, devfs and FAT32. -/
structure Foreign where
  /-- What `open` finds. -/
  found : Fs → Slot → List UInt8 → Found
  /-- `readdir` ends in `NotDir`. -/
  notDir : Fs → Slot → List UInt8 → Bool

/-! ## Flags -/

def oRdonly : UInt32 := 0
def oWronly : UInt32 := 1
def oRdwr : UInt32 := 2
def oAccmode : UInt32 := 3
def oCreat : UInt32 := 0x40
def oExcl : UInt32 := 0x80
def oTrunc : UInt32 := 0x200
def oAppend : UInt32 := 0x400
def oDirectory : UInt32 := 0x10000

/-- `flags & flag != 0` -/
def has (flags flag : UInt32) : Bool := flags &&& flag ≠ 0

/-- `flags & O_ACCMODE` -/
def accMode (flags : UInt32) : UInt32 := flags &&& oAccmode

def openPerms (flags : UInt32) : UInt32 :=
  if accMode flags ≠ oRdonly then permSeek ||| permRead ||| permWrite else permSeek ||| permRead

/-! ## Permission bits -/

/-- `perm_bits` of `sys_open`. -/
def sysBits (p : Proc) (st : OnyxFs.Stat) : UInt32 :=
  if p.uid = st.uid then st.mode &&& 0o700
  else if p.gid = st.gid then (st.mode >>> 3) &&& 0o700
  else (st.mode >>> 6) &&& 0o700

/-- `perm_bits` of `vfs::open`. -/
def openBits (p : Proc) (st : OnyxFs.Stat) : UInt32 :=
  if p.uid = st.uid then st.mode &&& 0o700
  else if p.gid = st.gid then (st.mode >>> 3) &&& 0o700
  else st.mode &&& 0o007

def grants (bits : UInt32) (wantRead wantWrite : Bool) : Bool :=
  (!wantRead || bits &&& 0o400 ≠ 0) && (!wantWrite || bits &&& 0o200 ≠ 0)

/-- The check of `sys_open`. -/
def sysGrants (p : Proc) (st : OnyxFs.Stat) (flags : UInt32) : Bool :=
  grants (sysBits p st)
    (accMode flags = oRdonly || accMode flags = oRdwr || has flags oCreat)
    (accMode flags = oWronly || accMode flags = oRdwr || has flags (oTrunc ||| oAppend))

/-- The check of `vfs::open`. -/
def openGrants (p : Proc) (st : OnyxFs.Stat) (perms : UInt32) : Bool :=
  p.isRoot || grants (openBits p st) (has perms permRead) (has perms permWrite)

/-! ## Paths -/

/-- `parse_user_path`: up to 256 bytes before a NUL. -/
def parseUserPath (bytes : List UInt8) : List UInt8 := (bytes.take 256).takeWhile (· ≠ 0)

def resolveOpenPath (path cwd : List UInt8) : Option (List UInt8) :=
  if path.head? = some slash then some path
  else if path = [] ∨ cwd.head? ≠ some slash then none
  else
    let sep := if cwd.getLast? ≠ some slash then [slash] else []
    let joined := cwd ++ sep ++ path
    if 512 < joined.length then none else some joined

/-- `/service/` -/
def serviceDir : List UInt8 := [47, 115, 101, 114, 118, 105, 99, 101, 47]

/-- `/etc/shadow` -/
def shadowPath : List UInt8 := [47, 101, 116, 99, 47, 115, 104, 97, 100, 111, 119]

/-- The path begins with `/service/`. -/
def serviceText (p : Proc) (path : List UInt8) : Bool := p.ring = ringUser && serviceDir.isPrefixOf path

/-- The path is `/etc/shadow`, or goes on with a NUL. -/
def shadowText (path : List UInt8) : Bool :=
  path = shadowPath || (shadowPath.isPrefixOf path && path[shadowPath.length]? = some 0)

/-- `sys_open` refuses the path for its text. -/
def textRefused (p : Proc) (path : List UInt8) : Bool := serviceText p path || (!p.isRoot && shadowText path)

/-! ## The calls -/

/-- The answer is `NotDir`. -/
def isNotDir {α : Type} : Except Errno α → Bool
  | .error .notDir => true
  | _ => false

namespace Files

/-- The lookup of `vfs::open`, with its check. -/
def findNode (f : Files) (w : Foreign) (p : Proc) (perms : UInt32) (fs : Fs) (sub : List UInt8)
    (slot : Slot) : Found × Files :=
  match fs with
  | .onyx =>
    match f.withMount slot (exec (OnyxFs.lookup sub)) with
    | (.error e, f) => (.missing e, f)
    | (.ok (_, st), f) =>
      if openGrants p st perms then (.node st.ino (min st.size.toNat 0xFFFFFFFF) .onyx slot.mnt, f)
      else (.missing .perm, f)
  | .none => (.missing .inval, f)
  | fs => (w.found fs slot sub, f)

end Files

namespace VfsState

variable (s : VfsState) (w : Foreign) (p : Proc)

/-- `vfs::open`, for a process. -/
def openPath (path : List UInt8) (perms : UInt32) : Except Errno UInt64 × VfsState :=
  match s.files.resolvePath path with
  | .error e => (.error e, s)
  | .ok (fs, sub, slot) =>
    match s.fds.allocFd .process perms with
    | (.error e, _) => (.error e, s)
    | (.ok _, _) =>
      let (found, files) := s.files.findNode w p perms fs sub slot
      let (r, fds) := s.fds.openFound .process perms found
      (r, ⟨files, fds⟩)

def splitParent (path : List UInt8) : List UInt8 × List UInt8 :=
  OnyxFs.splitLast (if path.head? = some slash then path.tail else path)

/-- The part of `vfs::create` that runs in the mount: the new inode, which the caller then owns. -/
def makeFile (parentRel filename : List UInt8) (mode : UInt32) : OnyxFs.Fs Nat := do
  let parent ← exec (OnyxFs.parentIno parentRel)
  let ino ← OnyxFs.create parent filename mode
  Infra.StateProg.orElse (OnyxFs.setUidGid ino p.uid p.gid) (pure ())
  pure ino

def create (path : List UInt8) (mode : UInt32) : Except Errno UInt64 × VfsState :=
  match s.files.resolvePath path with
  | .error e => (.error e, s)
  | .ok (.proc, _, _) => (.error .perm, s)
  | .ok (.onyx, rel, slot) =>
    let (parentRel, filename) := splitParent rel
    if filename = [] then (.error .inval, s)
    else
      let (r, files) := s.files.withMount slot (makeFile p parentRel filename mode)
      let (r, fds) := s.fds.createFile .process (r.map (·, slot.mnt))
      (r, ⟨files, fds⟩)
  | .ok _ => (.error .noSys, s)

def truncate (token : UInt64) : Except Errno Unit × VfsState :=
  match s.fds.fdCheck token with
  | .error e => (.error e, s)
  | .ok idx =>
    if (s.fds idx).fs ≠ .onyx then (.error .noSys, s)
    else
      let (r, files) := s.files.withMount (slotOf (s.fds idx).mnt) (OnyxFs.truncate (s.fds idx).ino)
      (r, { s with files })

/-- `lseek` to the end. -/
def seekEnd (token : UInt64) : VfsState :=
  match s.fds.fdCheckPerm token permSeek with
  | .error _ => s
  | .ok idx => { s with fds := s.fds.fdUpdatePos idx (s.fds idx).size }

/-- `vfs::readdir` ends in `NotDir`. -/
def readdirNotDir (path : List UInt8) : Bool × VfsState :=
  match s.files.resolvePath path with
  | .error _ => (false, s)
  | .ok (.onyx, sub, slot) =>
    let (r, files) := s.files.withMount slot (exec (OnyxFs.resolveDir sub))
    (isNotDir r, { s with files })
  | .ok (fs, sub, slot) => (w.notDir fs slot sub, s)

/-- `vfs::close`; what it does for the master of a pseudo-terminal is left out here. -/
def close (token : UInt64) : VfsState := { s with fds := (s.fds.close token).2 }

/-- `fd_check` and `fd_set_flags` at the end of `sys_open`. -/
def recordFlags (token : UInt64) (flags : UInt32) : VfsState :=
  match s.fds.fdCheck token with
  | .error _ => s
  | .ok idx => { s with fds := s.fds.fdSetFlags idx flags }

/-- `sys_open` truncates the file. -/
def truncates (flags : UInt32) : Bool := has flags oTrunc && has (openPerms flags) permWrite

/-- The part of `sys_open` for `O_TRUNC` and `O_APPEND`; their errors are ignored. -/
def prepare (flags : UInt32) (token : UInt64) : VfsState :=
  let s := if truncates flags then (s.truncate token).2 else s
  if has flags oAppend then s.seekEnd token else s

/-- `sys_open` from the open file on. -/
def finish (path : List UInt8) (flags : UInt32) (token : UInt64) : Except Errno UInt64 × VfsState :=
  let s := s.prepare flags token
  if has flags oDirectory then
    let r := s.readdirNotDir w path
    if r.1 then (.error .notDir, r.2.close token) else (.ok token, r.2.recordFlags token flags)
  else (.ok token, s.recordFlags token flags)

/-- The check of `sys_open` on the existing file; a path that does not lead to one passes. -/
def preCheck (path : List UInt8) (flags : UInt32) : Bool × VfsState :=
  if p.isRoot then (true, s)
  else
    let (r, files) := s.files.statTarget path
    ((match r with
      | .ok st => sysGrants p st flags
      | .error _ => true), { s with files })

/-- The mode of a file that `sys_open` creates. -/
def createMode (mode : UInt32) : UInt32 :=
  if mode = 0 then 0o100755 else mode &&& ~~~(p.umask &&& 0o777)

/-- `sys_open`, once the path is absolute. -/
def openAbsolute (path : List UInt8) (flags mode : UInt32) : Except Errno UInt64 × VfsState :=
  if textRefused p path then (.error .perm, s)
  else
    let (granted, s) := s.preCheck p path flags
    if !granted then (.error .perm, s)
    else
      match s.openPath w p path (openPerms flags) with
      | (.ok token, s) =>
        if has flags oExcl && has flags oCreat then (.error .exist, s.close token)
        else s.finish w path flags token
      | (.error e, s) =>
        if e = .noEnt ∧ has flags oCreat = true then
          if ringRoot < p.ring then (.error .perm, s)
          else
            match s.create p path (createMode p mode) with
            | (.ok token, s) => s.finish w path flags token
            | (.error e, s) => (.error e, s)
        else (.error e, s)

/-- `sys_open`, on the bytes that stand at the address of the path. -/
def sysOpen (bytes : List UInt8) (flags mode : UInt32) : Except Errno UInt64 × VfsState :=
  match resolveOpenPath (parseUserPath bytes) p.cwd with
  | none => (.error .inval, s)
  | some path => s.openAbsolute w p path flags mode

end VfsState

end Vfs
