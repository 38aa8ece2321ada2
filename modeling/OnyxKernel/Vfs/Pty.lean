import OnyxKernel.Ipc.ByteRing
import OnyxKernel.Vfs.Tokens

/-!
# Pseudo-terminals

`fs/pty` with the nodes of `fs/devfs/pty_nodes` and the descriptors that lead to them. A descriptor names its
pair by an index: opening `/dev/ptmx` takes the first free pair, closing a master descriptor frees the pair, and
nothing tells the uses of one index apart.

Calls of several processes interleave. An open of `/dev/ptmx` looks at the pairs one after the other without a
lock and claims the one that it found free; a read or write first resolves the descriptor and then makes one
locked pass after the other until it has moved a byte.

`session`, `tag`, `sent` and `got` are not in the source: they count the uses of a pair, remember for which of
them a descriptor was opened, and record what went in and out.
-/

namespace Vfs

open Onyx Infra Function

/-! ## Pairs -/

def ptyBufCap : Nat := 512

/-- `struct PtyRing`. -/
structure PtyRing where
  buf : Nat → UInt8
  head : UInt32
  tail : UInt32

namespace PtyRing

def new : PtyRing := ⟨fun _ => 0, 0, 0⟩

variable (r : PtyRing)

def used : UInt32 := Ipc.ringUsed r.head r.tail

/-- `pop`, for a buffer of `len` bytes. -/
def pop (len : Nat) : List UInt8 × PtyRing :=
  let out := Ipc.readLoop ptyBufCap r.buf r.head (min len r.used.toNat)
  (out.1, { r with head := out.2 })

/-- `push`: the bytes that fit. -/
def push (src : List UInt8) : List UInt8 × PtyRing :=
  let bytes := Ipc.fitting ptyBufCap r.head r.tail src
  let out := Ipc.writeLoop ptyBufCap r.buf r.tail bytes
  (bytes, { r with buf := out.1, tail := out.2 })

def pending : List UInt8 := Ipc.pendingOf ptyBufCap r.buf r.head r.tail

end PtyRing

inductive Side
  | master
  | slave
  deriving DecidableEq, Repr

def Side.other : Side → Side
  | master => slave
  | slave => master

/-- `struct Pty`, without its lock and the window size. -/
structure Pty where
  used : Bool
  m2s : PtyRing
  s2m : PtyRing

/-- What a pass does: `Ok(n)` with the bytes, or an error. -/
inductive Pass
  | fails (e : Errno)
  | moved (bytes : List UInt8)
  deriving DecidableEq, Repr

namespace Pty

variable (p : Pty)

/-- A pair that `alloc` has claimed. -/
def claimed : Pty := ⟨true, .new, .new⟩

def ring : Side → PtyRing
  | .master => p.m2s
  | .slave => p.s2m

def setRing (r : PtyRing) : Side → Pty
  | .master => { p with m2s := r }
  | .slave => { p with s2m := r }

/-- `side_read`: a side reads what the other one wrote. -/
def sideRead (side : Side) (len : Nat) : Pass × Pty :=
  if !p.used then (.fails .pipe, p)
  else if (p.ring side.other).used = 0 then (.moved [], p)
  else
    let out := (p.ring side.other).pop len
    (.moved out.1, p.setRing out.2 side.other)

def sideWrite (side : Side) (data : List UInt8) : Pass × Pty :=
  if !p.used then (.fails .pipe, p)
  else if Ipc.ringFree ptyBufCap (p.ring side).head (p.ring side).tail = 0 ∨ data = [] then (.moved [], p)
  else
    let out := (p.ring side).push data
    (.moved out.1, p.setRing out.2 side)

/-- `side_poll`: whether a side can read and write. -/
def sidePoll (side : Side) : Bool × Bool :=
  if !p.used then (false, false)
  else
    ((p.ring side.other).used ≠ 0, Ipc.ringFree ptyBufCap (p.ring side).head (p.ring side).tail ≠ 0)

end Pty

/-! ## Nodes -/

/-- `DEVFS_PTYM_BASE_INO` -/
def ptymBase : Nat := 32

/-- `DEVFS_PTYS_BASE_INO` -/
def ptysBase : Nat := 40

def ptymInoIdx (ino : Nat) : Option (Fin 4) :=
  if h : ptymBase ≤ ino ∧ ino < ptymBase + 4 then some ⟨ino - ptymBase, by omega⟩ else none

/-- The pair of a slave inode; `ptys_ino_idx` also asks whether it is in use. -/
def ptysNode (ino : Nat) : Option (Fin 4) :=
  if h : ptysBase ≤ ino ∧ ino < ptysBase + 4 then some ⟨ino - ptysBase, by omega⟩ else none

/-- `classify`. -/
def ptyClassify (ptys : Fin 4 → Pty) (ino : Nat) : Option (Fin 4 × Side) :=
  match ptymInoIdx ino with
  | some i => some (i, .master)
  | none => ((ptysNode ino).filter fun i => (ptys i).used).map fun i => (i, .slave)

def ptyPoll (ptys : Fin 4 → Pty) (ino : Nat) : Option (Bool × Bool) :=
  (ptyClassify ptys ino).map fun x => (ptys x.1).sidePoll x.2

def oNonblock : UInt32 := 0x800

/-! ## Calls -/

inductive Work
  | read (len : Nat)
  | write (data : List UInt8)
  deriving DecidableEq, Repr

/-- `len == 0` in the hooks. -/
def Work.isEmpty : Work → Bool
  | read len => len = 0
  | write data => data = []

/-- The permission that `vfs::read` and `vfs::write` ask for. -/
def Work.perm : Work → UInt32
  | read _ => permRead
  | write _ => permWrite

/-- A `read_hook` or `write_hook` between two passes. -/
structure Stream where
  slot : Fin 16
  pair : Fin 4
  side : Side
  work : Work
  nonblock : Bool
  session : Nat
  deriving DecidableEq, Repr

/-- Where a process is. -/
inductive Pc
  | idle
  /-- `alloc` looks at pair `k` next. -/
  | scan (slot : Fin 16) (k : Nat)
  /-- `alloc` has found pair `k` free. -/
  | claim (slot : Fin 16) (k : Fin 4)
  | stream (c : Stream)
  deriving DecidableEq, Repr

def Pc.opening : Pc → Option (Fin 16)
  | scan slot _ => some slot
  | claim slot _ => some slot
  | _ => none

structure Sessions where
  ptys : Fin 4 → Pty
  procs : Nat → Option FdTable
  pc : Nat → Pc
  session : Fin 4 → Nat
  tag : Nat → Fin 16 → Nat
  /-- by pair, session and the side that writes -/
  sent : Fin 4 → Nat → Side → List UInt8
  got : Fin 4 → Nat → Side → List UInt8

inductive Act
  | openMaster (pid : Nat) (perms : UInt32)
  | openSlave (pid : Nat) (perms : UInt32) (i : Fin 4)
  | dup (pid : Nat) (token : UInt64)
  | fork (parent child : Nat)
  /-- `read` or `write`, up to the first pass -/
  | start (pid : Nat) (token : UInt64) (work : Work)
  | close (pid : Nat) (token : UInt64)
  /-- the next part of a call in progress -/
  | proceed (pid : Nat)
  /-- the process is killed between two passes -/
  | abort (pid : Nat)

/-- What the caller sees of a step. -/
inductive Reply
  | done (value : Nat)
  | moved (bytes : List UInt8)
  | fails (e : Errno)
  | continues
  deriving DecidableEq, Repr

namespace Sessions

variable (s : Sessions)

def setTable (pid : Nat) (t : FdTable) : Sessions := { s with procs := update s.procs pid (some t) }

def goto (pid : Nat) (pc : Pc) : Sessions := { s with pc := update s.pc pid pc }

def setTag (pid : Nat) (slot : Fin 16) (n : Nat) : Sessions :=
  { s with tag := update s.tag pid (update (s.tag pid) slot n) }

def setPty (i : Fin 4) (p : Pty) : Sessions := { s with ptys := update s.ptys i p }

def idle (pid : Nat) : Option FdTable := if s.pc pid = .idle then s.procs pid else none

def record (log : Fin 4 → Nat → Side → List UInt8) (c : Stream) (side : Side) (bytes : List UInt8) :
    Fin 4 → Nat → Side → List UInt8 := fun i n d =>
  if i = c.pair ∧ n = c.session ∧ d = side then log i n d ++ bytes else log i n d

def classify (ino : Nat) : Option (Fin 4 × Side) := ptyClassify s.ptys ino

/-- The call after a pass that moved no byte: `EAGAIN`, or `sched_yield`. -/
def retry (pid : Nat) (c : Stream) : Reply × Sessions :=
  if c.nonblock then (.fails .again, s.goto pid .idle) else (.continues, s)

/-- One pass of `read_hook` or `write_hook`. -/
def pass (pid : Nat) (c : Stream) : Reply × Sessions :=
  match c.work with
  | .read len =>
    match (s.ptys c.pair).sideRead c.side len with
    | (.fails e, _) => (.fails e, s.goto pid .idle)
    | (.moved [], _) => s.retry pid c
    | (.moved bytes, p) =>
      (.moved bytes, { (s.setPty c.pair p).goto pid .idle with got := record s.got c c.side.other bytes })
  | .write data =>
    match (s.ptys c.pair).sideWrite c.side data with
    | (.fails e, _) => (.fails e, s.goto pid .idle)
    | (.moved [], _) => s.retry pid c
    | (.moved bytes, p) =>
      (.done bytes.length, { (s.setPty c.pair p).goto pid .idle with sent := record s.sent c c.side bytes })

/-- `pty::alloc` claims the pair, and the descriptor is bound to its master. -/
def claim (pid : Nat) (t : FdTable) (slot : Fin 16) (k : Fin 4) : Reply × Sessions :=
  let s := (s.setPty k .claimed).setTable pid (t.fdSet slot (ptymBase + k.val) (2 ^ 32 - 1) .devfs 0 mntRoot)
  let s := { s with session := update s.session k (s.session k + 1) }
  (.done (t.tokenOf slot).toNat, (s.setTag pid slot (s.session k)).goto pid .idle)

def proceed (pid : Nat) : Option (Reply × Sessions) :=
  match s.procs pid, s.pc pid with
  | some t, .scan slot k =>
    if h : k < 4 then
      if (s.ptys ⟨k, h⟩).used then some (.continues, s.goto pid (.scan slot (k + 1)))
      else some (.continues, s.goto pid (.claim slot ⟨k, h⟩))
    else some (.fails .again, (s.setTable pid (t.fdClear slot)).goto pid .idle)
  | some t, .claim slot k => some (s.claim pid t slot k)
  | some _, .stream c => some (s.pass pid c)
  | _, _ => none

/-- The first part of `read` and `write`. A descriptor whose inode is not recognised goes on to devfs, which
refuses the inode of a slave; other descriptors are not of interest here. -/
def start (pid : Nat) (t : FdTable) (token : UInt64) (work : Work) : Option (Reply × Sessions) :=
  match t.fdCheck token with
  | .error e => some (.fails e, s)
  | .ok slot =>
    let fd := t slot
    if fd.fs ≠ .devfs then none
    else
      match s.classify fd.ino with
      | some (pair, side) =>
        if work.isEmpty then some (.done 0, s)
        else
          let nonblock : Bool := fd.flags &&& oNonblock ≠ 0
          some (.continues, s.goto pid (.stream ⟨slot, pair, side, work, nonblock, s.tag pid slot⟩))
      | none =>
        if (ptysNode fd.ino).isNone then none
        else if fd.perms &&& work.perm = 0 then some (.fails .perm, s)
        else if work.isEmpty then some (.done 0, s)
        else some (.fails .noSys, s)

/-- `close` frees the pair of a master. -/
def close (pid : Nat) (t : FdTable) (token : UInt64) : Reply × Sessions :=
  match t.close token with
  | (.error e, _) => (.fails e, s)
  | (.ok fd, t) =>
    let s := s.setTable pid t
    match if fd.fs = .devfs then ptymInoIdx fd.ino else none with
    | some i => (.done 0, s.setPty i { s.ptys i with used := false })
    | none => (.done 0, s)

/-- `open` of `/dev/pts/i`. -/
def openSlave (pid : Nat) (t : FdTable) (perms : UInt32) (i : Fin 4) : Reply × Sessions :=
  match t.allocFd .process perms with
  | (.error e, t) => (.fails e, s.setTable pid t)
  | (.ok slot, t) =>
    if (s.ptys i).used then
      (.done (t.tokenOf slot).toNat,
        (s.setTable pid (t.fdSet slot (ptysBase + i.val) (2 ^ 32 - 1) .devfs 0 mntRoot)).setTag pid slot
          (s.session i))
    else (.fails .noEnt, s.setTable pid (t.fdClear slot))

/-- `open` of `/dev/ptmx`, up to `alloc`. -/
def openMaster (pid : Nat) (t : FdTable) (perms : UInt32) : Reply × Sessions :=
  match t.allocFd .process perms with
  | (.error e, t) => (.fails e, s.setTable pid t)
  | (.ok slot, t) => (.continues, (s.setTable pid t).goto pid (.scan slot 0))

/-- `dup`; the new descriptor is one of the same session. -/
def dup (pid : Nat) (t : FdTable) (token : UInt64) : Reply × Sessions :=
  match t.fdCheck token, t.dup .process token with
  | .ok old, (.ok new, t) =>
    (.done new.toNat, (s.setTable pid t).setTag pid (fdTokenIdx new) (s.tag pid old))
  | _, (.ok new, t) => (.done new.toNat, s.setTable pid t)
  | _, (.error e, t) => (.fails e, s.setTable pid t)

/-- `fork` copies the table. -/
def fork (parent child : Nat) (t : FdTable) : Reply × Sessions :=
  (.done child, { (s.setTable child t).goto child .idle with tag := update s.tag child (s.tag parent) })

/-- A step and what the caller sees; `none` if the process is not there or is within another call. -/
def run : Act → Option (Reply × Sessions)
  | .openMaster pid perms => (s.idle pid).map fun t => s.openMaster pid t perms
  | .openSlave pid perms i => (s.idle pid).map fun t => s.openSlave pid t perms i
  | .dup pid token => (s.idle pid).map fun t => s.dup pid t token
  | .fork parent child =>
    if (s.procs child).isSome then none else (s.idle parent).map fun t => s.fork parent child t
  | .start pid token work => (s.idle pid).bind fun t => s.start pid t token work
  | .close pid token => (s.idle pid).map fun t => s.close pid t token
  | .proceed pid => s.proceed pid
  | .abort pid =>
    match s.procs pid, s.pc pid with
    | some _, .stream _ => some (.continues, s.goto pid .idle)
    | _, _ => none

end Sessions

def sessions : Machine Sessions Act := ⟨fun s a => (s.run a).map (·.2)⟩

end Vfs
