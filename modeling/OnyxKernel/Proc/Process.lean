import OnyxKernel.Onx.Load

/-!
# Processes and the calls that change them

The process record of `proc/process/types.rs` with the fields that the modelled calls use, and
`sys_dropring`, `sys_setuid`, `sys_setgid`, `sys_execve` and `sys_fork`.

A process is known by the address of its node; `G_ALL_PROCS` is the list of these addresses. What
the kernel heap and the file system answer is an argument of a call. `p.tf` is the trap frame the
process is in the kernel with; the scheduler copies it out and back unchanged.
-/

namespace Proc

open Infra Onyx Mm

/-! ## The record -/

inductive ProcState
  | free | ready | running | exited | waiting | creating | stopped
  deriving DecidableEq, Repr

/-- A trap frame; `others` are the 29 registers that the kernel only saves and restores. -/
structure TrapFrame where
  sepc : Nat
  sp : Nat
  a0 : Nat
  a1 : Nat
  a2 : Nat
  sstatus : Nat
  satp : Nat
  others : Vector Nat 29 := .replicate 29 0
  deriving DecidableEq, Repr

def TrapFrame.zero : TrapFrame := ⟨0, 0, 0, 0, 0, 0, 0, .replicate 29 0⟩

structure Process where
  pid : Nat
  ring : UInt8
  state : ProcState
  parentPid : Nat
  rootPa : Nat
  entry : Nat
  ustack : Nat
  heapBrk : Nat
  mmapBrk : Nat
  uid : UInt32
  gid : UInt32
  umask : Nat
  tf : TrapFrame
  pendingSignals : UInt32
  signalMask : UInt32
  signalHandlers : Fin 32 → Nat
  signalHandlerMasks : Fin 32 → UInt32
  savedMask : UInt32
  savedTf : TrapFrame
  inSignalHandler : Bool
  rootRefcount : Option Nat

def procRingRoot : UInt8 := 1

def procRingUser : UInt8 := 2

/-- The value of `satp` for a root. -/
def satpOf (root : Nat) : Nat := 8 <<< 60 ||| root

/-- `SSTATUS_SPIE | SSTATUS_FS_INITIAL` -/
def sstatusUser : Nat := 1 <<< 5 ||| 1 <<< 14

structure Kernel where
  mm : MmState
  /-- `G_ALL_PROCS`, the newest node first. -/
  allProcs : List Nat
  proc : Nat → Process
  /-- `G_NEXT_PID` -/
  nextPid : Nat
  /-- The reference counters on the heap. -/
  cell : Nat → UInt32

def Kernel.update (k : Kernel) (a : Nat) (f : Process → Process) : Kernel :=
  { k with proc := Function.update k.proc a (f (k.proc a)) }

def Kernel.setCell (k : Kernel) (c : Nat) (v : UInt32) : Kernel := { k with cell := Function.update k.cell c v }

def Kernel.addProc (k : Kernel) (a : Nat) (p : Process) : Kernel :=
  { k with allProcs := a :: k.allProcs, proc := Function.update k.proc a p }

/-! ## Rings and user identities -/

def sysDropring (cur : Nat) (target : UInt8) (k : Kernel) : Except Errno Unit × Kernel :=
  if target < (k.proc cur).ring then (.error .perm, k)
  else if target = (k.proc cur).ring then (.ok (), k)
  else (.ok (), k.update cur fun p => { p with ring := target })

def sysSetuid (cur : Nat) (uid : UInt64) (k : Kernel) : Except Errno Unit × Kernel :=
  if procRingRoot < (k.proc cur).ring then (.error .perm, k)
  else (.ok (), k.update cur fun p => { p with uid := uid.toUInt32 })

def sysSetgid (cur : Nat) (gid : UInt64) (k : Kernel) : Except Errno Unit × Kernel :=
  if procRingRoot < (k.proc cur).ring then (.error .perm, k)
  else (.ok (), k.update cur fun p => { p with gid := gid.toUInt32 })

/-! ## `execve` -/

/-- What the surroundings answer during `sys_execve`. -/
structure ExecArgs where
  /-- The bytes of the executable, or the error of a VFS call. -/
  file : Except Errno (List UInt8)
  /-- The cell that `allocate_refcount` gets. -/
  refcount : Option Nat
  /-- `argc` and `argv_sp` of `copy_argv_envp_to_stack`. -/
  argc : Nat
  argvSp : Nat

/-- `PreparedExec::with_memory`: the ring check, then the counter of the new root. -/
def prepare (imageRing : Nat) (ring : UInt8) (refcount : Option Nat) : Except Errno Nat :=
  if ring = procRingUser ∧ imageRing = 1 then .error .perm
  else match refcount with
    | none => .error .noMem
    | some c => .ok c

/-- `dec_root_refcount`: the caller dropped the last reference. -/
def decRootRefcount (c : Nat) (k : Kernel) : Bool × Kernel := (k.cell c = 1, k.setCell c (k.cell c - 1))

/-- The end of `sys_execve`: the reference to the old root is dropped. -/
def releaseOld (oldRoot : Nat) (oldRefcount : Option Nat) (k : Kernel) : Kernel :=
  if oldRoot = 0 then k
  else match oldRefcount with
    | none => { k with mm := ((destroyRoot oldRoot).run k.mm).2 }
    | some c =>
      let (last, k) := decRootRefcount c k
      if last then { k with mm := ((destroyRoot oldRoot).run k.mm).2 } else k

/-- The fields that `sys_execve` sets after its commit point. -/
def Process.exec (p : Process) (r : Onx.OnxLoadResult) (c : Nat) (x : ExecArgs) : Process :=
  { p with
    rootPa := r.root
    rootRefcount := some c
    entry := r.entry
    ustack := x.argvSp
    heapBrk := r.heapBrk
    mmapBrk := 0x20000000
    ring := if r.ring = 1 then procRingRoot else procRingUser
    tf :=
      { p.tf with
        sepc := r.entry - 4
        sp := x.argvSp
        a0 := x.argc
        a1 := x.argvSp + 8
        a2 := x.argvSp + 8 + (x.argc + 1) * 8
        sstatus := sstatusUser
        satp := satpOf r.root } }

def sysExecve (cur : Nat) (x : ExecArgs) (k : Kernel) : Except Errno Nat × Kernel :=
  match x.file with
  | .error e => (.error e, k)
  | .ok [] => (.error .inval, k)
  | .ok image =>
    match (Onx.load image).run k.mm with
    | (.error e, mm) => (.error e, { k with mm := mm })
    | (.ok r, mm) =>
      match prepare r.ring (k.proc cur).ring x.refcount with
      | .error e => (.error e, { k with mm := ((destroyRoot r.root).run mm).2 })
      | .ok c =>
        let old := k.proc cur
        let k := ({ k with mm := mm }.setCell c 1).update cur fun p => p.exec r c x
        (.ok x.argc, releaseOld old.rootPa old.rootRefcount k)

/-! ## `fork` -/

def uidForRing (ring : UInt8) : UInt32 := if ring ≤ procRingRoot then 0 else 1000

def maxProcs : Nat := 128

def maxProcsPerUid : Nat := 32

def maxProcsRootUid : Nat := 256

def liveProcCount (k : Kernel) : Nat := (k.allProcs.filter fun a => (k.proc a).state ≠ .free).length

def liveProcCountUid (k : Kernel) (uid : UInt32) : Nat :=
  (k.allProcs.filter fun a => (k.proc a).state ≠ .free ∧ (k.proc a).uid = uid).length

def canCreateProc (k : Kernel) (uid : UInt32) : Bool :=
  liveProcCount k < maxProcs &&
    liveProcCountUid k uid < (if uid = 0 then maxProcsRootUid else maxProcsPerUid)

/-- The arguments of `create_user` that end up in the new node. -/
structure NewUser where
  entry : Nat
  ustack : Nat
  rootPa : Nat
  pid : Nat
  parentPid : Nat
  heapBrk : Nat
  ring : UInt8
  argc : Nat
  argvSp : Nat
  refcount : Nat

/-- The node as `alloc_proc` and `create_user` leave it. -/
def NewUser.process (n : NewUser) : Process where
  pid := n.pid
  ring := n.ring
  state := .creating
  parentPid := n.parentPid
  rootPa := n.rootPa
  entry := n.entry
  ustack := n.ustack
  heapBrk := n.heapBrk
  mmapBrk := 0x30000000
  uid := uidForRing n.ring
  gid := uidForRing n.ring
  umask := 0o022
  tf :=
    { sepc := n.entry
      sp := if 0 < n.argc then n.argvSp else n.ustack
      a0 := n.argc
      a1 := if 0 < n.argc then n.argvSp + 8 else 0
      a2 := 0
      sstatus := sstatusUser
      satp := satpOf n.rootPa }
  pendingSignals := 0
  signalMask := 0
  signalHandlers := fun _ => 0
  signalHandlerMasks := fun _ => 0
  savedMask := 0
  savedTf := .zero
  inSignalHandler := false
  rootRefcount := some n.refcount

/-- `create_user` with a counter given. `node` is what `alloc_proc` gets from the heap. -/
def createUser (n : NewUser) (node : Option Nat) (k : Kernel) : Except Errno Nat × Kernel :=
  if n.entry = 0 then (.error .inval, k)
  else if canCreateProc k (uidForRing n.ring) = false then (.error .again, k)
  else match node with
    | none => (.error .noMem, k)
    | some a =>
      (.ok a, k.addProc a n.process)

/-- What the heap answers during `sys_fork`: the cell of a counter and the node of the child. -/
structure ForkArgs where
  cell : Option Nat
  node : Option Nat

def rootCounter (cur : Nat) (cell : Option Nat) (k : Kernel) : Except Errno Nat × Kernel :=
  match (k.proc cur).rootRefcount, cell with
  | some c, _ => (.ok c, k)
  | none, none => (.error .noMem, k)
  | none, some c => (.ok c, (k.setCell c 1).update cur fun p => { p with rootRefcount := some c })

/-- What `sys_fork` copies into the child before it publishes it. -/
def Process.inherit (child parent : Process) : Process :=
  { child with
    signalHandlers := parent.signalHandlers
    signalMask := parent.signalMask
    mmapBrk := parent.mmapBrk
    umask := parent.umask
    tf := { parent.tf with a0 := 0, sepc := parent.tf.sepc + 4 }
    state := .ready }

/-- `sys_fork`. The new node is the first in the list, so `by_pid` finds it, and `publish_ready`
finds it in `Creating`. -/
def sysFork (cur : Nat) (x : ForkArgs) (k : Kernel) : Except Errno Nat × Kernel :=
  let newPid := k.nextPid
  let k := { k with nextPid := (k.nextPid + 1) % 2 ^ 32 }
  match rootCounter cur x.cell k with
  | (.error e, k) => (.error e, k)
  | (.ok c, k) =>
    let k := k.setCell c (k.cell c + 1)
    let parent := k.proc cur
    let new : NewUser :=
      { entry := parent.entry, ustack := parent.ustack, rootPa := parent.rootPa, pid := newPid
        parentPid := parent.pid, heapBrk := parent.heapBrk, ring := parent.ring
        argc := parent.tf.a0, argvSp := parent.ustack, refcount := c }
    match createUser new x.node k with
    | (.error e, k) => (.error e, (decRootRefcount c k).2)
    | (.ok a, k) => (.ok newPid, k.update a fun child => child.inherit parent)

end Proc
