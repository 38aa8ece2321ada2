import OnyxKernel.Infra.CmdProg
import OnyxKernel.OnyxFs.Journal

/-!
# The commands an operation is made of

Every operation of the driver is a program over seven commands. In particular the only command that
changes a block is `put`, which is `journal_log` followed by the in-place write: the source has no
other path. `journal_commit` is not a command, since it is always the last thing an operation does;
`transaction` puts it there.
-/

namespace OnyxFs

open Infra Onyx StateProg

/-- `G_VERSION` and `G_SB`. -/
structure Volume where
  version : Nat
  sb : Super

inductive FsCmd
  /-- `read_block(blk, &mut G_BUF)` -/
  | load (blk : Nat)
  /-- `read_block(blk, &mut local)` -/
  | fetch (blk : Nat)
  /-- the contents of `G_BUF` -/
  | getBuf
  /-- new contents for `G_BUF` -/
  | setBuf (data : Block)
  | volume
  /-- `timer::jiffies()` -/
  | jiffies
  /-- `journal_log(blk, data)?; write_block(blk, data)?` -/
  | put (blk : Nat) (data : Block)

abbrev FsCmd.Answer : FsCmd → Type
  | load _ => Unit
  | fetch _ => Block
  | getBuf => Block
  | setBuf _ => Unit
  | volume => Volume
  | jiffies => UInt64
  | put _ _ => Unit

abbrev FsProg := CmdProg FsCmd FsCmd.Answer Errno

def load (blk : Nat) : FsProg Unit := CmdProg.cmd (FsCmd.load blk)
def fetch (blk : Nat) : FsProg Block := CmdProg.cmd (FsCmd.fetch blk)
def getBuf : FsProg Block := CmdProg.cmd FsCmd.getBuf
def setBuf (data : Block) : FsProg Unit := CmdProg.cmd (FsCmd.setBuf data)
def volume : FsProg Volume := CmdProg.cmd FsCmd.volume
def jiffies : FsProg UInt64 := CmdProg.cmd FsCmd.jiffies
def put (blk : Nat) (data : Block) : FsProg Unit := CmdProg.cmd (FsCmd.put blk data)

/-- `journal_log(blk, &G_BUF)?; write_block(blk, &G_BUF)?` on the changed scratch block. -/
def putBuf (blk : Nat) (data : Block) : FsProg Unit := do
  setBuf data
  put blk data

def FsCmd.handle : (c : FsCmd) → Fs c.Answer
  | load blk => readBuf blk
  | fetch blk => readLocal blk
  | getBuf => gets FsState.buf
  | setBuf data => modify fun s => { s with buf := data }
  | volume => gets fun s => ⟨s.version, s.sb⟩
  | jiffies => gets FsState.jiffies
  | put blk data => logWrite blk data

def exec {α : Type} (p : FsProg α) : Fs α := CmdProg.run FsCmd.handle p

/-- A body followed by `journal_commit()?`. -/
def transaction {α : Type} (p : FsProg α) : Fs α := do
  let r ← exec p
  journalCommit
  pure r

theorem exec_bind {α β : Type} (p : FsProg α) (f : α → FsProg β) :
    exec (p >>= f) = exec p >>= fun a => exec (f a) :=
  CmdProg.run_bind p f

variable {α : Type}

@[simp] theorem exec_load (blk : Nat) : exec (load blk) = readBuf blk := CmdProg.run_one _

@[simp] theorem exec_fetch (blk : Nat) : exec (fetch blk) = readLocal blk := CmdProg.run_one _

@[simp] theorem exec_getBuf : exec getBuf = gets FsState.buf := CmdProg.run_one _

@[simp] theorem exec_setBuf (data : Block) :
    exec (setBuf data) = StateProg.modify fun s => { s with buf := data } := CmdProg.run_one _

@[simp] theorem exec_volume : exec volume = gets fun s => ⟨s.version, s.sb⟩ := CmdProg.run_one _

@[simp] theorem exec_jiffies : exec jiffies = gets FsState.jiffies := CmdProg.run_one _

@[simp] theorem exec_put (blk : Nat) (data : Block) : exec (put blk data) = logWrite blk data := CmdProg.run_one _

theorem exec_mapError (g : Errno → Errno) (p : FsProg α) : exec (p.mapError g) = mapError g (exec p) :=
  CmdProg.run_mapError g p

theorem exec_onlyIf (c : Prop) [Decidable c] (p : FsProg Unit) : exec (.onlyIf c p) = onlyIf c (exec p) :=
  CmdProg.run_onlyIf c p

theorem exec_forUpTo (n i : Nat) (body : Nat → FsProg Unit) :
    exec (.forUpTo n i body) = forUpTo n i fun j => exec (body j) :=
  CmdProg.run_forUpTo body n i

theorem exec_findUpTo (n i : Nat) (body : Nat → FsProg (Option α)) :
    exec (.findUpTo n i body) = findUpTo n i fun j => exec (body j) :=
  CmdProg.run_findUpTo body n i

end OnyxFs
