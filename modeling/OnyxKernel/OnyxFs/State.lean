import OnyxKernel.Core.Errno
import OnyxKernel.Infra.Disk
import OnyxKernel.Infra.StateProg
import OnyxKernel.OnyxFs.Format

/-!
# The driver's globals and the block device

`FsState` has the `static mut` globals of `fs/onyxfs/mod.rs` and the volume they point to. A block
is transferred as eight sectors one after the other, and the driver stops at the first sector that
fails, so a failing request may already have moved the sectors before it.

Two fields are not in the driver and nothing it does depends on them: `trace`, the history of block
writes, and `inPlace`, the part of it that went to the place a log entry names. Statements about
crashes are about them.
-/

namespace OnyxFs

open Infra Onyx StateProg

structure FsState where
  /-- `G_VERSION`: 0 before a mount, then 1 or 2. -/
  version : Nat
  /-- `G_SB` -/
  sb : Super
  /-- `G_BUF`, the one scratch block every function shares. -/
  buf : Block
  /-- `G_JOURNAL_HEAD` -/
  head : Nat
  /-- `timer::jiffies()` during the current call. -/
  jiffies : UInt64
  /-- The volume at `G_DEV`, `G_LBA_BASE`. -/
  disk : Disk Block
  /-- The number of block requests made so far. -/
  ticks : Nat
  /-- The requests that fail, with the number of sectors moved before the failing one. -/
  fault : Nat → Option (Fin 8)
  trace : List (Nat × Block)
  inPlace : List (Nat × Block)

/-- Driver code: it works on the globals and returns `KResult<α>`. -/
abbrev Fs := StateProg FsState Errno

def FsState.NoFaults (s : FsState) : Prop := ∀ t, s.fault t = none

/-- `read_block(blk, &mut G_BUF)`. -/
def readBuf (blk : Nat) : Fs Unit where
  run s := match s.fault s.ticks with
    | none => (.ok (), { s with buf := s.disk blk, ticks := s.ticks + 1 })
    | some n => (.error .io, { s with buf := s.buf.blitTake (512 * n.1) (s.disk blk), ticks := s.ticks + 1 })

/-- `read_block(blk, &mut local)` into a buffer on the stack. -/
def readLocal (blk : Nat) : Fs Block where
  run s := match s.fault s.ticks with
    | none => (.ok (s.disk blk), { s with ticks := s.ticks + 1 })
    | some _ => (.error .io, { s with ticks := s.ticks + 1 })

/-- What a write request leaves in the block: all of `data`, or its first sectors. -/
def written (s : FsState) (blk : Nat) (data : Block) : Block :=
  match s.fault s.ticks with
  | none => data
  | some n => (s.disk blk).blitTake (512 * n.1) data

def FsState.wrote (s : FsState) (blk : Nat) (data : Block) : FsState :=
  { s with
    disk := Function.update s.disk blk (written s blk data)
    trace := s.trace ++ [(blk, written s blk data)]
    ticks := s.ticks + 1 }

def writeBlock (blk : Nat) (data : Block) : Fs Unit where
  run s := match s.fault s.ticks with
    | none => (.ok (), s.wrote blk data)
    | some _ => (.error .io, s.wrote blk data)

/-- `write_block` of a block whose contents were logged: the same request, recorded as in place. -/
def writeInPlace (blk : Nat) (data : Block) : Fs Unit where
  run s :=
    let r := (writeBlock blk data).run s
    (r.1, { r.2 with inPlace := s.inPlace ++ [(blk, written s blk data)] })

/-! ## Requests to a device without faults -/

/-- `t` is `s` after the block writes `ws`, of which `ip` went in place, by a program that leaves
the volume's parameters and the scratch block alone. -/
structure FsState.Wrote (s t : FsState) (ws ip : List (Nat × Block)) : Prop where
  sb : t.sb = s.sb
  version : t.version = s.version
  jiffies : t.jiffies = s.jiffies
  fault : t.fault = s.fault
  buf : t.buf = s.buf
  disk : t.disk = applyWrites ws s.disk
  trace : t.trace = s.trace ++ ws
  inPlace : t.inPlace = s.inPlace ++ ip

theorem FsState.Wrote.refl (s : FsState) : s.Wrote s [] [] :=
  ⟨rfl, rfl, rfl, rfl, rfl, rfl, (List.append_nil _).symm, (List.append_nil _).symm⟩

variable {ip ws : List (Nat × Block)} {s t : FsState}

theorem FsState.Wrote.trans {u : FsState} {vs ip' : List (Nat × Block)}
    (h : s.Wrote t ws ip) (h' : t.Wrote u vs ip') : s.Wrote u (ws ++ vs) (ip ++ ip') where
  sb := h'.sb.trans h.sb
  version := h'.version.trans h.version
  jiffies := h'.jiffies.trans h.jiffies
  fault := h'.fault.trans h.fault
  buf := h'.buf.trans h.buf
  disk := by rw [h'.disk, h.disk, applyWrites_append]
  trace := by rw [h'.trace, h.trace, List.append_assoc]
  inPlace := by rw [h'.inPlace, h.inPlace, List.append_assoc]

theorem FsState.Wrote.noFaults (h : s.Wrote t ws ip) (hs : s.NoFaults) : t.NoFaults := fun n => by rw [h.fault, hs n]

theorem FsState.Wrote.setHead (h : s.Wrote t ws ip) (head : Nat) : s.Wrote { t with head := head } ws ip := { h with }

def never : Errno → FsState → Prop := fun _ _ => False

theorem writeBlock_spec (h : s.NoFaults) (blk : Nat) (data : Block) :
    wp (writeBlock blk data) (fun _ t => s.Wrote t [(blk, data)] [] ∧ t.head = s.head) never s := by
  have hw : written s blk data = data := by simp only [written, h s.ticks]
  have hrun : (writeBlock blk data).run s = (.ok (), s.wrote blk data) := by
    simp only [writeBlock, h s.ticks]
  refine wp_of_run_ok hrun ⟨⟨rfl, rfl, rfl, rfl, rfl, ?_, ?_, (List.append_nil _).symm⟩, rfl⟩
  · simp only [FsState.wrote, hw, applyWrites_cons, applyWrites_nil]
  · simp only [FsState.wrote, hw]

theorem writeInPlace_spec (h : s.NoFaults) (blk : Nat) (data : Block) : wp (writeInPlace blk data)
      (fun _ t => s.Wrote t [(blk, data)] [(blk, data)] ∧ t.head = s.head) never s := by
  have hw : written s blk data = data := by simp only [written, h s.ticks]
  have hrun : (writeInPlace blk data).run s =
      (.ok (), { s.wrote blk data with inPlace := s.inPlace ++ [(blk, data)] }) := by
    simp only [writeInPlace, writeBlock, h s.ticks, hw]
  refine wp_of_run_ok hrun ⟨⟨rfl, rfl, rfl, rfl, rfl, ?_, ?_, rfl⟩, rfl⟩
  · simp only [FsState.wrote, hw, applyWrites_cons, applyWrites_nil]
  · simp only [FsState.wrote, hw]

theorem readLocal_spec (h : s.NoFaults) (blk : Nat) :
    wp (readLocal blk) (fun x t => x = s.disk blk ∧ s.Wrote t [] [] ∧ t.head = s.head) never s := by
  have hrun : (readLocal blk).run s = (.ok (s.disk blk), { s with ticks := s.ticks + 1 }) := by
    simp only [readLocal, h s.ticks]
  refine wp_of_run_ok hrun ⟨rfl, ⟨rfl, rfl, rfl, rfl, rfl, rfl, ?_, ?_⟩, rfl⟩
  · exact (List.append_nil _).symm
  · exact (List.append_nil _).symm

end OnyxFs
