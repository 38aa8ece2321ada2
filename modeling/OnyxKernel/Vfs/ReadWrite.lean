import OnyxKernel.Ipc.Channel
import OnyxKernel.OnyxFs.ReadWrite
import OnyxKernel.Vfs.Permission

/-!
# `read` and `write` through descriptors

`fs/vfs/fd/rw`. A descriptor has its own copy of the size of the file, taken when it was opened and moved on
by its own writes only; `read` asks the file system for no more than that copy allows. The OnyxFS driver reads
up to the size in the inode and ends at the first position without a block. What the other file systems
answer is part of a call.
-/

namespace Vfs

open Onyx
open OnyxFs (exec Gives Known inodeAt blockPtr entsAt bytesFrom)

/-! ## The calls -/

/-- What all processes work on. -/
structure Shared where
  files : Files
  chans : Nat → Ipc.Channel

/-- What the other file systems answer. -/
structure Backends where
  read : Fs → (ino pos len : Nat) → Except Errno (List UInt8)
  write : (ino pos : Nat) → List UInt8 → Except Errno Nat

/-- `ipcfs::read`; without a trap frame, `recv` does not sleep. -/
def ipcfsRead (chans : Nat → Ipc.Channel) (pid ino len : Nat) : Except Errno (List UInt8) × (Nat → Ipc.Channel) :=
  if ino < 2 ∨ Ipc.chanMax ≤ ino - 2 then (.error .inval, chans)
  else
    let (answer, ch) := (chans (ino - 2)).recv pid len
    let result := match answer with
      | .fails e => .error e
      | .blocks => .ok []
      | .moved bytes => .ok bytes
    (result, Function.update chans (ino - 2) ch)

/-- `ipcfs::write`; without a trap frame, `send` does not sleep. -/
def ipcfsWrite (chans : Nat → Ipc.Channel) (pid ino : Nat) (data : List UInt8) :
    Except Errno Nat × (Nat → Ipc.Channel) :=
  if ino < 2 ∨ Ipc.chanMax ≤ ino - 2 then (.error .inval, chans)
  else
    let (answer, ch) := (chans (ino - 2)).send pid data
    let result := match answer with
      | .fails e => .error e
      | .blocks => .error .busy
      | .moved bytes => .ok bytes.length
    (result, Function.update chans (ino - 2) ch)

namespace Shared

variable (sh : Shared) (other : Backends) (pid : Nat)

/-- The file systems' part of `read`. -/
def readFrom (fd : VfsFd) (len : Nat) : Except Errno (List UInt8) × Shared :=
  match fd.fs with
  | .onyx =>
    let (r, files) := sh.files.withMount (slotOf fd.mnt) (exec (OnyxFs.read fd.ino fd.pos len))
    (r, { sh with files })
  | .ipc =>
    let (r, chans) := ipcfsRead sh.chans pid fd.ino len
    (r, { sh with chans })
  | .none => (.error .inval, sh)
  | fs => (other.read fs fd.ino fd.pos len, sh)

/-- `read`: the bytes put into the caller's buffer. -/
def read (t : FdTable) (token : UInt64) (len : Nat) : Except Errno (List UInt8) × Shared × FdTable :=
  match t.fdCheckPerm token permRead with
  | .error e => (.error e, sh, t)
  | .ok idx =>
    let fd := t idx
    let toRead := min len (fd.size - fd.pos)
    if toRead = 0 then (.ok [], sh, t)
    else
      match sh.readFrom other pid fd toRead with
      | (.error e, sh) => (.error e, sh, t)
      | (.ok bytes, sh) => (.ok bytes, sh, t.fdUpdatePos idx (fd.pos + bytes.length))

/-- The file systems' part of `write`. -/
def writeTo (fd : VfsFd) (data : List UInt8) : Except Errno Nat × Shared :=
  match fd.fs with
  | .onyx =>
    let (r, files) := sh.files.withMount (slotOf fd.mnt) (OnyxFs.write fd.ino data fd.pos)
    (r, { sh with files })
  | .proc => (.error .perm, sh)
  | .ipc =>
    let (r, chans) := ipcfsWrite sh.chans pid fd.ino data
    (r, { sh with chans })
  | .devfs => (other.write fd.ino fd.pos data, sh)
  | _ => (.error .noSys, sh)

/-- `write`. A position past `u32` is refused when the bytes have been written. -/
def write (t : FdTable) (token : UInt64) (data : List UInt8) : Except Errno Nat × Shared × FdTable :=
  match t.fdCheckPerm token permWrite with
  | .error e => (.error e, sh, t)
  | .ok idx =>
    let fd := t idx
    match sh.writeTo other pid fd data with
    | (.error e, sh) => (.error e, sh, t)
    | (.ok written, sh) =>
      if 2 ^ 32 ≤ fd.pos + written then (.error .noMem, sh, t)
      else
        let moved := { fd with pos := fd.pos + written, size := max fd.size (fd.pos + written) }
        (.ok written, sh, Function.update t idx moved)

end Shared

/-! ## Reading a file that was written elsewhere -/

section

variable {sh : Shared} {t : FdTable} {token : UInt64} {idx : Fin 16}

/-- The size and the bytes that the file of a descriptor has now, whatever the descriptor remembers. -/
def Shared.currentSize (sh : Shared) (fd : VfsFd) : Nat :=
  let s := sh.files.volume (slotOf fd.mnt)
  (inodeAt s.vol s.disk fd.ino).size.toNat

def Shared.currentBytes (sh : Shared) (fd : VfsFd) (n : Nat) : List UInt8 :=
  let s := sh.files.volume (slotOf fd.mnt)
  bytesFrom s.disk (inodeAt s.vol s.disk fd.ino) fd.pos n

def Shared.mapped (sh : Shared) (fd : VfsFd) (pos : Nat) : Prop :=
  let s := sh.files.volume (slotOf fd.mnt)
  let x := inodeAt s.vol s.disk fd.ino
  blockPtr x (entsAt s.disk x) (pos / 4096) ≠ 0

/-- A descriptor of an OnyxFS file that may be read, on a device without faults. -/
structure Readable (sh : Shared) (t : FdTable) (token : UInt64) (idx : Fin 16) : Prop where
  checked : t.fdCheckPerm token permRead = .ok idx
  onyx : (t idx).fs = .onyx
  calm : (sh.files.volume (slotOf (t idx).mnt)).NoFaults
  known : Known (sh.files.volume (slotOf (t idx).mnt)).vol (t idx).ino

theorem Readable.read_eq (h : Readable sh t token idx) (other : Backends) (pid len : Nat) :
    let s := sh.files.volume (slotOf (t idx).mnt)
    let n := min (min len ((t idx).size - (t idx).pos)) (min (sh.currentSize (t idx)) (2 ^ 32 - 1) - (t idx).pos)
    (sh.read other pid t token len).1 =
      .ok (OnyxFs.copied s.disk (inodeAt s.vol s.disk (t idx).ino) n (t idx).pos n) := by
  intro s n
  unfold Shared.read
  rw [h.checked]
  simp only
  split_ifs with h0
  · have hn : n = 0 := by
      omega
    rw [hn]
    rfl
  · obtain ⟨u, hrun, -⟩ := (OnyxFs.read_gives h.calm h.known (t idx).pos
      (min len ((t idx).size - (t idx).pos))).run_still (.refl s)
    simp only [Shared.readFrom, h.onyx, Files.withMount, s, hrun]
    rfl

/-- `read` returns what the file holds now if and only if the descriptor's own size covers the part of the
file that was asked for, and none of it is a hole. -/
theorem Readable.read_current_iff (h : Readable sh t token idx) (other : Backends) (pid len : Nat) :
    let n := min len (sh.currentSize (t idx) - (t idx).pos)
    (sh.read other pid t token len).1 = .ok (sh.currentBytes (t idx) n) ↔
      n ≤ (t idx).size - (t idx).pos ∧ ∀ i < n, sh.mapped (t idx) ((t idx).pos + i) := by
  intro n
  have hread := h.read_eq other pid len
  set m := min (min len ((t idx).size - (t idx).pos)) (min (sh.currentSize (t idx)) (2 ^ 32 - 1) - (t idx).pos) with hm
  rw [hread, Except.ok.injEq]
  have hmn : m ≤ n := by
    omega
  constructor
  · intro heq
    have hlen := congrArg List.length heq
    have hle := OnyxFs.length_copied_le (d := (sh.files.volume (slotOf (t idx).mnt)).disk)
      (x := inodeAt (sh.files.volume (slotOf (t idx).mnt)).vol
        (sh.files.volume (slotOf (t idx).mnt)).disk (t idx).ino) (t idx).pos m
    rw [hlen, Shared.currentBytes, OnyxFs.length_bytesFrom] at hle
    obtain hmn : m = n := Nat.le_antisymm hmn hle
    rw [hmn] at heq
    refine ⟨by omega, (OnyxFs.copied_eq_iff (t idx).pos n).mp heq⟩
  · rintro ⟨hsize, hall⟩
    -- a block index is below 1034, so that the cut at `u32::MAX` is out of reach
    have hmn : m = n := by
      rcases Nat.eq_zero_or_pos n with h0 | hpos
      · omega
      · have hlast := OnyxFs.lt_of_blockPtr (hall (n - 1) (by omega))
        have hn : n = min len (sh.currentSize (t idx) - (t idx).pos) := rfl
        omega
    rw [hmn]
    exact (OnyxFs.copied_eq_iff (t idx).pos n).mpr hall

end

end Vfs
