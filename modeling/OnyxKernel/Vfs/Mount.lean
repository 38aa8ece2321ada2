import OnyxKernel.OnyxFs.Resolve
import OnyxKernel.Vfs.Fd

/-!
# Mounts

The mount table of `fs/vfs/mount` and how a path finds its file system. Here every OnyxFS volume has its own
driver state, and `withMount` runs an operation on that of one mount; the kernel has one set of driver
globals and exchanges them.
-/

namespace Vfs

open Onyx
open OnyxFs (slash)

/-- A `MountEntry`: its path has no leading slash, and a free entry has `Fs::None`. -/
structure MountEntry where
  path : List UInt8
  fs : Fs
  deriving DecidableEq, Repr

/-- A `G_MOUNTS` index, or `MNT_ROOT`. -/
abbrev Slot := Option (Fin 8)

/-- `slot as u8`, as it is stored in a descriptor. -/
def Slot.mnt : Slot → Nat
  | none => mntRoot
  | some i => i.val

/-- The slot of a stored number: `with_mount` takes anything from `MAX_MOUNTS` on for the root. -/
def slotOf (mnt : Nat) : Slot := if h : mnt < 8 then some ⟨mnt, h⟩ else none

theorem slotOf_mnt (slot : Slot) : slotOf slot.mnt = slot := by
  cases slot with
  | none => rfl
  | some i => simp [slotOf, Slot.mnt]

/-- `G_MOUNTS`, `G_ROOT_FS` and the OnyxFS volumes. -/
structure Files where
  mounts : Fin 8 → MountEntry
  rootFs : Fs
  volume : Slot → OnyxFs.FsState

def MountEntry.below (m : MountEntry) (path : List UInt8) : Option (List UInt8) :=
  if m.fs = .none then none
  else if path = m.path then some []
  else if m.path.isPrefixOf path ∧ path[m.path.length]? = some slash then
    some (path.drop (m.path.length + 1))
  else none

namespace Files

variable (f : Files)

/-- `resolve_mount`: the first entry that the path lies below, or the root file system. -/
def resolveMount (path : List UInt8) : Fs × List UInt8 × Slot :=
  let found := (List.finRange 8).findSome? fun i =>
    ((f.mounts i).below path).map fun sub => ((f.mounts i).fs, sub, some i)
  found.getD (f.rootFs, path, none)

def resolvePath (path : List UInt8) : Except Errno (Fs × List UInt8 × Slot) :=
  match path with
  | [] => .error .inval
  | c :: rest => if c ≠ slash then .error .inval else .ok (f.resolveMount rest)

/-- `with_mount`, for an operation of the OnyxFS driver. -/
def withMount {α : Type} (slot : Slot) (p : OnyxFs.Fs α) : Except Errno α × Files :=
  ((p.run (f.volume slot)).1, { f with volume := Function.update f.volume slot (p.run (f.volume slot)).2 })

def statTarget (path : List UInt8) : Except Errno OnyxFs.Stat × Files :=
  match f.resolvePath path with
  | .error e => (.error e, f)
  | .ok (fs, rel, slot) =>
    if fs ≠ .onyx then (.error .noSys, f)
    else
      let (r, f) := f.withMount slot (OnyxFs.exec (OnyxFs.lookup rel))
      (r.map (·.2), f)

end Files

end Vfs
