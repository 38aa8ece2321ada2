import Mathlib.Data.Nat.Bitwise
import OnyxKernel.Core.Errno

/-!
# File descriptors

The table of `fs/vfs/fd` and its tokens. A token packs the slot into four bits and the low twelve bits of
the slot's epoch above them; `fd_check` compares those twelve bits and ignores what stands above.

What the file systems answer is part of a call here.
-/

namespace Vfs

open Onyx Function

/-- `enum Fs`. -/
inductive Fs
  | none
  | onyx
  | fat32
  | proc
  | ipc
  | devfs
  deriving DecidableEq, Repr

def permRead : UInt32 := 1

def permWrite : UInt32 := 2

def permSeek : UInt32 := 4

/-- `MNT_ROOT`, as stored in a descriptor. -/
def mntRoot : Nat := 255

/-- `struct VfsFd`. -/
structure VfsFd where
  ino : Nat
  size : Nat
  pos : Nat
  fs : Fs
  used : Bool
  perms : UInt32
  epoch : UInt32
  cloexec : Bool
  flags : UInt32
  mnt : Nat
  deriving DecidableEq, Repr

def VfsFd.default : VfsFd :=
  { ino := 0, size := 0, pos := 0, fs := .none, used := false, perms := 0, epoch := 0, cloexec := false,
    flags := 0, mnt := mntRoot }

scoped instance neZero16 : NeZero 16 := ⟨by decide⟩

/-- The table of a process, or `G_KERNEL_FDS`; `VFS_MAX_FDS` is 16. -/
abbrev FdTable := Fin 16 → VfsFd

/-- Whose table it is. Processes leave the three slots of the console out. -/
inductive Owner
  | kernel
  | process
  deriving DecidableEq, Repr

/-- The slot at which `alloc_fd` begins. -/
def Owner.first : Owner → Nat
  | kernel => 0
  | process => 3

/-! ## Tokens -/

def fdToken (idx : Fin 16) (epoch : UInt32) : UInt64 :=
  ((epoch.toUInt64 &&& 0xFFF) <<< 4) ||| (UInt64.ofNat idx.val &&& 0xF)

/-- `fd_token_idx`; the check against `VFS_MAX_FDS` is in the type. -/
def fdTokenIdx (token : UInt64) : Fin 16 := Fin.ofNat 16 (token &&& 0xF).toNat

def fdTokenEpoch (token : UInt64) : UInt32 := ((token >>> 4) &&& 0xFFF).toUInt32

theorem toNat_fdToken (idx : Fin 16) (epoch : UInt32) :
    (fdToken idx epoch).toNat = epoch.toNat % 4096 * 16 + idx.val := by
  have hepoch : epoch.toNat &&& 4095 = epoch.toNat % 4096 := Nat.and_two_pow_sub_one_eq_mod _ 12
  have hidx : idx.val &&& 15 = idx.val := by
    rw [Nat.and_two_pow_sub_one_eq_mod _ 4]
    exact Nat.mod_eq_of_lt idx.isLt
  have hsmall : idx.val % 18446744073709551616 = idx.val := Nat.mod_eq_of_lt (by omega)
  have hshift : (epoch.toNat % 4096) <<< 4 % 18446744073709551616 = (epoch.toNat % 4096) <<< 4 := by
    omega
  simp [fdToken, hepoch, hidx, hsmall, hshift]
  rw [← Nat.shiftLeft_add_eq_or_of_lt idx.isLt, Nat.shiftLeft_eq]

theorem fdTokenIdx_fdToken (idx : Fin 16) (epoch : UInt32) : fdTokenIdx (fdToken idx epoch) = idx := by
  have hlow : (fdToken idx epoch).toNat &&& 15 = idx.val := by
    rw [Nat.and_two_pow_sub_one_eq_mod _ 4, toNat_fdToken]
    omega
  apply Fin.ext
  simp [fdTokenIdx, hlow]

theorem toNat_fdTokenEpoch (idx : Fin 16) (epoch : UInt32) :
    (fdTokenEpoch (fdToken idx epoch)).toNat = epoch.toNat % 4096 := by
  have hhigh : (fdToken idx epoch).toNat >>> 4 % 4294967296 &&& 4095 = epoch.toNat % 4096 := by
    rw [Nat.and_two_pow_sub_one_eq_mod _ 12, Nat.shiftRight_eq_div_pow, toNat_fdToken]
    omega
  simp [fdTokenEpoch, hhigh]

theorem fdToken_inj {i j : Fin 16} {e e' : UInt32} (h : fdToken i e = fdToken j e') :
    i = j ∧ e.toNat % 4096 = e'.toNat % 4096 := by
  have hnat : (fdToken i e).toNat = (fdToken j e').toNat := by rw [h]
  rw [toNat_fdToken, toNat_fdToken] at hnat
  refine ⟨Fin.ext ?_, ?_⟩ <;> omega

/-! ## The table -/

namespace FdTable

def fresh : FdTable := fun _ => .default

variable (t : FdTable)

/-- The free slots, in the order in which `alloc_fd` takes them. -/
def freeSlots (owner : Owner) : List (Fin 16) := (List.finRange 16).filter fun i => owner.first ≤ i.val && !(t i).used

def nextEpoch (epoch : UInt32) : UInt32 := if epoch + 1 = 0 then 1 else epoch + 1

def allocFd (owner : Owner) (perms : UInt32) : Except Errno (Fin 16) × FdTable :=
  match (List.finRange 16).find? fun i => owner.first ≤ i.val && !(t i).used with
  | none => (.error .badFd, t)
  | some i =>
    (.ok i, update t i { t i with used := true, perms, epoch := nextEpoch (t i).epoch })

def fdCheck (token : UInt64) : Except Errno (Fin 16) :=
  let fd := t (fdTokenIdx token)
  if fd.used = false ∨ fd.epoch &&& 0xFFF ≠ fdTokenEpoch token then .error .badFd
  else .ok (fdTokenIdx token)

def fdCheckPerm (token : UInt64) (perm : UInt32) : Except Errno (Fin 16) :=
  match t.fdCheck token with
  | .error e => .error e
  | .ok idx => if (t idx).perms &&& perm = 0 then .error .perm else .ok idx

def fdSet (idx : Fin 16) (ino size : Nat) (fs : Fs) (pos mnt : Nat) : FdTable :=
  update t idx { t idx with ino, size, fs, pos, mnt }

def fdClear (idx : Fin 16) : FdTable := update t idx { t idx with used := false }

def fdUpdatePos (idx : Fin 16) (pos : Nat) : FdTable := update t idx { t idx with pos }

def fdSetFlags (idx : Fin 16) (flags : UInt32) : FdTable := update t idx { t idx with flags }

def tokenOf (idx : Fin 16) : UInt64 := fdToken idx (t idx).epoch

end FdTable

/-- What `open` finds for a path. -/
inductive Found
  /-- `resolve_path` refuses it. -/
  | refused (e : Errno)
  /-- The lookup fails. -/
  | missing (e : Errno)
  /-- The lookup succeeds and `stat` fails, in one of the pseudo file systems. -/
  | unread (e : Errno)
  | node (ino size : Nat) (fs : Fs) (mnt : Nat)
  deriving DecidableEq, Repr

namespace FdTable

variable (t : FdTable) (owner : Owner)

/-- `open`. -/
def openFound (perms : UInt32) (found : Found) : Except Errno UInt64 × FdTable :=
  match found with
  | .refused e => (.error e, t)
  | found =>
    match t.allocFd owner perms with
    | (.error e, t) => (.error e, t)
    | (.ok idx, t) =>
      match found with
      | .node ino size fs mnt => (.ok (t.tokenOf idx), t.fdSet idx ino size fs 0 mnt)
      | .unread e => (.error e, t)
      | .missing e | .refused e => (.error e, t.fdClear idx)

/-- `create`, once the file is there or was refused. -/
def createFile (made : Except Errno (Nat × Nat)) : Except Errno UInt64 × FdTable :=
  match made with
  | .error e => (.error e, t)
  | .ok (ino, mnt) =>
    match t.allocFd owner (permRead ||| permWrite ||| permSeek) with
    | (.error e, t) => (.error e, t)
    | (.ok idx, t) => (.ok (t.tokenOf idx), t.fdSet idx ino 0 .onyx 0 mnt)

def dup (token : UInt64) : Except Errno UInt64 × FdTable :=
  match t.fdCheck token with
  | .error e => (.error e, t)
  | .ok idx =>
    let fd := t idx
    match t.allocFd owner fd.perms with
    | (.error e, t) => (.error e, t)
    | (.ok new, t) =>
      (.ok (t.tokenOf new), (t.fdSet new fd.ino fd.size fd.fs fd.pos fd.mnt).fdSetFlags new fd.flags)

/-- `create_pipe`, with what `ipc::create` answers. -/
def createPipe (chan : Except Errno Nat) : Except Errno (UInt64 × UInt64) × FdTable :=
  match t.allocFd owner permRead with
  | (.error e, t) => (.error e, t)
  | (.ok r, t) =>
    match t.allocFd owner permWrite with
    | (.error e, t) => (.error e, t)
    | (.ok w, t) =>
      match chan with
      | .error e => (.error e, t)
      | .ok id =>
        (.ok (t.tokenOf r, t.tokenOf w), (t.fdSet r (id + 2) 0 .ipc 0 mntRoot).fdSet w (id + 2) 0 .ipc 0 mntRoot)

/-- `close`, with the descriptor that is closed. -/
def close (token : UInt64) : Except Errno VfsFd × FdTable :=
  match t.fdCheck token with
  | .error e => (.error e, t)
  | .ok idx => (.ok (t idx), t.fdClear idx)

/-! ## What the operations do to the table -/

variable {t} {t' : FdTable} {owner} {token : UInt64} {i : Fin 16} {e : Errno}

theorem allocFd_ok {perms : UInt32} (h : t.allocFd owner perms = (.ok i, t')) : (t i).used = false ∧
      t' = update t i { t i with used := true, perms, epoch := nextEpoch (t i).epoch } := by
  unfold allocFd at h
  split at h
  · simp at h
  · rename_i j hj
    have hfree := List.find?_some hj
    obtain ⟨rfl, rfl⟩ := h
    simp only [Bool.and_eq_true, Bool.not_eq_true'] at hfree
    exact ⟨hfree.2, rfl⟩

theorem allocFd_error {perms : UInt32} (h : t.allocFd owner perms = (.error e, t')) : t' = t := by
  unfold allocFd at h
  split at h
  · exact (Prod.mk.inj h).2.symm
  · simp at h

theorem fdCheck_ok (h : t.fdCheck token = .ok i) : (t i).used = true := by
  unfold fdCheck at h
  simp only at h
  split at h
  · cases h
  · rename_i hused
    obtain rfl := Except.ok.inj h
    simpa using (not_or.mp hused).1

theorem dup_ok {new : UInt64} (h : t.dup owner token = (.ok new, t')) :
    ∃ old fd, t.fdCheck token = .ok old ∧ (t (fdTokenIdx new)).used = false ∧
      t' = update t (fdTokenIdx new) fd ∧ fd.used = true ∧ fd.fs = (t old).fs ∧ fd.ino = (t old).ino := by
  unfold dup at h
  split at h
  · simp at h
  · rename_i old hold
    rcases halloc : t.allocFd owner (t old).perms with ⟨_ | i, t₁⟩
    · simp [halloc] at h
    · simp only [halloc, Prod.mk.injEq, Except.ok.injEq] at h
      obtain ⟨rfl, rfl⟩ := h
      obtain ⟨hfree, rfl⟩ := allocFd_ok halloc
      simp only [tokenOf, fdTokenIdx_fdToken, fdSetFlags, fdSet, update_self, update_idem]
      exact ⟨old, _, hold, hfree, rfl, rfl, rfl, rfl⟩

theorem dup_error (h : t.dup owner token = (.error e, t')) : t' = t := by
  unfold dup at h
  split at h
  · exact (Prod.mk.inj h).2.symm
  · rename_i old hold
    rcases halloc : t.allocFd owner (t old).perms with ⟨e | i, t₁⟩
    · simp only [halloc] at h
      rw [← (Prod.mk.inj h).2]
      exact allocFd_error halloc
    · simp [halloc] at h

theorem close_ok {fd : VfsFd} (h : t.close token = (.ok fd, t')) :
    ∃ i, t.fdCheck token = .ok i ∧ fd = t i ∧ t' = t.fdClear i := by
  unfold close at h
  split at h
  · simp at h
  · rename_i i hi
    simp only [Prod.mk.injEq, Except.ok.injEq] at h
    exact ⟨i, hi, h.1.symm, h.2.symm⟩

end FdTable

end Vfs
