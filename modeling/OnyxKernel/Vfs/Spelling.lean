import OnyxKernel.Vfs.Permission

/-!
# Protected paths under other names

`sys_open` protects `/etc/shadow` and `/service` by the text of the path, and finds the file by a lookup that
skips slashes, walks dot entries and follows links. This module says exactly when the text makes the difference: when
everything else would grant the access.
-/

namespace Vfs

open Onyx
open OnyxFs (lookupInAt)

/-! ## Protected inodes -/

/-- `/service` -/
def servicePath : List UInt8 := [47, 115, 101, 114, 118, 105, 99, 101]

/-- The inode is found in the directory, or in a directory that is inside it; the entries `.` and `..` lead
back up. -/
inductive Inside (v : OnyxFs.Volume) (d : Infra.Disk OnyxFs.Block) (dir : Nat) : Nat → Prop
  | entry {name : List UInt8} {ino : Nat} {st : OnyxFs.Stat} : name ≠ [46] → name ≠ [46, 46] →
    lookupInAt v d dir name = .ok (ino, st) → Inside v d dir ino
  | deeper {name : List UInt8} {mid ino : Nat} {st : OnyxFs.Stat} : Inside v d dir mid → name ≠ [46] →
    name ≠ [46, 46] → lookupInAt v d mid name = .ok (ino, st) → Inside v d dir ino

/-- The inode of `/etc/shadow`, or one inside the directory `/service`. -/
def Protected (f : Files) (slot : Slot) (ino : Nat) : Prop :=
  (∃ rel st, Target f shadowPath rel slot ino st) ∨
  ∃ rel dir st, Target f servicePath rel slot dir st ∧ Inside (f.volume slot).vol (f.volume slot).disk dir ino

/-! ## Outcomes -/

/-- `sys_open` returns a descriptor. -/
def Opens (s : VfsState) (w : Foreign) (p : Proc) (bytes : List UInt8) (flags mode : UInt32) : Prop :=
  ∃ token, (s.sysOpen w p bytes flags mode).1 = .ok token

theorem opens_iff {s : VfsState} (w : Foreign) {p : Proc} {bytes path rel : List UInt8}
    {slot : Slot} {ino : Nat} {st : OnyxFs.Stat} (flags mode : UInt32) (hroot : p.isRoot = false)
    (hpath : resolveOpenPath (parseUserPath bytes) p.cwd = some path)
    (ht : Target s.files path rel slot ino st) : Opens s w p bytes flags mode ↔
      grantedAnyhow s p st flags = true ∧ spellingRefused s p path rel slot st flags = false := by
  have hresult := sysOpen_target (w := w) flags mode hroot hpath ht
  split at hresult
  · rename_i hall
    obtain ⟨token, htoken, -⟩ := hresult
    exact iff_of_true ⟨token, htoken⟩ hall
  · rename_i hall
    obtain ⟨e, he⟩ := hresult
    refine iff_of_false ?_ hall
    rintro ⟨token, htoken⟩
    rw [he] at htoken
    cases htoken

/-- Two spellings of one inode: it is protected under the first and the outcomes agree, exactly if the access is
not granted anyhow, or both spellings are refused, or none is and the inode is not protected. -/
theorem spelling_ignored_iff {s : VfsState} (w : Foreign) {p : Proc}
    {bytes bytes' path path' rel rel' : List UInt8} {slot : Slot} {ino : Nat} {st : OnyxFs.Stat}
    (flags mode : UInt32) (huser : p.uid ≠ 0) (hring : ringUser ≤ p.ring)
    (hpath : resolveOpenPath (parseUserPath bytes) p.cwd = some path)
    (hpath' : resolveOpenPath (parseUserPath bytes') p.cwd = some path')
    (ht : Target s.files path rel slot ino st) (ht' : Target s.files path' rel' slot ino st) :
    ((Protected s.files slot ino → ¬Opens s w p bytes flags mode) ∧
      (Opens s w p bytes flags mode ↔ Opens s w p bytes' flags mode)) ↔
    (grantedAnyhow s p st flags = false ∨
      (spellingRefused s p path rel slot st flags = true ∧ spellingRefused s p path' rel' slot st flags = true) ∨
      (spellingRefused s p path rel slot st flags = false ∧ spellingRefused s p path' rel' slot st flags = false ∧
        ¬Protected s.files slot ino)) := by
  have hroot : p.isRoot = false := by
    have : ¬p.ring ≤ ringRoot := Nat.not_le_of_lt hring
    simp [Proc.isRoot, huser, this]
  rw [opens_iff w flags mode hroot hpath ht, opens_iff w flags mode hroot hpath' ht']
  cases grantedAnyhow s p st flags <;> cases spellingRefused s p path rel slot st flags <;>
    cases spellingRefused s p path' rel' slot st flags <;> simp

/-! ## A volume with `/etc/shadow`

The root directory stands in block 4, `/etc` in block 5 and the file in block 6. -/

local instance neZero8 : NeZero 8 := ⟨by decide⟩

def shadowVolume (mode uid : UInt32) : OnyxFs.FsState :=
  let root := OnyxFs.oneBlock OnyxFs.dtDir 4
  let etc := OnyxFs.oneBlock OnyxFs.dtDir 5
  let shadow := { OnyxFs.oneBlock mode 6 with uid }
  { OnyxFs.treeVolume Infra.Bytes.zero with
    disk := fun b =>
      if b = 1 ∨ b = 2 then ((Infra.Bytes.zero.setBit 0).setBit 1).setBit 2
      else if b = 3 then
        ((Infra.Bytes.zero.blit 0 root.toBytes).blit 128 etc.toBytes).blit 256 shadow.toBytes
      else if b = 4 then OnyxFs.writeSlot 2 Infra.Bytes.zero 0 [101, 116, 99] 2 4
      else if b = 5 then OnyxFs.writeSlot 2 Infra.Bytes.zero 0 [115, 104, 97, 100, 111, 119] 3 8
      else Infra.Bytes.zero }

def withShadow (mode uid : UInt32) : VfsState where
  files :=
    { mounts := fun i =>
        if i = 0 then ⟨[112, 114, 111, 99], .proc⟩
        else if i = 1 then ⟨[105, 112, 99], .ipc⟩
        else if i = 2 then ⟨[100, 101, 118], .devfs⟩
        else ⟨[], .none⟩
      rootFs := .onyx
      volume := fun _ => shadowVolume mode uid }
  fds := .fresh

def shadowAt (mode uid : UInt32) (rel : List UInt8) : Except Errno (Nat × OnyxFs.Stat) :=
  OnyxFs.lookupFollowAt (shadowVolume mode uid).vol (shadowVolume mode uid).disk 9 rel

theorem withShadow_target (mode uid : UInt32) (ino : Nat) (st : OnyxFs.Stat)
    (hplain : shadowAt mode uid (shadowPath.drop 1) = .ok (ino, st))
    (hslash : shadowAt mode uid shadowPath = .ok (ino, st)) :
    Target (withShadow mode uid).files shadowPath (shadowPath.drop 1) none ino st ∧
      Target (withShadow mode uid).files (47 :: shadowPath) shadowPath none ino st := by
  have hgives : ∀ rel, OnyxFs.Gives (shadowVolume mode uid) (OnyxFs.lookup rel) (shadowAt mode uid rel) :=
    OnyxFs.lookupFollow_gives (s := shadowVolume mode uid) (fun _ => rfl) 9
  refine ⟨⟨rfl, ?_⟩, ⟨rfl, ?_⟩⟩
  · rw [← hplain]
    exact hgives _
  · rw [← hslash]
    exact hgives _

theorem withShadow_found (mode uid : UInt32)
    (h : (shadowAt mode uid (shadowPath.drop 1)).toOption = (shadowAt mode uid shadowPath).toOption ∧
      (shadowAt mode uid shadowPath).toOption.any (fun r => r.2.uid = uid && r.2.gid = 0) = true) :
    ∃ ino st, Target (withShadow mode uid).files shadowPath (shadowPath.drop 1) none ino st ∧
      Target (withShadow mode uid).files (47 :: shadowPath) shadowPath none ino st ∧ st.uid = uid ∧ st.gid = 0 := by
  obtain ⟨hsame, hst⟩ := h
  cases hslash : shadowAt mode uid shadowPath with
  | error e =>
    rw [hslash] at hst
    cases hst
  | ok r =>
    rw [hslash] at hsame hst
    simp only [Except.toOption, Option.any_some, Bool.and_eq_true, decide_eq_true_eq] at hst
    have hplain : shadowAt mode uid (shadowPath.drop 1) = .ok r := by
      cases hplain : shadowAt mode uid (shadowPath.drop 1) with
      | error e =>
        rw [hplain] at hsame
        cases hsame
      | ok r' =>
        rw [hplain] at hsame
        exact congrArg Except.ok (Option.some.inj hsame)
    obtain ⟨ht, ht'⟩ := withShadow_target mode uid r.1 r.2 hplain hslash
    exact ⟨r.1, r.2, ht, ht', hst⟩

/-- The file belongs to root: the bits refuse it under either name. -/
theorem spelling_ignored_root :
    ∃ ino, Protected (withShadow 0o100600 0).files none ino ∧
      ((Protected (withShadow 0o100600 0).files none ino →
          ¬Opens (withShadow 0o100600 0) .none (user 1000) (47 :: shadowPath) oRdonly 0) ∧
        (Opens (withShadow 0o100600 0) .none (user 1000) (47 :: shadowPath) oRdonly 0 ↔
          Opens (withShadow 0o100600 0) .none (user 1000) shadowPath oRdonly 0)) := by
  obtain ⟨ino, st, ht, ht', huid, hgid⟩ := withShadow_found 0o100600 0 (by decide +kernel)
  refine ⟨ino, .inl ⟨_, st, ht⟩, ?_⟩
  refine (spelling_ignored_iff .none oRdonly 0 (by decide) (by decide) (by decide) (by decide) ht' ht).mpr (.inl ?_)
  have hbits : codeBits (user 1000) st = (false, false) := by
    rw [codeBits, huid, hgid]
    rfl
  simp [grantedAnyhow, hbits]

/-- The file belongs to user 1000: `/etc/shadow` is refused, and `//etc/shadow` is opened. -/
theorem shadow_opened_with_slash :
    ∃ ino st, Target (withShadow 0o100600 1000).files shadowPath (shadowPath.drop 1) none ino st ∧
      Target (withShadow 0o100600 1000).files (47 :: shadowPath) shadowPath none ino st ∧
      Protected (withShadow 0o100600 1000).files none ino ∧
      ¬Opens (withShadow 0o100600 1000) .none (user 1000) shadowPath oRdwr 0 ∧
      Opens (withShadow 0o100600 1000) .none (user 1000) (47 :: shadowPath) oRdwr 0 := by
  obtain ⟨ino, st, ht, ht', -⟩ := withShadow_found 0o100600 1000 (by decide +kernel)
  have hplain : ((withShadow 0o100600 1000).sysOpen .none (user 1000) shadowPath oRdwr 0).1.toOption = none := by
    decide +kernel
  have hslash : ((withShadow 0o100600 1000).sysOpen .none (user 1000) (47 :: shadowPath) oRdwr 0).1.toOption =
      some (fdToken 3 1) := by
    decide +kernel
  refine ⟨ino, st, ht, ht', .inl ⟨_, st, ht⟩, ?_, ?_⟩
  · rintro ⟨token, htoken⟩
    rw [htoken] at hplain
    cases hplain
  · cases hopen : ((withShadow 0o100600 1000).sysOpen .none (user 1000) (47 :: shadowPath) oRdwr 0).1 with
    | error e =>
      rw [hopen] at hslash
      cases hslash
    | ok token => exact ⟨token, hopen⟩

end Vfs
