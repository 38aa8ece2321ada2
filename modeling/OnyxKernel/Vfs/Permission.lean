import OnyxKernel.OnyxFs.FileBlind
import OnyxKernel.Vfs.Open
import OnyxKernel.Vfs.Tokens

/-!
# Who gets a descriptor for a file

What `sys_open` answers for a path that leads to an OnyxFS inode, as a function of the inode's mode, the ids of
the process and the flags, and how this compares with the rule that the bits of a mode stand for.

The path is looked up up to three times. A lookup leaves the volume as it is, so all but the one after a
truncation find the same inode.
-/

namespace Vfs

open Onyx
open OnyxFs (exec Gives fileType dtDir)

/-! ## Lookups in a mount -/

/-- The mounts are the same, and the volume of a slot is as it was. -/
structure Files.Still (f g : Files) (slot : Slot) : Prop where
  mounts : g.mounts = f.mounts
  rootFs : g.rootFs = f.rootFs
  volume : (f.volume slot).Still (g.volume slot)

/-- The path leads to this inode. -/
structure Target (f : Files) (path rel : List UInt8) (slot : Slot) (ino : Nat) (st : OnyxFs.Stat) : Prop where
  mount : f.resolvePath path = .ok (.onyx, rel, slot)
  leads : Gives (f.volume slot) (OnyxFs.lookup rel) (.ok (ino, st))

/-- What the two lookups of `sys_open` leave. -/
def Files.afterLookup (f : Files) (slot : Slot) (rel : List UInt8) : Files :=
  (f.withMount slot (exec (OnyxFs.lookup rel))).2

section

variable {f g : Files} {slot : Slot} {path rel : List UInt8} {ino : Nat} {st : OnyxFs.Stat}

theorem Files.Still.refl (f : Files) (slot : Slot) : f.Still f slot := ⟨rfl, rfl, .refl _⟩

theorem Files.Still.resolvePath (h : f.Still g slot) (path : List UInt8) : g.resolvePath path = f.resolvePath path := by
  simp [Files.resolvePath, Files.resolveMount, h.mounts, h.rootFs]

theorem Files.Still.withMount {α : Type} (h : f.Still g slot) {p : OnyxFs.FsProg α} {r : Except Errno α}
    (hp : Gives (f.volume slot) p r) :
    ∃ g', g.withMount slot (exec p) = (r, g') ∧ f.Still g' slot := by
  obtain ⟨u, hrun, hu⟩ := hp.run_still h.volume
  refine ⟨{ g with volume := Function.update g.volume slot u }, ?_, h.mounts, h.rootFs, ?_⟩
  · simp only [Files.withMount, hrun]
  · simpa using hu

theorem Target.resolved (ht : Target f path rel slot ino st) (h : f.Still g slot) :
    g.resolvePath path = .ok (.onyx, rel, slot) := by
  rw [h.resolvePath, ht.mount]

theorem Target.lookup (ht : Target f path rel slot ino st) (h : f.Still g slot) :
    g.withMount slot (exec (OnyxFs.lookup rel)) = (.ok (ino, st), g.afterLookup slot rel) ∧
      f.Still (g.afterLookup slot rel) slot := by
  obtain ⟨g', hlook, hstill⟩ := h.withMount ht.leads
  rw [Files.afterLookup, hlook]
  exact ⟨rfl, hstill⟩

theorem Target.resolveDir (ht : Target f path rel slot ino st) :
    Gives (f.volume slot) (OnyxFs.resolveDir rel)
      (if fileType st.mode ≠ fileType dtDir then .error .notDir else .ok ino) := by
  refine Gives.bind ht.leads (k := fun r =>
    if fileType r.2.mode ≠ fileType dtDir then .error .notDir else .ok r.1) fun r hr => ?_
  obtain ⟨rfl⟩ := hr
  simp only
  split
  · exact Gives.fail _
  · exact Gives.pure ino

end

/-! ## Open descriptors -/

def Holds (t : FdTable) (token : UInt64) (perms : UInt32) : Prop :=
  ∃ idx, (t.mark idx).1 = true ∧ token = t.tokenOf idx ∧ (t idx).perms = perms

section

variable {t : FdTable} {token : UInt64} {perms : UInt32}

theorem Holds.fdCheck (h : Holds t token perms) : ∃ idx, t.fdCheck token = .ok idx ∧ (t idx).perms = perms := by
  obtain ⟨idx, hused, rfl, hperms⟩ := h
  exact ⟨idx, FdTable.fdCheck_tokenOf hused, hperms⟩

theorem Holds.fdCheckPerm (h : Holds t token perms) (perm : UInt32) :
    (∃ idx, t.fdCheckPerm token perm = .ok idx) ↔ has perms perm = true := by
  obtain ⟨idx, hcheck, rfl⟩ := h.fdCheck
  unfold FdTable.fdCheckPerm has
  simp only [hcheck]
  split <;> simp_all

theorem allocFd_perms {owner : Owner} {i : Fin 16} {t' : FdTable} (h : t.allocFd owner perms = (.ok i, t')) :
    (t' i).perms = perms := by
  unfold FdTable.allocFd at h
  split at h
  · cases h
  · cases h
    simp

theorem Holds.update (h : Holds t token perms) (idx : Fin 16) {fd : VfsFd} (hmark : (fd.used, fd.epoch) = t.mark idx)
    (hperms : fd.perms = (t idx).perms) : Holds (Function.update t idx fd) token perms := by
  obtain ⟨i, hused, rfl, hp⟩ := h
  have hm : FdTable.mark (Function.update t idx fd) = t.mark := by
    rw [FdTable.mark_update, hmark, Function.update_eq_self]
  refine ⟨i, by rwa [hm], by rw [FdTable.tokenOf_eq, FdTable.tokenOf_eq, hm], ?_⟩
  rw [← hp, Function.update_apply]
  split
  · subst i
    exact hperms
  · rfl

/-- The token of an open descriptor for an inode of a mount. -/
def Opened (t : FdTable) (token : UInt64) (perms : UInt32) (ino : Nat) (slot : Slot) : Prop :=
  ∃ idx, (t.mark idx).1 = true ∧ token = t.tokenOf idx ∧ (t idx).perms = perms ∧ (t idx).ino = ino ∧
    (t idx).fs = .onyx ∧ (t idx).mnt = slot.mnt

end

/-! ## The parts of `sys_open` -/

/-- `O_DIRECTORY` is refused: the inode is no directory or, when it is truncated first, the path is then found
not to lead to one. On a volume whose blocks are shared, that may be another inode than before. -/
def dirRefused (f : Files) (slot : Slot) (rel : List UInt8) (st : OnyxFs.Stat) (flags : UInt32) : Bool :=
  has flags oDirectory &&
    if VfsState.truncates flags then
      let f := (f.afterLookup slot rel).afterLookup slot rel
      let f := (f.withMount slot (OnyxFs.truncate st.ino)).2
      isNotDir (f.withMount slot (exec (OnyxFs.resolveDir rel))).1
    else fileType st.mode ≠ fileType dtDir

namespace VfsState

section

variable {s : VfsState} {w : Foreign} {p : Proc} {path rel : List UInt8} {slot : Slot} {ino : Nat}
  {st : OnyxFs.Stat} {flags : UInt32} {token : UInt64} {perms : UInt32} {f : Files}

theorem preCheck_target (ht : Target s.files path rel slot ino st) (hroot : p.isRoot = false) :
    (∀ flags, s.preCheck p path flags = (sysGrants p st flags, { s with files := s.files.afterLookup slot rel })) ∧
      s.files.Still (s.files.afterLookup slot rel) slot := by
  obtain ⟨hlook, hstill⟩ := ht.lookup (.refl s.files slot)
  refine ⟨fun flags => ?_, hstill⟩
  simp [preCheck, hroot, Files.statTarget, ht.mount, hlook, Except.map]

theorem openPath_target (ht : Target f path rel slot ino st) (hstill : f.Still s.files slot)
    (perms : UInt32) :
    (s.fds.freeSlots .process = [] ∧ s.openPath w p path perms = (.error .badFd, s)) ∨
    (s.fds.freeSlots .process ≠ [] ∧ f.Still (s.files.afterLookup slot rel) slot ∧
      ((openGrants p st perms = false ∧ ∃ fds, s.openPath w p path perms =
          (.error .perm, ⟨s.files.afterLookup slot rel, fds⟩)) ∨
        (openGrants p st perms = true ∧ ∃ token fds, s.openPath w p path perms =
            (.ok token, ⟨s.files.afterLookup slot rel, fds⟩) ∧ Opened fds token perms st.ino slot))) := by
  have hmount := ht.resolved hstill
  obtain ⟨hlook, hstill'⟩ := ht.lookup hstill
  rcases FdTable.allocFd_cases s.fds .process perms with ⟨hfull, halloc⟩ | ⟨idx, rest, t, hfree, halloc, hmark⟩
  · exact .inl ⟨hfull, by simp [openPath, hmount, halloc]⟩
  · refine .inr ⟨by simp [hfree], hstill', ?_⟩
    cases hgrant : openGrants p st perms with
    | false =>
      refine .inl ⟨rfl, t.fdClear idx, ?_⟩
      simp [openPath, hmount, halloc, Files.findNode, hlook, hgrant, FdTable.openFound]
    | true =>
      refine .inr ⟨rfl, t.tokenOf idx, t.fdSet idx st.ino (min st.size.toNat 0xFFFFFFFF) .onyx 0 slot.mnt, ?_,
        idx, ?_, ?_, ?_, ?_⟩
      · simp [openPath, hmount, halloc, Files.findNode, hlook, hgrant, FdTable.openFound]
      · simp [hmark, FdTable.taken]
      · simp [FdTable.tokenOf_eq]
      · simp [FdTable.fdSet, allocFd_perms halloc]
      · simp [FdTable.fdSet]

theorem readdirNotDir_target (ht : Target f path rel slot ino st) (hstill : f.Still s.files slot) :
    (s.readdirNotDir w path).1 = decide (fileType st.mode ≠ fileType dtDir) := by
  have hmount := ht.resolved hstill
  obtain ⟨f', hdir, -⟩ := hstill.withMount ht.resolveDir
  simp only [readdirNotDir, hmount, hdir]
  by_cases h : fileType st.mode = fileType dtDir <;> simp [h, isNotDir]

theorem truncate_target (slot : Slot) {idx : Fin 16} (hcheck : s.fds.fdCheck token = .ok idx)
    (hfs : (s.fds idx).fs = .onyx) (hmnt : (s.fds idx).mnt = slot.mnt) : (s.truncate token).2 =
      { s with files := (s.files.withMount slot (OnyxFs.truncate (s.fds idx).ino)).2 } := by
  simp [truncate, hcheck, hfs, hmnt, slotOf_mnt]

theorem withMount_resolvePath {α : Type} (f : Files) (slot : Slot) (q : OnyxFs.Fs α) (path : List UInt8) :
    (f.withMount slot q).2.resolvePath path = f.resolvePath path := rfl

theorem seekEnd_files (s : VfsState) (token : UInt64) : (s.seekEnd token).files = s.files := by
  unfold seekEnd
  split <;> rfl

theorem holds_seekEnd (h : Holds s.fds token perms) : Holds (s.seekEnd token).fds token perms := by
  unfold seekEnd
  split
  · exact h
  · rename_i idx _
    exact h.update idx rfl rfl

theorem holds_recordFlags (h : Holds s.fds token perms) (flags : UInt32) :
    Holds (s.recordFlags token flags).fds token perms := by
  unfold recordFlags
  split
  · exact h
  · rename_i idx _
    exact h.update idx rfl rfl

theorem readdirNotDir_fds (s : VfsState) (w : Foreign) (path : List UInt8) :
    (s.readdirNotDir w path).2.fds = s.fds := by
  unfold readdirNotDir
  split <;> rfl

theorem readdirNotDir_congr {u : VfsState} (h : u.files = s.files) :
    (u.readdirNotDir w path).1 = (s.readdirNotDir w path).1 := by
  unfold readdirNotDir
  rw [h]
  split <;> rfl

theorem finish_target (flags : UInt32) (ht : Target f path rel slot ino st) (hstill : f.Still s.files slot)
    (hlooked : s.files = (f.afterLookup slot rel).afterLookup slot rel) (hfd : Opened s.fds token perms st.ino slot) :
    if dirRefused f slot rel st flags then (s.finish w path flags token).1 = .error .notDir
    else (s.finish w path flags token).1 = .ok token ∧ Holds (s.finish w path flags token).2.fds token perms := by
  have hmount := ht.resolved hstill
  obtain ⟨idx, hused, htoken, hperms, hino, hfs, hmnt⟩ := hfd
  have hcheck : s.fds.fdCheck token = .ok idx := htoken ▸ FdTable.fdCheck_tokenOf hused
  have htrunc := truncate_target slot hcheck hfs hmnt
  rw [hino] at htrunc
  -- The state at the last lookup: the descriptor is open, and the files are known.
  have hholds : Holds (s.prepare flags token).fds token perms := by
    have hbefore : Holds (if truncates flags then (s.truncate token).2 else s).fds token perms := by
      split
      · rw [htrunc]
        exact ⟨idx, hused, htoken, hperms⟩
      · exact ⟨idx, hused, htoken, hperms⟩
    unfold prepare
    dsimp only
    split
    · exact holds_seekEnd hbefore
    · exact hbefore
  have hfiles : (s.prepare flags token).files = (if truncates flags then (s.truncate token).2 else s).files := by
    unfold prepare
    dsimp only
    split
    · exact seekEnd_files _ _
    · rfl
  have hnotDir : has flags oDirectory = true →
      ((s.prepare flags token).readdirNotDir w path).1 = dirRefused f slot rel st flags := by
    intro hd
    simp only [readdirNotDir_congr hfiles, dirRefused, hd, Bool.true_and, ← hlooked]
    split
    · rw [htrunc]
      simp only [readdirNotDir, withMount_resolvePath, hmount]
    · exact readdirNotDir_target ht hstill
  unfold finish
  dsimp only
  cases hd : has flags oDirectory with
  | false =>
    simp only [dirRefused, hd]
    exact ⟨rfl, holds_recordFlags hholds flags⟩
  | true =>
    rw [if_pos rfl, hnotDir hd]
    cases dirRefused f slot rel st flags with
    | false =>
      refine ⟨rfl, holds_recordFlags ?_ flags⟩
      rw [readdirNotDir_fds]
      exact hholds
    | true => rfl

theorem openAbsolute_target (ht : Target s.files path rel slot ino st) (hroot : p.isRoot = false)
    (flags mode : UInt32) : if textRefused p path = false ∧ sysGrants p st flags = true ∧
        openGrants p st (openPerms flags) = true ∧ s.fds.freeSlots .process ≠ [] ∧
        (has flags oExcl && has flags oCreat) = false ∧ dirRefused s.files slot rel st flags = false then
      ∃ token, (s.openAbsolute w p path flags mode).1 = .ok token ∧
        Holds (s.openAbsolute w p path flags mode).2.fds token (openPerms flags)
    else ∃ e, (s.openAbsolute w p path flags mode).1 = .error e := by
  obtain ⟨hpre, hstill⟩ := preCheck_target ht hroot
  unfold openAbsolute
  cases htext : textRefused p path with
  | true => exact ⟨.perm, rfl⟩
  | false =>
    rw [hpre flags]
    cases hsys : sysGrants p st flags with
    | false => exact ⟨.perm, rfl⟩
    | true =>
      rcases openPath_target ht (s := { s with files := s.files.afterLookup slot rel }) (w := w) (p := p) hstill
        (openPerms flags) with ⟨hfull, hopen⟩ |
          ⟨hfree, hstill', ⟨hno, fds, hopen⟩ | ⟨hyes, token, fds, hopen, hfd⟩⟩
      · have hfull : s.fds.freeSlots .process = [] := hfull
        simp [hopen, hfull]
      · simp [hopen, hno]
      · have hfree : s.fds.freeSlots .process ≠ [] := hfree
        cases hexcl : has flags oExcl && has flags oCreat with
        | true => simp [hopen]
        | false =>
          have hend := finish_target (s := ⟨(s.files.afterLookup slot rel).afterLookup slot rel, fds⟩) (w := w)
            flags ht hstill' rfl hfd
          simp only [hopen, Bool.not_true, Bool.false_eq_true, if_false]
          split
          · rename_i hall
            rw [hall.2.2.2.2.2] at hend
            exact ⟨token, hend⟩
          · rename_i hnot
            have hdir : dirRefused s.files slot rel st flags = true := by
              rw [← Bool.not_eq_false]
              exact fun hdir => hnot ⟨trivial, trivial, hyes, hfree, trivial, hdir⟩
            rw [hdir] at hend
            exact ⟨.notDir, hend⟩

end

end VfsState

/-! ## Bits -/

theorem has_eq_testBit (m : UInt32) {k : Nat} (hk : k < 32) : has m (UInt32.ofNat (2 ^ k)) = m.toNat.testBit k := by
  have hpow : (2 : Nat) ^ k < 4294967296 := Nat.pow_lt_pow_right (by omega) hk
  have hzero : m &&& UInt32.ofNat (2 ^ k) = 0 ↔ m.toNat.testBit k = false := by
    rw [← UInt32.toNat_inj, UInt32.toNat_and, UInt32.toNat_ofNat', Nat.mod_eq_of_lt hpow, Nat.and_two_pow]
    cases m.toNat.testBit k <;> simp
  unfold has
  cases hb : m.toNat.testBit k <;> simp_all

theorem has_and (m mask flag : UInt32) : has (m &&& mask) flag = has m (mask &&& flag) := by
  simp [has, UInt32.and_assoc]

/-- The bits that the tests for `0o400` and `0o200` find in a mode moved to the right by three. -/
theorem has_shifted (m : UInt32) :
    has (m >>> 3 &&& 0o700) 0o400 = m.toNat.testBit 11 ∧ has (m >>> 3 &&& 0o700) 0o200 = m.toNat.testBit 10 := by
  have hread := has_eq_testBit (m >>> 3) (k := 8) (by omega)
  have hwrite := has_eq_testBit (m >>> 3) (k := 7) (by omega)
  rw [has_and, has_and]
  exact ⟨hread, hwrite⟩

theorem has_or (m a b : UInt32) : has m (a ||| b) = (has m a || has m b) := by
  have hdist : m &&& (a ||| b) = (m &&& a) ||| (m &&& b) := by
    rw [← UInt32.toNat_inj]
    simp [Nat.and_or_distrib_left]
  simp [has, hdist]

theorem accMode_cases (flags : UInt32) :
    accMode flags = oRdonly ∨ accMode flags = oWronly ∨ accMode flags = oRdwr ∨ accMode flags = oAccmode := by
  have hlt : (accMode flags).toNat < 4 := by
    exact Nat.lt_of_le_of_lt Nat.and_le_right (by decide)
  simp only [← UInt32.toNat_inj]
  have : oRdonly.toNat = 0 ∧ oWronly.toNat = 1 ∧ oRdwr.toNat = 2 ∧ oAccmode.toNat = 3 := by decide
  omega

/-! ## What is granted -/

/-- The bits that the code takes for those of the class of the process. The group is given the set-uid and
set-gid bits, and others nothing. -/
def codeBits (p : Proc) (st : OnyxFs.Stat) : Bool × Bool :=
  if p.uid = st.uid then (st.mode.toNat.testBit 8, st.mode.toNat.testBit 7)
  else if p.gid = st.gid then (st.mode.toNat.testBit 11, st.mode.toNat.testBit 10)
  else (false, false)

def classBits (p : Proc) (st : OnyxFs.Stat) : Bool × Bool :=
  if p.uid = st.uid then (st.mode.toNat.testBit 8, st.mode.toNat.testBit 7)
  else if p.gid = st.gid then (st.mode.toNat.testBit 5, st.mode.toNat.testBit 4)
  else (st.mode.toNat.testBit 2, st.mode.toNat.testBit 1)

theorem grants_eq (bits : UInt32) (wantRead wantWrite : Bool) :
    grants bits wantRead wantWrite = ((!wantRead || has bits 0o400) && (!wantWrite || has bits 0o200)) := rfl

theorem openPerms_read (flags : UInt32) : has (openPerms flags) permRead = true := by
  unfold openPerms
  split <;> rfl

theorem openPerms_write (flags : UInt32) : has (openPerms flags) permWrite = !decide (accMode flags = oRdonly) := by
  unfold openPerms
  by_cases h : accMode flags = oRdonly
  · simp [h]
    rfl
  · simp [h]
    rfl

def onlyReads (flags : UInt32) : Bool := accMode flags = oRdonly && !has flags oTrunc && !has flags oAppend

/-- Both checks together want to read, and also to write unless the flags only ask for reading. -/
theorem granted_eq {p : Proc} (hroot : p.isRoot = false) (st : OnyxFs.Stat) (flags : UInt32) :
    (sysGrants p st flags && openGrants p st (openPerms flags)) =
      ((codeBits p st).1 && (onlyReads flags || (codeBits p st).2)) := by
  have hmode := accMode_cases flags
  unfold sysGrants openGrants onlyReads
  rw [hroot, openPerms_read, openPerms_write, has_or, grants_eq, grants_eq]
  generalize has flags oTrunc = t
  generalize has flags oAppend = a
  generalize has flags oCreat = c
  by_cases hown : p.uid = st.uid
  · have hread : has (st.mode &&& 0o700) 0o400 = st.mode.toNat.testBit 8 :=
      (has_and ..).trans (has_eq_testBit st.mode (k := 8) (by omega))
    have hwrite : has (st.mode &&& 0o700) 0o200 = st.mode.toNat.testBit 7 :=
      (has_and ..).trans (has_eq_testBit st.mode (k := 7) (by omega))
    simp only [sysBits, openBits, codeBits, hown, if_true, hread, hwrite]
    generalize st.mode.toNat.testBit 8 = r
    generalize st.mode.toNat.testBit 7 = w
    rcases hmode with h | h | h | h <;> rw [h] <;> revert r w t a c <;> decide
  · by_cases hgrp : p.gid = st.gid
    · obtain ⟨hread, hwrite⟩ := has_shifted st.mode
      simp only [sysBits, openBits, codeBits, hown, hgrp, if_true, if_false, hread, hwrite]
      generalize st.mode.toNat.testBit 11 = r
      generalize st.mode.toNat.testBit 10 = w
      rcases hmode with h | h | h | h <;> rw [h] <;> revert r w t a c <;> decide
    · have hread : has (st.mode &&& 0o007) 0o400 = false := by
        rw [has_and, show (0o007 &&& 0o400 : UInt32) = 0 from rfl]
        simp [has]
      simp [openBits, codeBits, hown, hgrp, hread]

/-- The bits that the code takes grant the access, a slot is free and the file may exist. -/
def grantedAnyhow (s : VfsState) (p : Proc) (st : OnyxFs.Stat) (flags : UInt32) : Bool :=
  (codeBits p st).1 && (onlyReads flags || (codeBits p st).2) && !(s.fds.freeSlots .process).isEmpty &&
    !(has flags oExcl && has flags oCreat)

/-- The spelling is refused: by its text, or because it does not lead to a directory. -/
def spellingRefused (s : VfsState) (p : Proc) (path rel : List UInt8) (slot : Slot) (st : OnyxFs.Stat)
    (flags : UInt32) : Bool :=
  textRefused p path || dirRefused s.files slot rel st flags

theorem sysOpen_target {s : VfsState} {w : Foreign} {p : Proc} {bytes path rel : List UInt8} {slot : Slot} {ino : Nat}
    {st : OnyxFs.Stat} (flags mode : UInt32) (hroot : p.isRoot = false)
    (hpath : resolveOpenPath (parseUserPath bytes) p.cwd = some path) (ht : Target s.files path rel slot ino st) :
    if grantedAnyhow s p st flags = true ∧ spellingRefused s p path rel slot st flags = false then
      ∃ token, (s.sysOpen w p bytes flags mode).1 = .ok token ∧
        Holds (s.sysOpen w p bytes flags mode).2.fds token (openPerms flags)
    else ∃ e, (s.sysOpen w p bytes flags mode).1 = .error e := by
  have hsys : s.sysOpen w p bytes flags mode = s.openAbsolute w p path flags mode := by
    simp [VfsState.sysOpen, hpath]
  rw [hsys]
  refine Eq.mp (if_congr ?_ rfl rfl) (VfsState.openAbsolute_target (w := w) ht hroot flags mode)
  rw [grantedAnyhow, spellingRefused, ← granted_eq hroot]
  simp only [Bool.and_eq_true, Bool.not_eq_true', Bool.or_eq_false_iff, ne_eq, List.isEmpty_eq_false_iff]
  tauto

/-! ## The rule -/

def impliesRead (flags : UInt32) : Bool := accMode flags = oRdonly || accMode flags = oRdwr

/-- The access mode, or `O_TRUNC`, implies writing. -/
def impliesWrite (flags : UInt32) : Bool := accMode flags = oWronly || accMode flags = oRdwr || has flags oTrunc

/-- The bits for the class of the process grant what the flags imply. -/
def allowed (p : Proc) (st : OnyxFs.Stat) (flags : UInt32) : Bool :=
  (!impliesRead flags || (classBits p st).1) && (!impliesWrite flags || (classBits p st).2)

/-- A descriptor is returned exactly if the rule allows it, and it can be used only for what was asked. -/
structure Enforced (p : Proc) (st : OnyxFs.Stat) (flags : UInt32) (r : Except Errno UInt64 × VfsState) : Prop where
  returned : (∃ token, r.1 = .ok token) ↔ allowed p st flags = true
  read : ∀ token, r.1 = .ok token → (∃ idx, r.2.fds.fdCheckPerm token permRead = .ok idx) →
    impliesRead flags = true
  write : ∀ token, r.1 = .ok token → (∃ idx, r.2.fds.fdCheckPerm token permWrite = .ok idx) →
    impliesWrite flags = true

/-- Where the code and the rule agree, for each class. `dir` says that `O_DIRECTORY` is refused. -/
def rulesAgree (p : Proc) (st : OnyxFs.Stat) (flags : UInt32) (dir : Bool) : Bool :=
  let bit := st.mode.toNat.testBit
  let trunc := has flags oTrunc
  let append := has flags oAppend
  if p.uid = st.uid then
    if accMode flags = oRdonly then
      if dir then !(bit 8 && (!trunc || bit 7)) else !(append && !trunc && bit 8 && !bit 7)
    else if accMode flags = oRdwr then !(dir && bit 8 && bit 7)
    else if accMode flags = oWronly then !bit 7
    else trunc && !bit 7
  else if p.gid = st.gid then
    let opens := bit 11 && (onlyReads flags || bit 10) && !dir
    if accMode flags = oRdonly then opens == (bit 5 && (!trunc || bit 4))
    else if accMode flags = oRdwr then opens == (bit 5 && bit 4)
    else if accMode flags = oWronly then !bit 4 && !opens
    else trunc && !bit 4 && !opens
  else
    if accMode flags = oRdonly then !(bit 2 && (!trunc || bit 1))
    else if accMode flags = oRdwr then !(bit 2 && bit 1)
    else if accMode flags = oWronly then !bit 1
    else trunc && !bit 1

/-- The descriptor is returned by `opens` and then has both permissions, unless it is for reading only. -/
theorem enforced_iff {p : Proc} {st : OnyxFs.Stat} {flags : UInt32} {r : Except Errno UInt64 × VfsState}
    {opens : Bool} (hopens : if opens then ∃ token, r.1 = .ok token ∧ Holds r.2.fds token (openPerms flags)
      else ∃ e, r.1 = .error e) :
    Enforced p st flags r ↔
      opens = allowed p st flags ∧ (opens = true → impliesRead flags = true ∧
        (accMode flags ≠ oRdonly → impliesWrite flags = true)) := by
  cases opens with
  | false =>
    obtain ⟨e, he⟩ := hopens
    have hnone : ∀ token, r.1 ≠ .ok token := by simp [he]
    refine ⟨fun h => ⟨?_, fun hf => nomatch hf⟩, fun h => ⟨?_, fun t ht => absurd ht (hnone t),
      fun t ht => absurd ht (hnone t)⟩⟩
    · have hret := h.returned
      simp only [hnone, exists_false, false_iff, Bool.not_eq_true] at hret
      exact hret.symm
    · simp [hnone, ← h.1]
  | true =>
    obtain ⟨token, htoken, hholds⟩ := hopens
    have hone : ∀ {t}, r.1 = .ok t → t = token := fun ht => Except.ok.inj (ht.symm.trans htoken)
    have hread : ∃ idx, r.2.fds.fdCheckPerm token permRead = .ok idx :=
      (hholds.fdCheckPerm permRead).mpr (openPerms_read flags)
    have hwrite : (∃ idx, r.2.fds.fdCheckPerm token permWrite = .ok idx) ↔ accMode flags ≠ oRdonly := by
      rw [hholds.fdCheckPerm, openPerms_write]
      simp
    refine ⟨fun h => ⟨(h.returned.mp ⟨token, htoken⟩).symm, fun _ => ⟨h.read token htoken hread, fun hne =>
      h.write token htoken (hwrite.mpr hne)⟩⟩, fun h => ⟨?_, fun t ht _ => (h.2 rfl).1, fun t ht hw => ?_⟩⟩
    · simp [← h.1, htoken]
    · rw [hone ht] at hw
      exact (h.2 rfl).2 (hwrite.mp hw)

theorem rulesAgree_iff (p : Proc) (st : OnyxFs.Stat) (flags : UInt32) (dir : Bool) :
    (((codeBits p st).1 && (onlyReads flags || (codeBits p st).2) && !dir) = allowed p st flags ∧
      (((codeBits p st).1 && (onlyReads flags || (codeBits p st).2) && !dir) = true →
        impliesRead flags = true ∧ (accMode flags ≠ oRdonly → impliesWrite flags = true))) ↔
    rulesAgree p st flags dir = true := by
  have hmode := accMode_cases flags
  unfold rulesAgree allowed impliesRead impliesWrite onlyReads codeBits classBits
  generalize st.mode.toNat.testBit = bit
  generalize has flags oTrunc = t
  generalize has flags oAppend = a
  by_cases hown : p.uid = st.uid
  · simp only [hown, if_true]
    generalize bit 8 = r
    generalize bit 7 = w
    rcases hmode with h | h | h | h <;> rw [h] <;> revert r w t a dir <;> decide
  · by_cases hgrp : p.gid = st.gid
    · simp only [hown, hgrp, if_true, if_false]
      generalize bit 11 = u
      generalize bit 10 = g
      generalize bit 5 = r
      generalize bit 4 = w
      rcases hmode with h | h | h | h <;> rw [h] <;> revert u g r w t a dir <;> decide
    · simp only [hown, hgrp, if_false]
      generalize bit 2 = r
      generalize bit 1 = w
      rcases hmode with h | h | h | h <;> rw [h] <;> revert r w t a dir <;> decide

/-- `sys_open` enforces the bits of a file exactly where `rulesAgree` says so. -/
theorem permissions_enforced_iff {s : VfsState} (w : Foreign) {p : Proc} {bytes path rel : List UInt8}
    {slot : Slot} {ino : Nat} {st : OnyxFs.Stat} {flags : UInt32} (mode : UInt32) (huser : p.uid ≠ 0)
    (hring : p.ring = ringUser) (hexcl : has flags oExcl = false) (hslot : s.fds.freeSlots .process ≠ [])
    (hpath : resolveOpenPath (parseUserPath bytes) p.cwd = some path)
    (hservice : serviceDir.isPrefixOf path = false) (hshadow : shadowText path = false)
    (ht : Target s.files path rel slot ino st) :
    Enforced p st flags (s.sysOpen w p bytes flags mode) ↔
      rulesAgree p st flags (dirRefused s.files slot rel st flags) = true := by
  have hroot : p.isRoot = false := by simp [Proc.isRoot, huser, hring, ringRoot, ringUser]
  have htext : textRefused p path = false := by simp [textRefused, serviceText, hservice, hshadow]
  have hresult := sysOpen_target (w := w) flags mode hroot hpath ht
  rw [← rulesAgree_iff]
  refine enforced_iff ?_
  simpa [grantedAnyhow, spellingRefused, htext, hslot, hexcl] using hresult

/-! ## One file

A root volume with the file `/f` of the given mode and owner, and no mounts. -/

def fileVolume (mode uid gid : UInt32) : OnyxFs.FsState :=
  { OnyxFs.treeVolume Infra.Bytes.zero with
    disk := Function.update (OnyxFs.treeVolume Infra.Bytes.zero).disk 3
      ((Infra.Bytes.zero.blit 0 (OnyxFs.oneBlock dtDir 4).toBytes).blit 128
        { OnyxFs.oneBlock mode 5 with uid, gid }.toBytes) }

def oneFile (mode uid gid : UInt32) : VfsState where
  files := { mounts := fun _ => ⟨[], .none⟩, rootFs := .onyx, volume := fun _ => fileVolume mode uid gid }
  fds := .fresh

def Foreign.none : Foreign := ⟨fun _ _ _ => .missing .noEnt, fun _ _ _ => false⟩

def user (id : UInt32) : Proc := { uid := id, gid := id, ring := 2, umask := 0o022, cwd := [47] }

theorem oneFile_target (mode uid gid : UInt32)
    (h : (OnyxFs.lookupFollowAt (fileVolume mode uid gid).vol (fileVolume mode uid gid).disk 9 [102]).toOption.any
      (fun r => r.2.mode = mode && r.2.uid = uid && r.2.gid = gid) = true) :
    ∃ ino st, Target (oneFile mode uid gid).files [47, 102] [102] none ino st ∧ st.mode = mode ∧ st.uid = uid ∧
      st.gid = gid := by
  cases hlook : OnyxFs.lookupFollowAt (fileVolume mode uid gid).vol (fileVolume mode uid gid).disk 9 [102] with
  | error e =>
    rw [hlook] at h
    cases h
  | ok r =>
    rw [hlook] at h
    simp only [Except.toOption, Option.any_some, Bool.and_eq_true, decide_eq_true_eq] at h
    refine ⟨r.1, r.2, ⟨rfl, ?_⟩, h.1.1, h.1.2, h.2⟩
    have hgives := OnyxFs.lookupFollow_gives (s := fileVolume mode uid gid) (fun _ => rfl) 9 [102]
    rw [hlook] at hgives
    exact hgives

/-- The owner of a file opens it for reading and writing. -/
theorem permissions_enforced_owner :
    ∃ ino st, Target (oneFile 0o100600 1000 1000).files [47, 102] [102] none ino st ∧
      Enforced (user 1000) st oRdwr ((oneFile 0o100600 1000 1000).sysOpen .none (user 1000) [47, 102] oRdwr 0) ∧
      ((oneFile 0o100600 1000 1000).sysOpen .none (user 1000) [47, 102] oRdwr 0).1.toOption = some (fdToken 3 1) := by
  obtain ⟨ino, st, ht, hmode, huid, hgid⟩ := oneFile_target 0o100600 1000 1000 (by decide +kernel)
  refine ⟨ino, st, ht, ?_, by decide +kernel⟩
  refine (permissions_enforced_iff .none 0 (by decide) rfl (by decide) (by decide) (by decide) (by decide)
    (by decide) ht).mpr ?_
  have hdir : dirRefused (oneFile 0o100600 1000 1000).files none [102] st oRdwr = false := rfl
  simp only [rulesAgree, hmode, huid]
  rfl

/-- A file that everybody may read, mode `rw-r--r--`: `sys_open` refuses to open it for reading to a process that
is neither its owner nor in its group. -/
theorem others_refused :
    ∃ ino st, Target (oneFile 0o100644 0 0).files [47, 102] [102] none ino st ∧
      allowed (user 1000) st oRdonly = true ∧
      ((oneFile 0o100644 0 0).sysOpen .none (user 1000) [47, 102] oRdonly 0).1.toOption = none ∧
      ¬Enforced (user 1000) st oRdonly
        ((oneFile 0o100644 0 0).sysOpen .none (user 1000) [47, 102] oRdonly 0) := by
  obtain ⟨ino, st, ht, hmode, huid, hgid⟩ := oneFile_target 0o100644 0 0 (by decide +kernel)
  have hallowed : allowed (user 1000) st oRdonly = true := by
    simp only [allowed, classBits, hmode, huid, hgid]
    decide
  have hnone : ((oneFile 0o100644 0 0).sysOpen .none (user 1000) [47, 102] oRdonly 0).1.toOption = none := by
    decide +kernel
  refine ⟨ino, st, ht, hallowed, hnone, fun h => ?_⟩
  obtain ⟨token, htoken⟩ := h.returned.mpr hallowed
  rw [htoken] at hnone
  cases hnone

end Vfs
