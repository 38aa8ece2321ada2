import OnyxKernel.OnyxFs.Listing
import OnyxKernel.OnyxFs.DirectorySpec
import OnyxKernel.OnyxFs.ReadWrite
import OnyxKernel.OnyxFs.TruncateSpec

/-!
# Ownership over every run

Each mutating operation, when it returns a value, takes a volume in order to a volume in order,
provided it works on live inodes and stays off two code paths: adding a table entry in `write`, and
freeing one in `truncate` and `shrink`. From this the invariant holds along every sequence of
successful operations.
-/

namespace OnyxFs

open Infra Onyx StateProg

variable {e : Env} {d : Disk Block} {t : FsState} {alive : Nat → Bool} {ino : Nat}

/-! ## Lookups only read -/

theorem readInode_reads (ino : Nat) : (readInode ino).Within FsCmd.Reads := by
  unfold readInode
  split
  · exact trivial
  refine (CmdProg.within_cmd trivial).bind fun v => ?_
  split
  · exact trivial
  · exact (CmdProg.within_cmd trivial).bind fun _ => (CmdProg.within_cmd trivial).bind fun _ => trivial

theorem stat_reads (ino : Nat) : (stat ino).Within FsCmd.Reads := (readInode_reads ino).bind fun _ => trivial

theorem lookupIn_reads (dirIno : Nat) (name : List UInt8) : (lookupIn dirIno name).Within FsCmd.Reads := by
  refine (readInode_reads dirIno).bind fun x => (CmdProg.within_cmd trivial).bind fun v => ?_
  refine (CmdProg.within_findUpTo (fun i => ?_) 10 0).bind fun r => ?_
  · split
    · split
      · exact trivial
      refine (CmdProg.within_cmd trivial).bind fun _ => (CmdProg.within_cmd trivial).bind fun b => ?_
      split
      · exact trivial
      · exact (stat_reads _).bind fun _ => trivial
    · exact trivial
  · cases r <;> exact trivial

theorem walkNofollow_reads : ∀ (fuel cur : Nat) (path : List UInt8), (walkNofollow fuel cur path).Within FsCmd.Reads
  | 0, _, _ => trivial
  | fuel + 1, cur, path => by
    unfold walkNofollow
    simp only
    split
    · exact trivial
    refine (lookupIn_reads _ _).bind fun r => ?_
    split
    · exact trivial
    · exact walkNofollow_reads fuel _ _

theorem lookupNofollow_reads (path : List UInt8) : (lookupNofollow path).Within FsCmd.Reads :=
  (walkNofollow_reads _ _ _).bind fun _ => (stat_reads _).bind fun _ => trivial

theorem readlink_reads (ino len : Nat) : (readlink ino len).Within FsCmd.Reads := by
  refine (CmdProg.within_cmd trivial).bind fun v => ?_
  split
  · exact trivial
  refine (readInode_reads ino).bind fun x => ?_
  split
  · exact trivial
  split
  · exact trivial
  · exact (CmdProg.within_cmd trivial).bind fun _ => (CmdProg.within_cmd trivial).bind fun _ => trivial

theorem followLoop_reads {again : List UInt8 → FsProg (Nat × Stat)}
    (ha : ∀ p, (again p).Within FsCmd.Reads) (path : List UInt8) :
    ∀ fuel cur offset : Nat, (followLoop again path fuel cur offset).Within FsCmd.Reads
  | 0, _, _ => (stat_reads _).bind fun _ => trivial
  | fuel + 1, cur, offset => by
    unfold followLoop
    simp only
    split
    · exact (stat_reads _).bind fun _ => trivial
    refine (lookupIn_reads _ _).bind fun r => ?_
    split
    · exact (readlink_reads _ _).bind fun _ => ha _
    · exact followLoop_reads ha path fuel _ _

theorem lookupFollow_reads : ∀ (n : Nat) (path : List UInt8), (lookupFollow n path).Within FsCmd.Reads
  | 0, _ => trivial
  | n + 1, path => followLoop_reads (lookupFollow_reads n) path _ _ _

theorem parentIno_reads (parent : List UInt8) : (parentIno parent).Within FsCmd.Reads := by
  unfold parentIno
  split
  · exact trivial
  · exact (lookupFollow_reads _ _).bind fun _ => trivial

/-! ## What an operation is asked to do -/

/-- The lookup `p` can return `a` on the home blocks `d`. -/
def Answers {α : Type} (e : Env) (d : Disk Block) (p : FsProg α) (a : α) : Prop :=
  ∃ t u, On e d t ∧ (exec p).run t = (.ok a, u)

theorem reads_answers {α : Type} {p : FsProg α} (hp : p.Within FsCmd.Reads) (h : On e d t) :
    Does e p (fun a u => Answers e d p a ∧ On e d u) t :=
  (reads_spec hp h).ran.mono fun _ u hu => ⟨⟨t, u, h, hu.1⟩, hu.2⟩

def parentOf (path : List UInt8) : FsProg Nat := parentIno (splitLast (path.drop 1)).1

/-- The operation works on live inodes only, a write finds every table entry it needs, and no table
entry is freed outside `unlink`. -/
def FsOp.Safe (e : Env) (d : Disk Block) : FsOp → Prop
  | create dirIno _ _ => live e.toVolume d dirIno = true
  | mkdir dirIno _ => live e.toVolume d dirIno = true
  | symlink dirIno _ _ => live e.toVolume d dirIno = true
  | write ino data off => live e.toVolume d ino = true ∧
      EntriesExist (inodeAt e.toVolume d ino) (entsAt d (inodeAt e.toVolume d ino)) off data.length
  | truncate ino => live e.toVolume d ino = true ∧
      NoEntries (inodeAt e.toVolume d ino) (entsAt d (inodeAt e.toVolume d ino)) 0
  | truncateToLength ino length => live e.toVolume d ino = true ∧
      DropsNoEntry (inodeAt e.toVolume d ino) (entsAt d (inodeAt e.toVolume d ino)) length
  | unlink path => (∀ dir, Answers e d (parentOf path) dir → live e.toVolume d dir = true) ∧
      ∀ r, Answers e d (lookupNofollow path) r → live e.toVolume d r.1 = true
  | rename oldPath newPath =>
      (∀ dir, Answers e d (parentOf oldPath) dir → live e.toVolume d dir = true) ∧
      ∀ dir, Answers e d (parentOf newPath) dir → live e.toVolume d dir = true

/-! ## The operations -/

def Ordered (e : Env) (t : FsState) : Prop := ∃ d, BlocksOwned e.toVolume d ∧ On e d t

theorem Resting.ordered (h : Resting e alive t) : Ordered e t := by
  obtain ⟨d, hon, hb, -⟩ := h
  exact ⟨d, hb, hon⟩

theorem alive_update (h : alive ino = true) (i : Nat) : Function.update alive i true ino = true := by
  by_cases hi : ino = i
  · subst hi
    exact Function.update_self ..
  · rw [Function.update_of_ne hi]
    exact h

section

variable (hl : Layout e.toVolume)
include hl

theorem createBody_ordered (h : On e d t) (hb : BlocksOwned e.toVolume d)
    {dir : Nat} (hdir : live e.toVolume d dir = true) (name : List UInt8) (mode : UInt32) :
    Does e (createBody dir name mode) (fun _ => Ordered e) t := by
  obtain ⟨b, hat⟩ := h
  refine (checkV2_spec hat).bind fun _ u hu => ?_
  split
  · exact .fail hu.stopped
  refine (allocInode_working hl hu.on hb).bind ?_
  rintro ino u ⟨ents, hu⟩
  refine (jiffies_working hu).bind fun now u hu => ?_
  have hw := hu.congr (y := newInode mode 1 0 now) rfl rfl rfl
  exact linkInode_spec hl hw (alive_update hdir ino) name 8 fun u hu => .pure hu.ordered

theorem firstBlock_ordered {ents : Nat → UInt32}
    (h : Working e alive ino (· = ino) nothing Inode.zero ents t) {dir : Nat}
    (hdir : alive dir = true) (contents : Block) (x : Inode) (hx : Inode.zero.SamePtrs x)
    (name : List UInt8) (dtype : UInt8) : Does e (do
      let blk ← allocDataBlock
      putBuf blk.toNat contents
      writeInode ino (x.setBlock 0 blk)
      addDirent dir name ino dtype
      pure ino) (fun _ => Ordered e) t := by
  refine (allocDataBlock_working hl h (s := .direct 0) rfl trivial rfl).bind ?_
  rintro blk u ⟨hne, hu⟩
  have hptr : (Inode.zero.setPtr blk (.direct 0)).ptr ents (.direct 0) = blk := by
    simp [Inode.setPtr, Inode.setBlock, Inode.ptr]
  refine (putBuf_working hl hu hne hptr (by simp) contents).bind fun _ u hu => ?_
  have hset := hx.setPtr blk (.direct 0)
  have hw := hu.congr (y := x.setBlock 0 blk) hset.blocks hset.indirect hset.doubleIndirect
  exact linkInode_spec hl hw hdir name dtype fun u hu => .pure hu.ordered

section

variable (h : On e d t) (hb : BlocksOwned e.toVolume d) {dir : Nat} (hdir : live e.toVolume d dir = true)
include h hb hdir

theorem mkdirBody_ordered (name : List UInt8) : Does e (mkdirBody dir name) (fun _ => Ordered e) t := by
  obtain ⟨b, hat⟩ := h
  refine (checkV2_spec hat).bind fun _ u hu => ?_
  split
  · exact .fail hu.stopped
  refine (allocInode_working hl hu.on hb).bind ?_
  rintro ino u ⟨ents, hu⟩
  refine (jiffies_working hu).bind fun now u hu => ?_
  have hx : Inode.zero.SamePtrs (newInode dtDir 2 0 now) := ⟨rfl, rfl, rfl⟩
  exact firstBlock_ordered hl hu (alive_update hdir ino) (dotBlock ino dir) _ hx name 4

theorem symlinkBody_ordered (name target : List UInt8) :
    Does e (symlinkBody dir name target) (fun _ => Ordered e) t := by
  obtain ⟨b, hat⟩ := h
  refine (checkV2_spec hat).bind fun _ u hu => ?_
  split
  · exact .fail hu.stopped
  split
  · exact .fail hu.stopped
  refine (allocInode_working hl hu.on hb).bind ?_
  rintro ino u ⟨ents, hu⟩
  refine (jiffies_working hu).bind fun now u hu => ?_
  have hx : Inode.zero.SamePtrs (newInode dtLnk 1 (UInt64.ofNat target.length) now) := ⟨rfl, rfl, rfl⟩
  exact firstBlock_ordered hl hu (alive_update hdir ino) _ _ hx name 10

end

theorem unlinkBody_ordered (h : On e d t) (hb : BlocksOwned e.toVolume d) {path : List UInt8}
    (hs : (FsOp.unlink path).Safe e d) : Does e (unlinkBody path) (fun _ => Ordered e) t := by
  unfold unlinkBody
  split
  · exact .fail h.stopped
  split
  · exact .fail h.stopped
  simp only
  split
  · exact .fail h.stopped
  refine (reads_answers (parentIno_reads _) h).bind ?_
  rintro dir u ⟨hdir, hu⟩
  refine ((reads_answers (lookupNofollow_reads path) hu).mapError _).bind ?_
  rintro ⟨ino, st⟩ u ⟨hino, hu⟩
  split
  · exact .fail hu.stopped
  refine (removeDirent_spec hl ⟨d, hu, hb, rfl⟩ (hs.1 dir hdir) _).bind ?_
  rintro - u ⟨d', hu, hb', hlive⟩
  have hi : live e.toVolume d' ino = true := by
    rw [hlive]
    exact hs.2 _ hino
  exact (freeInode_spec hl hu hb' hi).mono fun _ _ hv => hv.ordered

theorem renameBody_ordered (h : On e d t) (hb : BlocksOwned e.toVolume d)
    {oldPath newPath : List UInt8} (hs : (FsOp.rename oldPath newPath).Safe e d) :
    Does e (renameBody oldPath newPath) (fun _ => Ordered e) t := by
  unfold renameBody
  split
  · exact .fail h.stopped
  refine (reads_spec (lookupNofollow_reads oldPath) h).bind ?_
  rintro ⟨ino, st⟩ u hu
  simp only
  split
  · exact .fail hu.stopped
  refine (reads_answers (parentIno_reads _) hu).bind ?_
  rintro oldDir u ⟨hold, hu⟩
  refine (reads_answers (parentIno_reads _) hu).bind ?_
  rintro newDir u ⟨hnew, hu⟩
  refine (addDirent_spec hl ⟨d, hu, hb, rfl⟩ (hs.2 newDir hnew) _ _ _).bind fun _ u hu => ?_
  exact (removeDirent_spec hl hu (hs.1 oldDir hold) _).mono fun _ _ hv => hv.ordered

end

theorem transaction_ordered {α : Type} {p : FsProg α} (h : Does e p (fun _ => Ordered e) t) :
    wp (transaction p) (fun _ => Ordered e) (fun _ => Stopped e) t :=
  transaction_spec (D := fun _ d => BlocksOwned e.toVolume d) h

theorem FsOp.ordered (hl : Layout e.toVolume) (h : On e d t) (hb : BlocksOwned e.toVolume d)
    {op : FsOp} (hs : op.Safe e d) : wp op.prog (fun _ => Ordered e) (fun _ => Stopped e) t := by
  have hunit : ∀ {α : Type} {p : Fs α}, wp p (fun _ => Ordered e) (fun _ => Stopped e) t →
      wp (do let _ ← p; pure ()) (fun _ => Ordered e) (fun _ => Stopped e) t :=
    fun hp => wp_then hp fun _ _ hu => hu
  cases op with
  | create dirIno name mode =>
    exact hunit (transaction_ordered (createBody_ordered hl h hb hs name mode))
  | mkdir dirIno name => exact hunit (transaction_ordered (mkdirBody_ordered hl h hb hs name))
  | symlink dirIno name target =>
    exact hunit (transaction_ordered (symlinkBody_ordered hl h hb hs name target))
  | write ino data off =>
    refine hunit (transaction_ordered ((writeBody_spec hl h hb hs.1 hs.2).mono ?_))
    rintro n u ⟨d', hw, hu⟩
    exact ⟨d', hw.owned, hu⟩
  | truncate ino =>
    refine transaction_ordered ((truncateBody_shrinks hl h hb hs.1 hs.2).mono ?_)
    rintro - u ⟨d', hd', hu⟩
    exact ⟨d', hd'.owned, hu⟩
  | truncateToLength ino length =>
    refine truncateToLength_spec (D := fun d => BlocksOwned e.toVolume d)
      ((truncateToLengthBody_resizes hl h hb hs.1 hs.2).mono ?_)
    rintro - u ⟨d', ⟨har, -⟩, hu⟩
    exact ⟨d', har.owned, hu⟩
  | unlink path => exact transaction_ordered (unlinkBody_ordered hl h hb hs)
  | rename oldPath newPath => exact transaction_ordered (renameBody_ordered hl h hb hs)

/-! ## Runs -/

/-- A sequence of successful operations, each of them safe where it starts. Between two operations
the scratch block, the clock and the device may change, but not the disk or the journal head. -/
inductive FsRun (s : FsState) : FsState → Prop
  | start : FsRun s s
  | op {t u : FsState} (o : FsOp) : FsRun s t → o.Safe t.env t.home →
      o.prog.run t = (.ok (), u) → FsRun s u
  | idle {t u : FsState} : FsRun s t → u.vol = t.vol → u.disk = t.disk → u.head = t.head → FsRun s u

theorem FsState.Sound.op {s t : FsState} (hs : s.Sound) {o : FsOp} (ho : o.Safe s.env s.home)
    (hrun : o.prog.run s = (.ok (), t)) : t.Sound := by
  have hspec := FsOp.ordered (e := s.env) hs.layout (FsState.start hs.head) hs.owned ho
  obtain ⟨d', hb, hon⟩ := hspec.ok hrun
  exact hon.sound hs.layout hb

theorem FsState.Sound.idle {s t : FsState} (hs : s.Sound) (hvol : t.vol = s.vol)
    (hdisk : t.disk = s.disk) (hhead : t.head = s.head) : t.Sound := by
  have hsb : t.sb = s.sb := congrArg Volume.sb hvol
  have hhome : t.home = s.home := by rw [FsState.home, FsState.home, hsb, hdisk]
  exact ⟨hvol ▸ hs.layout, by rw [hvol, hhome]; exact hs.owned, by rw [hsb, hhead]; exact hs.head⟩

/-- Along every run the blocks in use are exactly those that live inodes refer to, each from one
place. -/
theorem blocksOwned_of_run {s t : FsState} (hs : s.Sound) (hrun : FsRun s t) : BlocksOwned t.vol t.home := by
  have hsound : t.Sound := by
    induction hrun with
    | start => exact hs
    | op o _ ho hr ih => exact ih.op ho hr
    | idle _ hvol hdisk hhead ih => exact ih.idle hvol hdisk hhead
  exact hsound.owned

/-- A link is made, which takes block 16. -/
def linkMade : FsState := ((FsOp.symlink 1 [97] [98]).prog.run (sampleVolume 0)).2

/-- A run that gives the block back: the link is truncated. -/
theorem blocksOwned_of_run_linkMade :
    (linkMade.home 2).getBit 12 = true ∧ (((FsOp.truncate 2).prog.run linkMade).2.home 2).getBit 12 = false ∧
    BlocksOwned ((FsOp.truncate 2).prog.run linkMade).2.vol ((FsOp.truncate 2).prog.run linkMade).2.home := by
  have hmade : ((FsOp.symlink 1 [97] [98]).prog.run (sampleVolume 0)).1 = .ok () := by decide +kernel
  have hfreed : ((FsOp.truncate 2).prog.run linkMade).1 = .ok () := by decide +kernel
  have hlive : live linkMade.vol linkMade.home 2 = true := by decide +kernel
  have htable : (inodeAt linkMade.vol linkMade.home 2).indirect = 0 := by decide +kernel
  have hlink : FsRun (sampleVolume 0) linkMade :=
    .op (.symlink 1 [97] [98]) .start (sample_live 1) (by rw [← hmade]; rfl)
  refine ⟨by decide +kernel, by decide +kernel, blocksOwned_of_run sample_sound
    (.op (.truncate 2) hlink ⟨hlive, fun h => absurd htable h⟩ (by rw [← hfreed]))⟩

/-- After a write that adds a table entry, the first entry is a word of the data bitmap: the file
refers to block 8191, which is no data block. -/
theorem blocksOwned_broken_by_write :
    (sampleVolume 0).Sound ∧
    (FsOp.write 1 [7] (11 * 4096)).prog.run (sampleVolume 0) =
      (.ok (), ((FsOp.write 1 [7] (11 * 4096)).prog.run (sampleVolume 0)).2) ∧
    ¬ BlocksOwned ((FsOp.write 1 [7] (11 * 4096)).prog.run (sampleVolume 0)).2.vol
      ((FsOp.write 1 [7] (11 * 4096)).prog.run (sampleVolume 0)).2.home := by
  have hok : ((FsOp.write 1 [7] (11 * 4096)).prog.run (sampleVolume 0)).1 = .ok () := by
    decide +kernel
  refine ⟨sample_sound, by rw [← hok], fun hb => ?_⟩
  have href : (diskView ((FsOp.write 1 [7] (11 * 4096)).prog.run (sampleVolume 0)).2.vol
      ((FsOp.write 1 [7] (11 * 4096)).prog.run (sampleVolume 0)).2.home).ref
      (1, .entry ⟨0, by omega⟩) = some 8191 := by decide +kernel
  have hlt := (hb.owns.used_of_ref href).1.2
  have hcount : ((FsOp.write 1 [7] (11 * 4096)).prog.run (sampleVolume 0)).2.vol.sb.dataBlocksStart.toNat
      + dataBlockCount ((FsOp.write 1 [7] (11 * 4096)).prog.run (sampleVolume 0)).2.vol.sb = 36 := by
    decide +kernel
  omega

end OnyxFs
