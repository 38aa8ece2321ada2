import OnyxKernel.Infra.Cursor
import OnyxKernel.OnyxFs.Allocator
import OnyxKernel.OnyxFs.Listing
import OnyxKernel.OnyxFs.FileBlind

/-!
# Listing a directory

The calls of `readdir_entry` through `readdir` of the VFS, which adds one to its cursor after each
entry. The cursor counts entries and `readdir_entry` takes it for a slot: behind a deleted slot an
entry is reported again.
-/

namespace OnyxFs

open Infra Onyx StateProg

/-- Calls of `readdir` until one finds nothing, each with `readdir_idx` one further. A result means
that there was such a call. -/
def readdirAll (dirIno nameLen : Nat) : (fuel idx : Nat) → FsProg (List (Nat × List UInt8))
  | 0, _ => .fail .loop
  | fuel + 1, idx => do
    match ← readdirEntry dirIno idx nameLen with
    | none => pure []
    | some e => do
      let rest ← readdirAll dirIno nameLen fuel (idx + 1)
      pure (e :: rest)

/-- What is reported of an entry. -/
def Dirent.listed (nameLen : Nat) (e : Dirent) : Nat × List UInt8 :=
  (e.inode.toNat, (List.range (min e.len (nameLen - 1))).map e.name.get)

def maxEntries (version : Nat) : Nat := direntsPerBlock version * 10

section

variable (v : Volume) (d : Disk Block) (ino : Nat)

/-- No block of the directory holds the slot. -/
def noBlock (k : Nat) : Bool :=
  if h : k / direntsPerBlock v.version < 10 then (inodeAt v d ino).blocks ⟨_, h⟩ = 0 else true

/-- The live entry in a slot of the directory. -/
def entryAt (k : Nat) : Option Dirent :=
  if h : k / direntsPerBlock v.version < 10 then
    let blk := (inodeAt v d ino).blocks ⟨_, h⟩
    let e := parseDirent v.version (d blk.toNat) (k % direntsPerBlock v.version)
    if blk = 0 ∨ e.inode = 0 then none else some e
  else none

def liveEntries : List Dirent := (List.range (maxEntries v.version)).filterMap (entryAt v d ino)

/-- `add_dirent` fills the direct pointers from the first on, and no call clears one. -/
def BlocksInOrder : Prop := ∀ i j, i ≤ j → (inodeAt v d ino).blocks j ≠ 0 → (inodeAt v d ino).blocks i ≠ 0

variable {v d ino}

theorem lt_maxEntries_of_entryAt {k : Nat} {e : Dirent} (h : entryAt v d ino k = some e) :
    k < maxEntries v.version ∧ noBlock v d ino k = false := by
  unfold entryAt at h
  split at h
  · rename_i hlt
    simp only at h
    split at h
    · cases h
    · rename_i hlive
      have hpos : 0 < direntsPerBlock v.version := by
        unfold direntsPerBlock
        split <;> decide
      refine ⟨?_, by simp [noBlock, hlt, (not_or.mp hlive).1]⟩
      rw [maxEntries, Nat.mul_comm]
      exact (Nat.div_lt_iff_lt_mul hpos).mp hlt
  · cases h

theorem BlocksInOrder.noBlock {k j : Nat} (h : BlocksInOrder v d ino) (hk : noBlock v d ino k = false)
    (hj : j ≤ k) : noBlock v d ino j = false := by
  have hle : j / direntsPerBlock v.version ≤ k / direntsPerBlock v.version := Nat.div_le_div_right hj
  unfold OnyxFs.noBlock at hk ⊢
  split at hk
  · rename_i hlt
    rw [dif_pos (hle.trans_lt hlt)]
    exact decide_eq_false (h _ _ hle (of_decide_eq_false hk))
  · cases hk

end

section

variable {s : FsState} (hs : s.NoFaults) {ino nameLen : Nat}
include hs

theorem load_still {blk : Nat} {t : FsState} (ht : s.Still t) :
    wp (exec (load blk)) (fun _ u => u.buf = s.disk blk ∧ s.Still u) never t := by
  have hrun : (exec (load blk)).run t = (.ok (), { t with buf := t.disk blk, ticks := t.ticks + 1 }) := by
    simp only [exec_load, readBuf, ht.fault, hs t.ticks]
  exact wp_of_run_ok hrun ⟨by rw [ht.disk], ht.disk, ht.version, ht.sb, ht.fault⟩

/-- The scan reads a block once; while it goes on the scratch block holds the block `last`. -/
theorem readdirLoop_spec {n k : Nat} {last : Option Nat} {t : FsState} (ht : s.Still t)
    (hlast : ∀ i h, last = some i →
      t.buf = s.disk ((inodeAt s.vol s.disk ino).blocks ⟨i, h⟩).toNat) :
    wp (exec (readdirLoop s.vol.version (inodeAt s.vol s.disk ino) n k last))
      (fun r u => Cursor.nextFrom (entryAt s.vol s.disk ino) (noBlock s.vol s.disk ino) n k = r ∧
        s.Still u) never t := by
  induction n generalizing k last t with
  | zero => exact ⟨rfl, ht⟩
  | succ n ih =>
    rw [readdirLoop, Cursor.nextFrom]
    by_cases hlt : k / direntsPerBlock s.vol.version < 10
    · rw [dif_pos hlt, noBlock, dif_pos hlt, entryAt, dif_pos hlt]
      by_cases h0 : (inodeAt s.vol s.disk ino).blocks ⟨_, hlt⟩ = 0
      · rw [if_pos h0]
        exact ⟨by simp [h0], ht⟩
      · have hload : wp (exec (.onlyIf (last ≠ some (k / direntsPerBlock s.vol.version))
            (load ((inodeAt s.vol s.disk ino).blocks ⟨_, hlt⟩).toNat)))
            (fun _ u => u.buf = s.disk ((inodeAt s.vol s.disk ino).blocks ⟨_, hlt⟩).toNat ∧ s.Still u)
            never t := by
          rw [exec, CmdProg.run_onlyIf]
          exact wp_onlyIf (fun _ => load_still hs ht) fun hc => ⟨hlast _ hlt (not_not.mp hc), ht⟩
        rw [if_neg h0, exec_bind]
        refine wp_seq hload (fun _ u hu => ?_) fun _ _ => False.elim
        rw [exec_bind, exec_getBuf, wp_bind, wp_gets, hu.1]
        simp only [h0, decide_false, Bool.false_eq_true, if_false, false_or]
        split
        · refine ih hu.2 fun i h hi => ?_
          obtain rfl := Option.some.inj hi
          exact hu.1
        · exact ⟨rfl, hu.2⟩
    · rw [dif_neg hlt, noBlock, dif_neg hlt]
      exact ⟨rfl, ht⟩

variable (hi : Known s.vol ino) (hd : fileType (inodeAt s.vol s.disk ino).mode = fileType dtDir)
include hi hd

theorem readdirEntry_gives (idx : Nat) : Gives s (readdirEntry ino idx nameLen) (.ok
      ((Cursor.nextFrom (entryAt s.vol s.disk ino) (noBlock s.vol s.disk ino)
        (maxEntries s.vol.version - idx) idx).map (Dirent.listed nameLen))) := by
  have hread := readInode_gives hs ino
  rw [readInodeAt, if_pos hi] at hread
  refine hread.next ?_
  rw [if_neg (not_not.mpr hd)]
  refine Gives.volume fun t ht => ?_
  rw [exec_bind]
  refine wp_seq (readdirLoop_spec hs ht (by simp)) (fun r u hu => ?_) fun _ _ => False.elim
  obtain ⟨rfl, hu⟩ := hu
  exact ⟨rfl, hu⟩

theorem readdirAll_gives {fuel idx : Nat} (hidx : idx ≤ maxEntries s.vol.version)
    (hfuel : maxEntries s.vol.version < idx + fuel) : Gives s (readdirAll ino nameLen fuel idx) (.ok
      ((Cursor.collect (entryAt s.vol s.disk ino) (noBlock s.vol s.disk ino)
        (maxEntries s.vol.version) fuel idx).map (Dirent.listed nameLen))) := by
  induction fuel generalizing idx with
  | zero => omega
  | succ fuel ih =>
    refine (readdirEntry_gives hs hi hd idx).next ?_
    rw [Cursor.collect]
    cases hnext : Cursor.nextFrom (entryAt s.vol s.disk ino) (noBlock s.vol s.disk ino)
        (maxEntries s.vol.version - idx) idx with
    | none => exact Gives.pure []
    | some e =>
      have hlt : idx < maxEntries s.vol.version := by
        by_contra hc
        rw [Nat.sub_eq_zero_of_le (Nat.le_of_not_lt hc)] at hnext
        cases hnext
      have hrest := ih (show idx + 1 ≤ _ by omega) (by omega)
      exact hrest.next (Gives.pure _)

theorem readdirAll_perm_iff (hblocks : BlocksInOrder s.vol s.disk ino) {fuel : Nat}
    (hfuel : maxEntries s.vol.version < fuel) :
    (∃ l, ((exec (readdirAll ino nameLen fuel 0)).run s).1 = .ok l ∧
      l.Perm ((liveEntries s.vol s.disk ino).map (Dirent.listed nameLen))) ↔
    ∀ k, (entryAt s.vol s.disk ino (k + 1)).isSome → (entryAt s.vol s.disk ino k).isSome := by
  have hrun : ((exec (readdirAll ino nameLen fuel 0)).run s).1 = _ :=
    (readdirAll_gives hs hi hd (Nat.zero_le _) (by omega)).run
  have hperm := Cursor.collect_perm_iff (f := entryAt s.vol s.disk ino)
    (fun _ _ h _ => hblocks.noBlock (lt_maxEntries_of_entryAt h).2)
    (fun _ _ h => (lt_maxEntries_of_entryAt h).1) (Dirent.listed nameLen) hfuel
  rw [hrun, ← hperm]
  constructor
  · rintro ⟨l, hl, hp⟩
    rwa [Except.ok.inj hl]
  · exact fun hp => ⟨_, rfl, hp⟩

end

/-! ## The directories that `add_dirent` and `remove_dirent` make -/

/-- A directory with its pointers in the data area, the used ones first. -/
structure Inode.InLine (sb : Super) (x : Inode) : Prop where
  isDir : fileType x.mode = fileType dtDir
  inOrder : ∀ i j, i ≤ j → x.blocks j ≠ 0 → x.blocks i ≠ 0
  inData : ∀ i, x.blocks i ≠ 0 → sb.dataBlocksStart.toNat ≤ (x.blocks i).toNat

/-- On the volume of `s`, the inode is now `x`. -/
structure DirHolds (s : FsState) (ino : Nat) (x : Inode) (u : FsState) : Prop where
  version : u.version = s.version
  sb : u.sb = s.sb
  fault : u.fault = s.fault
  inode : inodeAt s.vol u.disk ino = x

inductive DirCall
  | add (name : List UInt8) (target : Nat) (dtype : UInt8)
  | remove (name : List UInt8)

def DirCall.prog (ino : Nat) : DirCall → FsProg Unit
  | add name target dtype => addDirent ino name target dtype
  | remove name => removeDirent ino name

/-- The state after the calls, whatever each of them returned. -/
def dirCalls (ino : Nat) (s : FsState) (calls : List DirCall) : FsState :=
  calls.foldl (fun t c => ((exec (c.prog ino)).run t).2) s

section

variable {s u : FsState} {ino : Nat} {x : Inode} {α : Type}

theorem DirHolds.vol (h : DirHolds s ino x u) : u.vol = s.vol := by rw [FsState.vol, h.version, h.sb, FsState.vol]

theorem volume_holds (h : DirHolds s ino x u) :
    Meets (DirHolds s ino x) volume (fun v w => v = s.vol ∧ DirHolds s ino x w) u := by
  constructor
  rw [exec_volume, wp_gets]
  exact ⟨h.vol, h⟩

theorem within_putBuf {blk c : Nat} (hne : c ≠ blk) (data : Block) :
    (putBuf blk data).Within fun cmd => ∀ data, cmd ≠ .put c data :=
  ⟨nofun, fun _ => CmdProg.within_cmd fun _ h => hne (FsCmd.put.inj h).1.symm⟩

/-- The new block goes into the pointer behind the last used one. -/
theorem Inode.InLine.setBlock {sb : Super} (hx : x.InLine sb) {i : Fin 10} {blk : UInt32}
    (hfind : (List.finRange 10).find? (fun i => x.blocks i = 0) = some i) (hne : blk ≠ 0)
    (hblk : sb.dataBlocksStart.toNat ≤ blk.toNat) : (x.setBlock i blk).InLine sb := by
  have hbefore : ∀ j < i, x.blocks j ≠ 0 := by
    obtain ⟨-, as, bs, heq, has⟩ := List.find?_eq_some_iff_append.mp hfind
    intro j hj
    have hsorted := heq ▸ List.pairwise_lt_finRange 10
    have hmem : j ∈ as ++ i :: bs := heq ▸ List.mem_finRange j
    rcases List.mem_append.mp hmem with hmem | hmem
    · simpa using has j hmem
    · rcases List.mem_cons.mp hmem with rfl | hmem
      · exact absurd hj (Fin.lt_irrefl _)
      · exact absurd hj (Fin.lt_asymm (List.rel_of_pairwise_cons (List.pairwise_append.mp hsorted).2.1 hmem))
  refine ⟨hx.isDir, fun j k hjk hk => ?_, fun j hj => ?_⟩ <;>
    simp only [Inode.setBlock, Function.update_apply] at *
  · by_cases hj : j = i
    · rwa [if_pos hj]
    rw [if_neg hj]
    by_cases hki : k = i
    · exact hbefore j (by omega)
    · rw [if_neg hki] at hk
      exact hx.inOrder j k hjk hk
  · split_ifs at hj ⊢
    · exact hblk
    · exact hx.inData j hj

variable (hs : s.NoFaults) (hl : Layout s.vol) (hi : Known s.vol ino)
include hs hl hi

/-- A program that stores into other blocks only. -/
theorem holds_within {p : FsProg α} (hp : p.Within fun c => ∀ data, c ≠ .put (inodeBlock s.vol ino) data)
    (h : DirHolds s ino x u) : Meets (DirHolds s ino x) p (fun _ => DirHolds s ino x) u := by
  refine ⟨hp.wp_run (fun _ hu => hu) (fun c hc u hu => ?_) h⟩
  have hcalm : u.NoFaults := fun n => by rw [hu.fault, hs n]
  cases c with
  | load blk | fetch blk =>
    simp only [wp, FsCmd.handle, readBuf, readLocal, hcalm u.ticks]
    exact { hu with }
  | getBuf | setBuf | volume | jiffies => exact { hu with }
  | put blk data =>
    refine wp_mono (logWrite_calm hcalm blk data) (fun _ v hv => ?_) fun _ v hv => hv.1 ▸ hu
    have hne : inodeBlock s.vol ino ≠ blk := fun he => hc data (he ▸ rfl)
    refine ⟨hv.version.trans hu.version, hv.sb.trans hu.sb, hv.fault.trans hu.fault, ?_⟩
    rw [inodeAt, hv.disk _ (hu.sb ▸ hl.home_table _ hi.inTable), Function.update_of_ne hne]
    exact hu.inode

theorem scanDirBlocks_holds (hx : x.InLine s.sb) (h : DirHolds s ino x u) (f : Block → Option Block) :
    Meets (DirHolds s ino x) (scanDirBlocks x f) (fun _ => DirHolds s ino x) u := by
  refine holds_within hs hl hi (CmdProg.within_findUpTo (fun i => ?_) _ _) h
  split
  · split
    · exact trivial
    · rename_i hlt h0
      refine (CmdProg.within_cmd nofun).bind fun _ => (CmdProg.within_cmd nofun).bind fun b => ?_
      split
      · exact trivial
      · have htable := hi.2.trans_le (hl.data_table.trans (hx.inData ⟨i, hlt⟩ h0))
        exact (within_putBuf htable.ne _).bind fun _ => trivial
  · exact trivial

theorem allocZeroBlock_holds (h : DirHolds s ino x u) : Meets (DirHolds s ino x) allocZeroBlock
    (fun blk v => s.sb.dataBlocksStart.toNat ≤ blk.toNat ∧ DirHolds s ino x v) u := by
  have halloc : Meets (DirHolds s ino x) allocDataBlock
      (fun blk v => s.sb.dataBlocksStart.toNat ≤ blk.toNat ∧ DirHolds s ino x v) u := by
    refine (volume_holds h).bind ?_
    rintro v u ⟨rfl, hu⟩
    split
    · exact .fail hu
    refine (holds_within hs hl hi (p := load _) (CmdProg.within_cmd nofun) hu).bind fun _ u hu => ?_
    refine (holds_within hs hl hi (p := getBuf) (CmdProg.within_cmd nofun) hu).bind fun b u hu => ?_
    split
    · exact .fail hu
    · rename_i i hscan
      have hne : inodeBlock s.vol ino ≠ s.vol.sb.dataBitmapStart.toNat := fun he =>
        hl.table_dataBitmap (he ▸ hi.inTable)
      refine (holds_within hs hl hi (within_putBuf hne _) hu).bind fun _ u hu => .pure ⟨?_, hu⟩
      rw [(scanBytes_lowest hscan).toNat_dataBlock]
      exact Nat.le_add_right _ _
  refine halloc.bind ?_
  rintro blk u ⟨hblk, hu⟩
  have htable := hi.2.trans_le (hl.data_table.trans hblk)
  exact (holds_within hs hl hi (within_putBuf htable.ne _) hu).bind fun _ u hu => .pure ⟨hblk, hu⟩

theorem writeInode_holds {y : Inode} (h : DirHolds s ino x u) :
    Meets (DirHolds s ino x) (writeInode ino y) (fun _ => DirHolds s ino { y with ctime := 0 }) u := by
  refine (volume_holds h).bind ?_
  rintro v u ⟨rfl, hu⟩
  have hcalm : u.NoFaults := fun n => by rw [hu.fault, hs n]
  split
  · exact .fail hu
  rename_i hv
  refine ⟨wp_edit hcalm ?_⟩
  unfold putBuf
  rw [exec_bind, exec_setBuf, wp_bind, wp_modify, exec_put]
  refine wp_mono (logWrite_calm (by exact hcalm) _ _) (fun _ w hw => ?_) fun _ w hw => ?_
  · refine ⟨hw.version.trans hu.version, hw.sb.trans hu.sb, hw.fault.trans hu.fault, ?_⟩
    rw [← inodeAt_setInode_self hv y (d := u.disk), inodeAt, inodeAt,
      hw.disk _ (hu.sb ▸ hl.home_table _ hi.inTable)]
    rfl
  · rw [hw.1]
    exact { hu with }

omit hl in
theorem readInode_holds (h : DirHolds s ino x u) :
    Meets (DirHolds s ino x) (readInode ino) (fun y w => y = x ∧ DirHolds s ino x w) u := by
  have hgives := readInode_gives (s := u) (fun n => by rw [h.fault, hs n]) ino
  rw [readInodeAt, if_pos (h.vol ▸ hi), h.vol, h.inode] at hgives
  have hstill : ∀ w, u.Still w → DirHolds s ino x w := fun w hw =>
    ⟨hw.version.trans h.version, hw.sb.trans h.sb, hw.fault.trans h.fault, hw.disk ▸ h.inode⟩
  exact ⟨wp_mono (hgives u (.refl u)) (fun _ w hw => ⟨Except.ok.inj hw.1.symm, hstill w hw.2⟩)
    fun _ w hw => hstill w hw.2⟩

/-- One call, also if it fails in the middle. -/
theorem DirCall.inLine (hx : x.InLine s.sb) (h : DirHolds s ino x u) (c : DirCall) :
    ∃ y, Inode.InLine s.sb y ∧ DirHolds s ino y ((exec (c.prog ino)).run u).2 := by
  let Lined (w : FsState) : Prop := ∃ y, Inode.InLine s.sb y ∧ DirHolds s ino y w
  have hstop : ∀ w, DirHolds s ino x w → Lined w := fun w hw => ⟨x, hx, hw⟩
  have hread := (readInode_holds hs hi h).weaken hstop
  have hscan (f : Block → Option Block) {w : FsState} (hw : DirHolds s ino x w) :=
    (scanDirBlocks_holds hs hl hi hx hw f).weaken hstop
  have hmeets : Meets Lined (c.prog ino) (fun _ => Lined) u := by
    cases c with
    | add name target dtype =>
      refine hread.bind ?_
      rintro y u ⟨rfl, hu⟩
      refine ((volume_holds hu).weaken hstop).bind ?_
      rintro v u ⟨rfl, hu⟩
      refine (hscan _ hu).bind fun r u hu => ?_
      cases r with
      | some _ => exact .pure (hstop u hu)
      | none =>
        refine (hscan _ hu).bind fun r u hu => ?_
        cases r with
        | some _ => exact .pure (hstop u hu)
        | none =>
          simp only [addDirentBlock]
          split
          · exact .fail (hstop u hu)
          rename_i i hfind
          refine ((allocZeroBlock_holds hs hl hi hu).weaken hstop).bind ?_
          rintro blk u ⟨hblk, hu⟩
          have htable := hi.2.trans_le (hl.data_table.trans hblk)
          have hne : blk ≠ 0 := by
            rintro rfl
            exact absurd htable (Nat.not_lt_zero _)
          refine ((holds_within hs hl hi (within_putBuf htable.ne _) hu).weaken hstop).bind fun _ u hu => ?_
          refine ((writeInode_holds hs hl hi hu).weaken hstop).mono fun _ w hw => ⟨_, ?_, hw⟩
          obtain ⟨h1, h2, h3⟩ := hx.setBlock hfind hne hblk
          exact ⟨h1, h2, h3⟩
    | remove name =>
      refine Meets.bind hread ?_
      rintro y u ⟨rfl, hu⟩
      refine ((volume_holds hu).weaken hstop).bind ?_
      rintro v u ⟨rfl, hu⟩
      refine (hscan _ hu).bind fun r u hu => ?_
      cases r with
      | some _ => exact .pure (hstop u hu)
      | none => exact .fail (hstop u hu)
  rcases hr : (exec (c.prog ino)).run u with ⟨_ | a, t⟩
  · exact hmeets.spec.error hr
  · exact hmeets.spec.ok hr

theorem dirCalls_inLine (calls : List DirCall) (hx : x.InLine s.sb) (h : DirHolds s ino x u) :
    ∃ y, Inode.InLine s.sb y ∧ DirHolds s ino y (dirCalls ino u calls) := by
  induction calls generalizing x u with
  | nil => exact ⟨x, hx, h⟩
  | cons c calls ih =>
    obtain ⟨y, hy, h⟩ := c.inLine hs hl hi hx h
    exact ih hy h

/-- A listing of what the calls have made reports every live entry exactly once if and only if no free
slot precedes one. -/
theorem readdirAll_exact_iff (hx : (inodeAt s.vol s.disk ino).InLine s.sb) {calls : List DirCall} {t : FsState}
    (ht : dirCalls ino s calls = t) {nameLen fuel : Nat} (hfuel : maxEntries t.vol.version < fuel) :
    (∃ l, ((exec (readdirAll ino nameLen fuel 0)).run t).1 = .ok l ∧
      l.Perm ((liveEntries t.vol t.disk ino).map (Dirent.listed nameLen))) ↔
    ∀ k, (entryAt t.vol t.disk ino (k + 1)).isSome → (entryAt t.vol t.disk ino k).isSome := by
  obtain ⟨y, hy, h⟩ := dirCalls_inLine hs hl hi calls hx ⟨rfl, rfl, rfl, rfl⟩
  rw [ht] at h
  have hinode : inodeAt t.vol t.disk ino = y := h.vol ▸ h.inode
  subst hinode
  exact readdirAll_perm_iff (fun n => by rw [h.fault, hs n]) (h.vol ▸ hi) hy.isDir hy.inOrder hfuel

end

/-- `b` is added behind the first entry, that one removed and `c` put in its place. -/
def reusedSlot : FsState := dirCalls 1 (treeVolume Bytes.zero) [.add [98] 3 8, .remove [102], .add [99] 4 8]

theorem readdirAll_exact_reusedSlot :
    ∃ l, ((exec (readdirAll 1 8 1021 0)).run reusedSlot).1 = .ok l ∧
      l.Perm ((liveEntries reusedSlot.vol reusedSlot.disk 1).map (Dirent.listed 8)) := by
  have hline : (inodeAt (treeVolume Bytes.zero).vol (treeVolume Bytes.zero).disk 1).InLine
      (treeVolume Bytes.zero).sb := by
    rw [tree_inodeAt le_rfl (by decide)]
    exact ⟨rfl, by decide, by decide⟩
  have hmade : dirCalls 1 (treeVolume Bytes.zero) [.add [98] 3 8, .remove [102], .add [99] 4 8] = reusedSlot := rfl
  have hfirst : (entryAt reusedSlot.vol reusedSlot.disk 1 0).isSome = true := by decide +kernel
  have hall : ∀ k < 100, (entryAt reusedSlot.vol reusedSlot.disk 1 (k + 2)).isSome = false := by
    decide +kernel
  have horder : BlocksInOrder reusedSlot.vol reusedSlot.disk 1 := by
    unfold BlocksInOrder
    decide +kernel
  have hend : noBlock reusedSlot.vol reusedSlot.disk 1 102 = true := by decide +kernel
  have hmax : maxEntries reusedSlot.vol.version = 1020 := by decide +kernel
  refine (readdirAll_exact_iff (fun _ => rfl) tree_ok.layout (by decide) hline hmade (by omega)).mpr fun k hk => ?_
  cases k with
  | zero => exact hfirst
  | succ k =>
    obtain ⟨e, he⟩ := Option.isSome_iff_exists.mp hk
    by_cases hlt : k < 100
    · rw [hall k hlt] at hk
      cases hk
    · have hblock := horder.noBlock (lt_maxEntries_of_entryAt he).2 (show 102 ≤ k + 1 + 1 by omega)
      cases hend.symm.trans hblock

/-- The name `b` is added behind the first entry and that one removed: `b` is reported twice. -/
theorem readdirAll_repeats :
    ((exec do
        addDirent 1 [98] 3 8
        removeDirent 1 [102]
        readdirAll 1 8 1021 0).run (treeVolume Bytes.zero)).1 = .ok [(3, [98]), (3, [98])] := by
  decide +kernel

end OnyxFs
