import OnyxKernel.OnyxFs.OwnershipSteps
import OnyxKernel.OnyxFs.Resolve

/-!
# File contents and path resolution

A path should resolve to the same thing whatever the files contain. `lookup_in` does not look at the
type of the inode it searches, so it takes the blocks of a regular file for directory blocks. That
matters when a component that an entry can bear is searched for in a file that has a direct block
(`ReadsFile`). Then there are contents with which the resolution ends in `NoEnt` and others with
which it ends in `Inval`.
-/

namespace OnyxFs

open Infra Onyx Bytes List

/-! ## Files and their data -/

def dtReg : UInt32 := 0o100755

section

variable (v : Volume) (d : Disk Block)

def IsFile (ino : Nat) : Prop := live v d ino = true ∧ fileType (inodeAt v d ino).mode = fileType dtReg

def FileData (b : Nat) : Prop := ∃ ino s, IsFile v d ino ∧ s ≠ .table ∧ (diskView v d).ref (ino, s) = some b

def OutsideFiles (d' : Disk Block) : Prop := ∀ b, ¬FileData v d b → d' b = d b

/-- The blocks are owned, the inode bitmap covers the table, and an inode that is not in use has no
blocks, as `free_inode` leaves it. -/
structure TreeOk : Prop where
  layout : Layout v
  owned : BlocksOwned v d
  inodes : v.sb.inodeCount.toNat ≤ 32768
  dead : ∀ ino, Known v ino → live v d ino = false → ∀ i, (inodeAt v d ino).blocks i = 0

def Nameable (version : Nat) (name : List UInt8) : Prop := name.length ≤ 32 ∧ (version = 1 → 0 ∉ name)

/-- The search for this component in this inode takes file data for entries. -/
def ReadsFile (q : Nat × List UInt8) : Prop :=
  IsFile v d q.1 ∧ (∃ i, (inodeAt v d q.1).blocks i ≠ 0) ∧ Nameable v.version q.2

end

variable {v : Volume} {d d' : Disk Block} {ino : Nat} {name : List UInt8} {i : Nat}

theorem Known.inTable (h : Known v ino) : InTable v (inodeBlock v ino) := ⟨Nat.le_add_right _ _, h.2⟩

theorem known_of_live (h : live v d ino = true) : Known v ino := by
  obtain ⟨h1, h2⟩ := live_bounds h
  exact ⟨by omega, (inTable_inodeBlock h1 h2).2⟩

namespace TreeOk

variable (hw : TreeOk v d)
include hw

theorem inData_of_fileData {b : Nat} (h : FileData v d b) : InData v.sb b := by
  obtain ⟨_, _, -, -, href⟩ := h
  exact (hw.owned.owns.used_of_ref href).1

variable (hd : OutsideFiles v d d')
include hd

theorem inodeAt_eq (hk : Known v ino) : inodeAt v d' ino = inodeAt v d ino := by
  unfold inodeAt
  rw [hd _ fun hf => ?_]
  have htable := hk.inTable.2
  have hend := hw.layout.data_table
  have hdata := (hw.inData_of_fileData hf).1
  omega

theorem readInodeAt_eq (ino : Nat) : readInodeAt v d' ino = readInodeAt v d ino := by
  unfold readInodeAt
  split
  · rename_i hk
    rw [hw.inodeAt_eq hd hk]
  · rfl

theorem statAt_eq (ino : Nat) : statAt v d' ino = statAt v d ino := by
  unfold statAt
  rw [hw.readInodeAt_eq hd]

theorem block_eq (hk : Known v ino) (hf : ¬IsFile v d ino) {i : Fin 10}
    (hi : (inodeAt v d ino).blocks i ≠ 0) :
    d' ((inodeAt v d ino).blocks i).toNat = d ((inodeAt v d ino).blocks i).toNat := by
  cases hlive : live v d ino with
  | false => exact absurd (hw.dead ino hk hlive i) hi
  | true =>
    refine hd _ ?_
    rintro ⟨ino', s, hfile, -, href⟩
    have hown : (diskView v d).ref (ino, .direct i) = some ((inodeAt v d ino).blocks i).toNat :=
      diskView_ref.mpr ⟨hlive, hi, rfl⟩
    obtain ⟨rfl, -⟩ := Prod.mk.inj (hw.owned.owns.inj href hown)
    exact hf hfile

end TreeOk

/-! ## Names -/

theorem nulPos_le (x : Bytes 32) : nulPos x ≤ 32 := by
  unfold nulPos
  cases h : (range 32).find? fun i => x.get i = 0 with
  | none => exact Nat.le_refl 32
  | some i => exact Nat.le_of_lt (mem_range.mp (mem_of_find?_eq_some h))

theorem Dirent.len_le (e : Dirent) : e.len ≤ 32 := by
  unfold Dirent.len
  split
  · omega
  · exact nulPos_le _

theorem ne_zero_of_lt_nulPos {x : Bytes 32} (h : i < nulPos x) : x.get i ≠ 0 := by
  unfold nulPos at h
  cases hf : (range 32).find? fun i => x.get i = 0 with
  | none =>
    rw [hf] at h
    have hall := find?_eq_none.mp hf i (mem_range.mpr h)
    simpa using hall
  | some j =>
    rw [hf] at h
    intro h0
    obtain ⟨-, -, hpre⟩ := find?_range_eq_some.mp hf
    have := hpre i h
    simp [h0] at this

/-- In version 1 the length of a name is the position of its NUL. -/
theorem parseDirent_len_v1 (b : Block) (slot : Nat) :
    (parseDirent 1 b slot).len = nulPos (parseDirent 1 b slot).name := by
  have hle := nulPos_le (b.slice (slot * 36) 32)
  have hlen : (UInt8.ofNat (nulPos (b.slice (slot * 36) 32))).toNat = nulPos (b.slice (slot * 36) 32) := by
    rw [UInt8.toNat_ofNat']
    omega
  simp only [parseDirent, if_true, Dirent.len, hlen]
  split
  · rfl
  · rfl

theorem searchBlock_eq_none (version : Nat) (b : Block) (h : ¬Nameable version name) :
    searchBlock version b name = none := by
  unfold searchBlock
  rw [Option.map_eq_none_iff, findSlot, find?_eq_none]
  intro slot _ hnamed
  simp only [Dirent.named, Bool.and_eq_true, decide_eq_true_eq] at hnamed
  obtain ⟨⟨-, hlen⟩, hname⟩ := hnamed
  refine h ⟨hlen ▸ Dirent.len_le _, ?_⟩
  rintro rfl hzero
  rw [← hname, mem_map] at hzero
  obtain ⟨i, hi, hget⟩ := hzero
  rw [mem_range, parseDirent_len_v1] at hi
  exact ne_zero_of_lt_nulPos hi hget

theorem get_nameField (h : i < 32) : (nameField name).get i = name.getD i 0 := by
  rw [get_of_lt _ h]
  rfl

theorem nulPos_nameField (hlen : name.length ≤ 32) (h0 : 0 ∉ name) : nulPos (nameField name) = name.length := by
  refine Nat.le_antisymm ?_ ?_
  · by_contra hlt
    have hle := nulPos_le (nameField name)
    refine ne_zero_of_lt_nulPos (Nat.lt_of_not_le hlt) ?_
    rw [get_nameField (by omega)]
    simp
  · by_contra hlt
    rw [Nat.not_le] at hlt
    have hf : (range 32).find? (fun i => decide ((nameField name).get i = 0)) = some (nulPos (nameField name)) := by
      unfold nulPos
      cases hf : (range 32).find? fun i => decide ((nameField name).get i = 0) with
      | none =>
        rw [nulPos, hf] at hlt
        simp only [Option.getD_none] at hlt
        omega
      | some i => rfl
    have hzero := find?_some hf
    rw [decide_eq_true_eq, get_nameField (by omega), getD_eq_getElem _ _ hlt] at hzero
    exact h0 (hzero ▸ getElem_mem hlt)

theorem map_get_nameField (hlen : name.length ≤ 32) : (range name.length).map (nameField name).get = name := by
  refine ext_getElem (by simp) fun i h1 h2 => ?_
  rw [getElem_map, getElem_range, get_nameField (by omega), getD_eq_getElem _ _ h2]

/-- File contents that pass for an entry with this name and an inode number out of range. -/
def decoy (version : Nat) (name : List UInt8) : Block := writeSlot version zero 0 name 0xFFFFFFFF 8

theorem parseDirent_decoy (version : Nat) (hlen : name.length ≤ 32) :
    (parseDirent version (decoy version name) 0).name = nameField name ∧
      (parseDirent version (decoy version name) 0).inode = 0xFFFFFFFF ∧
      (version ≠ 1 → (parseDirent version (decoy version name) 0).nameLen.toNat = name.length) := by
  have hname : ∀ b : Block, (b.blit 0 (nameField name)).slice 0 32 = nameField name :=
    fun b => slice_blit_self b 0 _ (by omega)
  have hino : ((zero : Block).put32 32 0xFFFFFFFF |>.blit 0 (nameField name)).le32 32 = 0xFFFFFFFF := by
    rw [le32_blit_outside _ _ (by omega), le32_put32_self _ _ (by omega)]
  by_cases hv : version = 1
  · subst hv
    refine ⟨hname _, hino, fun h => absurd rfl h⟩
  · have hkeep : ∀ (b : Block) (x y : UInt8) {i : Nat}, i < 36 → ((b.set 36 x).set 37 y).get i = b.get i := by
      intro b x y i hi
      rw [get_set_ne _ _ (by omega), get_set_ne _ _ (by omega)]
    simp only [parseDirent, decoy, writeSlot, direntSize, if_neg hv, Dirent.fromBytes, Nat.zero_mul, Nat.zero_add]
    refine ⟨?_, ?_, fun _ => ?_⟩
    · refine ext_get fun i hi => ?_
      rw [get_slice _ _ hi, hkeep _ _ _ (by omega), ← get_slice _ _ hi, hname]
    · rw [← hino]
      exact le32_congr fun i hi => hkeep _ _ _ (by omega)
    · rw [get_set _ _ _ (by omega), if_pos rfl, UInt8.toNat_ofNat']
      omega

theorem searchBlock_decoy {version : Nat} (h : Nameable version name) :
    searchBlock version (decoy version name) name = some 4294967295 := by
  obtain ⟨hlen, hzero⟩ := h
  obtain ⟨hname, hino, hnameLen⟩ := parseDirent_decoy version hlen
  have hl : (parseDirent version (decoy version name) 0).len = name.length := by
    by_cases hv : version = 1
    · subst hv
      rw [parseDirent_len_v1, hname, nulPos_nameField hlen (hzero rfl)]
    · unfold Dirent.len
      rw [hnameLen hv, hname]
      split
      · rfl
      · rename_i hnot
        have hnil : name = [] := length_eq_zero_iff.mp (by omega)
        rw [hnil]
        decide
  have hnamed : (parseDirent version (decoy version name) 0).named name = true := by
    simp only [Dirent.named, hl, hname, hino, map_get_nameField hlen]
    decide
  have hfind : findSlot version (fun slot => (parseDirent version (decoy version name) slot).named name) = some 0 := by
    unfold findSlot
    obtain ⟨k, hk⟩ : ∃ k, direntsPerBlock version = k + 1 := by
      unfold direntsPerBlock
      split
      · exact ⟨112, rfl⟩
      · exact ⟨101, rfl⟩
    rw [hk, range_succ_eq_map, find?_cons, hnamed]
  unfold searchBlock
  rw [hfind, Option.map_some, hino]
  rfl

theorem searchBlock_zero (version : Nat) (name : List UInt8) : searchBlock version zero name = none := by
  unfold searchBlock
  rw [Option.map_eq_none_iff, findSlot, find?_eq_none]
  intro slot _ hnamed
  simp only [Dirent.named, Bool.and_eq_true, decide_eq_true_eq] at hnamed
  refine hnamed.1.1 ?_
  unfold parseDirent
  split
  · exact le32_zero _
  · exact le32_zero _

/-! ## One search -/

section

variable {α : Type} {body body' : Nat → Except Errno (Option α)}

theorem firstUpTo_none (h : ∀ i, body i = .ok none) : ∀ n i, firstUpTo n i body = .ok none
  | 0, _ => rfl
  | n + 1, i => by
    rw [firstUpTo, h]
    exact firstUpTo_none h n (i + 1)

theorem firstUpTo_error {e : Errno} (h : ∀ i, body i = .ok none ∨ body i = .error e) :
    ∀ n i j, i ≤ j → j < i + n → body j = .error e → firstUpTo n i body = .error e
  | 0, i, j, h1, h2, _ => by omega
  | n + 1, i, j, h1, h2, hj => by
    rw [firstUpTo]
    rcases h i with hi | hi
    · rw [hi]
      refine firstUpTo_error h n (i + 1) j ?_ (by omega) hj
      by_contra hne
      obtain rfl : i = j := by omega
      rw [hi] at hj
      cases hj
    · rw [hi]
      rfl

end

theorem TreeOk.lookupInAt_eq (hw : TreeOk v d) (hd : OutsideFiles v d d') (h : ¬ReadsFile v d (ino, name)) :
    lookupInAt v d' ino name = lookupInAt v d ino name := by
  unfold lookupInAt
  rw [hw.readInodeAt_eq hd]
  unfold readInodeAt
  split
  · rename_i hk
    suffices hsame : ∀ i, searchAt v d' (inodeAt v d ino) name i = searchAt v d (inodeAt v d ino) name i by
      show (firstUpTo 10 0 _).bind _ = (firstUpTo 10 0 _).bind _
      rw [funext hsame]
    intro i
    unfold searchAt
    split
    · split
      · rfl
      · rename_i hi h0
        -- Either the block is as it was, or no entry can have the name.
        by_cases hf : IsFile v d ino
        · have hname : ¬Nameable v.version name := fun hn => h ⟨hf, ⟨_, h0⟩, hn⟩
          rw [searchBlock_eq_none _ _ hname, searchBlock_eq_none _ _ hname]
        · rw [hw.block_eq hd hk hf h0]
          simp only [hw.statAt_eq hd]
    · rfl
  · rfl

theorem TreeOk.readlinkAt_eq (hw : TreeOk v d) (hd : OutsideFiles v d d') (ino len : Nat) :
    readlinkAt v d' ino len = readlinkAt v d ino len := by
  unfold readlinkAt
  rw [hw.readInodeAt_eq hd]
  split
  · rfl
  · unfold readInodeAt
    split
    · rename_i hk
      show (if _ then _ else _) = if _ then _ else _
      split
      · rfl
      · rename_i hlnk
        split
        · rfl
        · rename_i h0
          have hf : ¬IsFile v d ino := fun hf => by
            have hreg := hf.2
            rw [not_not.mp hlnk] at hreg
            exact absurd hreg (by decide)
          rw [hw.block_eq hd hk hf h0]
    · rfl

open Classical in
/-- The disk with `x` in every data block of every file. -/
noncomputable def withFiles (v : Volume) (d : Disk Block) (x : Block) : Disk Block :=
  fun b => if FileData v d b then x else d b

theorem outsideFiles_withFiles (v : Volume) (d : Disk Block) (x : Block) : OutsideFiles v d (withFiles v d x) :=
  fun _ hb => if_neg hb

theorem TreeOk.searchAt_withFiles (hw : TreeOk v d) (hf : IsFile v d ino) (x : Block) (i : Nat) :
    searchAt v (withFiles v d x) (inodeAt v d ino) name i =
      if ∃ hi : i < 10, (inodeAt v d ino).blocks ⟨i, hi⟩ ≠ 0 then
        match searchBlock v.version x name with
        | none => .ok none
        | some j => (statAt v d j).bind fun st => .ok (some (j, st))
      else .ok none := by
  unfold searchAt
  split
  · rename_i hi
    split
    · rename_i h0
      rw [if_neg fun ⟨_, hc⟩ => hc h0]
    · rename_i h0
      have hdata : FileData v d ((inodeAt v d ino).blocks ⟨i, hi⟩).toNat :=
        ⟨ino, .direct ⟨i, hi⟩, hf, nofun, diskView_ref.mpr ⟨hf.1, h0, rfl⟩⟩
      rw [if_pos ⟨hi, h0⟩]
      simp only [withFiles, if_pos hdata]
      cases searchBlock v.version x name with
      | none => rfl
      | some j =>
        show (statAt v (withFiles v d x) j).bind _ = _
        rw [hw.statAt_eq (outsideFiles_withFiles v d x)]
  · rename_i hi
    rw [if_neg fun ⟨hc, _⟩ => hi hc]

theorem lookupInAt_none (hk : Known v ino) (h : ∀ i, searchAt v d (inodeAt v d ino) name i = .ok none) :
    lookupInAt v d ino name = .error .noEnt := by
  unfold lookupInAt readInodeAt
  rw [if_pos hk]
  show (firstUpTo 10 0 _).bind _ = _
  rw [firstUpTo_none h]
  rfl

theorem TreeOk.lookupInAt_zero (hw : TreeOk v d) (h : ReadsFile v d (ino, name)) :
    lookupInAt v (withFiles v d zero) ino name = .error .noEnt := by
  have hk := known_of_live h.1.1
  refine lookupInAt_none hk fun i => ?_
  rw [hw.inodeAt_eq (outsideFiles_withFiles v d _) hk, hw.searchAt_withFiles h.1, searchBlock_zero]
  exact ite_self _

theorem TreeOk.not_known (hw : TreeOk v d) : ¬Known v 4294967295 := by
  intro hk
  have hlt := hk.2
  have hn := hw.inodes
  unfold inodeBlock inodeTableEnd inodesPerBlock at hlt
  split at hlt <;> omega

theorem TreeOk.lookupInAt_decoy (hw : TreeOk v d) (h : ReadsFile v d (ino, name)) :
    lookupInAt v (withFiles v d (decoy v.version name)) ino name = .error .inval := by
  have hk := known_of_live h.1.1
  have hstat : statAt v d 4294967295 = .error .inval := by
    unfold statAt readInodeAt
    rw [if_neg hw.not_known]
    rfl
  have hround (i : Nat) : searchAt v (withFiles v d (decoy v.version name)) (inodeAt v d ino) name i =
      if ∃ hi : i < 10, (inodeAt v d ino).blocks ⟨i, hi⟩ ≠ 0 then .error .inval else .ok none := by
    rw [hw.searchAt_withFiles h.1, searchBlock_decoy h.2.2]
    simp only [hstat]
    rfl
  unfold lookupInAt
  rw [hw.readInodeAt_eq (outsideFiles_withFiles v d _), readInodeAt, if_pos hk]
  show (firstUpTo 10 0 _).bind _ = _
  obtain ⟨j, hj⟩ := h.2.1
  have herr := (hround j).trans (if_pos ⟨j.2, hj⟩)
  rw [firstUpTo_error (fun i => ?_) 10 0 j (Nat.zero_le _) (by have := j.2; omega) herr]
  · rfl
  · rw [hround]
    split
    · exact .inr rfl
    · exact .inl rfl

theorem lookupInAt_file (hf : IsFile v d ino) (h : ¬ReadsFile v d (ino, name)) :
    lookupInAt v d ino name = .error .noEnt := by
  refine lookupInAt_none (known_of_live hf.1) fun i => ?_
  unfold searchAt
  split
  · split
    · rfl
    · rename_i hi h0
      rw [searchBlock_eq_none _ _ fun hn => h ⟨hf, ⟨_, h0⟩, hn⟩]
  · rfl

/-! ## Whole resolutions -/

/-- `V` are the searches behind the result `R d`. A search that fails ends the resolution. Either no
search reads file data and the result does not depend on it, or the first one that does decides. -/
structure Traced {α : Type} (v : Volume) (d : Disk Block) (R : Disk Block → Except Errno α)
    (V : List (Nat × List UInt8)) : Prop where
  hinges : ∀ q ∈ V, ∀ e, lookupInAt v d q.1 q.2 = .error e → R d = .error e
  blind : ((∀ q ∈ V, ¬ReadsFile v d q) ∧ ∀ d', OutsideFiles v d d' → R d' = R d) ∨
    ∃ q ∈ V, ReadsFile v d q ∧ ∀ d' e, OutsideFiles v d d' →
      lookupInAt v d' q.1 q.2 = .error e → R d' = .error e

section

variable {α β : Type} {R : Disk Block → Except Errno α} {V : List (Nat × List UInt8)}

theorem Traced.of_eq (h : ∀ d', OutsideFiles v d d' → R d' = R d) : Traced v d R [] :=
  ⟨nofun, .inl ⟨nofun, h⟩⟩

theorem Traced.bind (h : Traced v d R V) {k : Disk Block → α → Except Errno β}
    (hk : ∀ d', OutsideFiles v d d' → ∀ a, k d' a = k d a) :
    Traced v d (fun d' => (R d').bind (k d')) V := by
  refine ⟨fun q hq e he => ?_, ?_⟩
  · rw [h.hinges q hq e he]
    rfl
  · rcases h.blind with ⟨hno, hsame⟩ | ⟨q, hq, hreads, hdecides⟩
    · exact .inl ⟨hno, fun d' hd => by rw [hsame d' hd, funext (hk d' hd)]⟩
    · refine .inr ⟨q, hq, hreads, fun d' e hd he => ?_⟩
      rw [hdecides d' e hd he]
      rfl

theorem Traced.after {R₀ : Disk Block → Except Errno β} (h0 : ∀ d', OutsideFiles v d d' → R₀ d' = R₀ d)
    {k : β → Disk Block → Except Errno α} {Vk : β → List (Nat × List UInt8)}
    (hk : ∀ b, R₀ d = .ok b → Traced v d (k b) (Vk b)) :
    Traced v d (fun d' => (R₀ d').bind fun b => k b d') (thenSearched (R₀ d) Vk) := by
  cases hr : R₀ d with
  | error e =>
    refine .of_eq fun d' hd => ?_
    rw [h0 d' hd, hr]
    rfl
  | ok b =>
    obtain ⟨hhinges, hblind⟩ := hk b hr
    refine ⟨fun q hq e he => ?_, ?_⟩
    · rw [hr]
      exact hhinges q hq e he
    · rcases hblind with ⟨hno, hsame⟩ | ⟨q, hq, hreads, hdecides⟩
      · refine .inl ⟨hno, fun d' hd => ?_⟩
        rw [h0 d' hd, hr]
        exact hsame d' hd
      · refine .inr ⟨q, hq, hreads, fun d' e hd he => ?_⟩
        rw [h0 d' hd, hr]
        exact hdecides d' e hd he

theorem Traced.search (hw : TreeOk v d) {k : Nat × Stat → Disk Block → Except Errno α}
    {Vk : Nat × Stat → List (Nat × List UInt8)}
    (hk : ∀ r, lookupInAt v d ino name = .ok r → Traced v d (k r) (Vk r)) :
    Traced v d (fun d' => (lookupInAt v d' ino name).bind fun r => k r d')
      ((ino, name) :: thenSearched (lookupInAt v d ino name) Vk) := by
  refine ⟨fun q hq e he => ?_, ?_⟩
  · rcases mem_cons.mp hq with rfl | hq
    · rw [show lookupInAt v d ino name = _ from he]
      rfl
    · cases hr : lookupInAt v d ino name with
      | error e' =>
        rw [hr] at hq
        cases hq
      | ok r =>
        rw [hr] at hq
        exact (hk r hr).hinges q hq e he
  · by_cases hreads : ReadsFile v d (ino, name)
    · refine .inr ⟨_, mem_cons_self, hreads, fun d' e _ he => ?_⟩
      rw [show lookupInAt v d' ino name = _ from he]
      rfl
    · have hsearch : ∀ d', OutsideFiles v d d' → lookupInAt v d' ino name = lookupInAt v d ino name :=
        fun _ hd => hw.lookupInAt_eq hd hreads
      rcases (Traced.after hsearch hk).blind with ⟨hno, hsame⟩ | ⟨q, hq, hrest⟩
      · exact .inl ⟨forall_mem_cons.mpr ⟨hreads, hno⟩, hsame⟩
      · exact .inr ⟨q, mem_cons_of_mem _ hq, hrest⟩

/-- The result is the same for all file contents if and only if no search reads them. -/
theorem Traced.blind_iff (h : Traced v d R V) (hw : TreeOk v d) :
    (∀ d', OutsideFiles v d d' → R d' = R d) ↔ ∀ q ∈ V, ¬ReadsFile v d q := by
  rcases h.blind with ⟨hno, hsame⟩ | ⟨q, hq, hreads, hdecides⟩
  · exact ⟨fun _ => hno, fun _ => hsame⟩
  · refine ⟨fun hsame => ?_, fun hno => absurd hreads (hno q hq)⟩
    have h1 := hdecides _ _ (outsideFiles_withFiles v d _) (hw.lookupInAt_zero hreads)
    have h2 := hdecides _ _ (outsideFiles_withFiles v d _) (hw.lookupInAt_decoy hreads)
    rw [hsame _ (outsideFiles_withFiles v d _)] at h1 h2
    rw [h1] at h2
    cases h2

theorem Traced.fails (h : Traced v d R V) (hno : ∀ q ∈ V, ¬ReadsFile v d q)
    {q : Nat × List UInt8} (hq : q ∈ V) (hf : IsFile v d q.1) : R d = .error .noEnt :=
  h.hinges q hq _ (lookupInAt_file hf (hno q hq))

end

section

variable (hw : TreeOk v d)
include hw

theorem nofollowAt_traced : ∀ fuel cur path,
    Traced v d (fun d' => nofollowAt v d' fuel cur path) (searchedNofollow v d fuel cur path)
  | 0, cur, _ => .of_eq fun _ _ => rfl
  | fuel + 1, cur, path => by
    simp only [nofollowAt, searchedNofollow]
    split
    · exact .of_eq fun _ _ => rfl
    · refine .search hw fun r _ => ?_
      cases (path.dropWhile (· = slash)).dropWhile (· ≠ slash) with
      | nil => exact .of_eq fun _ _ => rfl
      | cons c rest => exact nofollowAt_traced fuel r.1 rest

theorem lookupNofollowAt_traced (path : List UInt8) :
    Traced v d (fun d' => lookupNofollowAt v d' path) (searchedNofollow v d (path.length + 1) rootIno path) := by
  refine (nofollowAt_traced hw _ _ path).bind fun d' hd ino => ?_
  rw [hw.statAt_eq hd]

theorem followAt_traced {again : List UInt8 → Disk Block → Except Errno (Nat × Stat)}
    {searches : List UInt8 → List (Nat × List UInt8)}
    (ha : ∀ path, Traced v d (again path) (searches path)) (path : List UInt8) : ∀ fuel cur offset,
    Traced v d (fun d' => followAt v d' (fun p => again p d') path fuel cur offset)
      (searchedLoop v d searches path fuel cur offset)
  | 0, cur, _ => .of_eq fun d' hd => by simp only [followAt, hw.statAt_eq hd]
  | fuel + 1, cur, offset => by
    simp only [followAt, searchedLoop]
    split
    · exact .of_eq fun d' hd => by rw [hw.statAt_eq hd]
    · refine .search hw fun r _ => ?_
      split
      · have hlink : ∀ d', OutsideFiles v d d' → readlinkAt v d' r.1 256 = readlinkAt v d r.1 256 :=
          fun _ hd => hw.readlinkAt_eq hd r.1 256
        exact .after hlink fun target _ => ha (recompose path target _ _)
      · exact followAt_traced ha path fuel r.1 _

theorem lookupFollowAt_traced :
    ∀ n path, Traced v d (fun d' => lookupFollowAt v d' n path) (searchedFollow v d n path)
  | 0, _ => .of_eq fun _ _ => rfl
  | n + 1, path => followAt_traced hw (lookupFollowAt_traced n) path _ _ _

end

/-! ## The lookups -/

/-- The program returns the same whatever the regular files contain, and fails if one of the inodes
it searches is a regular file. -/
def IgnoresFiles {α : Type} (p : FsProg α) (searches : List (Nat × List UInt8)) (s : FsState) : Prop :=
  (∀ d', OutsideFiles s.vol s.disk d' → ((exec p).run { s with disk := d' }).1 = ((exec p).run s).1) ∧
    ∀ q ∈ searches, IsFile s.vol s.disk q.1 → ∃ e, ((exec p).run s).1 = .error e

theorem ignoresFiles_iff {α : Type} {p : FsProg α} {R : Disk Block → Except Errno α}
    {V : List (Nat × List UInt8)} {s : FsState} (hw : TreeOk s.vol s.disk)
    (hp : ∀ d', ((exec p).run { s with disk := d' }).1 = R d') (h : Traced s.vol s.disk R V) :
    IgnoresFiles p V s ↔ ∀ q ∈ V, ¬ReadsFile s.vol s.disk q := by
  unfold IgnoresFiles
  simp only [hp]
  refine ⟨fun hi => (h.blind_iff hw).mp hi.1, fun hno => ⟨(h.blind_iff hw).mpr hno, fun q hq hf => ?_⟩⟩
  exact ⟨_, h.fails hno hq hf⟩

/-- The resolution of a path, with or without links at its end, and the resolution of a parent
directory ignore what regular files contain if and only if no component that an entry can bear is
searched for in a regular file with a direct block. -/
theorem resolution_ignores_files {s : FsState} (hw : TreeOk s.vol s.disk) (hs : s.NoFaults)
    (path : List UInt8) :
    (IgnoresFiles (lookup path) (searchedFollow s.vol s.disk 9 path) s ↔
      ∀ q ∈ searchedFollow s.vol s.disk 9 path, ¬ReadsFile s.vol s.disk q) ∧
    (IgnoresFiles (lookupNofollow path) (searchedNofollow s.vol s.disk (path.length + 1) rootIno path) s ↔
      ∀ q ∈ searchedNofollow s.vol s.disk (path.length + 1) rootIno path, ¬ReadsFile s.vol s.disk q) ∧
    (IgnoresFiles (resolveDir path) (searchedFollow s.vol s.disk 9 path) s ↔
      ∀ q ∈ searchedFollow s.vol s.disk 9 path, ¬ReadsFile s.vol s.disk q) ∧
    (path ≠ [] → (IgnoresFiles (parentIno path) (searchedFollow s.vol s.disk 9 path) s ↔
      ∀ q ∈ searchedFollow s.vol s.disk 9 path, ¬ReadsFile s.vol s.disk q)) := by
  have hcalm : ∀ d', ({ s with disk := d' } : FsState).NoFaults := fun _ => hs
  have hfollow := lookupFollowAt_traced hw 9 path
  refine ⟨?_, ?_, ?_, fun hp => ?_⟩
  · exact ignoresFiles_iff hw (fun d' => (lookupFollow_gives (hcalm d') 9 path).run) hfollow
  · exact ignoresFiles_iff hw (fun d' => (lookupNofollow_gives (hcalm d') path).run) (lookupNofollowAt_traced hw path)
  · exact ignoresFiles_iff hw (fun d' => (resolveDir_gives (hcalm d') path).run) (hfollow.bind fun _ _ _ => rfl)
  · exact ignoresFiles_iff hw (fun d' => (parentIno_gives (hcalm d') hp).run) (hfollow.bind fun _ _ _ => rfl)

/-! ## A volume with one file in its root directory

The root has the inode number 1 and block 4, where the name `f` stands for inode 2. That one is a
regular file with `data` in its only block 5. -/

def oneBlock (mode blk : UInt32) : Inode :=
  { Inode.zero with mode := mode, size := 4096, nlink := 1, blocks := fun i => if i = 0 then blk else 0 }

def treeVolume (data : Block) : FsState where
  version := 2
  sb :=
    { magic := onyfsMagic, blockSize := 4096, totalBlocks := 36, inodeCount := 32
      inodeTableStart := 3, dataBitmapStart := 2, dataBlocksStart := 4, journalStart := 0
      journalSize := 0 }
  buf := zero
  head := 0
  jiffies := 0
  disk := fun b =>
    if b = 1 ∨ b = 2 then (zero.setBit 0).setBit 1
    else if b = 3 then
      (zero.blit 0 (oneBlock dtDir 4).toBytes).blit 128 (oneBlock dtReg 5).toBytes
    else if b = 4 then writeSlot 2 zero 0 [102] 2 8
    else if b = 5 then data
    else zero
  ticks := 0
  fault := fun _ => none
  trace := []
  inPlace := []

section

variable {data : Block}

def treeNode (ino : Nat) : Inode :=
  if ino = 1 then oneBlock dtDir 4 else if ino = 2 then oneBlock dtReg 5 else Inode.zero

theorem tree_bit (k : Nat) : ((zero.setBit 0).setBit 1 : Block).getBit k = decide (k < 2) := by
  rw [getBit_setBit _ (by omega), getBit_setBit _ (by omega)]
  have hzero : (zero : Block).getBit k = false := by simp [getBit]
  rw [hzero, Bool.or_false, ← Bool.decide_or, decide_eq_decide]
  omega

theorem tree_live (ino : Nat) :
    live (treeVolume data).vol (treeVolume data).disk ino = decide (ino = 1 ∨ ino = 2) := by
  have hbit : ((treeVolume data).disk inodeBitmapBlk).getBit (ino - 1) = decide (ino - 1 < 2) := tree_bit _
  have hcount : (treeVolume data).vol.sb.inodeCount.toNat = 32 := rfl
  rw [live, hbit, hcount, ← Bool.decide_and, ← Bool.decide_and, decide_eq_decide]
  omega

theorem tree_inodeAt {ino : Nat} (h1 : 1 ≤ ino) (h2 : ino ≤ 32) :
    inodeAt (treeVolume data).vol (treeVolume data).disk ino = treeNode ino := by
  have hblk : inodeBlock (treeVolume data).vol ino = 3 := by
    simp [inodeBlock, inodesPerBlock, FsState.vol, treeVolume]
    omega
  have hdisk : (treeVolume data).disk 3 =
      (zero.blit 0 (oneBlock dtDir 4).toBytes).blit 128 (oneBlock dtReg 5).toBytes := rfl
  have hmod : (ino - 1) % 32 = ino - 1 := Nat.mod_eq_of_lt (by omega)
  have hslot : inodeAt (treeVolume data).vol (treeVolume data).disk ino =
      Inode.fromBytes ((treeVolume data).disk 3) ((ino - 1) * 128) := by
    rw [inodeAt, hblk]
    show Inode.fromBytes _ ((ino - 1) % 32 * 128) = _
    rw [hmod]
  rw [hslot, hdisk, treeNode]
  by_cases he1 : ino = 1
  · subst he1
    rw [Inode.fromBytes_blit_of_ne _ _ (by omega), Inode.fromBytes_blit _ _ _ (by omega)]
    rfl
  · rw [if_neg he1]
    by_cases he2 : ino = 2
    · subst he2
      rw [Inode.fromBytes_blit _ _ _ (by omega)]
      rfl
    · rw [if_neg he2, Inode.fromBytes_blit_of_ne _ _ (by omega), Inode.fromBytes_blit_of_ne _ _ (by omega)]
      simp only [Inode.fromBytes, le32_zero, le64_zero]
      rfl

theorem tree_ref (p : Nat × Slot) (b : Nat) :
    (diskView (treeVolume data).vol (treeVolume data).disk).ref p = some b ↔
      (p.1 = 1 ∧ b = 4 ∨ p.1 = 2 ∧ b = 5) ∧ p.2 = .direct 0 := by
  obtain ⟨ino, s⟩ := p
  rw [diskView_ref, tree_live, decide_eq_true_eq]
  constructor
  · have hslot {mode blk : UInt32} {ents : Nat → UInt32} (hptr : (oneBlock mode blk).ptr ents s ≠ 0) :
        s = .direct 0 := by
      cases s with
      | direct i =>
        by_contra hne
        exact hptr (if_neg fun hi => hne (by rw [hi]))
      | table | entry j => exact absurd rfl hptr
    rintro ⟨hino, hptr, hb⟩
    rcases hino with rfl | rfl
    · rw [tree_inodeAt (by omega) (by omega)] at hptr hb
      obtain rfl := hslot hptr
      exact ⟨.inl ⟨rfl, hb.symm⟩, rfl⟩
    · rw [tree_inodeAt (by omega) (by omega)] at hptr hb
      obtain rfl := hslot hptr
      exact ⟨.inr ⟨rfl, hb.symm⟩, rfl⟩
  · rintro ⟨⟨rfl, rfl⟩ | ⟨rfl, rfl⟩, rfl⟩
    · rw [tree_inodeAt (by omega) (by omega)]
      exact ⟨.inl rfl, (by decide : (4 : UInt32) ≠ 0), rfl⟩
    · rw [tree_inodeAt (by omega) (by omega)]
      exact ⟨.inr rfl, (by decide : (5 : UInt32) ≠ 0), rfl⟩

theorem tree_layout : Layout (treeVolume data).vol := by
  have hend : inodeTableEnd (treeVolume data).vol = 4 := by
    simp [inodeTableEnd, inodesPerBlock, FsState.vol, treeVolume]
  have hhome : ∀ b, Home (treeVolume data).vol.sb b := fun b hj =>
    absurd (show (treeVolume data).vol.sb.hasJournal = false from rfl) (by simp [hj])
  exact layout_of_small rfl hend rfl rfl rfl fun b _ => hhome b

theorem tree_ok : TreeOk (treeVolume data).vol (treeVolume data).disk := by
  refine ⟨tree_layout, ⟨⟨fun {p q b} hp hq => ?_, fun b => ?_, fun _ h => h⟩, fun ino hi => ?_⟩,
    (by decide : (32 : UInt32).toNat ≤ 32768),
    fun ino hk hdead i => ?_⟩
  · rw [tree_ref] at hp hq
    refine Prod.ext ?_ (hp.2.trans hq.2.symm)
    omega
  · have hused : Used (treeVolume data).vol (treeVolume data).disk b ↔ b = 4 ∨ b = 5 := by
      have hrange : InData (treeVolume data).vol.sb b ↔ 4 ≤ b ∧ b < 36 := Iff.rfl
      have hbit : ((treeVolume data).disk 2).getBit (b - 4) = decide (b - 4 < 2) := tree_bit _
      unfold Used
      rw [hrange]
      show _ ∧ ((treeVolume data).disk 2).getBit (b - 4) = true ↔ _
      rw [hbit, decide_eq_true_eq]
      omega
    rw [hused]
    constructor
    · rintro (rfl | rfl)
      · exact .inl ⟨(1, .direct 0), (tree_ref _ _).mpr ⟨.inl ⟨rfl, rfl⟩, rfl⟩⟩
      · exact .inl ⟨(2, .direct 0), (tree_ref _ _).mpr ⟨.inr ⟨rfl, rfl⟩, rfl⟩⟩
    · rintro (⟨p, hp⟩ | hno)
      · obtain ⟨hp, -⟩ := (tree_ref _ _).mp hp
        omega
      · exact hno.elim
  · rw [tree_live, decide_eq_true_eq] at hi
    rw [tree_inodeAt (by omega) (by omega)]
    rcases hi with rfl | rfl <;> rfl
  · have hlt := hk.2
    have hend : inodeTableEnd (treeVolume data).vol = 4 := by
      simp [inodeTableEnd, inodesPerBlock, FsState.vol, treeVolume]
    have hblk : inodeBlock (treeVolume data).vol ino = 3 + (ino - 1) / 32 := rfl
    rw [tree_live, decide_eq_false_iff_not] at hdead
    have h0 := hk.1
    rw [tree_inodeAt (by omega) (by omega), treeNode, if_neg (by omega), if_neg (by omega)]
    rfl

end

/-- The path `/f` does not read the file. -/
theorem resolution_ignores_files_tree :
    IgnoresFiles (lookup [47, 102])
      (searchedFollow (treeVolume zero).vol (treeVolume zero).disk 9 [47, 102])
      (treeVolume zero) := by
  refine (resolution_ignores_files tree_ok (fun _ => rfl) [47, 102]).1.mpr fun q hq hreads => ?_
  have hall : ∀ q ∈ searchedFollow (treeVolume zero).vol (treeVolume zero).disk 9 [47, 102],
      q.1 = 1 := by decide +kernel
  have hmode := hreads.1.2
  rw [hall q hq, tree_inodeAt (by omega) (by omega)] at hmode
  exact absurd hmode (by decide)

/-- The file `/f` contains an entry `x` for the root: then `/f/x` is the root directory, and with an
empty file it does not exist. -/
theorem file_acts_as_directory :
    (∀ data, TreeOk (treeVolume data).vol (treeVolume data).disk) ∧
    IsFile (treeVolume zero).vol (treeVolume zero).disk 2 ∧
    OutsideFiles (treeVolume zero).vol (treeVolume zero).disk
      (treeVolume (writeSlot 2 zero 0 [120] 1 8)).disk ∧
    ((exec (lookup [47, 102])).run (treeVolume zero)).1.toOption.map Prod.fst = some 2 ∧
    ((exec (lookup [47, 102, 47, 120])).run (treeVolume zero)).1.toOption.map Prod.fst = none ∧
    ((exec (lookup [47, 102, 47, 120])).run
      (treeVolume (writeSlot 2 zero 0 [120] 1 8))).1.toOption.map Prod.fst = some 1 := by
  have hfile : IsFile (treeVolume zero).vol (treeVolume zero).disk 2 := by
    refine ⟨by rw [tree_live]; rfl, ?_⟩
    rw [tree_inodeAt (by omega) (by omega)]
    rfl
  refine ⟨fun _ => tree_ok, hfile, fun b hb => ?_, by decide +kernel, by decide +kernel, by decide +kernel⟩
  have h5 : b ≠ 5 := by
    rintro rfl
    exact hb ⟨2, .direct 0, hfile, nofun, (tree_ref _ _).mpr ⟨.inr ⟨rfl, rfl⟩, rfl⟩⟩
  simp only [treeVolume, if_neg h5]

end OnyxFs
