import OnyxKernel.OnyxFs.Ops
import OnyxKernel.OnyxFs.Ownership

/-!
# What a path resolves to

The lookups only read, so on a device without faults their result is a function of the volume. Here
is that function, part by part, and for each part the statement that the program computes it
(`Gives`). It also says in which inodes a resolution searches for which component.

`Gives s p r` allows any scratch block and any number of earlier requests: what a lookup leaves
behind does not matter to the next one.
-/

namespace OnyxFs

open Infra Onyx StateProg

/-! ## Programs that compute a value of the volume -/

/-- The states that differ from `s` in the scratch block and the request count only. -/
structure FsState.Still (s t : FsState) : Prop where
  disk : t.disk = s.disk
  version : t.version = s.version
  sb : t.sb = s.sb
  fault : t.fault = s.fault

/-- From every state still at `s`, the body returns `r` and stays there. -/
def Gives {α : Type} (s : FsState) (p : FsProg α) (r : Except Errno α) : Prop :=
  ∀ t, s.Still t →
    wp (exec p) (fun a u => r = .ok a ∧ s.Still u) (fun e u => r = .error e ∧ s.Still u) t

section

variable {α β : Type} {s : FsState} {p : FsProg α} {r : Except Errno α}

theorem Gives.pure (a : α) : Gives s (pure a) (.ok a) := fun _ ht => ⟨rfl, ht⟩

theorem Gives.fail (e : Errno) : Gives s (.fail e : FsProg α) (.error e) := fun _ ht => ⟨rfl, ht⟩

theorem Gives.bind {f : α → FsProg β} {k : α → Except Errno β} (h : Gives s p r)
    (hf : ∀ a, r = .ok a → Gives s (f a) (k a)) : Gives s (p >>= f) (r.bind k) := by
  intro t ht
  rw [exec_bind]
  refine wp_seq (h t ht) (fun a u hu => ?_) fun e u hu => ?_
  · rw [hu.1]
    exact hf a hu.1 u hu.2
  · rw [hu.1]
    exact ⟨rfl, hu.2⟩

theorem Gives.next {f : α → FsProg β} {a : α} {q : Except Errno β}
    (h : Gives s p (.ok a)) (hf : Gives s (f a) q) :
    Gives s (p >>= f) q :=
  h.bind (k := fun _ => q) fun _ hb => Except.ok.inj hb ▸ hf

theorem Gives.volume {f : Volume → FsProg α} (h : Gives s (f s.vol) r) : Gives s (volume >>= f) r := by
  intro t ht
  rw [exec_bind, exec_volume, wp_bind, wp_gets, ht.version, ht.sb]
  exact h t ht

theorem Gives.load {f : Block → FsProg α} (hs : s.NoFaults) {blk : Nat} (h : Gives s (f (s.disk blk)) r) :
    Gives s (do
      load blk
      let b ← getBuf
      f b) r := by
  intro t ht
  have hrun : (readBuf blk).run t = (.ok (), { t with buf := t.disk blk, ticks := t.ticks + 1 }) := by
    simp only [readBuf, ht.fault, hs t.ticks]
  rw [exec_bind, exec_load, wp_bind]
  refine wp_of_run_ok hrun ?_
  rw [exec_bind, exec_getBuf, wp_bind, wp_gets]
  rw [ht.disk]
  exact h _ ⟨rfl, ht.version, ht.sb, ht.fault⟩

/-- The first result among `n` consecutive indices from `i` on. -/
def firstUpTo : (n i : Nat) → (Nat → Except Errno (Option α)) → Except Errno (Option α)
  | 0, _, _ => .ok none
  | n + 1, i, body => (body i).bind fun
    | some a => .ok (some a)
    | none => firstUpTo n (i + 1) body

theorem Gives.findUpTo {body : Nat → FsProg (Option α)} {k : Nat → Except Errno (Option α)}
    (h : ∀ i, Gives s (body i) (k i)) : ∀ n i, Gives s (.findUpTo n i body) (firstUpTo n i k)
  | 0, _ => .pure none
  | n + 1, i => (h i).bind fun x _ => by
    cases x with
    | some a => exact .pure (some a)
    | none => exact findUpTo h n (i + 1)

theorem FsState.Still.refl (s : FsState) : s.Still s := ⟨rfl, rfl, rfl, rfl⟩

theorem Gives.run_still {t : FsState} (h : Gives s p r) (ht : s.Still t) :
    ∃ u, (exec p).run t = (r, u) ∧ s.Still u := by
  have hw := h t ht
  unfold wp at hw
  split at hw
  · rename_i a u hr
    exact ⟨u, by rw [hr, hw.1], hw.2⟩
  · rename_i e u hr
    exact ⟨u, by rw [hr, hw.1], hw.2⟩

theorem Gives.run (h : Gives s p r) : ((exec p).run s).1 = r := by
  obtain ⟨u, hrun, -⟩ := h.run_still (.refl s)
  rw [hrun]

end

/-! ## Inodes and entries -/

section

variable (v : Volume) (d : Disk Block)

/-- `read_inode` accepts the number. -/
def Known (ino : Nat) : Prop := ino ≠ 0 ∧ inodeBlock v ino < inodeTableEnd v

instance (ino : Nat) : Decidable (Known v ino) := inferInstanceAs (Decidable (_ ∧ _))

def readInodeAt (ino : Nat) : Except Errno Inode :=
  if Known v ino then .ok (inodeAt v d ino) else .error .inval

def statAt (ino : Nat) : Except Errno Stat := (readInodeAt v d ino).bind fun x => .ok (x.stat ino)

/-- The inode number in the first entry of a block that has the name. -/
def searchBlock (version : Nat) (b : Block) (name : List UInt8) : Option Nat :=
  (findSlot version fun slot => (parseDirent version b slot).named name).map fun slot =>
    (parseDirent version b slot).inode.toNat

def searchAt (x : Inode) (name : List UInt8) (i : Nat) : Except Errno (Option (Nat × Stat)) :=
  if h : i < 10 then
    if x.blocks ⟨i, h⟩ = 0 then .ok none
    else
      match searchBlock v.version (d (x.blocks ⟨i, h⟩).toNat) name with
      | none => .ok none
      | some ino => (statAt v d ino).bind fun st => .ok (some (ino, st))
  else .ok none

def lookupInAt (ino : Nat) (name : List UInt8) : Except Errno (Nat × Stat) :=
  (readInodeAt v d ino).bind fun x => (firstUpTo 10 0 (searchAt v d x name)).bind fun
    | some r => .ok r
    | none => .error .noEnt

def readlinkAt (ino len : Nat) : Except Errno (List UInt8) :=
  if v.version = 1 then .error .noSys
  else (readInodeAt v d ino).bind fun x =>
    if fileType x.mode ≠ fileType dtLnk then .error .inval
    else if x.blocks 0 = 0 then .error .io
    else .ok ((List.range (min x.size.toNat len)).map (d (x.blocks 0).toNat).get)

end

section

variable {s : FsState} (hs : s.NoFaults)
include hs

theorem readInode_gives (ino : Nat) : Gives s (readInode ino) (readInodeAt s.vol s.disk ino) := by
  unfold readInode readInodeAt
  by_cases h0 : ino = 0
  · rw [if_pos h0, if_neg fun h => h.1 h0]
    exact .fail _
  · rw [if_neg h0]
    refine .volume ?_
    by_cases hin : inodeBlock s.vol ino < inodeTableEnd s.vol
    · rw [if_neg (Nat.not_le_of_lt hin), if_pos ⟨h0, hin⟩]
      exact .load hs (.pure _)
    · rw [if_pos (Nat.le_of_not_lt hin), if_neg fun h => hin h.2]
      exact .fail _

theorem stat_gives (ino : Nat) : Gives s (stat ino) (statAt s.vol s.disk ino) :=
  (readInode_gives hs ino).bind fun _ _ => .pure _

theorem lookupIn_gives (ino : Nat) (name : List UInt8) :
    Gives s (lookupIn ino name) (lookupInAt s.vol s.disk ino name) := by
  refine (readInode_gives hs ino).bind fun x _ => Gives.volume ?_
  refine (Gives.findUpTo (k := searchAt s.vol s.disk x name) (fun i => ?_) 10 0).bind fun r _ => ?_
  · unfold searchAt
    split
    · split
      · exact Gives.pure none
      · refine Gives.load hs ?_
        unfold searchBlock
        cases findSlot s.vol.version fun slot =>
            (parseDirent s.vol.version (s.disk (x.blocks ⟨i, _⟩).toNat) slot).named name with
        | none => exact Gives.pure none
        | some slot => exact (stat_gives hs _).bind fun _ _ => Gives.pure _
    · exact Gives.pure none
  · cases r with
    | some r => exact Gives.pure r
    | none => exact Gives.fail _

theorem readlink_gives (ino len : Nat) : Gives s (readlink ino len) (readlinkAt s.vol s.disk ino len) := by
  unfold readlink readlinkAt
  refine .volume ?_
  split
  · exact .fail _
  · refine (readInode_gives hs ino).bind fun x _ => ?_
    split
    · exact .fail _
    · split
      · exact .fail _
      · exact .load hs (.pure _)

end

/-! ## Paths -/

section

variable (v : Volume) (d : Disk Block)

def nofollowAt : (fuel cur : Nat) → List UInt8 → Except Errno Nat
  | 0, cur, _ => .ok cur
  | fuel + 1, cur, path =>
    let path := path.dropWhile (· = slash)
    if path = [] then .ok cur
    else (lookupInAt v d cur (path.takeWhile (· ≠ slash))).bind fun r =>
      match path.dropWhile (· ≠ slash) with
      | [] => .ok r.1
      | _ :: rest => nofollowAt fuel r.1 rest

def lookupNofollowAt (path : List UInt8) : Except Errno (Nat × Stat) :=
  (nofollowAt v d (path.length + 1) rootIno path).bind fun ino =>
    (statAt v d ino).bind fun st => .ok (ino, st)

def followAt (again : List UInt8 → Except Errno (Nat × Stat)) (path : List UInt8) :
    (fuel cur offset : Nat) → Except Errno (Nat × Stat)
  | 0, cur, _ => (statAt v d cur).bind fun st => .ok (cur, st)
  | fuel + 1, cur, offset =>
    let compStart := offset + ((path.drop offset).takeWhile (· = slash)).length
    if path.length ≤ compStart then (statAt v d cur).bind fun st => .ok (cur, st)
    else
      let comp := (path.drop compStart).takeWhile (· ≠ slash)
      (lookupInAt v d cur comp).bind fun r =>
        if fileType r.2.mode = fileType dtLnk then
          (readlinkAt v d r.1 256).bind fun target =>
            again (recompose path target compStart (compStart + comp.length))
        else followAt again path fuel r.1 (compStart + comp.length)

def lookupFollowAt : (n : Nat) → List UInt8 → Except Errno (Nat × Stat)
  | 0, _ => .error .loop
  | n + 1, path => followAt v d (lookupFollowAt n) path (path.length + 1) rootIno 0

/-! The searches of a resolution, in order: the inode searched and the component searched for. A
search that finds nothing is the last one. -/

def thenSearched {α : Type} (r : Except Errno α) (k : α → List (Nat × List UInt8)) : List (Nat × List UInt8) :=
  match r with
  | .error _ => []
  | .ok a => k a

def searchedNofollow : (fuel cur : Nat) → List UInt8 → List (Nat × List UInt8)
  | 0, _, _ => []
  | fuel + 1, cur, path =>
    let path := path.dropWhile (· = slash)
    if path = [] then []
    else (cur, path.takeWhile (· ≠ slash)) ::
      thenSearched (lookupInAt v d cur (path.takeWhile (· ≠ slash))) fun r =>
        match path.dropWhile (· ≠ slash) with
        | [] => []
        | _ :: rest => searchedNofollow fuel r.1 rest

def searchedLoop (again : List UInt8 → List (Nat × List UInt8)) (path : List UInt8) :
    (fuel cur offset : Nat) → List (Nat × List UInt8)
  | 0, _, _ => []
  | fuel + 1, cur, offset =>
    let compStart := offset + ((path.drop offset).takeWhile (· = slash)).length
    if path.length ≤ compStart then []
    else
      let comp := (path.drop compStart).takeWhile (· ≠ slash)
      (cur, comp) :: thenSearched (lookupInAt v d cur comp) fun r =>
        if fileType r.2.mode = fileType dtLnk then
          thenSearched (readlinkAt v d r.1 256) fun target =>
            again (recompose path target compStart (compStart + comp.length))
        else searchedLoop again path fuel r.1 (compStart + comp.length)

def searchedFollow : (n : Nat) → List UInt8 → List (Nat × List UInt8)
  | 0, _ => []
  | n + 1, path => searchedLoop v d (searchedFollow n) path (path.length + 1) rootIno 0

end

def resolveDir (path : List UInt8) : FsProg Nat := do
  let (ino, st) ← lookup path
  if fileType st.mode ≠ fileType dtDir then .fail .notDir else pure ino

section

variable {s : FsState} (hs : s.NoFaults)
include hs

theorem walkNofollow_gives : ∀ fuel cur path,
    Gives s (walkNofollow fuel cur path) (nofollowAt s.vol s.disk fuel cur path)
  | 0, cur, _ => .pure cur
  | fuel + 1, cur, path => by
    unfold walkNofollow nofollowAt
    simp only
    split
    · exact .pure cur
    · refine (lookupIn_gives hs cur _).bind fun r _ => ?_
      obtain ⟨ino, st⟩ := r
      cases (path.dropWhile (· = slash)).dropWhile (· ≠ slash) with
      | nil => exact .pure ino
      | cons c rest => exact walkNofollow_gives fuel ino rest

theorem lookupNofollow_gives (path : List UInt8) : Gives s (lookupNofollow path) (lookupNofollowAt s.vol s.disk path) :=
  (walkNofollow_gives hs _ _ path).bind fun ino _ => (stat_gives hs ino).bind fun _ _ => .pure _

theorem followLoop_gives {again : List UInt8 → FsProg (Nat × Stat)}
    {again' : List UInt8 → Except Errno (Nat × Stat)} (ha : ∀ path, Gives s (again path) (again' path))
    (path : List UInt8) : ∀ fuel cur offset,
    Gives s (followLoop again path fuel cur offset) (followAt s.vol s.disk again' path fuel cur offset)
  | 0, cur, _ => (stat_gives hs cur).bind fun _ _ => .pure _
  | fuel + 1, cur, offset => by
    unfold followLoop followAt
    simp only
    split
    · exact (stat_gives hs cur).bind fun _ _ => .pure _
    · refine (lookupIn_gives hs cur _).bind fun r _ => ?_
      obtain ⟨ino, st⟩ := r
      split
      · exact (readlink_gives hs ino 256).bind fun target _ => ha _
      · exact followLoop_gives ha path fuel ino _

theorem lookupFollow_gives : ∀ n path, Gives s (lookupFollow n path) (lookupFollowAt s.vol s.disk n path)
  | 0, _ => .fail _
  | n + 1, path => followLoop_gives hs (lookupFollow_gives n) path _ _ _

theorem parentIno_gives {path : List UInt8} (hp : path ≠ []) :
    Gives s (parentIno path) ((lookupFollowAt s.vol s.disk 9 path).bind fun r => .ok r.2.ino) := by
  unfold parentIno
  rw [if_neg hp]
  exact (lookupFollow_gives hs 9 path).bind fun _ _ => .pure _

theorem resolveDir_gives (path : List UInt8) :
    Gives s (resolveDir path) ((lookupFollowAt s.vol s.disk 9 path).bind fun r =>
      if fileType r.2.mode ≠ fileType dtDir then .error .notDir else .ok r.1) := by
  refine (lookupFollow_gives hs 9 path).bind fun r _ => ?_
  obtain ⟨ino, st⟩ := r
  simp only
  split
  · exact .fail _
  · exact .pure ino

end

end OnyxFs
