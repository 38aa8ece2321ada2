import OnyxKernel.Infra.Owns
import OnyxKernel.OnyxFs.Alloc
import OnyxKernel.OnyxFs.Logical

/-!
# Which inode owns which block

A live inode references blocks from its direct pointers, its indirect pointer, and the entries of the
table that one points to. `BlocksOwned` says that every data block whose bit is set is referenced
from exactly one such place, and every referenced block has its bit set.

In the middle of an operation the disk is not in such a state: an allocated block is not referenced
yet, and the inode worked on is in memory. `Flight` is the invariant there. It compares the disk with
a `View`, the references as the operation will leave them, and lists the loose blocks.
-/

namespace OnyxFs

open Infra Onyx

/-! ## Layout -/

def InTable (v : Volume) (b : Nat) : Prop := v.sb.inodeTableStart.toNat ≤ b ∧ b < inodeTableEnd v

def InData (sb : Super) (b : Nat) : Prop :=
  sb.dataBlocksStart.toNat ≤ b ∧ b < sb.dataBlocksStart.toNat + dataBlockCount sb

/-- The areas of a volume do not overlap. -/
structure Layout (v : Volume) : Prop where
  bitmaps : v.sb.dataBitmapStart.toNat ≠ inodeBitmapBlk
  table_inodeBitmap : ¬ InTable v inodeBitmapBlk
  table_dataBitmap : ¬ InTable v v.sb.dataBitmapStart.toNat
  data_inodeBitmap : inodeBitmapBlk < v.sb.dataBlocksStart.toNat
  data_dataBitmap : v.sb.dataBitmapStart.toNat < v.sb.dataBlocksStart.toNat
  data_table : inodeTableEnd v ≤ v.sb.dataBlocksStart.toNat
  home_inodeBitmap : Home v.sb inodeBitmapBlk
  home_dataBitmap : Home v.sb v.sb.dataBitmapStart.toNat
  home_table : ∀ b, InTable v b → Home v.sb b
  home_data : ∀ b, InData v.sb b → Home v.sb b

/-! ## What the disk says -/

def inodeAt (v : Volume) (d : Disk Block) (ino : Nat) : Inode :=
  decodeInode v.version ((ino - 1) % inodesPerBlock v.version) (d (inodeBlock v ino))

def live (v : Volume) (d : Disk Block) (ino : Nat) : Bool :=
  1 ≤ ino && ino ≤ v.sb.inodeCount.toNat && (d inodeBitmapBlk).getBit (ino - 1)

def Used (v : Volume) (d : Disk Block) (b : Nat) : Prop :=
  InData v.sb b ∧
    (d v.sb.dataBitmapStart.toNat).getBit (b - v.sb.dataBlocksStart.toNat) = true

/-- A place of an inode that can reference a block. -/
inductive Slot
  | direct (i : Fin 10)
  | table
  | entry (j : Fin 1024)
  deriving DecidableEq

/-- The pointer in a slot; `ents` are the entries of the inode's table. -/
def Inode.ptr (x : Inode) (ents : Nat → UInt32) : Slot → UInt32
  | .direct i => x.blocks i
  | .table => x.indirect
  | .entry j => if x.indirect = 0 then 0 else ents j.1

/-- Inodes and their table entries. -/
structure View where
  live : Nat → Bool
  inode : Nat → Inode
  ents : Nat → Nat → UInt32

def View.ref (w : View) (p : Nat × Slot) : Option Nat :=
  if w.live p.1 = true ∧ (w.inode p.1).ptr (w.ents p.1) p.2 ≠ 0
  then some ((w.inode p.1).ptr (w.ents p.1) p.2).toNat else none

def entsAt (d : Disk Block) (x : Inode) (j : Nat) : UInt32 := indEntry (d x.indirect.toNat) j

def diskView (v : Volume) (d : Disk Block) : View where
  live := live v d
  inode := inodeAt v d
  ents ino := entsAt d (inodeAt v d ino)

/-- Every data block in use is referenced from exactly one place of a live inode, and every
referenced block is a data block in use. Double indirect blocks do not occur. -/
structure BlocksOwned (v : Volume) (d : Disk Block) : Prop where
  owns : Owns (diskView v d).ref (Used v d) nothing
  single : ∀ ino, live v d ino = true → (inodeAt v d ino).doubleIndirect = 0

/-! ## In the middle of an operation -/

/-- Two inodes have the same block pointers. -/
structure Inode.SamePtrs (x y : Inode) : Prop where
  blocks : x.blocks = y.blocks
  indirect : x.indirect = y.indirect
  doubleIndirect : x.doubleIndirect = y.doubleIndirect

theorem Inode.SamePtrs.refl (x : Inode) : x.SamePtrs x := ⟨rfl, rfl, rfl⟩

/-- The references are `w`. The inodes in `X` are in memory only and the tables of the inodes in `Y`
are; every other one is on the disk as `w` says. -/
structure Flight (v : Volume) (d : Disk Block) (w : View) (X Y loose : Nat → Prop) : Prop where
  live : ∀ ino, w.live ino = OnyxFs.live v d ino
  inode : ∀ ino, w.live ino = true → ¬ X ino → (w.inode ino).SamePtrs (inodeAt v d ino)
  ents : ∀ ino j, w.live ino = true → ¬ Y ino → (w.inode ino).indirect ≠ 0 → j < 1024 →
    w.ents ino j = entsAt d (w.inode ino) j
  single : ∀ ino, w.live ino = true → (w.inode ino).doubleIndirect = 0
  owns : Owns w.ref (Used v d) loose

section

variable {v : Volume} {d : Disk Block} {w w' : View} {X Y loose : Nat → Prop}

theorem View.ref_eq_some {p : Nat × Slot} {b : Nat} :
    w.ref p = some b ↔ w.live p.1 = true ∧ (w.inode p.1).ptr (w.ents p.1) p.2 ≠ 0 ∧
      ((w.inode p.1).ptr (w.ents p.1) p.2).toNat = b := by
  unfold View.ref
  split
  · rename_i h
    simp only [Option.some.injEq, h.1, h.2, ne_eq, not_false_eq_true, true_and]
  · rename_i h
    simp only [reduceCtorEq, false_iff]
    rintro ⟨h1, h2, -⟩
    exact h ⟨h1, h2⟩

theorem diskView_ref {ino b : Nat} {s : Slot} :
    (diskView v d).ref (ino, s) = some b ↔ OnyxFs.live v d ino = true ∧
      (inodeAt v d ino).ptr (entsAt d (inodeAt v d ino)) s ≠ 0 ∧
      ((inodeAt v d ino).ptr (entsAt d (inodeAt v d ino)) s).toNat = b :=
  View.ref_eq_some

theorem BlocksOwned.flight (h : BlocksOwned v d) : Flight v d (diskView v d) nothing nothing nothing where
  live _ := rfl
  inode _ _ _ := Inode.SamePtrs.refl _
  ents _ _ _ _ _ _ := rfl
  single := h.single
  owns := h.owns

theorem View.ref_congr {w w' : View} {p : Nat × Slot} (hl : w.live p.1 = w'.live p.1)
    (hp : w.live p.1 = true → (w.inode p.1).ptr (w.ents p.1) p.2 = (w'.inode p.1).ptr (w'.ents p.1) p.2) :
    w.ref p = w'.ref p := by
  unfold View.ref
  rw [← hl]
  by_cases h : w.live p.1 = true
  · rw [hp h]
  · simp only [h, Bool.false_eq_true, false_and, if_false]

theorem Flight.blocksOwned (h : Flight v d w nothing nothing nothing) : BlocksOwned v d := by
  refine ⟨h.owns.congr (fun p => ?_) (fun _ => Iff.rfl) fun _ => Iff.rfl, fun ino hl => ?_⟩
  · refine View.ref_congr (h.live p.1).symm fun hl => ?_
    have hlw : w.live p.1 = true := by rw [h.live]; exact hl
    have hs := h.inode p.1 hlw id
    cases p.2 with
    | direct i => exact (congrFun hs.blocks i).symm
    | table => exact hs.indirect.symm
    | entry j =>
      show (if (inodeAt v d p.1).indirect = 0 then 0 else entsAt d (inodeAt v d p.1) j.1) =
        if (w.inode p.1).indirect = 0 then 0 else w.ents p.1 j.1
      rw [← hs.indirect]
      by_cases h0 : (w.inode p.1).indirect = 0
      · rw [if_pos h0, if_pos h0]
      · rw [if_neg h0, if_neg h0, h.ents p.1 j.1 hlw id h0 j.2, entsAt, entsAt, hs.indirect]
  · have hlw : w.live ino = true := by rw [h.live]; exact hl
    rw [← (h.inode ino hlw id).doubleIndirect]
    exact h.single ino hlw

end

/-! ## Volumes with one block of inodes

The inode table is block 3, the data bitmap block 2, and the data blocks start at 4. -/

section

variable {v : Volume} {d : Disk Block}

theorem layout_of_small (htable : v.sb.inodeTableStart.toNat = 3) (hend : inodeTableEnd v = 4)
    (hbitmap : v.sb.dataBitmapStart.toNat = 2) (hstart : v.sb.dataBlocksStart.toNat = 4)
    (htotal : v.sb.totalBlocks.toNat = 36) (hhome : ∀ b < 40, Home v.sb b) : Layout v := by
  have hinodes : inodeBitmapBlk = 1 := rfl
  have hin : ∀ b, InTable v b ↔ 3 ≤ b ∧ b < 4 := fun b => by rw [InTable, htable, hend]
  have hdata : ∀ b, InData v.sb b ↔ 4 ≤ b ∧ b < 36 := fun b => by
    rw [InData, dataBlockCount, hstart, htotal]
  constructor
  · omega
  · rw [hin]
    omega
  · rw [hin]
    omega
  · omega
  · omega
  · omega
  · exact hhome _ (by omega)
  · exact hhome _ (by omega)
  · intro b hb
    exact hhome b (by have := (hin b).mp hb; omega)
  · intro b hb
    exact hhome b (by have := (hdata b).mp hb; omega)

theorem getBit_setBit_zero (k : Nat) : (Bytes.zero.setBit 0 : Block).getBit k = decide (k = 0) := by
  rw [Bytes.getBit_setBit _ (by omega)]
  simp [Bytes.getBit]

theorem live_first (hcount : v.sb.inodeCount.toNat = 32)
    (hbits : d inodeBitmapBlk = Bytes.zero.setBit 0) (ino : Nat) : live v d ino = decide (ino = 1) := by
  rw [live, hbits, getBit_setBit_zero, hcount, ← Bool.decide_and, ← Bool.decide_and, decide_eq_decide]
  omega

theorem inodeAt_first {x : Inode} (hver : v.version = 2) (htable : v.sb.inodeTableStart.toNat = 3)
    (hdisk : d 3 = Bytes.zero.blit 0 x.toBytes) : inodeAt v d 1 = { x with ctime := 0 } := by
  have hblk : inodeBlock v 1 = 3 := by simp [inodeBlock, htable]
  rw [inodeAt, hblk, hdisk, decodeInode, if_neg (by omega), Nat.sub_self, Nat.zero_mod, Nat.zero_mul,
    Inode.fromBytes_blit _ _ _ (by omega)]

end

end OnyxFs
