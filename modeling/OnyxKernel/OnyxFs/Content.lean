import OnyxKernel.OnyxFs.File
import OnyxKernel.OnyxFs.Working

/-!
# The contents of a file

A file is a function from positions to bytes. `fileByte` reads it off the disk through the pointers
of the inode; a position without a block holds zero. What `write` stores is an overlay on that
function, `spliceAt`.
-/

namespace OnyxFs

open Infra Onyx Function

/-! ## Overlays -/

/-- `n` bytes of `src` over `c` from position `off` on. -/
def spliceAt (c : Nat → UInt8) (off n : Nat) (src : Nat → UInt8) : Nat → UInt8 := fun p =>
  if off ≤ p ∧ p < off + n then src (p - off) else c p

theorem spliceAt_zero (c : Nat → UInt8) (off : Nat) (src : Nat → UInt8) : spliceAt c off 0 src = c := by
  funext p
  exact if_neg (by omega)

theorem spliceAt_spliceAt (c : Nat → UInt8) (off n m : Nat) (src : Nat → UInt8) :
    spliceAt (spliceAt c off n src) (off + n) m (fun i => src (n + i)) = spliceAt c off (n + m) src := by
  funext p
  unfold spliceAt
  by_cases h1 : off + n ≤ p ∧ p < off + n + m
  · rw [if_pos h1, if_pos (by omega)]
    have hpos : n + (p - (off + n)) = p - off := by omega
    exact congrArg src hpos
  · rw [if_neg h1]
    by_cases h2 : off ≤ p ∧ p < off + n
    · rw [if_pos h2, if_pos (by omega)]
    · rw [if_neg h2, if_neg (by omega)]

/-! ## Block indices -/

/-- The slot that block index `idx` of a file is in. -/
def slotOf (idx : Nat) (h : idx < 1034) : Slot :=
  if h10 : idx < 10 then .direct ⟨idx, h10⟩ else .entry ⟨idx - 10, by omega⟩

/-- The block with index `idx`, 0 if there is none. -/
def blockPtr (x : Inode) (ents : Nat → UInt32) (idx : Nat) : UInt32 :=
  if h : idx < 1034 then x.ptr ents (slotOf idx h) else 0

variable {ents : Nat → UInt32} {idx : Nat} {x : Inode}

theorem slotOf_ne_table (h : idx < 1034) : slotOf idx h ≠ .table := by
  unfold slotOf
  split <;> simp

theorem slotOf_inj {i j : Nat} (hi : i < 1034) (hj : j < 1034) (h : slotOf i hi = slotOf j hj) : i = j := by
  unfold slotOf at h
  split at h <;> split at h <;> simp at h <;> omega

theorem blockPtr_of_lt (h : idx < 1034) : blockPtr x ents idx = x.ptr ents (slotOf idx h) := dif_pos h

theorem lt_of_blockPtr (h : blockPtr x ents idx ≠ 0) : idx < 1034 := by
  by_contra hc
  exact h (dif_neg hc)

theorem blockPtr_direct (x : Inode) (ents : Nat → UInt32) (h : idx < 10) :
    blockPtr x ents idx = x.blocks ⟨idx, h⟩ := by
  rw [blockPtr_of_lt (by omega), slotOf, dif_pos h, Inode.ptr]

theorem blockPtr_entry (x : Inode) (ents : Nat → UInt32) (h10 : ¬ idx < 10)
    (h : idx < 1034) : blockPtr x ents idx = if x.indirect = 0 then 0 else ents (idx - 10) := by
  rw [blockPtr_of_lt h, slotOf, dif_neg h10, Inode.ptr]

/-- A relation between the blocks of two files is shown for the direct blocks and for the table entries. -/
theorem blockPtr_rel {R : Nat → UInt32 → UInt32 → Prop} {y : Inode} {ents' : Nat → UInt32}
    (hdirect : ∀ i : Fin 10, R i (x.blocks i) (y.blocks i))
    (hentry : ∀ j < 1024, R (10 + j) (if x.indirect = 0 then 0 else ents j) (if y.indirect = 0 then 0 else ents' j))
    (hend : ∀ k ≥ 1034, R k 0 0) (idx : Nat) : R idx (blockPtr x ents idx) (blockPtr y ents' idx) := by
  by_cases h : idx < 1034
  · by_cases h10 : idx < 10
    · rw [blockPtr_direct x ents h10, blockPtr_direct y ents' h10]
      exact hdirect ⟨idx, h10⟩
    · obtain ⟨j, rfl⟩ : ∃ j, idx = 10 + j := ⟨idx - 10, by omega⟩
      rw [blockPtr_entry x ents h10 h, blockPtr_entry y ents' h10 h, Nat.add_sub_cancel_left]
      exact hentry j (by omega)
  · rw [blockPtr, dif_neg h, blockPtr, dif_neg h]
    exact hend idx (by omega)

theorem blockPtr_setBlock (x : Inode) (ents : Nat → UInt32) (i : Fin 10) (blk : UInt32) :
    ∀ idx, blockPtr (x.setBlock i blk) ents idx = if idx = i.1 then blk else blockPtr x ents idx := by
  refine blockPtr_rel (R := fun idx p q => p = if idx = i.1 then blk else q) (fun k => ?_) ?_ ?_
  · exact (Function.update_apply ..).trans (if_congr Fin.ext_iff rfl rfl)
  · exact fun j _ => (if_neg (by omega)).symm
  · exact fun k _ => (if_neg (by omega)).symm

theorem Inode.SamePtrs.blockPtr {y : Inode} (h : x.SamePtrs y) (ents : Nat → UInt32) (idx : Nat) :
    OnyxFs.blockPtr x ents idx = OnyxFs.blockPtr y ents idx := by
  unfold OnyxFs.blockPtr
  split
  · exact h.ptr ents _
  · rfl

/-! ## Bytes -/

def fileBlock (d : Disk Block) (x : Inode) (ents : Nat → UInt32) (idx : Nat) : Block :=
  if blockPtr x ents idx = 0 then Bytes.zero else d (blockPtr x ents idx).toNat

def fileByte (d : Disk Block) (x : Inode) (ents : Nat → UInt32) (p : Nat) : UInt8 :=
  (fileBlock d x ents (p / 4096)).get (p % 4096)

/-- The block with index `idx` of the file stored under an inode number. -/
def blockAt (v : Volume) (d : Disk Block) (ino idx : Nat) : UInt32 :=
  blockPtr (inodeAt v d ino) (entsAt d (inodeAt v d ino)) idx

def fileAt (v : Volume) (d : Disk Block) (ino : Nat) : Nat → UInt8 :=
  fileByte d (inodeAt v d ino) (entsAt d (inodeAt v d ino))

theorem fileByte_congr {d d' : Disk Block} {x' : Inode} {ents' : Nat → UInt32}
    (hp : ∀ idx, blockPtr x' ents' idx = blockPtr x ents idx)
    (hd : ∀ idx, blockPtr x ents idx ≠ 0 → d' (blockPtr x ents idx).toNat = d (blockPtr x ents idx).toNat) :
    fileByte d' x' ents' = fileByte d x ents := by
  funext p
  unfold fileByte fileBlock
  rw [hp]
  split
  · rfl
  · rename_i h0
    rw [hd _ h0]

section

variable {v : Volume} {d d' : Disk Block} {w : View} {X Y loose : Nat → Prop} {ino : Nat}
variable {x : Inode} {ents : Nat → UInt32}
variable (h : Flight v d w X Y loose) (hi : w.live ino = true) (hx : (w.inode ino).SamePtrs x) (he : w.ents ino = ents)
include h hi hx he

omit h in
theorem Flight.ref_block (_ : Flight v d w X Y loose) {idx : Nat} (h0 : blockPtr x ents idx ≠ 0) :
    w.ref (ino, slotOf idx (lt_of_blockPtr h0)) = some (blockPtr x ents idx).toNat := by
  refine ref_of_ptr hi ?_ h0
  rw [he, hx.ptr, blockPtr_of_lt (lt_of_blockPtr h0)]

theorem Flight.block_inj {i j : Nat} (hi0 : blockPtr x ents i ≠ 0) (hj0 : blockPtr x ents j ≠ 0)
    (hij : (blockPtr x ents i).toNat = (blockPtr x ents j).toNat) : i = j := by
  have hsame := h.owns.inj (h.ref_block hi hx he hi0) (hij ▸ h.ref_block hi hx he hj0)
  exact slotOf_inj (lt_of_blockPtr hi0) (lt_of_blockPtr hj0) (congrArg Prod.snd hsame)

theorem Flight.blockAt_eq (hX : ¬ X ino) (hY : ¬ Y ino) (idx : Nat) : blockAt v d ino idx = blockPtr x ents idx := by
  have hdisk := h.inode ino hi hX
  unfold blockAt
  by_cases hidx : idx < 1034
  · by_cases h10 : idx < 10
    · rw [blockPtr_direct _ _ h10, blockPtr_direct _ _ h10, ← hdisk.blocks, hx.blocks]
    · rw [blockPtr_entry _ _ h10 hidx, blockPtr_entry _ _ h10 hidx, ← hdisk.indirect, hx.indirect]
      by_cases h0 : x.indirect = 0
      · rw [if_pos h0, if_pos h0]
      · have hw0 : (w.inode ino).indirect ≠ 0 := by rw [hx.indirect]; exact h0
        rw [if_neg h0, if_neg h0, ← he, h.ents ino _ hi hY hw0 (by omega), entsAt, entsAt, hdisk.indirect]
  · unfold blockPtr
    rw [dif_neg hidx, dif_neg hidx]

theorem Flight.fileByte_put {idx : Nat} (h0 : blockPtr x ents idx ≠ 0) {off chunk : Nat} (hoff : off / 4096 = idx)
    (hchunk : off % 4096 + chunk ≤ 4096) (src : Nat → UInt8) :
    fileByte (update d (blockPtr x ents idx).toNat
        ((d (blockPtr x ents idx).toNat).splice (off % 4096) chunk src)) x ents =
      spliceAt (fileByte d x ents) off chunk src := by
  funext p
  simp only [fileByte, spliceAt, fileBlock]
  by_cases hp : p / 4096 = idx
  · rw [hp, if_neg h0, if_neg h0, update_self, Bytes.get_splice _ _ _ _ (by omega)]
    refine if_congr (by omega) ?_ rfl
    congr 1
    omega
  · have hout : ¬ (off ≤ p ∧ p < off + chunk) := by omega
    rw [if_neg hout]
    by_cases hp0 : blockPtr x ents (p / 4096) = 0
    · rw [if_pos hp0, if_pos hp0]
    · have hne : (blockPtr x ents (p / 4096)).toNat ≠ (blockPtr x ents idx).toNat :=
        fun hc => hp (h.block_inj hi hx he hp0 h0 hc)
      rw [if_neg hp0, if_neg hp0, update_of_ne hne]

theorem Flight.fileByte_alloc (hl : Layout v) {i : Fin 10} (h0 : x.blocks i = 0) {blk : UInt32}
    (hb : Allocated v d blk d') (hne : blk ≠ 0) :
    fileByte (update d' blk.toNat Bytes.zero) (x.setBlock i blk) ents = fileByte d x ents := by
  funext p
  unfold fileByte fileBlock
  rw [blockPtr_setBlock]
  by_cases hp : p / 4096 = i.1
  · have hold : blockPtr x ents (p / 4096) = 0 := by
      have h10 : p / 4096 < 10 := by omega
      rw [blockPtr_direct x ents h10, ← h0]
      congr 1
      exact Fin.ext hp
    rw [if_pos hp, if_neg hne, if_pos hold, update_self]
  · rw [if_neg hp]
    by_cases hp0 : blockPtr x ents (p / 4096) = 0
    · rw [if_pos hp0, if_pos hp0]
    · have hused := h.owns.used_of_ref (h.ref_block hi hx he hp0)
      -- The block of another index is in use, so it is not the one just taken.
      have hblk : (blockPtr x ents (p / 4096)).toNat ≠ blk.toNat := by
        intro hc
        have hset := hused.2
        rw [hc, hb.clear] at hset
        cases hset
      have hbm : (blockPtr x ents (p / 4096)).toNat ≠ v.sb.dataBitmapStart.toNat := by
        have := hused.1.1
        have := hl.data_dataBitmap
        omega
      rw [if_neg hp0, if_neg hp0, update_of_ne hblk, hb.disk, setUsed, update_of_ne hbm]

end

end OnyxFs
