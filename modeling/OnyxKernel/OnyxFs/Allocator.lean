import OnyxKernel.Infra.Machine
import OnyxKernel.OnyxFs.AllocSpec

/-!
# Runs of the allocators

`alloc_data_block`, `free_data_block` and `alloc_inode` one after the other, on a device that does
not fail and with a journal that is not full. Each of them changes one bit of one bitmap, and only a
lowest clear bit is handed out. So nothing is handed out twice, as long as the two bitmaps are two
blocks and no journal entry is written over one of them.
-/

namespace OnyxFs

open Infra Onyx StateProg Function

theorem LowestClear.not_allSet {b : Block} {limit i : Nat} (h : LowestClear b limit i) : ¬ AllSet b limit := by
  intro hset
  simpa [h.clear] using hset i h.lt

theorem LowestClear.toNat_dataBlock {b : Block} {sb : Super} {i : Nat} (h : LowestClear b (dataBlockCount sb) i) :
    (UInt32.ofNat (sb.dataBlocksStart.toNat + i)).toNat = sb.dataBlocksStart.toNat + i := by
  have hlt := h.lt
  unfold dataBlockCount at hlt
  have htotal : sb.totalBlocks.toNat < UInt32.size := sb.totalBlocks.toNat_lt
  exact UInt32.toNat_ofNat_of_lt' (by omega)

/-! ## One call -/

/-- The blocks outside the journal are now as in `d`. -/
structure Changed (s u : FsState) (d : Disk Block) : Prop where
  version : u.version = s.version
  sb : u.sb = s.sb
  fault : u.fault = s.fault
  disk : ∀ c, Home s.sb c → u.disk c = d c

/-- The device does not fail, and the journal has room for one more entry. -/
structure Ready (s : FsState) : Prop where
  calm : s.NoFaults
  room : s.sb.hasJournal = true → s.head < s.sb.journalSize.toNat

section

variable {s : FsState} {α : Type} {E : Errno → FsState → Prop}

def FsState.loaded (s : FsState) (blk : Nat) : FsState := { s with buf := s.disk blk, ticks := s.ticks + 1 }

theorem Ready.loaded (hs : Ready s) (blk : Nat) : Ready (s.loaded blk) := ⟨hs.calm, hs.room⟩

theorem Changed.of_loaded {u : FsState} {d : Disk Block} {blk : Nat} (h : Changed (s.loaded blk) u d) : Changed s u d :=
  { h with }

theorem wp_edit {f : Block → FsProg α} {Q : α → FsState → Prop} (hs : s.NoFaults) {blk : Nat}
    (h : wp (exec (f (s.disk blk))) Q E (s.loaded blk)) : wp (exec (do
      load blk
      let b ← getBuf
      f b)) Q E s := by
  have hrun : (readBuf blk).run s = (.ok (), s.loaded blk) := by
    simp only [readBuf, hs s.ticks, FsState.loaded]
  rw [exec_bind, exec_load, wp_bind]
  refine wp_of_run_ok hrun ?_
  rw [exec_bind, exec_getBuf, wp_bind, wp_gets]
  exact h

/-- A full journal refuses the write. -/
theorem logWrite_calm (hs : s.NoFaults) (blk : Nat) (data : Block) : wp (logWrite blk data)
      (fun _ u => Changed s u (update s.disk blk data)) (fun _ u => u = s ∧ ¬ Ready s) s := by
  cases hj : s.sb.hasJournal with
  | false =>
    unfold logWrite journalLog
    rw [wp_bind, wp_bind, wp_get, if_pos hj, wp_pure]
    refine wp_mono (writeInPlace_spec hs blk data) (fun _ u hu => ?_) fun _ _ he => he.elim
    exact ⟨hu.1.version, hu.1.sb, hu.1.fault, fun c _ => by rw [hu.1.disk]; rfl⟩
  | true =>
    by_cases hroom : s.head < s.sb.journalSize.toNat
    · refine wp_mono (logWrite_spec hs hj hroom blk data) (fun _ u hu => ?_) fun _ _ he => he.elim
      refine ⟨hu.1.version, hu.1.sb, hu.1.fault, fun c hc => ?_⟩
      have hne : c ≠ s.sb.journalStart.toNat + s.head := by
        rintro rfl
        exact hc hj ⟨by omega, by omega⟩
      rw [hu.1.disk]
      simp only [logWrites, applyWrites_cons, applyWrites_nil, update_apply, if_neg hne]
    · exact wp_of_run_error (logWrite_full hj (by omega) blk data) ⟨rfl, fun hr => hroom (hr.room hj)⟩

theorem putBuf_ready (hs : Ready s) (blk : Nat) (data : Block) :
    wp (exec (putBuf blk data)) (fun _ u => Changed s u (update s.disk blk data)) E s := by
  unfold putBuf
  rw [exec_bind, exec_setBuf, wp_bind, wp_modify, exec_put]
  have hset : Ready { s with buf := data } := ⟨hs.calm, hs.room⟩
  exact wp_mono (logWrite_calm hset.calm blk data) (fun _ _ hu => ⟨hu.version, hu.sb, hu.fault, hu.disk⟩)
    fun _ _ he => absurd hset he.2

/-- The scan of a bitmap and the write of the bit that it finds, as both allocators have them. -/
theorem wp_takeBit (hs : Ready s) (bm limit : Nat) (f : Nat → α) :
    wp (exec (do
      load bm
      let b ← getBuf
      match scanBytes b limit 4096 0 with
      | none => .fail .noSpace
      | some i => do
        putBuf bm (b.setBit i)
        pure (f i)))
      (fun a u => ∃ i, LowestClear (s.disk bm) limit i ∧ a = f i ∧
        Changed s u (update s.disk bm ((s.disk bm).setBit i)))
      (fun err u => err = .noSpace ∧ AllSet (s.disk bm) limit ∧ Changed s u s.disk) s := by
  refine wp_edit hs.calm ?_
  split
  · rename_i hscan
    exact ⟨rfl, scanBytes_full hscan, rfl, rfl, rfl, fun _ _ => rfl⟩
  · rename_i i hscan
    rw [exec_bind]
    exact wp_then (putBuf_ready (hs.loaded bm) bm _) fun _ u hu => ⟨i, scanBytes_lowest hscan, rfl, hu.of_loaded⟩

theorem allocDataBlock_takes (hs : Ready s) : wp (exec allocDataBlock)
      (fun blk u => ∃ i, LowestClear (s.disk s.sb.dataBitmapStart.toNat) (dataBlockCount s.sb) i ∧
        blk.toNat = s.sb.dataBlocksStart.toNat + i ∧ Changed s u
          (update s.disk s.sb.dataBitmapStart.toNat ((s.disk s.sb.dataBitmapStart.toNat).setBit i)))
      (fun err u => err = .noSpace ∧ AllSet (s.disk s.sb.dataBitmapStart.toNat) (dataBlockCount s.sb) ∧
        Changed s u s.disk) s := by
  unfold allocDataBlock
  rw [exec_bind, exec_volume, wp_bind, wp_gets]
  dsimp only
  split
  · rename_i h0
    exact ⟨rfl, fun j hj => by omega, rfl, rfl, rfl, fun _ _ => rfl⟩
  refine wp_imp (wp_takeBit hs _ _ _) fun blk u hu => ?_
  obtain ⟨i, hi, rfl, hu⟩ := hu
  exact ⟨i, hi, hi.toNat_dataBlock, hu⟩

theorem allocInode_takes (hs : Ready s) : wp (exec allocInode)
      (fun ino u => ∃ i, LowestClear (s.disk inodeBitmapBlk) s.sb.inodeCount.toNat i ∧ ino = i + 1 ∧
        Changed s u (update s.disk inodeBitmapBlk ((s.disk inodeBitmapBlk).setBit i)))
      (fun err u => err = .noSpace ∧ AllSet (s.disk inodeBitmapBlk) s.sb.inodeCount.toNat ∧
        Changed s u s.disk) s := by
  unfold allocInode
  rw [exec_bind, exec_volume, wp_bind, wp_gets]
  split
  · rename_i h0
    exact ⟨rfl, fun j hj => by rw [h0] at hj; simp at hj, rfl, rfl, rfl, fun _ _ => rfl⟩
  exact wp_takeBit hs _ _ _

theorem freeDataBlock_clears (hs : Ready s) (blk : UInt32) : wp (exec (freeDataBlock blk))
      (fun _ u => ∃ i < 4096 * 8, blk.toNat = s.sb.dataBlocksStart.toNat + i ∧ Changed s u
        (update s.disk s.sb.dataBitmapStart.toNat ((s.disk s.sb.dataBitmapStart.toNat).clearBit i)))
      (fun _ u => Changed s u s.disk) s := by
  have hsame : Changed s s s.disk := ⟨rfl, rfl, rfl, fun _ _ => rfl⟩
  unfold freeDataBlock
  rw [exec_bind, exec_volume, wp_bind, wp_gets]
  dsimp only
  split
  · exact hsame
  split
  · exact hsame
  refine wp_edit hs.calm (wp_imp (putBuf_ready (hs.loaded _) _ _) fun _ u hu => ?_)
  exact ⟨_, by omega, by omega, hu.of_loaded⟩

end

/-! ## Runs -/

/-- The driver, and what it has handed out and not taken back. -/
structure Holdings where
  fs : FsState
  blocks : List UInt32
  inodes : List Nat

inductive AllocCall
  | allocDataBlock
  | freeDataBlock (blk : UInt32)
  | allocInode

def Holdings.call (h : Holdings) : AllocCall → Holdings
  | .allocDataBlock =>
    match (exec allocDataBlock).run h.fs with
    | (.ok blk, s) => { h with fs := s, blocks := blk :: h.blocks }
    | (.error _, s) => { h with fs := s }
  | .freeDataBlock blk =>
    match (exec (freeDataBlock blk)).run h.fs with
    | (.ok _, s) => { h with fs := s, blocks := h.blocks.filter (· ≠ blk) }
    | (.error _, s) => { h with fs := s }
  | .allocInode =>
    match (exec allocInode).run h.fs with
    | (.ok ino, s) => { h with fs := s, inodes := ino :: h.inodes }
    | (.error _, s) => { h with fs := s }

def allocator : Machine Holdings AllocCall where
  step h c := some (h.call c)

/-- The bitmaps are two blocks outside the journal. -/
structure BitmapsApart (sb : Super) : Prop where
  apart : sb.dataBitmapStart.toNat ≠ inodeBitmapBlk
  data : Home sb sb.dataBitmapStart.toNat
  inode : Home sb inodeBitmapBlk

/-- What the next call of an allocator does. -/
structure HandsOutLowest (h : Holdings) : Prop where
  block : ∀ blk u, (exec allocDataBlock).run h.fs = (.ok blk, u) → blk ∉ h.blocks ∧ ∃ i,
    LowestClear (h.fs.disk h.fs.sb.dataBitmapStart.toNat) (dataBlockCount h.fs.sb) i ∧
      blk.toNat = h.fs.sb.dataBlocksStart.toNat + i ∧ blk.toNat < h.fs.sb.totalBlocks.toNat
  noBlock : ∀ err, ((exec allocDataBlock).run h.fs).1 = .error err ↔ err = .noSpace ∧
    AllSet (h.fs.disk h.fs.sb.dataBitmapStart.toNat) (dataBlockCount h.fs.sb)
  inode : ∀ ino u, (exec allocInode).run h.fs = (.ok ino, u) → ino ∉ h.inodes ∧ ∃ i,
    LowestClear (h.fs.disk inodeBitmapBlk) h.fs.sb.inodeCount.toNat i ∧ ino = i + 1 ∧
      ino ≤ h.fs.sb.inodeCount.toNat
  noInode : ∀ err, ((exec allocInode).run h.fs).1 = .error err ↔ err = .noSpace ∧
    AllSet (h.fs.disk inodeBitmapBlk) h.fs.sb.inodeCount.toNat

/-- The bits of what was handed out are set. -/
structure Holdings.Marked (h : Holdings) : Prop where
  block : ∀ blk ∈ h.blocks, ∃ i, blk.toNat = h.fs.sb.dataBlocksStart.toNat + i ∧
    (h.fs.disk h.fs.sb.dataBitmapStart.toNat).getBit i = true
  inode : ∀ ino ∈ h.inodes, ∃ i, ino = i + 1 ∧ (h.fs.disk inodeBitmapBlk).getBit i = true

theorem error_iff {α : Type} {p : Fs α} {s : FsState} {Q : α → FsState → Prop} {P : Prop}
    (h : wp p Q (fun err _ => err = .noSpace ∧ P) s) (hq : ∀ a u, Q a u → ¬ P) (err : Errno) :
    (p.run s).1 = .error err ↔ err = .noSpace ∧ P := by
  unfold wp at h
  split at h
  · rename_i a u hr
    simp [hr, hq a u h]
  · rename_i err' u hr
    simp [hr, h.1, h.2, eq_comm]

variable {h : Holdings}

theorem Holdings.Marked.handsOutLowest (hm : h.Marked) (hs : Ready h.fs) : HandsOutLowest h where
  block blk u hrun := by
    obtain ⟨i, hi, hblk, -⟩ := (allocDataBlock_takes hs).ok hrun
    have hlt := hi.lt
    unfold dataBlockCount at hlt
    refine ⟨fun hmem => ?_, i, hi, hblk, by omega⟩
    obtain ⟨j, hj, hset⟩ := hm.block blk hmem
    obtain rfl : j = i := by omega
    simp [hi.clear] at hset
  noBlock := error_iff (wp_mono (allocDataBlock_takes hs) (fun _ _ hu => hu) fun _ _ he => ⟨he.1, he.2.1⟩)
    fun _ _ ⟨_, hi, _⟩ => hi.not_allSet
  inode ino u hrun := by
    obtain ⟨i, hi, rfl, -⟩ := (allocInode_takes hs).ok hrun
    have hlt := hi.lt
    refine ⟨fun hmem => ?_, i, hi, rfl, by omega⟩
    obtain ⟨j, hj, hset⟩ := hm.inode _ hmem
    obtain rfl : j = i := by omega
    simp [hi.clear] at hset
  noInode := error_iff (wp_mono (allocInode_takes hs) (fun _ _ hu => hu) fun _ _ he => ⟨he.1, he.2.1⟩)
    fun _ _ ⟨_, hi, _⟩ => hi.not_allSet

theorem Holdings.marked_of_changed (ha : BitmapsApart h.fs.sb) {u : FsState} {d : Disk Block}
    {blocks : List UInt32} {inodes : List Nat} (hu : Changed h.fs u d)
    (hblock : ∀ blk ∈ blocks, ∃ i, blk.toNat = h.fs.sb.dataBlocksStart.toNat + i ∧
      (d h.fs.sb.dataBitmapStart.toNat).getBit i = true)
    (hinode : ∀ ino ∈ inodes, ∃ i, ino = i + 1 ∧ (d inodeBitmapBlk).getBit i = true) :
    (Holdings.mk u blocks inodes).Marked := by
  constructor
  · simpa only [hu.sb, hu.disk _ ha.data] using hblock
  · simpa only [hu.disk _ ha.inode] using hinode

theorem Holdings.Marked.call (hm : h.Marked) (ha : BitmapsApart h.fs.sb) (hs : Ready h.fs) (c : AllocCall) :
    (h.call c).Marked := by
  obtain ⟨hblock, hinode⟩ := hm
  have hne := ha.apart
  cases c with simp only [Holdings.call]
  | allocDataBlock =>
    have hspec := allocDataBlock_takes hs
    split
    · rename_i blk u hr
      obtain ⟨i, ⟨hlt, -, -⟩, hblk, hu⟩ := hspec.ok hr
      have hbit := Bytes.getBit_setBit (h.fs.disk h.fs.sb.dataBitmapStart.toNat) (show i / 8 < 4096 by omega)
      have hself := hbit i
      refine Holdings.marked_of_changed ha hu ?_ ?_ <;> grind
    · rename_i err u hr
      exact Holdings.marked_of_changed ha (hspec.error hr).2.2 hblock hinode
  | freeDataBlock blk =>
    have hspec := freeDataBlock_clears hs blk
    split
    · rename_i u hr
      obtain ⟨i, hlt, hblk, hu⟩ := hspec.ok hr
      have hbit := Bytes.getBit_clearBit (h.fs.disk h.fs.sb.dataBitmapStart.toNat) (show i / 8 < 4096 by omega)
      have hinj : ∀ b : UInt32, b.toNat = blk.toNat → b = blk := fun _ => UInt32.toNat_inj.mp
      refine Holdings.marked_of_changed ha hu ?_ ?_ <;> grind
    · rename_i err u hr
      exact Holdings.marked_of_changed ha (hspec.error hr) hblock hinode
  | allocInode =>
    have hspec := allocInode_takes hs
    split
    · rename_i ino u hr
      obtain ⟨i, ⟨hlt, -, -⟩, rfl, hu⟩ := hspec.ok hr
      have hbit := Bytes.getBit_setBit (h.fs.disk inodeBitmapBlk) (show i / 8 < 4096 by omega)
      have hself := hbit i
      refine Holdings.marked_of_changed ha hu ?_ ?_ <;> grind
    · rename_i err u hr
      exact Holdings.marked_of_changed ha (hspec.error hr).2.2 hblock hinode

/-- In every run of the allocators whose bitmaps are two blocks outside the journal, each call hands
out the lowest free number, which is not handed out already, and fails only when all numbers are
taken. -/
theorem allocator_handsOutLowest {h₀ h : Holdings} (hb : h₀.blocks = []) (hi : h₀.inodes = [])
    (hrun : allocator.Reach (fun g _ => Ready g.fs ∧ BitmapsApart g.fs.sb) h₀ h) (hs : Ready h.fs) :
    HandsOutLowest h := by
  have hm : h.Marked := by
    refine hrun.invariant (I := Holdings.Marked) ⟨?_, ?_⟩ fun hm hok hstep => ?_
    · simp [hb]
    · simp [hi]
    · obtain rfl := Option.some.inj hstep
      exact hm.call hok.2 hok.1 _
  exact hm.handsOutLowest hs

/-- A volume without a journal where nothing is allocated, with the data bitmap in a given block. -/
def blankVolume (dataBitmapStart : UInt32) : FsState where
  version := 2
  sb :=
    { magic := onyfsMagic, blockSize := 4096, totalBlocks := 36, inodeCount := 32
      inodeTableStart := 3, dataBitmapStart := dataBitmapStart, dataBlocksStart := 4
      journalStart := 0, journalSize := 0 }
  buf := Bytes.zero
  head := 0
  jiffies := 0
  disk := fun _ => Bytes.zero
  ticks := 0
  fault := fun _ => none
  trace := []
  inPlace := []

theorem blankVolume_ready (bm : UInt32) : Ready (blankVolume bm) := ⟨fun _ => rfl, nofun⟩

/-- Blocks 4 and 5 are handed out; the next one is another one. -/
theorem allocator_handsOutLowest_blank :
    (((allocator.play (fun _ _ => true) ⟨blankVolume 2, [], []⟩ [.allocDataBlock, .allocDataBlock]).map
      Holdings.blocks) = some [5, 4]) ∧ ∃ h, HandsOutLowest h ∧ h.blocks = [4] := by
  have happart : BitmapsApart (blankVolume 2).sb := ⟨by decide, by decide, by decide⟩
  have hready : Ready ((Holdings.mk (blankVolume 2) [] []).call .allocDataBlock).fs := ⟨fun _ => rfl, nofun⟩
  exact ⟨by decide +kernel, _, allocator_handsOutLowest rfl rfl
    (Machine.Reach.step .refl ⟨blankVolume_ready 2, happart⟩ rfl) hready, by decide +kernel⟩

/-- With both bitmaps in block 1, `free_data_block` takes back an inode number. -/
theorem allocInode_twice : ∃ s₁ s₂ s₃,
    Ready (blankVolume 1) ∧ (exec allocInode).run (blankVolume 1) = (.ok 1, s₁) ∧
    Ready s₁ ∧ (exec (freeDataBlock 4)).run s₁ = (.ok (), s₂) ∧
    Ready s₂ ∧ (exec allocInode).run s₂ = (.ok 1, s₃) :=
  ⟨_, _, _, blankVolume_ready 1, rfl, ⟨fun _ => rfl, nofun⟩, rfl, ⟨fun _ => rfl, nofun⟩, rfl⟩

end OnyxFs
