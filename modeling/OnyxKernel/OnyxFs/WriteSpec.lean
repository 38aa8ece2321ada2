import OnyxKernel.OnyxFs.Content

/-!
# `write` and `read`

The specification of `write` for calls that add no table entry: the contents become an overlay of
the old ones, and ownership is kept. `read` returns the bytes of the contents.
-/

namespace OnyxFs

open Infra Onyx CmdProg

/-- `write` works on inode `ino`, which is `x` with the table entries `ents`; its contents are `c`. -/
def Writing (e : Env) (alive : Nat → Bool) (ino : Nat) (x : Inode) (ents : Nat → UInt32)
    (c : Nat → UInt8) (t : FsState) : Prop :=
  alive ino = true ∧ ∃ d w, On e d t ∧ Flight e.toVolume d w (· = ino) nothing nothing ∧
    w.live = alive ∧ (w.inode ino).SamePtrs x ∧ w.ents ino = ents ∧ fileByte d x ents = c

variable {e : Env} {d : Disk Block} {t : FsState} {alive : Nat → Bool} {ino : Nat}
variable {x : Inode} {ents : Nat → UInt32} {c : Nat → UInt8} {idx : Nat}

theorem On.writing (h : On e d t) (hb : BlocksOwned e.toVolume d)
    (hi : live e.toVolume d ino = true) :
    Writing e (live e.toVolume d) ino (inodeAt e.toVolume d ino)
      (entsAt d (inodeAt e.toVolume d ino))
      (fileByte d (inodeAt e.toVolume d ino) (entsAt d (inodeAt e.toVolume d ino))) t :=
  ⟨hi, d, diskView e.toVolume d, h, hb.flight.mono (fun _ hc => hc.elim) fun _ hc => hc, rfl,
    Inode.SamePtrs.refl _, rfl, rfl⟩

theorem jiffies_writing (h : Writing e alive ino x ents c t) :
    Does e jiffies (fun _ => Writing e alive ino x ents c) t := by
  constructor
  rw [exec_jiffies]
  exact h

/-! ## One round -/

theorem allocZeroBlock_writing (hl : Layout e.toVolume) (h : Writing e alive ino x ents c t)
    {i : Fin 10} (h0 : x.blocks i = 0) : Does e allocZeroBlock
      (fun blk u => blk ≠ 0 ∧ Writing e alive ino (x.setBlock i blk) ents c u) t := by
  obtain ⟨hi, d, w, ⟨b, hat⟩, hf, rfl, hx, rfl, rfl⟩ := h
  refine (allocZeroBlock_spec hl hat).mono ?_
  rintro blk u ⟨d', hb, hu⟩
  have hne := ne_zero_of_inData hl hb.data
  have hstored := hf.store hl hi hb (s := .direct i) rfl trivial ((hx.ptr _ _).trans h0)
  have href : (w.set ino blk (.direct i)).ref (ino, .direct i) = some blk.toNat :=
    View.ref_set_self (s := .direct _) trivial hi hne
  have hzero := hstored.writeData hl hb.data (hstored.notTable_of_ref href nofun) Bytes.zero
  refine ⟨hne, hi, _, w.set ino blk (.direct i), hu, hzero, rfl, ?_, ?_, ?_⟩
  · simp only [View.set, Function.update_self]
    exact hx.setPtr blk (.direct i)
  · simp only [View.set, Function.update_self, setEnts]
  · exact hf.fileByte_alloc hi hx rfl hl h0 hb hne

theorem writeEntry_writing (hl : Layout e.toVolume) (h : Writing e alive ino x ents c t)
    (h0 : x.indirect ≠ 0) {j : Nat} (hj : j < 1024) (hent : ents j ≠ 0) :
    Does e (writeEntry x j) (fun blk u => blk = ents j ∧ Writing e alive ino x ents c u) t := by
  obtain ⟨hi, d, w, ⟨b, hat⟩, hf, rfl, hx, rfl, rfl⟩ := h
  have h0w : (w.inode ino).indirect ≠ 0 := by rw [hx.indirect]; exact h0
  have hhome : Home e.sb x.indirect.toNat := by
    rw [← hx.indirect]
    exact hl.home_data _ (hf.inData_of_ref (hf.ref_table hi h0w))
  have hentry : indEntry (d x.indirect.toNat) j = w.ents ino j := by
    rw [hf.ents ino j hi id h0w hj, entsAt, hx.indirect]
  refine load_getBuf hat hhome fun u hu => ?_
  rw [if_pos (by rw [hentry]; exact hent)]
  exact .pure ⟨hentry, hi, d, w, hu.on, hf, rfl, hx, rfl, rfl⟩

/-- The inode `y` is `x` with more direct blocks. -/
structure Inode.Grew (x y : Inode) : Prop where
  size : y.size = x.size
  indirect : y.indirect = x.indirect
  kept : ∀ ents idx, blockPtr x ents idx ≠ 0 → blockPtr y ents idx ≠ 0

theorem Inode.Grew.refl (x : Inode) : x.Grew x := ⟨rfl, rfl, fun _ _ h => h⟩

theorem Inode.Grew.trans {x y z : Inode} (h : x.Grew y) (h' : y.Grew z) : x.Grew z :=
  ⟨h'.size.trans h.size, h'.indirect.trans h.indirect, fun ents idx h0 => h'.kept ents idx (h.kept ents idx h0)⟩

theorem Inode.grew_setBlock (x : Inode) (i : Fin 10) {blk : UInt32} (h0 : blk ≠ 0) : x.Grew (x.setBlock i blk) := by
  refine ⟨rfl, rfl, fun ents idx hidx => ?_⟩
  rw [blockPtr_setBlock]
  split
  · exact h0
  · exact hidx

theorem writeTarget_writing (hl : Layout e.toVolume) (h : Writing e alive ino x ents c t)
    (hmap : 10 ≤ idx → idx < 1034 → blockPtr x ents idx ≠ 0) :
    Does e (writeTarget x idx) (fun r u => match r with
      | none => 1034 ≤ idx ∧ Writing e alive ino x ents c u
      | some (blk, y) => blk ≠ 0 ∧ blockPtr y ents idx = blk ∧ x.Grew y ∧
          (∀ i ≠ idx, blockPtr y ents i = blockPtr x ents i) ∧ Writing e alive ino y ents c u) t := by
  unfold writeTarget
  split
  · rename_i h10
    split
    · rename_i hset
      exact .pure ⟨hset, blockPtr_direct x ents h10, Inode.Grew.refl x, fun _ _ => rfl, h⟩
    · rename_i hempty
      refine (allocZeroBlock_writing hl h (not_not.mp hempty)).bind ?_
      rintro blk u ⟨hne, hu⟩
      refine .pure ⟨hne, ?_, x.grew_setBlock _ hne, fun i hi => ?_, hu⟩
      · rw [blockPtr_setBlock, if_pos rfl]
      · rw [blockPtr_setBlock, if_neg hi]
  rename_i h10
  split
  · exact .pure ⟨by omega, h⟩
  have hptr := hmap (by omega) (by omega)
  have hentry := blockPtr_entry x ents h10 (by omega)
  by_cases h0 : x.indirect = 0
  · rw [hentry, if_pos h0] at hptr
    exact absurd rfl hptr
  · rw [if_neg h0] at hentry
    rw [if_pos h0]
    refine (writeEntry_writing hl h h0 (by omega) (by rw [← hentry]; exact hptr)).bind ?_
    rintro blk u ⟨rfl, hu⟩
    exact .pure ⟨by rw [← hentry]; exact hptr, hentry, Inode.Grew.refl x, fun _ _ => rfl, hu⟩

theorem storeChunk_writing {α : Type} {Q : α → FsState → Prop} {k : FsProg α}
    (hl : Layout e.toVolume) (h : Writing e alive ino x ents c t) {blk : UInt32} (h0 : blk ≠ 0)
    (hp : blockPtr x ents idx = blk) {off chunk : Nat} (hoff : off / 4096 = idx)
    (hchunk : off % 4096 + chunk ≤ 4096) (src : Nat → UInt8)
    (hk : ∀ u, Writing e alive ino x ents (spliceAt c off chunk src) u → Does e k Q u) : Does e (do
      load blk.toNat
      let b ← getBuf
      putBuf blk.toNat (b.splice (off % 4096) chunk src)
      k) Q t := by
  subst hp
  obtain ⟨hi, d, w, ⟨b, hat⟩, hf, rfl, hx, rfl, rfl⟩ := h
  have href := hf.ref_block hi hx rfl h0
  have hdata := hf.inData_of_ref href
  refine load_getBuf hat (hl.home_data _ hdata) fun u hu => ?_
  refine (putBuf_spec hu (hdata.target hl) _).bind fun _ u hu => hk u ?_
  refine ⟨hi, _, w, hu.on, ?_, rfl, hx, rfl, ?_⟩
  · exact hf.writeData hl hdata (hf.notTable_of_ref href (slotOf_ne_table (lt_of_blockPtr h0))) _
  · exact hf.fileByte_put hi hx rfl h0 hoff hchunk src

/-! ## The loop -/

/-- Every block index from 10 on that `n` bytes from `off` on touch has its table entry. -/
def EntriesExist (x : Inode) (ents : Nat → UInt32) (off n : Nat) : Prop :=
  ∀ idx, 10 ≤ idx → idx < 1034 → idx * 4096 < off + n → off < (idx + 1) * 4096 →
    blockPtr x ents idx ≠ 0

theorem entriesExist_direct (x : Inode) (ents : Nat → UInt32) {off n : Nat} (h : off + n ≤ 40960) :
    EntriesExist x ents off n :=
  fun idx h10 _ hlt _ => by omega

/-- What `write` has done when its loop ends with inode `y` and `n` bytes in all, `n - n₀` of them
since the loop was at position `off`. -/
structure Wrote (x y : Inode) (ents : Nat → UInt32) (data : List UInt8) (off n₀ n : Nat) : Prop where
  grew : x.Grew y
  ge : n₀ ≤ n
  le : n ≤ max n₀ data.length
  mapped : ∀ p, off ≤ p → p < off + (n - n₀) → blockPtr y ents (p / 4096) ≠ 0

/-- The number of bytes that `write` stores of `len` at `off`: up to the last block index. -/
def storedBytes (off len : Nat) : Nat := min len (1034 * 4096 - off)

/-- A block index that `n` bytes from `off` on touch. -/
def Touched (off n idx : Nat) : Prop := ∃ p, off ≤ p ∧ p < off + n ∧ p / 4096 = idx

/-- The loop only ends early at the last block index, and it adds no block that it does not touch. -/
theorem writeLoop_writing (hl : Layout e.toVolume) (data : List UInt8) :
    ∀ (fuel : Nat) {x : Inode} {c : Nat → UInt8} (n₀ off : Nat) {t : FsState}, n₀ ≤ data.length →
      data.length - n₀ ≤ fuel → EntriesExist x ents off (data.length - n₀) →
        Writing e alive ino x ents c t →
      Does e (writeLoop data fuel x n₀ off)
        (fun r u => Wrote x r.1 ents data off n₀ r.2 ∧ r.2 = n₀ + storedBytes off (data.length - n₀) ∧
          (∀ i, blockPtr r.1 ents i ≠ 0 → blockPtr x ents i ≠ 0 ∨ Touched off (r.2 - n₀) i) ∧
          Writing e alive ino r.1 ents
            (spliceAt c off (r.2 - n₀) fun i => data.getD (n₀ + i) 0) u) t := by
  unfold storedBytes
  have hstop : ∀ {x c n₀ off u}, data.length ≤ n₀ ∨ 1034 * 4096 ≤ off → Writing e alive ino x ents c u →
      Wrote x x ents data off n₀ n₀ ∧ n₀ = n₀ + min (data.length - n₀) (1034 * 4096 - off) ∧
        (∀ i, blockPtr x ents i ≠ 0 → blockPtr x ents i ≠ 0 ∨ Touched off (n₀ - n₀) i) ∧
        Writing e alive ino x ents (spliceAt c off (n₀ - n₀) fun i => data.getD (n₀ + i) 0) u := by
    intro x c n₀ off u hend hu
    refine ⟨⟨Inode.Grew.refl x, Nat.le_refl _, by omega, fun p h1 h2 => by omega⟩, by omega, fun _ => .inl, ?_⟩
    rw [Nat.sub_self, spliceAt_zero]
    exact hu
  intro fuel
  induction fuel with
  | zero =>
    intro x c n₀ off t _ hfuel _ h
    exact .pure (hstop (by omega) h)
  | succ fuel ih =>
    intro x c n₀ off t hle hfuel hmap h
    unfold writeLoop
    split
    · exact .pure (hstop (by omega) h)
    have htarget := hmap (off / 4096)
    refine (writeTarget_writing hl h fun h1 h2 => htarget h1 h2 (by omega) (by omega)).bind
      fun r u hu => ?_
    match r, hu with
    | none, ⟨hidx, hu⟩ => exact .pure (hstop (by omega) hu)
    | some (blk, y), ⟨hne, hptr, hgrew, hsame, hu⟩ =>
      have hlt : off / 4096 < 1034 := lt_of_blockPtr (hptr.trans_ne hne)
      generalize hc : min (4096 - off % 4096) (data.length - n₀) = chunk
      refine storeChunk_writing hl hu hne hptr rfl (by omega) _ fun u hu => ?_
      have hrest : EntriesExist y ents (off + chunk) (data.length - (n₀ + chunk)) :=
        fun idx h1 h2 h3 h4 => hgrew.kept ents idx (hmap idx h1 h2 (by omega) (by omega))
      refine (ih (n₀ + chunk) (off + chunk) (by omega) (by omega) hrest hu).mono ?_
      rintro ⟨z, n⟩ v ⟨hw, hn, hblocks, hv⟩
      simp only at hn
      have hn' : n = n₀ + min (data.length - n₀) (1034 * 4096 - off) := by omega
      refine ⟨⟨hgrew.trans hw.grew, by simp only; omega, by simp only; omega, ?_⟩, hn', fun i hi => ?_, ?_⟩
      · intro p h1 h2
        simp only at h2
        by_cases hp : p < off + chunk
        · -- Positions of this round are in the block just written.
          have hidx : p / 4096 = off / 4096 := by omega
          rw [hidx]
          exact hw.grew.kept ents _ (by rw [hptr]; exact hne)
        · exact hw.mapped p (by omega) (by simp only; omega)
      · rcases hblocks i hi with hy | ⟨p, h1, h2, h3⟩
        · by_cases hidx : i = off / 4096
          · exact .inr ⟨off, Nat.le_refl _, by simp only; omega, hidx.symm⟩
          · rw [hsame i hidx] at hy
            exact .inl hy
        · exact .inr ⟨p, by omega, by simp only at h2 ⊢; omega, h3⟩
      · have hsplit : n - n₀ = chunk + (n - (n₀ + chunk)) := by omega
        have hjoin := spliceAt_spliceAt c off chunk (n - (n₀ + chunk)) fun i => data.getD (n₀ + i) 0
        simp only [hsplit, ← hjoin]
        simpa only [Nat.add_assoc] using hv

/-! ## The whole call -/

theorem writeInode_writing (hl : Layout e.toVolume) (h : Writing e alive ino x ents c t) :
    Does e (writeInode ino x)
      (fun _ u => ∃ d', On e d' u ∧ BlocksOwned e.toVolume d' ∧ live e.toVolume d' = alive ∧
        (inodeAt e.toVolume d' ino).size = x.size ∧ fileAt e.toVolume d' ino = c ∧
        ∀ idx, blockAt e.toVolume d' ino idx = blockPtr x ents idx) t := by
  obtain ⟨hi, d, w, ⟨b, hat⟩, hf, rfl, hx, rfl, rfl⟩ := h
  have htab := hf.inTable hi
  refine (writeInode_spec hl hat htab x).mono ?_
  rintro - u ⟨hv, hu⟩
  have hdone : Flight e.toVolume (setInode e.toVolume d ino x) w nothing nothing nothing :=
    (hf.writeInode hl hv hi hx).mono (fun _ hc => hc.2 hc.1) fun _ hc => hc
  have hptr := hdone.blockAt_eq hi hx rfl id id
  refine ⟨_, hu, hdone.blocksOwned, funext fun i => (hdone.live i).symm, ?_, ?_, hptr⟩
  · rw [inodeAt_setInode_self hv]
  · refine fileByte_congr hptr fun idx h0 => ?_
    have hdata := hf.inData_of_ref (hf.ref_block hi hx rfl h0)
    exact setInode_data hl htab x hdata

theorem readInode_writing (hl : Layout e.toVolume) (h : On e d t) (hb : BlocksOwned e.toVolume d)
    (hi : live e.toVolume d ino = true) : Does e (readInode ino)
      (fun x u => x = inodeAt e.toVolume d ino ∧
        Writing e (live e.toVolume d) ino x (entsAt d x) (fileAt e.toVolume d ino) u) t := by
  obtain ⟨b, hat⟩ := h
  refine (readInode_spec hl hat ino).mono ?_
  rintro x u ⟨rfl, hu⟩
  exact ⟨rfl, hu.writing hb hi⟩

theorem Writing.congr {y : Inode} (h : Writing e alive ino x ents c t) (hb : x.blocks = y.blocks)
    (hi : x.indirect = y.indirect) (hd : x.doubleIndirect = y.doubleIndirect) :
    Writing e alive ino y ents c t := by
  obtain ⟨ha, d, w, hon, hf, hw, hx, he, hc⟩ := h
  have hptr : ∀ idx, blockPtr y ents idx = blockPtr x ents idx := fun idx =>
    ((Inode.SamePtrs.mk hb hi hd).blockPtr ents idx).symm
  exact ⟨ha, d, w, hon, hf, hw,
    ⟨hx.blocks.trans hb, hx.indirect.trans hi, hx.doubleIndirect.trans hd⟩, he,
    (fileByte_congr hptr fun _ _ => rfl).trans hc⟩

/-- The size `write` stores: the end of what it wrote, if the file was shorter. -/
def sizeAfter (size : UInt64) (stop : Nat) : UInt64 :=
  if size.toNat < stop % 2 ^ 32 then UInt64.ofNat (stop % 2 ^ 32) else size

/-- The file under `ino` on `d'` is the one on `d` with the first `n` bytes of `data` at `off`. -/
structure FileWritten (v : Volume) (d d' : Disk Block) (ino : Nat) (data : List UInt8) (off n : Nat) : Prop where
  owned : BlocksOwned v d'
  live : live v d' = OnyxFs.live v d
  le : n ≤ data.length
  size : (inodeAt v d' ino).size = sizeAfter (inodeAt v d ino).size (off + n)
  bytes : fileAt v d' ino = spliceAt (fileAt v d ino) off n fun i => data.getD i 0
  kept : ∀ idx, blockAt v d ino idx ≠ 0 → blockAt v d' ino idx ≠ 0
  mapped : ∀ p, off ≤ p → p < off + n → blockAt v d' ino (p / 4096) ≠ 0

section

variable (hl : Layout e.toVolume) (h : On e d t) (hb : BlocksOwned e.toVolume d)
  (hi : live e.toVolume d ino = true) {data : List UInt8} {off : Nat}
  (hmap : EntriesExist (inodeAt e.toVolume d ino) (entsAt d (inodeAt e.toVolume d ino)) off data.length)
include hl h hb hi hmap

/-- The file that `write` leaves, with the number of bytes it stores and the blocks it has added. -/
theorem writeBody_touches : Does e (writeBody ino data off)
      (fun n u => ∃ d', (FileWritten e.toVolume d d' ino data off n ∧
        n = storedBytes off data.length ∧
        ∀ idx, blockAt e.toVolume d' ino idx ≠ 0 →
          blockAt e.toVolume d ino idx ≠ 0 ∨ Touched off n idx) ∧ On e d' u) t := by
  obtain ⟨b, hat⟩ := h
  refine (checkV2_spec hat).bind fun _ u hu => ?_
  refine (readInode_writing hl hu.on hb hi).bind ?_
  rintro x u ⟨rfl, hu⟩
  refine (writeLoop_writing hl data data.length 0 off (Nat.zero_le _) (by omega) hmap hu).bind ?_
  rintro ⟨y, n⟩ u ⟨hw, hn, hblocks, hu⟩
  refine (jiffies_writing hu).bind fun now u hu => ?_
  have hset : Writing e (live e.toVolume d) ino
      { y with
        size := if y.size.toNat < (off + n) % 2 ^ 32 then UInt64.ofNat ((off + n) % 2 ^ 32)
          else y.size
        mtime := now }
      (entsAt d (inodeAt e.toVolume d ino))
      (spliceAt (fileAt e.toVolume d ino) off (n - 0) fun i => data.getD (0 + i) 0) u :=
    hu.congr rfl rfl rfl
  refine (writeInode_writing hl hset).bind ?_
  rintro - u ⟨d', hu, hb', hlive, hsize, hbytes, hptr⟩
  refine .pure ⟨d', ⟨⟨hb', hlive, ?_, ?_, ?_, fun idx h0 => ?_, fun p h1 h2 => ?_⟩, ?_, ?_⟩, hu⟩
  · have hle := hw.le
    simp only at hle
    omega
  · rw [hsize, ← hw.grew.size]
    rfl
  · simpa only [Nat.sub_zero, Nat.zero_add] using hbytes
  · rw [hptr]
    exact hw.grew.kept _ idx h0
  · rw [hptr]
    exact hw.mapped p h1 (by simp only; omega)
  · simpa using hn
  · intro idx h0
    rw [hptr] at h0
    exact hblocks idx h0

theorem writeBody_spec : Does e (writeBody ino data off)
      (fun n u => ∃ d', FileWritten e.toVolume d d' ino data off n ∧ On e d' u) t := by
  refine (writeBody_touches hl h hb hi hmap).mono ?_
  rintro n u ⟨d', ⟨hd', -, -⟩, hu⟩
  exact ⟨d', hd', hu⟩

end

end OnyxFs
