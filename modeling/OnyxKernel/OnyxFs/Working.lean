import OnyxKernel.OnyxFs.AllocSpec

/-!
# The inode an operation works on

`Resting` is the state between operations. `Working` is the state inside one: the operation has the
inode `ino` as `x` and the entries of its table as `ents`, and nothing is loose. Every function that
allocates, frees or stores a block of that inode is specified here as a step from `Working` to
`Working`.
-/

namespace OnyxFs

open Infra Onyx Function

/-- The home blocks are in order, and the live inodes are `alive`. -/
def Resting (e : Env) (alive : Nat → Bool) (t : FsState) : Prop :=
  ∃ d, On e d t ∧ BlocksOwned e.toVolume d ∧ live e.toVolume d = alive

/-- The operation works on inode `ino`, which is `x` with the table entries `ents`. The inodes in `X`
and the tables of the inodes in `Y` are in memory only. -/
def Working (e : Env) (alive : Nat → Bool) (ino : Nat) (X Y : Nat → Prop) (x : Inode)
    (ents : Nat → UInt32) (t : FsState) : Prop :=
  alive ino = true ∧ ∃ d w, On e d t ∧ Flight e.toVolume d w X Y nothing ∧ w.live = alive ∧
    (w.inode ino).SamePtrs x ∧ w.ents ino = ents

variable {e : Env} {d d' : Disk Block} {t : FsState} {alive : Nat → Bool} {ino : Nat}
variable {X Y : Nat → Prop} {x : Inode} {ents : Nat → UInt32} {s : Slot}

theorem Working.mono {X' Y' : Nat → Prop} (h : Working e alive ino X Y x ents t)
    (hX : ∀ i, X i → X' i) (hY : ∀ i, Y i → Y' i) : Working e alive ino X' Y' x ents t := by
  obtain ⟨hi, d, w, hon, hf, hw⟩ := h
  exact ⟨hi, d, w, hon, hf.mono hX hY, hw⟩

theorem Working.takeInode (h : Working e alive ino nothing Y x ents t) : Working e alive ino (· = ino) Y x ents t :=
  h.mono (fun _ hc => hc.elim) fun _ hc => hc

theorem Working.takeTable (h : Working e alive ino X nothing x ents t) : Working e alive ino X (· = ino) x ents t :=
  h.mono (fun _ hc => hc) fun _ hc => hc.elim

theorem Working.stopped (h : Working e alive ino X Y x ents t) : Stopped e t := by
  obtain ⟨-, d, w, hon, -⟩ := h
  exact hon.stopped

theorem Working.resting (h : Working e alive ino nothing nothing x ents t) : Resting e alive t := by
  obtain ⟨-, d, w, hon, hf, hlive, -⟩ := h
  refine ⟨d, hon, hf.blocksOwned, ?_⟩
  funext i
  rw [← hf.live, hlive]

theorem Working.noTable (h : Working e alive ino X (· = ino) x ents t) (h0 : x.indirect = 0) :
    Working e alive ino X nothing x ents t := by
  obtain ⟨hi, d, w, hon, hf, hw, hx, he⟩ := h
  refine ⟨hi, d, w, hon, ?_, hw, hx, he⟩
  exact (hf.noTable (hx.indirect.trans h0)).mono (fun _ h => h) fun i hc => hc.2 hc.1

section

variable (h : Working e alive ino X Y x ents t)
include h

theorem Working.congr {y : Inode} (hb : x.blocks = y.blocks)
    (hi : x.indirect = y.indirect) (hd : x.doubleIndirect = y.doubleIndirect) :
    Working e alive ino X Y y ents t := by
  obtain ⟨ha, d, w, hon, hf, hw, hx, he⟩ := h
  exact ⟨ha, d, w, hon, hf, hw, ⟨hx.blocks.trans hb, hx.indirect.trans hi, hx.doubleIndirect.trans hd⟩, he⟩

theorem Working.single : x.doubleIndirect = 0 := by
  obtain ⟨hi, d, w, -, hf, rfl, hx, -⟩ := h
  rw [← hx.doubleIndirect]
  exact hf.single ino hi

theorem Working.resetEnts (h0 : x.indirect = 0) (ents' : Nat → UInt32) : Working e alive ino X Y x ents' t := by
  obtain ⟨hi, d, w, hon, hf, hw, hx, -⟩ := h
  have hw0 : (w.inode ino).indirect = 0 := hx.indirect.trans h0
  refine ⟨hi, d, { w with ents := update w.ents ino ents' }, hon,
    ⟨hf.live, hf.inode, fun i j hli hy hi0 hj => ?_, hf.single, ?_⟩, hw, hx,
    update_self ..⟩
  · have hie : i ≠ ino := fun he => hi0 (by rw [he]; exact hw0)
    simp only [update_of_ne hie]
    exact hf.ents i j hli hy hi0 hj
  · refine hf.owns.congr (fun p => View.ref_congr rfl fun _ => ?_) (fun _ => Iff.rfl) fun _ => Iff.rfl
    obtain ⟨i, q⟩ := p
    by_cases hie : i = ino
    · subst hie
      cases q with
      | direct k | table => rfl
      | entry j => exact (if_pos hw0).trans (if_pos hw0).symm
    · simp only [update_of_ne hie]

end

/-! ## Starting and ending -/

theorem On.working (h : On e d t) (hb : BlocksOwned e.toVolume d)
    (hi : live e.toVolume d ino = true) :
    Working e (live e.toVolume d) ino nothing nothing (inodeAt e.toVolume d ino)
      (entsAt d (inodeAt e.toVolume d ino)) t :=
  ⟨hi, d, diskView e.toVolume d, h, hb.flight, rfl, Inode.SamePtrs.refl _, rfl⟩

theorem readInode_working (hl : Layout e.toVolume) (h : On e d t) (hb : BlocksOwned e.toVolume d)
    (hi : live e.toVolume d ino = true) : Does e (readInode ino)
      (fun x u => x = inodeAt e.toVolume d ino ∧
        Working e (live e.toVolume d) ino nothing nothing x (entsAt d x) u) t := by
  obtain ⟨b, hat⟩ := h
  refine (readInode_spec hl hat ino).mono ?_
  rintro x u ⟨rfl, hu⟩
  exact ⟨rfl, hu.working hb hi⟩

theorem writeInode_working (hl : Layout e.toVolume)
    (h : Working e alive ino (· = ino) nothing x ents t) :
    Does e (writeInode ino x) (fun _ => Working e alive ino nothing nothing x ents) t := by
  obtain ⟨hi, d, w, ⟨b, hat⟩, hf, rfl, hx, he⟩ := h
  refine (writeInode_spec hl hat (hf.inTable hi) x).mono ?_
  rintro - u ⟨hv, hu⟩
  refine ⟨hi, _, w, hu, ?_, rfl, hx, he⟩
  exact (hf.writeInode hl hv hi hx).mono (fun _ hc => hc.2 hc.1) fun _ hc => hc

/-! ## Storing a block -/

variable {blk : UInt32} {w : View}

theorem ne_zero_of_inData (hl : Layout e.toVolume) (h : InData e.sb blk.toNat) :
    blk ≠ 0 := fun he => InData.ne_zero hl h (by rw [he]; rfl)

theorem Flight.store (h : Flight e.toVolume d w X Y nothing) (hl : Layout e.toVolume)
    (hi : w.live ino = true) (hb : Allocated e.toVolume d blk d') (hm : InMemory X Y ino s)
    (hs : (w.inode ino).Settable (w.ents ino) s) (h0 : (w.inode ino).ptr (w.ents ino) s = 0) :
    Flight e.toVolume d' (w.set ino blk s) X Y nothing := by
  have hne := ne_zero_of_inData hl hb.data
  have hback : e.sb.dataBlocksStart.toNat + (blk.toNat - e.sb.dataBlocksStart.toNat) = blk.toNat :=
    Nat.add_sub_cancel' hb.data.1
  have hfresh := h.alloc hl (by have := hb.data.2; have := hb.data.1; omega) hb.inBlock hb.clear
  rw [hback] at hfresh
  have hempty : w.ref (ino, s) = none := if_neg fun hc => hc.2 h0
  rw [hb.disk]
  have hdone := hfresh.attach hi hm hs hempty hne (.inr rfl)
  refine { hdone with owns := hdone.owns.congr (fun _ => rfl) (fun _ => Iff.rfl) fun c => ?_ }
  simp only [nothing, false_or, false_iff, not_and, not_not, imp_self]

theorem ref_of_ptr (hi : w.live ino = true) (hp : (w.inode ino).ptr (w.ents ino) s = blk)
    (h0 : blk ≠ 0) : w.ref (ino, s) = some blk.toNat :=
  View.ref_eq_some.mpr ⟨hi, hp ▸ h0, by rw [hp]⟩

section

variable (hl : Layout e.toVolume) (h : Working e alive ino X Y x ents t)
include hl h

theorem allocDataBlock_working (hm : InMemory X Y ino s) (hs : x.Settable ents s) (h0 : x.ptr ents s = 0) :
    Does e allocDataBlock
      (fun blk u => blk ≠ 0 ∧
        Working e alive ino X Y (x.setPtr blk s) (setEnts ents blk s) u) t := by
  obtain ⟨hi, d, w, ⟨b, hat⟩, hf, rfl, hx, rfl⟩ := h
  refine (allocDataBlock_spec hl hat).mono ?_
  rintro blk u ⟨d', hb, hu⟩
  refine ⟨ne_zero_of_inData hl hb.data, hi, d', w.set ino blk s, hu, ?_, rfl, ?_, ?_⟩
  · exact hf.store hl hi hb hm (hx.settable hs) ((hx.ptr _ s).trans h0)
  · simp only [View.set, update_self]
    exact hx.setPtr blk s
  · simp only [View.set, update_self]

theorem putBuf_working (h0 : blk ≠ 0) (hp : x.ptr ents s = blk) (hs : s ≠ .table) (y : Block) :
    Does e (putBuf blk.toNat y) (fun _ => Working e alive ino X Y x ents) t := by
  obtain ⟨hi, d, w, ⟨b, hat⟩, hf, rfl, hx, rfl⟩ := h
  have href := ref_of_ptr hi ((hx.ptr _ s).trans hp) h0
  have hdata := hf.inData_of_ref href
  refine (putBuf_spec hat (hdata.target hl) y).mono fun _ u hu => ?_
  exact ⟨hi, _, w, hu.on, hf.writeData hl hdata (hf.notTable_of_ref href hs) y, rfl, hx, rfl⟩

theorem allocZeroBlock_working (hm : InMemory X Y ino s) (hs : x.Settable ents s) (h0 : x.ptr ents s = 0)
    (ht : s ≠ .table) : Does e allocZeroBlock
      (fun blk u => blk ≠ 0 ∧
        Working e alive ino X Y (x.setPtr blk s) (setEnts ents blk s) u) t := by
  refine (allocDataBlock_working hl h hm hs h0).bind ?_
  rintro blk u ⟨hne, hu⟩
  have hptr : (x.setPtr blk s).ptr (setEnts ents blk s) s = blk := (Inode.ptr_setPtr blk hs s).trans (if_pos rfl)
  refine (putBuf_working hl hu hne hptr ht Bytes.zero).bind fun _ u hu => Meets.pure ?_
  exact ⟨hne, hu⟩

end

/-! ## Dropping a block -/

theorem Flight.drop (h : Flight e.toVolume d w X Y nothing) (hl : Layout e.toVolume)
    (hi : w.live ino = true) (hm : InMemory X Y ino s) (hs : (w.inode ino).Settable (w.ents ino) s)
    (hp : (w.inode ino).ptr (w.ents ino) s = blk) (h0 : blk ≠ 0) :
    Flight e.toVolume (clearUsed e.toVolume d (blk.toNat - e.sb.dataBlocksStart.toNat))
      (w.set ino 0 s) X Y nothing := by
  have hdone := (h.detach hm hs (ref_of_ptr hi hp h0)).free hl (.inr rfl)
  refine { hdone with owns := hdone.owns.congr (fun _ => rfl) (fun _ => Iff.rfl) fun c => ?_ }
  simp only [nothing, false_or, false_iff, not_and, not_not, imp_self]

theorem freeDataBlock_working (hl : Layout e.toVolume) (h : Working e alive ino X Y x ents t)
    (hm : InMemory X Y ino s) (hs : x.Settable ents s) (hp : x.ptr ents s = blk) (h0 : blk ≠ 0) :
    Does e (freeDataBlock blk) (fun _ => Working e alive ino X Y (x.setPtr 0 s) (setEnts ents 0 s)) t := by
  obtain ⟨hi, d, w, ⟨b, hat⟩, hf, rfl, hx, rfl⟩ := h
  refine (freeDataBlock_spec hl hat blk).mono fun _ u hu => ?_
  refine ⟨hi, _, w.set ino 0 s, hu, ?_, rfl, ?_, ?_⟩
  · exact hf.drop hl hi hm (hx.settable hs) ((hx.ptr _ s).trans hp) h0
  · simp only [View.set, update_self]
    exact hx.setPtr 0 s
  · simp only [View.set, update_self]

theorem Inode.setPtr_zero (hs : x.Settable ents s) (h0 : x.ptr ents s = 0) :
    x.setPtr 0 s = x ∧ setEnts ents 0 s = ents := by
  cases s with
  | direct i =>
    have hi : x.blocks i = 0 := h0
    simp only [Inode.setPtr, Inode.setBlock, ← hi, update_eq_self, setEnts, and_self]
  | table =>
    have hi : x.indirect = 0 := h0
    simp only [Inode.setPtr, ← hi, setEnts, and_self]
  | entry j =>
    have hj : ents j.1 = 0 := (if_neg hs).symm.trans h0
    simp only [Inode.setPtr, setEnts, ← hj, update_eq_self, and_self]

section

variable (hl : Layout e.toVolume)
include hl

theorem freeIfSet_working (h : Working e alive ino X Y x ents t) (hm : InMemory X Y ino s)
    (hs : x.Settable ents s) : Does e (freeIfSet (x.ptr ents s))
      (fun _ => Working e alive ino X Y (x.setPtr 0 s) (setEnts ents 0 s)) t := by
  unfold freeIfSet
  split
  · rename_i h0
    obtain ⟨hx, he⟩ := Inode.setPtr_zero hs h0
    rw [hx, he]
    exact Meets.pure h
  · rename_i h0
    exact freeDataBlock_working hl h hm hs rfl h0

/-! ## The table -/

theorem Working.home_table (h : Working e alive ino X Y x ents t)
    (h0 : x.indirect ≠ 0) : Home e.sb x.indirect.toNat := by
  obtain ⟨hi, d, w, -, hf, rfl, hx, -⟩ := h
  rw [← hx.indirect] at h0 ⊢
  exact hl.home_data _ (hf.inData_of_ref (hf.ref_table hi h0))

theorem fetch_table_working (h : Working e alive ino X nothing x ents t) (h0 : x.indirect ≠ 0) :
    Does e (fetch x.indirect.toNat)
      (fun table u => (∀ j < 1024, indEntry table j = ents j) ∧
        Working e alive ino X nothing x ents u) t := by
  have hhome := h.home_table hl h0
  obtain ⟨hi, d, w, ⟨b, hat⟩, hf, rfl, hx, rfl⟩ := h
  refine (fetch_spec hat hhome).mono ?_
  rintro table u ⟨rfl, hu⟩
  refine ⟨fun j hj => ?_, hi, d, w, hu.on, hf, rfl, hx, rfl⟩
  rw [hf.ents ino j hi id (by rw [hx.indirect]; exact h0) hj, entsAt, hx.indirect]

theorem load_table_working (h : Working e alive ino X nothing x ents t) (h0 : x.indirect ≠ 0) :
    Does e (load x.indirect.toNat)
      (fun _ u => (∀ j < 1024, indEntry u.buf j = ents j) ∧
        Working e alive ino X nothing x ents u) t := by
  have hhome := h.home_table hl h0
  obtain ⟨hi, d, w, ⟨b, hat⟩, hf, rfl, hx, rfl⟩ := h
  refine (load_spec hat hhome).mono fun _ u hu => ?_
  refine ⟨fun j hj => ?_, hi, d, w, hu.on, hf, rfl, hx, rfl⟩
  rw [hu.buf, hf.ents ino j hi id (by rw [hx.indirect]; exact h0) hj, entsAt, hx.indirect]

theorem put_table_working (h : Working e alive ino X (· = ino) x ents t) (h0 : x.indirect ≠ 0)
    {table : Block} (ht : ∀ j < 1024, indEntry table j = ents j) :
    Does e (put x.indirect.toNat table) (fun _ => Working e alive ino X nothing x ents) t := by
  obtain ⟨hi, d, w, ⟨b, hat⟩, hf, rfl, hx, rfl⟩ := h
  rw [← hx.indirect] at h0 ⊢
  have hdata := hf.inData_of_ref (hf.ref_table hi h0)
  refine (put_spec hat (hdata.target hl) table).mono fun _ u hu => ?_
  refine ⟨hi, _, w, hu.on, ?_, rfl, hx, rfl⟩
  exact (hf.writeTable hl hi h0 ht).mono (fun _ hc => hc) fun _ hc => hc.2 hc.1

end

theorem getBuf_same : Does e getBuf (fun b u => b = t.buf ∧ u = t) t := by
  constructor
  rw [exec_getBuf]
  exact ⟨rfl, rfl⟩

theorem jiffies_working (h : Working e alive ino X Y x ents t) :
    Does e jiffies (fun _ => Working e alive ino X Y x ents) t := by
  constructor
  rw [exec_jiffies]
  exact h

theorem volume_working (h : Working e alive ino X Y x ents t) :
    Does e volume (fun _ => Working e alive ino X Y x ents) t := by
  constructor
  rw [exec_volume]
  exact h

theorem load_working (hl : Layout e.toVolume) (h : Working e alive ino X Y x ents t)
    (h0 : blk ≠ 0) (hp : x.ptr ents s = blk) :
    Does e (load blk.toNat) (fun _ => Working e alive ino X Y x ents) t := by
  obtain ⟨hi, d, w, ⟨b, hat⟩, hf, rfl, hx, rfl⟩ := h
  have hdata := hf.inData_of_ref (ref_of_ptr hi ((hx.ptr _ s).trans hp) h0)
  refine (load_spec hat (hl.home_data _ hdata)).mono fun _ u hu => ?_
  exact ⟨hi, d, w, hu.on, hf, rfl, hx, rfl⟩

end OnyxFs
