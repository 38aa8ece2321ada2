import OnyxKernel.OnyxFs.Ownership

/-!
# One block write at a time

How `Flight` changes when one block of the disk does, or when the operation changes the inode or the
table it has in memory. The functions of the driver are put together from these steps, so nothing
above this module opens `Flight`.
-/

namespace OnyxFs

open Infra Onyx Function Inode View

variable {v : Volume} {d : Disk Block} {w : View} {X Y loose : Nat → Prop} {ino : Nat}

/-! ## Layout facts -/

variable {b i : Nat} {p : Nat × Slot} {s : Slot} {x y : Inode} {ents : Nat → UInt32}

theorem InData.ne_zero (hl : Layout v) (hb : InData v.sb b) : b ≠ 0 := by
  have h1 := hl.data_inodeBitmap
  have h2 := hb.1
  omega

theorem InData.lt (hb : InData v.sb b) : b < 2 ^ 32 := by
  have h1 := hb.2
  have h2 := v.sb.totalBlocks.toNat_lt
  have h3 := hb.1
  unfold dataBlockCount at h1
  omega

theorem InData.target (hl : Layout v) (hb : InData v.sb b) : Target v.sb b := ⟨hb.lt, hl.home_data b hb⟩

theorem inTable_inodeBlock (h1 : 1 ≤ ino) (h2 : ino ≤ v.sb.inodeCount.toNat) : InTable v (inodeBlock v ino) := by
  unfold InTable inodeBlock inodeTableEnd inodesPerBlock
  split <;> omega

theorem live_bounds (h : live v d ino = true) : 1 ≤ ino ∧ ino ≤ v.sb.inodeCount.toNat := by
  unfold live at h
  simp only [Bool.and_eq_true, decide_eq_true_eq] at h
  exact h.1

theorem getBit_of_live (h : live v d ino = true) : (d inodeBitmapBlk).getBit (ino - 1) = true := by
  unfold live at h
  simp only [Bool.and_eq_true, decide_eq_true_eq] at h
  exact h.2

theorem InTable.lt (hl : Layout v) (hb : InTable v b) : b < 2 ^ 32 := by
  have h1 := hb.2
  have h2 := hl.data_table
  have h3 := v.sb.dataBlocksStart.toNat_lt
  omega

theorem InTable.target (hl : Layout v) (hb : InTable v b) : Target v.sb b := ⟨hb.lt hl, hl.home_table b hb⟩

theorem target_dataBitmap (hl : Layout v) : Target v.sb v.sb.dataBitmapStart.toNat :=
  ⟨v.sb.dataBitmapStart.toNat_lt, hl.home_dataBitmap⟩

theorem target_inodeBitmap (hl : Layout v) : Target v.sb inodeBitmapBlk := ⟨by decide, hl.home_inodeBitmap⟩

/-! ## Frame lemmas: what a write to one area leaves alone -/

theorem live_update_of_ne (h : b ≠ inodeBitmapBlk) (x : Block) (ino : Nat) :
    live v (update d b x) ino = live v d ino := by
  unfold live
  rw [update_of_ne (Ne.symm h)]

theorem used_update_of_ne (h : b ≠ v.sb.dataBitmapStart.toNat) (x : Block) (c : Nat) :
    Used v (update d b x) c ↔ Used v d c := by
  unfold Used
  rw [update_of_ne (Ne.symm h)]

theorem inodeAt_update_of_ne (h : b ≠ inodeBlock v ino) (x : Block) :
    inodeAt v (update d b x) ino = inodeAt v d ino := by
  unfold inodeAt
  rw [update_of_ne (Ne.symm h)]

theorem entsAt_update_of_ne (h : b ≠ y.indirect.toNat) (x : Block) (j : Nat) :
    entsAt (update d b x) y j = entsAt d y j := by
  unfold entsAt
  rw [update_of_ne (Ne.symm h)]

theorem Flight.bounds (h : Flight v d w X Y loose) (hi : w.live ino = true) :
    1 ≤ ino ∧ ino ≤ v.sb.inodeCount.toNat :=
  live_bounds (by rw [← h.live]; exact hi)

theorem Flight.inTable (h : Flight v d w X Y loose) (hi : w.live ino = true) : InTable v (inodeBlock v ino) :=
  inTable_inodeBlock (h.bounds hi).1 (h.bounds hi).2

theorem Flight.inData_of_ref (h : Flight v d w X Y loose) (hp : w.ref p = some b) : InData v.sb b :=
  (h.owns.used_of_ref hp).1

theorem Flight.ref_table (_ : Flight v d w X Y loose) (hi : w.live ino = true)
    (h0 : (w.inode ino).indirect ≠ 0) : w.ref (ino, .table) = some (w.inode ino).indirect.toNat :=
  ref_eq_some.mpr ⟨hi, h0, rfl⟩

section

variable (h : Flight v d w X Y loose)
include h

theorem Flight.mono {X' Y' : Nat → Prop} (hX : ∀ i, X i → X' i) (hY : ∀ i, Y i → Y' i) :
    Flight v d w X' Y' loose where
  live := h.live
  inode i hi hn := h.inode i hi fun hc => hn (hX i hc)
  ents i j hi hn := h.ents i j hi fun hc => hn (hY i hc)
  single := h.single
  owns := h.owns

def NotTable (w : View) (b : Nat) : Prop :=
  ∀ i, w.live i = true → (w.inode i).indirect ≠ 0 → (w.inode i).indirect.toNat ≠ b

theorem Flight.notTable_of_ref (hp : w.ref p = some b) (hs : p.2 ≠ .table) : NotTable w b := by
  intro i hi h0 he
  have := h.owns.inj hp (he ▸ h.ref_table hi h0)
  exact hs (by rw [this])

theorem notTable_of_not_inData (hb : ¬ InData v.sb b) : NotTable w b := by
  intro i hi h0 he
  exact hb (he ▸ h.inData_of_ref (h.ref_table hi h0))

/-! ## Steps -/

theorem Flight.writeData (hl : Layout v) (hb : InData v.sb b) (hn : NotTable w b) (x : Block) :
    Flight v (update d b x) w X Y loose := by
  have hge := hb.1
  refine ⟨fun i => ?_, fun i hi hx => ?_, fun i j hi hy h0 hj => ?_, h.single, ?_⟩
  · rw [live_update_of_ne (by have := hl.data_inodeBitmap; omega), h.live]
  · have hlt := (h.inTable hi).2
    rw [inodeAt_update_of_ne (by have := hl.data_table; omega)]
    exact h.inode i hi hx
  · rw [entsAt_update_of_ne (hn i hi h0).symm]
    exact h.ents i j hi hy h0 hj
  · refine h.owns.congr (fun _ => rfl) (fun c => ?_) fun _ => Iff.rfl
    exact used_update_of_ne (by have := hl.data_dataBitmap; omega) x c

theorem Flight.writeBitmap {loose' : Nat → Prop} (hl : Layout v) {x : Block}
    (ho : Owns w.ref (Used v (update d v.sb.dataBitmapStart.toNat x)) loose') :
    Flight v (update d v.sb.dataBitmapStart.toNat x) w X Y loose' := by
  have hbm : ¬ InData v.sb v.sb.dataBitmapStart.toNat := fun hc => by
    have := hl.data_dataBitmap
    have := hc.1
    omega
  refine ⟨fun i => ?_, fun i hi hx => ?_, fun i j hi hy h0 hj => ?_, h.single, ho⟩
  · rw [live_update_of_ne hl.bitmaps, h.live]
  · have htab := h.inTable hi
    have hne : v.sb.dataBitmapStart.toNat ≠ inodeBlock v i := fun he =>
      hl.table_dataBitmap (by rw [he]; exact htab)
    rw [inodeAt_update_of_ne hne]
    exact h.inode i hi hx
  · rw [entsAt_update_of_ne (notTable_of_not_inData h hbm i hi h0).symm]
    exact h.ents i j hi hy h0 hj

end

theorem used_setBit (hi : i < dataBlockCount v.sb) (h8 : i / 8 < 4096) (c : Nat) :
    Used v (update d v.sb.dataBitmapStart.toNat
        ((d v.sb.dataBitmapStart.toNat).setBit i)) c ↔
      Used v d c ∨ c = v.sb.dataBlocksStart.toNat + i := by
  unfold Used InData
  rw [update_self, Bytes.getBit_setBit _ h8]
  simp only [Bool.or_eq_true, decide_eq_true_eq]
  constructor
  · rintro ⟨hc, he | hset⟩
    · exact .inr (by omega)
    · exact .inl ⟨hc, hset⟩
  · rintro (⟨hc, hset⟩ | rfl)
    · exact ⟨hc, .inr hset⟩
    · exact ⟨⟨by omega, by omega⟩, .inl (by omega)⟩

theorem Flight.alloc (h : Flight v d w X Y loose) (hl : Layout v) (hi : i < dataBlockCount v.sb)
    (h8 : i / 8 < 4096) (hclear : (d v.sb.dataBitmapStart.toNat).getBit i = false) :
    Flight v (update d v.sb.dataBitmapStart.toNat
        ((d v.sb.dataBitmapStart.toNat).setBit i)) w X Y
      (fun c => loose c ∨ c = v.sb.dataBlocksStart.toNat + i) := by
  refine h.writeBitmap hl (h.owns.take ?_ (used_setBit hi h8) fun _ => Iff.rfl)
  rintro ⟨-, hset⟩
  rw [Nat.add_sub_cancel_left, hclear] at hset
  cases hset

theorem used_clearBit (hb : Used v d b) (c : Nat) : Used v (update d v.sb.dataBitmapStart.toNat
        ((d v.sb.dataBitmapStart.toNat).clearBit (b - v.sb.dataBlocksStart.toNat))) c ↔
      Used v d c ∧ c ≠ b := by
  have h1 := hb.1.1
  unfold Used InData
  rw [update_self, Bytes.getBit_clearBit _ (Bytes.lt_of_getBit hb.2)]
  simp only [Bool.and_eq_true, decide_eq_true_eq]
  constructor
  · rintro ⟨hc, hne, hset⟩
    exact ⟨⟨hc, hset⟩, fun he => hne (by rw [he])⟩
  · rintro ⟨⟨hc, hset⟩, hne⟩
    exact ⟨hc, by omega, hset⟩

theorem Flight.free (h : Flight v d w X Y loose) (hl : Layout v) (hb : loose b) :
    Flight v (update d v.sb.dataBitmapStart.toNat
        ((d v.sb.dataBitmapStart.toNat).clearBit (b - v.sb.dataBlocksStart.toNat))) w X Y
      (fun c => loose c ∧ c ≠ b) :=
  h.writeBitmap hl
    (h.owns.release hb (used_clearBit (h.owns.used_of_loose hb)) fun _ => Iff.rfl)

/-! ## The inode table and its bitmap -/

/-- The disk after `write_inode`. -/
def setInode (v : Volume) (d : Disk Block) (ino : Nat) (x : Inode) : Disk Block :=
  update d (inodeBlock v ino) ((d (inodeBlock v ino)).blit ((ino - 1) % inodesPerBlock v.version * 128) x.toBytes)

theorem setInode_data (hl : Layout v) (hi : InTable v (inodeBlock v ino)) (x : Inode)
    (hb : InData v.sb b) : setInode v d ino x b = d b := by
  have h1 := hb.1
  have h2 := hi.2
  have h3 := hl.data_table
  exact update_of_ne (by omega) _ _

theorem inodeAt_setInode_self (hv : v.version ≠ 1) (x : Inode) :
    inodeAt v (setInode v d ino x) ino = { x with ctime := 0 } := by
  unfold inodeAt setInode decodeInode
  rw [update_self, if_neg hv]
  refine fromBytes_blit _ _ x ?_
  rw [inodesPerBlock, if_neg hv]
  omega

theorem inodeAt_setInode_of_ne (hv : v.version ≠ 1) (x : Inode) (h1 : 1 ≤ ino)
    (hi : 1 ≤ i) (hne : i ≠ ino) : inodeAt v (setInode v d ino x) i = inodeAt v d i := by
  unfold setInode
  by_cases hb : inodeBlock v ino = inodeBlock v i
  · unfold inodeAt decodeInode
    rw [hb, update_self, if_neg hv, if_neg hv]
    refine fromBytes_blit_of_ne _ x ?_
    unfold inodeBlock at hb
    rw [inodesPerBlock, if_neg hv] at hb ⊢
    omega
  · exact inodeAt_update_of_ne hb _

theorem Flight.writeInode (h : Flight v d w X Y loose) (hl : Layout v) (hv : v.version ≠ 1)
    (hi : w.live ino = true) (hx : (w.inode ino).SamePtrs x) :
    Flight v (setInode v d ino x) w (fun i => X i ∧ i ≠ ino) Y loose := by
  have htab := h.inTable hi
  have hdata : ¬ InData v.sb (inodeBlock v ino) := fun hc => by
    have := hl.data_table
    have := htab.2
    have := hc.1
    omega
  refine ⟨fun i => ?_, fun i hli hn => ?_, fun i j hli hy h0 hj => ?_, h.single, ?_⟩
  · rw [setInode, live_update_of_ne fun he => hl.table_inodeBitmap (he ▸ htab), h.live]
  · by_cases hie : i = ino
    · subst hie
      rw [inodeAt_setInode_self hv]
      exact ⟨hx.blocks, hx.indirect, hx.doubleIndirect⟩
    · rw [inodeAt_setInode_of_ne hv x (h.bounds hi).1 (h.bounds hli).1 hie]
      exact h.inode i hli fun hc => hn ⟨hc, hie⟩
  · rw [setInode, entsAt_update_of_ne (notTable_of_not_inData h hdata i hli h0).symm]
    exact h.ents i j hli hy h0 hj
  · refine h.owns.congr (fun _ => rfl) (fun c => ?_) fun _ => Iff.rfl
    exact used_update_of_ne (fun he => hl.table_dataBitmap (he ▸ htab)) _ c

/-- An inode without blocks. -/
structure Inode.NoBlocks (x : Inode) : Prop where
  blocks : ∀ i, x.blocks i = 0
  indirect : x.indirect = 0
  doubleIndirect : x.doubleIndirect = 0

theorem Inode.NoBlocks.ptr (h : x.NoBlocks) (ents : Nat → UInt32) (s : Slot) : x.ptr ents s = 0 := by
  cases s with
  | direct i => exact h.blocks i
  | table => exact h.indirect
  | entry j => exact if_pos h.indirect

theorem live_update_bitmap (b : Block) (i : Nat) : live v (update d inodeBitmapBlk b) i =
      (1 ≤ i && i ≤ v.sb.inodeCount.toNat && b.getBit (i - 1)) := by
  unfold live
  rw [update_self]

theorem Flight.writeInodeBitmap (h : Flight v d w X Y loose) (hl : Layout v) {b : Block}
    {alive : Bool} (hx : x.NoBlocks) (hX : alive = true → X ino)
    (hrefs : ∀ s, w.ref (ino, s) = none)
    (hlive : ∀ i, OnyxFs.live v (update d inodeBitmapBlk b) i = if i = ino then alive else OnyxFs.live v d i) :
    Flight v (update d inodeBitmapBlk b)
      { w with
        live := update w.live ino alive
        inode := update w.inode ino x } X Y loose := by
  have hb : ¬ InData v.sb inodeBitmapBlk := fun hc => by
    have := hl.data_inodeBitmap
    have := hc.1
    omega
  refine ⟨fun i => ?_, fun i hli hn => ?_, fun i j hli hy h0 hj => ?_, fun i hli => ?_, ?_⟩
  · rw [hlive]
    by_cases hi : i = ino
    · subst hi
      rw [if_pos rfl]
      exact update_self ..
    · rw [if_neg hi, ← h.live]
      exact update_of_ne hi _ _
  · by_cases hi : i = ino
    · subst hi
      exact absurd (hX (by simpa using hli)) hn
    · simp only [update_of_ne hi] at hli ⊢
      have htab := h.inTable hli
      have hne : inodeBitmapBlk ≠ inodeBlock v i := fun he =>
        hl.table_inodeBitmap (by rw [he]; exact htab)
      rw [inodeAt_update_of_ne hne]
      exact h.inode i hli hn
  · by_cases hi : i = ino
    · subst hi
      simp only [update_self] at h0
      exact absurd hx.indirect h0
    · simp only [update_of_ne hi] at hli h0 ⊢
      rw [entsAt_update_of_ne (notTable_of_not_inData h hb i hli h0).symm]
      exact h.ents i j hli hy h0 hj
  · by_cases hi : i = ino
    · subst hi
      simp only [update_self]
      exact hx.doubleIndirect
    · simp only [update_of_ne hi] at hli ⊢
      exact h.single i hli
  · refine h.owns.congr (fun p => ?_) (fun c => used_update_of_ne hl.bitmaps.symm b c) fun _ => Iff.rfl
    obtain ⟨i, s⟩ := p
    by_cases hi : i = ino
    · subst hi
      rw [hrefs s]
      unfold ref
      simp only [update_self, hx.ptr, ne_eq, not_true_eq_false, and_false, if_false]
    · unfold ref
      simp only [update_of_ne hi]

theorem Flight.ref_of_dead (_ : Flight v d w X Y loose) (hd : w.live ino = false) (s : Slot) :
    w.ref (ino, s) = none := by
  unfold ref
  simp only [hd, Bool.false_eq_true, false_and, if_false]

theorem Flight.allocInode (h : Flight v d w X Y loose) (hl : Layout v)
    (hi : i < v.sb.inodeCount.toNat) (h8 : i / 8 < 4096)
    (hclear : (d inodeBitmapBlk).getBit i = false) :
    Flight v (update d inodeBitmapBlk ((d inodeBitmapBlk).setBit i))
      { w with
        live := update w.live (i + 1) true
        inode := update w.inode (i + 1) zero }
      (fun k => X k ∨ k = i + 1) Y loose := by
  have hdead : w.live (i + 1) = false := by
    rw [h.live]
    simp [OnyxFs.live, hclear]
  refine (h.mono (fun k hk => .inl hk) fun _ hk => hk).writeInodeBitmap hl
    ⟨fun _ => rfl, rfl, rfl⟩ (fun _ => .inr rfl) (h.ref_of_dead hdead) fun k => ?_
  rw [live_update_bitmap, Bytes.getBit_setBit _ h8]
  unfold OnyxFs.live
  by_cases hk : k = i + 1
  · subst hk
    simp
    omega
  · rw [if_neg hk]
    by_cases h1 : 1 ≤ k
    · have hne : k - 1 ≠ i := by omega
      simp [hne]
    · simp [h1]

theorem Flight.freeInode (h : Flight v d w X Y loose) (hl : Layout v) (hi : w.live ino = true)
    (hx : (w.inode ino).NoBlocks) :
    Flight v (update d inodeBitmapBlk ((d inodeBitmapBlk).clearBit (ino - 1)))
      { w with
        live := update w.live ino false
        inode := update w.inode ino (w.inode ino) } X Y loose := by
  have hb := h.bounds hi
  have hset : (d inodeBitmapBlk).getBit (ino - 1) = true := getBit_of_live (by rw [← h.live]; exact hi)
  refine h.writeInodeBitmap hl hx (by simp) (fun s => ?_) fun k => ?_
  · unfold ref
    simp only [hx.ptr, ne_eq, not_true_eq_false, and_false, if_false]
  · rw [live_update_bitmap, Bytes.getBit_clearBit _ (Bytes.lt_of_getBit hset)]
    unfold OnyxFs.live
    by_cases hk : k = ino
    · subst hk
      simp
    · rw [if_neg hk]
      by_cases h1 : 1 ≤ k
      · have hne : k - 1 ≠ ino - 1 := by omega
        simp [hne]
      · simp [h1]

/-! ## What an operation changes in memory -/

def Inode.setPtr (x : Inode) (b : UInt32) : Slot → Inode
  | .direct i => x.setBlock i b
  | .table => { x with indirect := b }
  | .entry _ => x

def setEnts (ents : Nat → UInt32) (b : UInt32) : Slot → Nat → UInt32
  | .entry j => update ents j.1 b
  | _ => ents

/-- Setting the slot changes no other pointer: a table comes and goes empty, and an entry is in a
table that exists. -/
def Inode.Settable (x : Inode) (ents : Nat → UInt32) : Slot → Prop
  | .direct _ => True
  | .table => ∀ j < 1024, ents j = 0
  | .entry _ => x.indirect ≠ 0

theorem Inode.ptr_setPtr (b : UInt32) (hs : x.Settable ents s) (q : Slot) :
    (x.setPtr b s).ptr (setEnts ents b s) q = if q = s then b else x.ptr ents q := by
  cases s with
  | direct i =>
    cases q with
    | direct k =>
      by_cases hk : k = i
      · subst hk
        simp [setPtr, setBlock, ptr]
      · simp [setPtr, setBlock, ptr, hk]
    | table => simp [setPtr, setBlock, ptr]
    | entry j =>
      rw [if_neg (by simp)]
      rfl
  | table =>
    cases q with
    | direct k | table => simp [setPtr, ptr]
    | entry j => simp [setPtr, setEnts, ptr, hs j.1 j.2]
  | entry j =>
    have h0 : x.indirect ≠ 0 := hs
    cases q with
    | direct k | table => simp [setPtr, ptr]
    | entry k =>
      by_cases hk : k = j
      · subst hk
        simp [setPtr, setEnts, ptr, h0]
      · have hne : k.1 ≠ j.1 := fun he => hk (Fin.ext he)
        simp [setPtr, setEnts, ptr, h0, hk, update_of_ne hne]

theorem Inode.setPtr_doubleIndirect (x : Inode) (b : UInt32) (s : Slot) :
    (x.setPtr b s).doubleIndirect = x.doubleIndirect := by
  cases s <;> rfl

theorem Inode.SamePtrs.setPtr (h : x.SamePtrs y) (b : UInt32) (s : Slot) : (x.setPtr b s).SamePtrs (y.setPtr b s) := by
  refine ⟨?_, ?_, ?_⟩ <;> cases s <;>
    simp only [Inode.setPtr, Inode.setBlock, h.blocks, h.indirect, h.doubleIndirect]

theorem Inode.SamePtrs.ptr (h : x.SamePtrs y) (ents : Nat → UInt32) (s : Slot) : x.ptr ents s = y.ptr ents s := by
  cases s <;> simp only [Inode.ptr, h.blocks, h.indirect]

theorem Inode.SamePtrs.settable (h : x.SamePtrs y) (hs : y.Settable ents s) : x.Settable ents s := by
  cases s with
  | direct _ => trivial
  | table => exact hs
  | entry _ => exact fun h0 => hs (h.indirect ▸ h0)

/-- A pointer of an inode, or an entry of its table, is set in memory. -/
def View.set (w : View) (ino : Nat) (b : UInt32) (s : Slot) : View where
  live := w.live
  inode := update w.inode ino ((w.inode ino).setPtr b s)
  ents := update w.ents ino (setEnts (w.ents ino) b s)

section

variable (hs : (w.inode ino).Settable (w.ents ino) s)
include hs

theorem View.ref_set_of_ne (b : UInt32) (hp : p ≠ (ino, s)) : (w.set ino b s).ref p = w.ref p := by
  obtain ⟨i, q⟩ := p
  refine ref_congr rfl fun _ => ?_
  by_cases hi : i = ino
  · subst hi
    simp only [set, update_self]
    exact (ptr_setPtr b hs q).trans (if_neg fun he => hp (by rw [he]))
  · simp only [set, update_of_ne hi]

theorem View.ptr_set_self (b : UInt32) : ((w.set ino b s).inode ino).ptr ((w.set ino b s).ents ino) s = b := by
  simp only [set, update_self]
  exact (ptr_setPtr b hs s).trans (if_pos rfl)

theorem View.ref_set_self {b : UInt32} (hi : w.live ino = true) (hb : b ≠ 0) :
    (w.set ino b s).ref (ino, s) = some b.toNat := by
  have hptr := ptr_set_self hs b
  exact ref_eq_some.mpr ⟨hi, by rw [hptr]; exact hb, by rw [hptr]⟩

theorem View.ref_set_zero : (w.set ino 0 s).ref (ino, s) = none := by
  exact if_neg fun h => h.2 (ptr_set_self hs 0)

end

def InMemory (X Y : Nat → Prop) (ino : Nat) : Slot → Prop
  | .direct _ => X ino
  | .table => X ino ∧ Y ino
  | .entry _ => Y ino

section

variable (h : Flight v d w X Y loose)
include h

theorem Flight.set {loose' : Nat → Prop} {b : UInt32} (hm : InMemory X Y ino s)
    (ho : Owns (w.set ino b s).ref (Used v d) loose') : Flight v d (w.set ino b s) X Y loose' := by
  refine ⟨h.live, fun i hi hx => ?_, fun i j hi hy h0 hj => ?_, fun i hi => ?_, ho⟩
  · by_cases hie : i = ino
    · subst hie
      simp only [View.set, update_self]
      cases s with
      | direct _ => exact absurd hm hx
      | table => exact absurd hm.1 hx
      | entry _ => exact h.inode i hi hx
    · simp only [View.set, update_of_ne hie]
      exact h.inode i hi hx
  · by_cases hie : i = ino
    · subst hie
      simp only [View.set, update_self] at h0 ⊢
      cases s with
      | direct k => exact h.ents i j hi hy h0 hj
      | table => exact absurd hm.2 hy
      | entry _ => exact absurd hm hy
    · simp only [View.set, update_of_ne hie] at h0 ⊢
      exact h.ents i j hi hy h0 hj
  · by_cases hie : i = ino
    · subst hie
      simp only [View.set, update_self, setPtr_doubleIndirect]
      exact h.single i hi
    · simp only [View.set, update_of_ne hie]
      exact h.single i hi

theorem Flight.attach (hi : w.live ino = true) {b : UInt32} (hm : InMemory X Y ino s)
    (hs : (w.inode ino).Settable (w.ents ino) s) (hempty : w.ref (ino, s) = none) (h0 : b ≠ 0)
    (hb : loose b.toNat) : Flight v d (w.set ino b s) X Y (fun c => loose c ∧ c ≠ b.toNat) :=
  h.set hm (h.owns.attach hempty hb (ref_set_self hs hi h0) (fun _ hq => ref_set_of_ne hs b hq) fun _ => Iff.rfl)

theorem Flight.detach (hm : InMemory X Y ino s) (hs : (w.inode ino).Settable (w.ents ino) s)
    (hb : w.ref (ino, s) = some b) : Flight v d (w.set ino 0 s) X Y (fun c => loose c ∨ c = b) :=
  h.set hm (h.owns.detach hb (ref_set_zero hs) (fun _ hq => ref_set_of_ne hs 0 hq) fun _ => Iff.rfl)

theorem Flight.writeTable (hl : Layout v) (hi : w.live ino = true) (h0 : (w.inode ino).indirect ≠ 0)
    {x : Block} (hx : ∀ j < 1024, indEntry x j = w.ents ino j) :
    Flight v (update d (w.inode ino).indirect.toNat x) w X (fun i => Y i ∧ i ≠ ino)
      loose := by
  have href := h.ref_table hi h0
  have hdata := h.inData_of_ref href
  have hge := hdata.1
  refine ⟨fun i => ?_, fun i hli hn => ?_, fun i j hli hy hi0 hj => ?_, h.single, ?_⟩
  · rw [live_update_of_ne (by have := hl.data_inodeBitmap; omega), h.live]
  · have hlt := (h.inTable hli).2
    rw [inodeAt_update_of_ne (by have := hl.data_table; omega)]
    exact h.inode i hli hn
  · by_cases hie : i = ino
    · subst hie
      rw [entsAt, update_self, hx j hj]
    · have hne : (w.inode ino).indirect.toNat ≠ (w.inode i).indirect.toNat := fun he => by
        have hsame := h.owns.inj (h.ref_table hli hi0) (he ▸ href)
        exact hie (congrArg Prod.fst hsame)
      rw [entsAt_update_of_ne hne]
      exact h.ents i j hli (fun hc => hy ⟨hc, hie⟩) hi0 hj
  · refine h.owns.congr (fun _ => rfl) (fun c => ?_) fun _ => Iff.rfl
    exact used_update_of_ne (by have := hl.data_dataBitmap; omega) x c

theorem Flight.noTable (h0 : (w.inode ino).indirect = 0) : Flight v d w X (fun i => Y i ∧ i ≠ ino) loose where
  live := h.live
  inode := h.inode
  ents i j hi hy hi0 hj := by
    by_cases hie : i = ino
    · subst hie
      exact absurd h0 hi0
    · exact h.ents i j hi (fun hc => hy ⟨hc, hie⟩) hi0 hj
  single := h.single
  owns := h.owns

end

end OnyxFs
