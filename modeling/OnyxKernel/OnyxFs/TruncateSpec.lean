import OnyxKernel.OnyxFs.ResizeSpec
import OnyxKernel.OnyxFs.WriteSpec

/-!
# What `truncate_to_length` does to the disk

The blocks stay owned, a block that the file gains is zero, and the blocks in use and the inodes of all other
files are as they were. As in `ResizeSpec`, a call that drops table entries is left out.
-/

namespace OnyxFs

open Infra Onyx Function

variable {e : Env} {d d₀ d' : Disk Block} {t : FsState} {alive : Nat → Bool} {ino tbl : Nat}
variable {X Y : Nat → Prop} {x : Inode} {ents : Nat → UInt32}

theorem Meets.both {α : Type} {p : FsProg α} {Q Q' : α → FsState → Prop} (h : Does e p Q t)
    (h' : Does e p Q' t) : Does e p (fun a u => Q a u ∧ Q' a u) t :=
  ⟨StateProg.wp_mono (StateProg.wp_and h.spec h'.spec) (fun _ _ hq => hq) fun _ _ he => he.1⟩

/-! ## What is left alone -/

/-- The inodes and the blocks in use are as on `d₀`, except for the block `tbl`. -/
structure Kept (v : Volume) (d₀ : Disk Block) (tbl : Nat) (d : Disk Block) : Prop where
  table : ∀ b, InTable v b → d b = d₀ b
  used : ∀ b, Used v d₀ b → b ≠ tbl → d b = d₀ b

theorem Kept.refl (v : Volume) (d : Disk Block) (tbl : Nat) : Kept v d tbl d := ⟨fun _ _ => rfl, fun _ _ _ => rfl⟩

variable {length : UInt64} {v : Volume}

theorem Kept.bitmap (h : Kept v d₀ tbl d) (hl : Layout v) (x : Block) :
    Kept v d₀ tbl (update d v.sb.dataBitmapStart.toNat x) := by
  constructor
  · intro b hb
    have hne : b ≠ v.sb.dataBitmapStart.toNat := by
      intro he
      exact hl.table_dataBitmap (he ▸ hb)
    rw [update_of_ne hne]
    exact h.table b hb
  · intro b hb hne
    have hge := hb.1.1
    rw [update_of_ne (by have := hl.data_dataBitmap; omega)]
    exact h.used b hb hne

/-- A data block that was not in use, or the one that is left out. -/
theorem Kept.data (h : Kept v d₀ tbl d) (hl : Layout v) {b : Nat} (hb : InData v.sb b)
    (hfree : Used v d₀ b → b = tbl) (x : Block) : Kept v d₀ tbl (update d b x) := by
  constructor
  · intro c hc
    have h1 := hb.1
    have h2 := hc.2
    rw [update_of_ne (by have := hl.data_table; omega)]
    exact h.table c hc
  · intro c hc hne
    rw [update_of_ne fun he => hne (he.trans (hfree (he ▸ hc)))]
    exact h.used c hc hne

def Holding (e : Env) (d₀ : Disk Block) (tbl : Nat) (t : FsState) : Prop :=
  ∃ d, On e d t ∧ Kept e.toVolume d₀ tbl d

/-! ## What `shrink` returns -/

theorem Inode.shrunk_indirect (x : Inode) {length : Nat} (hpos : 0 < length) :
    (x.shrunk length).indirect = if length ≤ 10 * 4096 then 0 else x.indirect := by
  unfold Inode.shrunk
  by_cases h : (length - 1) / 4096 < 10
  · rw [if_pos h, if_pos (by omega)]
  · rw [if_neg h, if_neg (by omega)]

/-- When no table entry is dropped, exactly the blocks before the new end remain. -/
theorem blockPtr_shrunk {length : Nat} (hpos : 0 < length) (hn : NoEntries x ents (firstDropped length)) :
    ∀ idx, blockPtr (x.shrunk length) ents idx = if idx * 4096 < length then blockPtr x ents idx else 0 := by
  refine blockPtr_rel (R := fun idx p q => p = if idx * 4096 < length then q else 0) (fun i => ?_) (fun j hj => ?_)
    fun k _ => (ite_self 0).symm
  · unfold Inode.shrunk
    by_cases h : (length - 1) / 4096 < 10
    · rw [if_pos h]
      by_cases hlt : (length - 1) / 4096 < i
      · rw [if_neg (by omega : ¬ i * 4096 < length)]
        exact if_pos hlt
      · rw [if_pos (by omega : i * 4096 < length)]
        exact if_neg hlt
    · rw [if_neg h, if_pos (by omega)]
  · rw [x.shrunk_indirect hpos]
    by_cases h : length ≤ 10 * 4096
    · rw [if_pos h, if_pos rfl, if_neg (by omega)]
    rw [if_neg h]
    by_cases h0 : x.indirect = 0
    · rw [if_pos h0, ite_self]
    rw [if_neg h0]
    by_cases hlt : (10 + j) * 4096 < length
    · rw [if_pos hlt]
    · rw [if_neg hlt]
      refine hn h0 j hj ?_
      rw [firstDropped, if_neg (by omega)]
      omega

/-! ## What `extend_to_length` adds -/

/-- The pointer for a block index as `extend_to_length` has it in memory. -/
def Extending.ptr (ex : Extending) (idx : Nat) : UInt32 := blockPtr ex.inode (indEntry ex.indBuf) idx


open Extending
/-- What `extend_to_length` has done before block index `cur`. It started at index `first` of the file `x`,
whose pointers were `old`, on the disk `d₀`. -/
structure Added (v : Volume) (d₀ d : Disk Block) (x : Inode) (old : Nat → UInt32) (first cur : Nat)
    (ex : Extending) : Prop where
  kept : Kept v d₀ x.indirect.toNat d
  used : ∀ b, Used v d₀ b → Used v d b
  table : x.indirect ≠ 0 → ex.inode.indirect = x.indirect
  fresh : x.indirect = 0 → ex.inode.indirect ≠ 0 → ¬ Used v d₀ ex.inode.indirect.toNat
  keeps : ∀ idx, old idx ≠ 0 → ex.ptr idx = old idx
  new : ∀ idx, old idx = 0 → ex.ptr idx ≠ 0 →
    first ≤ idx ∧ Used v d (ex.ptr idx).toNat ∧ d (ex.ptr idx).toNat = Bytes.zero
  mapped : ∀ idx, first ≤ idx → idx < cur → ex.ptr idx ≠ 0

section

variable {v : Volume} {old : Nat → UInt32} {first cur : Nat} {ex ex' : Extending} {blk : UInt32}

section

variable (h : Allocated v d blk d')
include h

theorem Allocated.not_used : ¬ Used v d blk.toNat := by
  intro hu
  rw [Used, h.clear] at hu
  exact Bool.false_ne_true hu.2

theorem Allocated.used_iff (b : Nat) : Used v d' b ↔ Used v d b ∨ b = blk.toNat := by
  have h1 := h.data.1
  have h2 := h.data.2
  rw [h.disk, setUsed, used_setBit (by omega) h.inBlock, Nat.add_sub_cancel' h1]

theorem Allocated.kept (hk : Kept v d₀ tbl d) (hl : Layout v) : Kept v d₀ tbl d' := by
  rw [h.disk]
  exact hk.bitmap hl _

theorem Allocated.same (hl : Layout v) {b : Nat} (hb : Used v d b) : d' b = d b := by
  have hge := hb.1.1
  have := hl.data_dataBitmap
  rw [h.disk, setUsed, update_of_ne (by omega)]

end

section

variable (h : Added v d₀ d x old first cur ex)
include h

theorem Added.skip (h0 : ex.ptr cur ≠ 0) : Added v d₀ d x old first (cur + 1) ex := by
  refine { h with mapped := fun idx h1 h2 => ?_ }
  by_cases hlt : idx < cur
  · exact h.mapped idx h1 hlt
  · obtain rfl : idx = cur := by omega
    exact h0

theorem Added.block (hl : Layout v) (hb : Allocated v d blk d') (hne : blk ≠ 0) (hle : first ≤ cur)
    (h0 : ex.ptr cur = 0) (hind : ex'.inode.indirect = ex.inode.indirect)
    (hptr : ∀ idx, ex'.ptr idx = if idx = cur then blk else ex.ptr idx) :
    Added v d₀ (update d' blk.toNat Bytes.zero) x old first (cur + 1) ex' := by
  have hused (b : Nat) : Used v (update d' blk.toNat Bytes.zero) b ↔ Used v d b ∨ b = blk.toNat := by
    have hge := hb.data.1
    have := hl.data_dataBitmap
    rw [used_update_of_ne (by omega), hb.used_iff]
  refine ⟨?_, fun b hu => (hused b).mpr (.inl (h.used b hu)), ?_, ?_, ?_, ?_, ?_⟩
  · exact (hb.kept h.kept hl).data hl hb.data (fun hu => absurd (h.used _ hu) hb.not_used) _
  · intro hx
    exact hind.trans (h.table hx)
  · intro hx
    rw [hind]
    exact h.fresh hx
  · intro idx ho
    have hkeep := h.keeps idx ho
    have hc : idx ≠ cur := by
      rintro rfl
      exact ho (hkeep.symm.trans h0)
    rw [hptr, if_neg hc, hkeep]
  · intro idx ho hp
    rw [hptr] at hp ⊢
    by_cases hc : idx = cur
    · rw [if_pos hc]
      exact ⟨hc ▸ hle, (hused _).mpr (.inr rfl), update_self ..⟩
    · rw [if_neg hc] at hp ⊢
      obtain ⟨h1, h2, h3⟩ := h.new idx ho hp
      -- the blocks added before are in use, so this one is another
      have hother : (ex.ptr idx).toNat ≠ blk.toNat := fun he => hb.not_used (he ▸ h2)
      refine ⟨h1, (hused _).mpr (.inl h2), ?_⟩
      rw [update_of_ne hother, hb.same hl h2]
      exact h3
  · intro idx h1 h2
    rw [hptr]
    by_cases hc : idx = cur
    · rw [if_pos hc]
      exact hne
    · rw [if_neg hc]
      exact h.mapped idx h1 (by omega)

theorem Added.newTable (hl : Layout v) (hb : Allocated v d blk d')
    (h0 : ex.inode.indirect = 0) (hind : ex'.inode.indirect = blk) (hptr : ∀ idx, ex'.ptr idx = ex.ptr idx) :
    Added v d₀ d' x old first cur ex' := by
  refine ⟨hb.kept h.kept hl, fun b hu => (hb.used_iff b).mpr (.inl (h.used b hu)), ?_, ?_, ?_, ?_, ?_⟩
  · intro hx
    exact absurd ((h.table hx).symm.trans h0) hx
  · intro _ _ hu
    rw [hind] at hu
    exact hb.not_used (h.used _ hu)
  · intro idx ho
    rw [hptr]
    exact h.keeps idx ho
  · intro idx ho hp
    rw [hptr] at hp ⊢
    obtain ⟨h1, h2, h3⟩ := h.new idx ho hp
    exact ⟨h1, (hb.used_iff _).mpr (.inl h2), (hb.same hl h2).trans h3⟩
  · intro idx h1 h2
    rw [hptr]
    exact h.mapped idx h1 h2

theorem Added.putTable (hl : Layout v) (hdata : InData v.sb ex.inode.indirect.toNat)
    (hapart : ∀ idx, ex.ptr idx ≠ 0 → (ex.ptr idx).toNat ≠ ex.inode.indirect.toNat)
    (h0 : ex.inode.indirect ≠ 0) (b : Block) :
    Added v d₀ (update d ex.inode.indirect.toNat b) x old first cur ex := by
  have hused (c : Nat) : Used v (update d ex.inode.indirect.toNat b) c ↔ Used v d c := by
    have hge := hdata.1
    have := hl.data_dataBitmap
    rw [used_update_of_ne (by omega)]
  refine { h with
    kept := h.kept.data hl hdata (fun hu => ?_) _
    used := fun c hu => (hused c).mpr (h.used c hu)
    new := ?_ }
  · by_cases hx : x.indirect = 0
    · exact absurd hu (h.fresh hx h0)
    · rw [h.table hx]
  · intro idx ho hp
    obtain ⟨h1, h2, h3⟩ := h.new idx ho hp
    refine ⟨h1, (hused _).mpr h2, ?_⟩
    rw [update_of_ne (hapart idx hp)]
    exact h3

end

end

/-- What `extend_to_length` keeps: its buffer has the entries of the table, and the table is on the
disk unless the buffer is dirty. -/
def ExtendInv (e : Env) (alive : Nat → Bool) (ino : Nat) (ex : Extending) (t : FsState) : Prop :=
  ∃ ents, Working e alive ino (· = ino) (fun i => ex.indDirty = true ∧ i = ino) ex.inode ents t ∧
    (ex.inode.indirect ≠ 0 → ∀ j < 1024, indEntry ex.indBuf j = ents j) ∧
    (ex.indDirty = true → ex.inode.indirect ≠ 0)

/-- `extend_to_length` is at work before block index `cur`. -/
def Adding (e : Env) (d₀ : Disk Block) (x : Inode) (old : Nat → UInt32) (first cur : Nat) (ex : Extending)
    (t : FsState) : Prop :=
  ∃ d, On e d t ∧ Added e.toVolume d₀ d x old first cur ex

def Growing (e : Env) (alive : Nat → Bool) (ino : Nat) (d₀ : Disk Block) (x : Inode) (old : Nat → UInt32)
    (first cur : Nat) (ex : Extending) (t : FsState) : Prop :=
  ExtendInv e alive ino ex t ∧ Adding e d₀ x old first cur ex t

section

variable {old : Nat → UInt32} {first cur : Nat} {ex : Extending}

theorem Extending.ptr_entry (ex : Extending) {j : Nat} (hj : j < 1024) :
    ex.ptr (10 + j) = if ex.inode.indirect = 0 then 0 else indEntry ex.indBuf j := by
  rw [ptr, blockPtr_entry _ _ (by omega) (by omega), Nat.add_sub_cancel_left]

theorem extendEntry_growing (hl : Layout e.toVolume) {j : Nat} (hj : j < 1024) (hle : first ≤ 10 + j)
    (h0 : ex.inode.indirect ≠ 0) (h : Growing e alive ino d₀ x old first (10 + j) ex t) :
    Does e (extendEntry ex j) (Growing e alive ino d₀ x old first (10 + j + 1)) t := by
  obtain ⟨hinv, d, hon, had⟩ := h
  have hptr : ex.ptr (10 + j) = indEntry ex.indBuf j := by rw [ex.ptr_entry hj, if_neg h0]
  unfold extendEntry
  split
  · rename_i hset
    exact .pure ⟨hinv, d, hon, had.skip (by rw [hptr]; exact hset)⟩
  rename_i hempty
  have hempty : indEntry ex.indBuf j = 0 := not_not.mp hempty
  obtain ⟨ents, hw, hbuf, hdirty⟩ := hinv
  obtain ⟨b, hat⟩ := hon
  have hmem : Working e alive ino (· = ino) (· = ino) ex.inode ents t := hw.mono (fun _ hc => hc) fun _ hc => hc.2
  have hslot : ex.inode.ptr ents (.entry ⟨j, hj⟩) = 0 := (if_neg h0).trans ((hbuf h0 j hj).symm.trans hempty)
  refine ((allocZeroBlock_working hl hmem (s := .entry ⟨j, hj⟩) rfl h0 hslot nofun).both
    (allocZeroBlock_spec hl hat)).bind ?_
  rintro blk u ⟨⟨hne, hu⟩, d', hb, hon⟩
  refine .pure ⟨⟨_, hu.mono (fun _ hc => hc) fun _ hc => ⟨rfl, hc⟩, fun _ k hk => ?_, fun _ => h0⟩,
    _, hon, had.block hl hb hne hle (hptr.trans hempty) rfl ?_⟩
  · rw [indEntry_setIndEntry _ hj]
    by_cases hkj : k = j
    · subst hkj
      simp [setEnts]
    · rw [if_neg hkj, hbuf h0 k hk]
      exact (update_of_ne hkj _ _).symm
  · refine blockPtr_rel (R := fun idx p q => p = if idx = 10 + j then blk else q) (fun i => ?_) (fun k hk => ?_)
      fun k hk => (if_neg (by omega)).symm
    · exact (if_neg (by omega)).symm
    · rw [if_neg h0, if_neg h0, indEntry_setIndEntry _ hj]
      exact if_congr (by omega) rfl rfl

theorem extendRound_growing (hl : Layout e.toVolume) (hle : first ≤ cur)
    (h : Growing e alive ino d₀ x old first cur ex t) : Does e (extendRound ex cur) (fun r u => match r with
      | none => 1034 ≤ cur ∧ u = t
      | some ex' => Growing e alive ino d₀ x old first (cur + 1) ex' u) t := by
  unfold extendRound
  split
  · rename_i h10
    obtain ⟨hinv, d, hon, had⟩ := h
    have hptr : ex.ptr cur = ex.inode.blocks ⟨cur, h10⟩ := blockPtr_direct _ _ h10
    split
    · rename_i hset
      exact .pure ⟨hinv, d, hon, had.skip (by rw [hptr]; exact hset)⟩
    rename_i hempty
    have hempty : ex.inode.blocks ⟨cur, h10⟩ = 0 := not_not.mp hempty
    obtain ⟨ents, hw, hbuf, hdirty⟩ := hinv
    obtain ⟨b, hat⟩ := hon
    refine ((allocZeroBlock_working hl hw (s := .direct ⟨cur, h10⟩) rfl trivial hempty nofun).both
      (allocZeroBlock_spec hl hat)).bind ?_
    rintro blk u ⟨⟨hne, hu⟩, d', hb, hon⟩
    refine .pure ⟨⟨ents, hu, hbuf, hdirty⟩, _, hon, had.block hl hb hne hle (hptr.trans hempty) rfl ?_⟩
    exact blockPtr_setBlock _ _ _ _
  obtain ⟨j, rfl⟩ : ∃ j, cur = 10 + j := ⟨cur - 10, by omega⟩
  rw [Nat.add_sub_cancel_left]
  split
  · exact .pure ⟨by omega, rfl⟩
  split
  · rename_i h0
    exact (extendEntry_growing hl (by omega) hle h0 h).bind fun ex' u hu => .pure hu
  rename_i h0
  have h0 : ex.inode.indirect = 0 := not_not.mp h0
  obtain ⟨⟨ents, hw, -⟩, d, ⟨b, hat⟩, had⟩ := h
  -- The new table is empty, so the entries of an inode without a table are taken as zero.
  have hmem : Working e alive ino (· = ino) (· = ino) ex.inode (fun _ => 0) t :=
    (hw.resetEnts h0 fun _ => 0).mono (fun _ hc => hc) fun _ hc => hc.2
  refine ((allocDataBlock_working hl hmem (s := .table) ⟨rfl, rfl⟩ (fun _ _ => rfl) h0).both
    (allocDataBlock_spec hl hat)).bind ?_
  rintro ind u ⟨⟨hne, hu⟩, d', hb, hon⟩
  have hnew : Growing e alive ino d₀ x old first (10 + j)
      { inode := { ex.inode with indirect := ind }, indBuf := Bytes.zero, indDirty := true } u := by
    refine ⟨⟨_, hu.mono (fun _ hc => hc) fun _ hc => ⟨rfl, hc⟩, fun _ j _ => indEntry_zero j, fun _ => hne⟩,
      d', hon, had.newTable hl hb h0 rfl ?_⟩
    refine blockPtr_rel (R := fun _ p q => p = q) (fun i => rfl) (fun k hk => ?_) fun _ _ => rfl
    rw [if_neg hne, if_pos h0, indEntry_zero]
  exact (extendEntry_growing hl (by omega) hle hne hnew).bind fun ex' u hu => .pure hu

theorem Growing.le {cur' : Nat} (h : Growing e alive ino d₀ x old first cur ex t) (hle : cur' ≤ cur) :
    Growing e alive ino d₀ x old first cur' ex t := by
  obtain ⟨hinv, d, hon, had⟩ := h
  exact ⟨hinv, d, hon, { had with mapped := fun idx h1 h2 => had.mapped idx h1 (by omega) }⟩

theorem extendLoop_growing (hl : Layout e.toVolume) (last : Nat) :
    ∀ (fuel : Nat) {cur : Nat} {ex : Extending} {t : FsState}, 1034 ≤ cur + fuel → first ≤ cur →
      Growing e alive ino d₀ x old first cur ex t →
      Does e (extendLoop last fuel ex cur) (Growing e alive ino d₀ x old first (min (last + 1) 1034)) t := by
  intro fuel
  induction fuel with
  | zero =>
    intro cur ex t hfuel hle h
    exact .pure (h.le (by omega))
  | succ fuel ih =>
    intro cur ex t hfuel hle h
    unfold extendLoop
    split
    · exact .pure (h.le (by omega))
    refine (extendRound_growing hl hle h).bind fun r u hu => ?_
    cases r with
    | none =>
      obtain ⟨hend, rfl⟩ := hu
      exact .pure (h.le (by omega))
    | some ex' => exact ih (by omega) (by omega) hu

theorem blockPtr_congr_ents {ents' : Nat → UInt32} (h : x.indirect ≠ 0 → ∀ j < 1024, ents' j = ents j) :
    ∀ idx, blockPtr x ents' idx = blockPtr x ents idx := by
  refine blockPtr_rel (R := fun _ p q => p = q) (fun _ => rfl) (fun j hj => ?_) fun _ _ => rfl
  split
  · rfl
  · rename_i h0
    exact h h0 j hj

theorem fetchTable_reads (x : Inode) : (fetchTable x).Within FsCmd.Reads := by
  unfold fetchTable
  split
  · trivial
  · exact CmdProg.within_cmd trivial

theorem added_start {table : Block} {dirty : Bool}
    (ht : x.indirect ≠ 0 → ∀ j < 1024, indEntry table j = ents j) :
    Added e.toVolume d₀ d₀ x (blockPtr x ents) first first { inode := x, indBuf := table, indDirty := dirty } := by
  have hptr (idx : Nat) : ptr { inode := x, indBuf := table, indDirty := dirty } idx = blockPtr x ents idx :=
    blockPtr_congr_ents ht idx
  refine ⟨Kept.refl _ _ _, fun _ hu => hu, fun _ => rfl, fun h0 hne => absurd h0 hne, fun idx _ => hptr idx, ?_, ?_⟩
  · intro idx h0 hne
    rw [hptr] at hne
    exact absurd h0 hne
  · intro idx h1 h2
    omega

theorem ExtendInv.apart (h : ExtendInv e alive ino ex t) (h0 : ex.inode.indirect ≠ 0) :
    InData e.sb ex.inode.indirect.toNat ∧
      ∀ idx, ex.ptr idx ≠ 0 → (ex.ptr idx).toNat ≠ ex.inode.indirect.toNat := by
  obtain ⟨ents, ⟨hi, d, w, hon, hf, rfl, hx, rfl⟩, hbuf, -⟩ := h
  have htable : w.ref (ino, .table) = some ex.inode.indirect.toNat := ref_of_ptr hi hx.indirect h0
  refine ⟨hf.inData_of_ref htable, fun idx hp he => ?_⟩
  have hptr : ex.ptr idx = blockPtr ex.inode (w.ents ino) idx := blockPtr_congr_ents hbuf idx
  rw [hptr] at hp he
  have hblock := hf.ref_block hi hx rfl hp
  rw [he] at hblock
  have hsame := congrArg Prod.snd (hf.owns.inj hblock htable)
  exact slotOf_ne_table (lt_of_blockPtr hp) hsame

end

/-- The first block index that `extend_to_length` looks at. -/
def firstAdded (curSize : Nat) : Nat := if curSize = 0 then 0 else (curSize - 1) / 4096 + 1

theorem extendToLength_adds (hl : Layout e.toVolume) (hd : On e d₀ t)
    (h : Working e alive ino (· = ino) nothing x ents t) (curSize length : Nat) :
    Does e (extendToLength x curSize length) (fun y u => ∃ ents' ex, y = ex.inode ∧
      Working e alive ino (· = ino) nothing y ents' u ∧ (∀ idx, blockPtr y ents' idx = ex.ptr idx) ∧
      Adding e d₀ x (blockPtr x ents) (firstAdded curSize) (min ((length - 1) / 4096 + 1) 1034) ex u) t := by
  refine ((fetchTable_working hl h).both (reads_spec (fetchTable_reads x) hd)).bind ?_
  rintro table u ⟨⟨ht, hu⟩, hd⟩
  have hstart : Growing e alive ino d₀ x (blockPtr x ents) (firstAdded curSize) (firstAdded curSize)
      { inode := x, indBuf := table, indDirty := false } u :=
    ⟨⟨ents, hu.mono (fun _ hc => hc) fun _ hc => hc.elim, ht, nofun⟩, _, hd, added_start ht⟩
  refine (extendLoop_growing hl _ 1035 (by omega) le_rfl hstart).bind ?_
  rintro ex u ⟨hinv, had⟩
  have hapart := hinv.apart
  obtain ⟨ents', hw, hbuf, hdirty⟩ := hinv
  have hptr (idx : Nat) : blockPtr ex.inode ents' idx = ex.ptr idx := (blockPtr_congr_ents hbuf idx).symm
  refine (Meets.onlyIf (Q := fun _ u => Working e alive ino (· = ino) nothing ex.inode ents' u ∧
    Adding e d₀ x (blockPtr x ents) (firstAdded curSize) (min ((length - 1) / 4096 + 1) 1034) ex u) (fun hc => ?_)
    fun hc => ?_).bind fun _ u hu => Meets.pure ⟨ents', ex, rfl, hu.1, hptr, hu.2⟩
  · have h0 := hdirty hc
    obtain ⟨hdata, hother⟩ := hapart h0
    obtain ⟨d, ⟨b, hat⟩, had⟩ := had
    refine Meets.both ?_ ?_
    · exact put_table_working hl (hw.mono (fun _ hx => hx) fun _ hy => hy.2) h0 (hbuf h0)
    · refine (put_spec hat (hdata.target hl) ex.indBuf).mono fun _ u hu => ?_
      exact ⟨_, hu.on, had.putTable hl hdata hother h0 _⟩
  · exact ⟨hw.mono (fun _ hx => hx) fun _ hy => hc hy.1, had⟩

/-! ## The whole call -/

/-- The file under `ino` has another size on `d'`; the inodes and the blocks in use are those of `d` but for it and
its table. -/
structure Around (v : Volume) (d d' : Disk Block) (ino : Nat) (length : UInt64) : Prop where
  owned : BlocksOwned v d'
  sameLive : live v d' = live v d
  size : (inodeAt v d' ino).size = length
  inode : ∀ i, live v d i = true → i ≠ ino → inodeAt v d' i = inodeAt v d i
  block : ∀ b, Used v d b → b ≠ (inodeAt v d ino).indirect.toNat → d' b = d b

/-- The file keeps the blocks before the new end only. -/
structure FileShrunk (v : Volume) (d d' : Disk Block) (ino : Nat) (length : UInt64) : Prop
    extends Around v d d' ino length where
  blocks : ∀ idx, blockAt v d' ino idx = if idx * 4096 < length.toNat then blockAt v d ino idx else 0
  table : (inodeAt v d' ino).indirect =
    if length.toNat ≤ 10 * 4096 then 0 else (inodeAt v d ino).indirect

/-- The file keeps its blocks and has a block at every index after the old end; the new ones are zero. -/
structure FileGrown (v : Volume) (d d' : Disk Block) (ino : Nat) (length : UInt64) : Prop
    extends Around v d d' ino length where
  keeps : ∀ idx, blockAt v d ino idx ≠ 0 → blockAt v d' ino idx = blockAt v d ino idx
  table : (inodeAt v d ino).indirect ≠ 0 → (inodeAt v d' ino).indirect = (inodeAt v d ino).indirect
  new : ∀ idx, blockAt v d ino idx = 0 → blockAt v d' ino idx ≠ 0 →
    (inodeAt v d ino).size.toNat ≤ idx * 4096 ∧ d' (blockAt v d' ino idx).toNat = Bytes.zero
  mapped : ∀ idx, (inodeAt v d ino).size.toNat ≤ idx * 4096 → idx * 4096 < length.toNat →
    blockAt v d' ino idx ≠ 0

/-- What `truncate_to_length` makes of a file. -/
def FileResized (v : Volume) (d d' : Disk Block) (ino : Nat) (length : UInt64) : Prop :=
  if length < (inodeAt v d ino).size then FileShrunk v d d' ino length else FileGrown v d d' ino length

theorem FileShrunk.resized (h : FileShrunk v d d' ino length)
    (hlt : length < (inodeAt v d ino).size) : FileResized v d d' ino length := by
  rw [FileResized, if_pos hlt]
  exact h

theorem FileGrown.resized (h : FileGrown v d d' ino length)
    (hge : ¬ length < (inodeAt v d ino).size) : FileResized v d d' ino length := by
  rw [FileResized, if_neg hge]
  exact h

theorem writeInode_around (hl : Layout e.toVolume) (hd : On e d t) (hk : Kept e.toVolume d₀ tbl d)
    (htbl : tbl = (inodeAt e.toVolume d₀ ino).indirect.toNat)
    (h : Working e (live e.toVolume d₀) ino (· = ino) nothing x ents t) (length now : UInt64) :
    Does e (writeInode ino { x with size := length, mtime := now }) (fun _ u => ∃ d', On e d' u ∧
      Around e.toVolume d₀ d' ino length ∧ (∀ idx, blockAt e.toVolume d' ino idx = blockPtr x ents idx) ∧
      (inodeAt e.toVolume d' ino).indirect = x.indirect ∧ ∀ b, InData e.sb b → d' b = d b) t := by
  obtain ⟨hi, d₁, w, hon, hf, hlive, hx, he⟩ := h
  obtain rfl : d₁ = d := hon.home.symm.trans hd.home
  obtain ⟨b, hat⟩ := hon
  have hiw : w.live ino = true := by
    rw [hlive]
    exact hi
  have htab := hf.inTable hiw
  refine (writeInode_spec hl hat htab _).mono ?_
  rintro - u ⟨hv, hu⟩
  have hsame : (w.inode ino).SamePtrs { x with size := length, mtime := now } :=
    ⟨hx.blocks, hx.indirect, hx.doubleIndirect⟩
  set d' := setInode e.toVolume d₁ ino { x with size := length, mtime := now } with hd'
  have hdone : Flight e.toVolume d' w nothing nothing nothing :=
    (hf.writeInode hl hv hiw hsame).mono (fun _ hc => hc.2 hc.1) fun _ hc => hc
  have hdata (b : Nat) (hb : InData e.sb b) : d' b = d₁ b := setInode_data hl htab _ hb
  refine ⟨d', hu, ⟨hdone.blocksOwned, ?_, ?_, ?_, ?_⟩, hdone.blockAt_eq hiw hx he id id, ?_, hdata⟩
  · funext i
    rw [← hdone.live, hlive]
  · rw [hd', inodeAt_setInode_self hv]
  · intro i hli hne
    have hbounds := live_bounds hli
    rw [hd', inodeAt_setInode_of_ne hv _ (live_bounds hi).1 hbounds.1 hne, inodeAt, inodeAt,
      hk.table _ (inTable_inodeBlock hbounds.1 hbounds.2)]
  · intro b hb hne
    rw [hdata b hb.1]
    exact hk.used b hb (htbl ▸ hne)
  · rw [hd', inodeAt_setInode_self hv]

theorem FileGrown.refl (hb : BlocksOwned v d) (ino : Nat) : FileGrown v d d ino (inodeAt v d ino).size where
  owned := hb
  sameLive := rfl
  size := rfl
  inode _ _ _ := rfl
  block _ _ _ := rfl
  keeps _ _ := rfl
  table _ := rfl
  new _ h0 hne := absurd h0 hne
  mapped idx h1 h2 := by omega

theorem Inode.NoBlocks.blockPtr (h : x.NoBlocks) (ents : Nat → UInt32) (idx : Nat) :
    OnyxFs.blockPtr x ents idx = 0 := by
  unfold OnyxFs.blockPtr
  split
  · exact h.ptr ents _
  · rfl

section

variable (hl : Layout e.toVolume) (h : On e d t) (hb : BlocksOwned e.toVolume d) (hi : live e.toVolume d ino = true)
include hl h hb hi

theorem truncateBody_shrinks (hn : NoEntries (inodeAt e.toVolume d ino) (entsAt d (inodeAt e.toVolume d ino)) 0) :
    Does e (truncateBody ino) (fun _ u => ∃ d', FileShrunk e.toVolume d d' ino 0 ∧ On e d' u) t := by
  obtain ⟨b, hat⟩ := h
  refine (checkV2_spec hat).bind fun _ u hu => ?_
  refine (readInode_spec hl hu ino).bind ?_
  rintro x u ⟨rfl, hu⟩
  have hw := (hu.working hb hi).takeInode
  have hhold : Holding e d (inodeAt e.toVolume d ino).indirect.toNat u := ⟨d, hu, Kept.refl _ _ _⟩
  refine ((freeAllBlocks_working hl hw hn).both
    (freeAllBlocks_keeping hl (fun x hk => hk.bitmap hl x) _ _ hhold)).bind ?_
  rintro y u ⟨⟨hy, hw⟩, hhold⟩
  have hnone : y.NoBlocks := by
    rw [hy]
    exact ⟨fun _ => rfl, rfl, rfl⟩
  refine ((jiffies_working hw).both (jiffies_keeping _ hhold)).bind ?_
  rintro now u ⟨hw, d₁, hd₁, hk⟩
  refine (writeInode_around hl hd₁ hk rfl hw 0 now).mono ?_
  rintro - u ⟨d', hu, har, hptr, hind, -⟩
  refine ⟨d', ⟨har, fun idx => ?_, hind.trans hnone.indirect⟩, hu⟩
  rw [hptr, hnone.blockPtr]
  exact (if_neg (Nat.not_lt_zero _)).symm

theorem shrink_shrinks (hpos : 0 < length.toNat)
    (hn : NoEntries (inodeAt e.toVolume d ino) (entsAt d (inodeAt e.toVolume d ino)) (firstDropped length.toNat)) :
    Does e (do
        let y ← shrink (inodeAt e.toVolume d ino) length.toNat
        let now ← jiffies
        writeInode ino { y with size := length, mtime := now }
        pure true)
      (fun _ u => ∃ d', FileShrunk e.toVolume d d' ino length ∧ On e d' u) t := by
  have hw := (h.working hb hi).takeInode
  have hhold : Holding e d (inodeAt e.toVolume d ino).indirect.toNat t := ⟨d, h, Kept.refl _ _ _⟩
  have hind (h0 : (inodeAt e.toVolume d ino).indirect ≠ 0) : InData e.sb (inodeAt e.toVolume d ino).indirect.toNat :=
    hb.flight.inData_of_ref (hb.flight.ref_table hi h0)
  refine ((shrink_working hl hw hn).both (shrink_keeping hl (fun x hk => hk.bitmap hl x)
    (fun h0 => ⟨(hind h0).target hl, fun b hk => hk.data hl (hind h0) (fun _ => rfl) b⟩) _ _ hhold)).bind ?_
  rintro y u ⟨⟨rfl, hw⟩, hhold⟩
  refine ((jiffies_working hw).both (jiffies_keeping _ hhold)).bind ?_
  rintro now u ⟨hw, d₁, hd₁, hk⟩
  refine (writeInode_around hl hd₁ hk rfl hw length now).bind ?_
  rintro - u ⟨d', hu, har, hptr, hind, -⟩
  refine .pure ⟨d', ⟨har, fun idx => ?_, ?_⟩, hu⟩
  · rw [hptr, blockPtr_shrunk hpos hn]
    rfl
  · rw [hind, Inode.shrunk_indirect _ hpos]

theorem extendToLength_grows : Does e (do
        let y ← extendToLength (inodeAt e.toVolume d ino) (inodeAt e.toVolume d ino).size.toNat length.toNat
        let now ← jiffies
        writeInode ino { y with size := length, mtime := now }
        pure true)
      (fun _ u => ∃ d', (Around e.toVolume d d' ino length ∧
        (length.toNat ≤ 1034 * 4096 → FileGrown e.toVolume d d' ino length)) ∧ On e d' u) t := by
  have hw := (h.working hb hi).takeInode
  refine (extendToLength_adds hl h hw _ _).bind ?_
  rintro y u ⟨ents, ex, rfl, hw, hptr, d₁, ⟨b, hat⟩, had⟩
  refine ((jiffies_working hw).both (jiffies_spec hat)).bind ?_
  rintro now u ⟨hw, -, hat⟩
  refine (writeInode_around hl hat.on had.kept rfl hw length now).bind ?_
  rintro - u ⟨d', hu, har, hblock, hind, hdata⟩
  have hnew (idx : Nat) : blockAt e.toVolume d' ino idx = ex.ptr idx := (hblock idx).trans (hptr idx)
  have hfirst (idx : Nat) : firstAdded (inodeAt e.toVolume d ino).size.toNat ≤ idx ↔
      (inodeAt e.toVolume d ino).size.toNat ≤ idx * 4096 := by
    unfold firstAdded
    split <;> omega
  refine .pure ⟨d', ⟨har, fun hcap => ⟨har, fun idx h0 => ?_, fun h0 => ?_, fun idx h0 hne => ?_,
    fun idx h1 h2 => ?_⟩⟩, hu⟩
  · rw [hnew]
    exact had.keeps idx h0
  · rw [hind]
    exact had.table h0
  · rw [hnew] at hne ⊢
    obtain ⟨h1, h2, h3⟩ := had.new idx h0 hne
    refine ⟨(hfirst idx).mp h1, ?_⟩
    rw [hdata _ h2.1]
    exact h3
  · rw [hnew]
    exact had.mapped idx ((hfirst idx).mpr h1) (by omega)

/-- A file that grows past its largest size does not get all its blocks. -/
theorem truncateToLengthBody_resizes
    (hn : DropsNoEntry (inodeAt e.toVolume d ino) (entsAt d (inodeAt e.toVolume d ino)) length) :
    Does e (truncateToLengthBody ino length)
      (fun _ u => ∃ d', (Around e.toVolume d d' ino length ∧
        (length.toNat ≤ 1034 * 4096 → FileResized e.toVolume d d' ino length)) ∧ On e d' u) t := by
  obtain ⟨b, hat⟩ := h
  refine (checkV2_spec hat).bind fun _ u hu => ?_
  refine (readInode_spec hl hu ino).bind ?_
  rintro x u ⟨rfl, hu⟩
  split
  · rename_i heq
    subst heq
    have hsame := FileGrown.refl hb ino
    exact .pure ⟨d, ⟨hsame.toAround, fun _ => hsame.resized (UInt64.lt_irrefl _)⟩, hu⟩
  rename_i hne
  have hnat : length.toNat ≠ (inodeAt e.toVolume d ino).size.toNat := fun he => hne (UInt64.toNat_inj.mp he)
  split
  · rename_i h0
    have hlt : length < (inodeAt e.toVolume d ino).size := by
      rw [UInt64.lt_iff_toNat_lt]
      subst h0
      simp only [UInt64.toNat_zero] at hnat ⊢
      omega
    subst h0
    refine (truncateBody_shrinks hl hu hb hi (hn hlt)).bind ?_
    rintro - u ⟨d', hd', hu⟩
    exact .pure ⟨d', ⟨hd'.toAround, fun _ => hd'.resized hlt⟩, hu⟩
  rename_i h0
  have hpos : 0 < length.toNat := by
    have : length.toNat ≠ 0 := fun he => h0 (UInt64.toNat_inj.mp he)
    omega
  unfold resize
  split
  · rename_i hlt
    refine (shrink_shrinks hl hu hb hi hpos (hn hlt)).mono ?_
    rintro - u ⟨d', hd', hu⟩
    exact ⟨d', ⟨hd'.toAround, fun _ => hd'.resized hlt⟩, hu⟩
  · rename_i hge
    refine (extendToLength_grows hl hu hb hi).mono ?_
    rintro - u ⟨d', ⟨har, hd'⟩, hu⟩
    exact ⟨d', ⟨har, fun hcap => (hd' hcap).resized hge⟩, hu⟩

end

end OnyxFs
