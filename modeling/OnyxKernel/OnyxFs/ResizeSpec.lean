import OnyxKernel.OnyxFs.File
import OnyxKernel.OnyxFs.Working

/-!
# Freeing and resizing keep ownership

`free_inode` reads the table into a local buffer and is right for every file.
`free_indirect_block` and `shrink` take the entries from the scratch block while they free: their
specifications ask that there is no entry to free.
-/

namespace OnyxFs

open Infra Onyx Function

variable {e : Env} {d : Disk Block} {t : FsState} {alive : Nat → Bool} {ino : Nat}
variable {X Y : Nat → Prop} {x : Inode} {ents : Nat → UInt32}

/-! ## Direct blocks -/

/-- The inode without its direct blocks from `first` on. -/
def Inode.cutDirect (x : Inode) (first : Nat) : Inode :=
  { x with blocks := fun i => if first ≤ i.1 then 0 else x.blocks i }

theorem Inode.cutDirect_zero (x : Inode) : (x.cutDirect 0).blocks = fun _ => 0 := by
  funext i
  simp [Inode.cutDirect]

section

variable (hl : Layout e.toVolume)
include hl

theorem freeDirectFrom_working (h : Working e alive ino (· = ino) Y x ents t) (first : Nat) :
    Does e (freeDirectFrom x first) (fun _ => Working e alive ino (· = ino) Y (x.cutDirect first) ents) t := by
  -- Before round `j` the blocks from `first` up to `j` are gone.
  let cut (j : Nat) : Inode := { x with blocks := fun i => if first ≤ i.1 ∧ i.1 < j then 0 else x.blocks i }
  have hstart : Working e alive ino (· = ino) Y (cut first) ents t := by
    refine h.congr ?_ rfl rfl
    funext i
    exact (if_neg (by omega)).symm
  refine (Meets.forUpTo (fun j => Working e alive ino (· = ino) Y (cut j) ents) hstart ?_).mono ?_
  · intro j u h1 h2 hu
    have hj : j < 10 := by omega
    rw [dif_pos hj]
    have hptr : (cut j).ptr ents (.direct ⟨j, hj⟩) = x.blocks ⟨j, hj⟩ := if_neg (by simp)
    rw [← hptr]
    refine (freeIfSet_working (s := .direct ⟨j, hj⟩) hl hu rfl trivial).mono
      fun _ v hv => hv.congr ?_ rfl rfl
    funext i
    by_cases hi : i = ⟨j, hj⟩
    · subst hi
      simp only [Inode.setPtr, Inode.setBlock, update_self, cut]
      exact (if_pos ⟨h1, Nat.lt_succ_self j⟩).symm
    · have hne : i.1 ≠ j := fun he => hi (Fin.ext he)
      simp only [Inode.setPtr, Inode.setBlock, update_of_ne hi, cut]
      exact if_congr (by omega) rfl rfl
  · intro _ u hu
    refine hu.congr ?_ rfl rfl
    funext i
    exact if_congr (by omega) rfl rfl

theorem freeDirect_working (h : Working e alive ino (· = ino) Y x ents t) :
    Does e (freeDirect x) (fun _ => Working e alive ino (· = ino) Y (x.cutDirect 0) ents) t :=
  freeDirectFrom_working hl h 0

/-! ## `free_inode` -/

theorem freeEntries_working (h : Working e alive ino X (· = ino) x ents t) (h0 : x.indirect ≠ 0)
    {table : Block} (ht : ∀ j < 1024, indEntry table j = ents j) : Does e (freeEntries table)
      (fun _ => Working e alive ino X (· = ino) x fun j => if j < 1024 then 0 else ents j) t := by
  have hstart : Working e alive ino X (· = ino) x (fun j => if j < 0 then 0 else ents j) t := by
    simpa using h
  refine (Meets.forUpTo
    (fun k => Working e alive ino X (· = ino) x fun j => if j < k then 0 else ents j)
    hstart ?_).mono ?_
  · intro k u _ hk hu
    have hk : k < 1024 := by omega
    have hptr : x.ptr (fun j => if j < k then 0 else ents j) (.entry ⟨k, hk⟩) = indEntry table k := by
      rw [ht k hk]
      exact (if_neg h0).trans (if_neg (by simp))
    have hnext : setEnts (fun j => if j < k then 0 else ents j) 0 (.entry ⟨k, hk⟩) =
        fun j => if j < k + 1 then 0 else ents j := by
      funext j
      by_cases hj : j = k
      · subst hj
        simp [setEnts]
      · simp only [setEnts, update_of_ne hj]
        exact if_congr (by omega) rfl rfl
    rw [← hptr, ← hnext]
    exact freeIfSet_working (s := .entry ⟨k, hk⟩) hl hu rfl h0
  · intro _ u hu
    simpa using hu

theorem freeTable_working (h : Working e alive ino (· = ino) nothing x ents t) (h0 : x.indirect ≠ 0) :
    Does e (freeTable x.indirect)
      (fun _ u => ∃ ents', Working e alive ino (· = ino) (· = ino) { x with indirect := 0 } ents' u) t := by
  refine (fetch_table_working hl h h0).bind ?_
  rintro table u ⟨ht, hu⟩
  refine (freeEntries_working hl hu.takeTable h0 ht).bind
    fun _ u hu => ?_
  refine (freeDataBlock_working (s := .table) hl hu ⟨rfl, rfl⟩ (fun j hj => if_pos hj) rfl
    h0).mono fun _ v hv => ?_
  exact ⟨_, hv⟩

theorem clearInode_working (h : Working e alive ino nothing nothing x ents t) (hx : x.NoBlocks) :
    Does e (.onlyIf ((ino - 1) / 8 < 4096) (do
        load inodeBitmapBlk
        let b ← getBuf
        putBuf inodeBitmapBlk (b.clearBit (ino - 1))))
      (fun _ => Resting e (update alive ino false)) t := by
  obtain ⟨hi, d, w, ⟨b, hat⟩, hf, rfl, hw, -⟩ := h
  have hset : (d inodeBitmapBlk).getBit (ino - 1) = true := getBit_of_live (by rw [← hf.live]; exact hi)
  refine .onlyIf (fun _ => ?_) fun hn => absurd (Bytes.lt_of_getBit hset) hn
  refine load_getBuf hat hl.home_inodeBitmap fun u hu => ?_
  refine (putBuf_spec hu (target_inodeBitmap hl) _).mono fun _ u hu => ?_
  have hno : (w.inode ino).NoBlocks :=
    ⟨fun i => by rw [hw.blocks]; exact hx.blocks i, hw.indirect.trans hx.indirect,
      hw.doubleIndirect.trans hx.doubleIndirect⟩
  have hdone := hf.freeInode hl hi hno
  exact ⟨_, hu.on, hdone.blocksOwned, funext fun i => (hdone.live i).symm⟩

theorem freeInode_spec (h : On e d t) (hb : BlocksOwned e.toVolume d)
    (hi : live e.toVolume d ino = true) : Does e (freeInode ino)
      (fun _ => Resting e (update (live e.toVolume d) ino false)) t := by
  unfold freeInode
  split
  · exact Meets.fail h.stopped
  refine (readInode_working hl h hb hi).bind ?_
  rintro x u ⟨-, hu⟩
  refine (freeDirect_working hl hu.takeInode).bind fun _ u hu => ?_
  have htable : Does e (.onlyIf (x.indirect ≠ 0) (freeTable x.indirect))
      (fun _ u => ∃ ents, Working e (live e.toVolume d) ino (· = ino) nothing
        { x.cutDirect 0 with indirect := 0 } ents u) u := by
    refine Meets.onlyIf (fun h0 => ?_) fun h0 => ?_
    · refine (freeTable_working hl hu h0).mono ?_
      rintro - v ⟨ents, hv⟩
      exact ⟨ents, hv.noTable rfl⟩
    · exact ⟨_, hu.congr rfl (not_not.mp h0) rfl⟩
  refine htable.bind ?_
  rintro - u ⟨ents, hu⟩
  have hsingle : x.doubleIndirect = 0 := hu.single
  refine (Meets.onlyIf (Q := fun _ => Working e (live e.toVolume d) ino (· = ino) nothing
    Inode.zero ents) (fun hc => absurd hsingle hc) fun _ => ?_).bind fun _ u hu => ?_
  · exact hu.congr x.cutDirect_zero rfl hsingle
  refine (writeInode_working hl hu).bind fun _ u hu => ?_
  exact clearInode_working hl hu ⟨fun _ => rfl, rfl, rfl⟩

/-! ## `truncate` -/

def NoEntries (x : Inode) (ents : Nat → UInt32) (first : Nat) : Prop :=
  x.indirect ≠ 0 → ∀ j < 1024, first ≤ j → ents j = 0

theorem freeIndirectBlock_working (h : Working e alive ino (· = ino) nothing x ents t)
    (h0 : x.indirect ≠ 0) (hn : NoEntries x ents 0) : Does e (freeIndirectBlock x.indirect)
      (fun _ => Working e alive ino (· = ino) nothing { x with indirect := 0 } ents) t := by
  have hzero : ∀ j < 1024, ents j = 0 := fun j hj => hn h0 j hj (Nat.zero_le j)
  refine (load_table_working hl h h0).bind ?_
  rintro - u ⟨ht, hu⟩
  -- With no entry to free, the table stays in the scratch block for the whole loop.
  refine (Meets.forUpTo (fun _ v => v = u) rfl ?_).bind ?_
  · rintro j v - hj rfl
    refine getBuf_same.bind ?_
    rintro b v ⟨rfl, rfl⟩
    rw [ht j (by omega), hzero j (by omega)]
    exact Meets.pure rfl
  · rintro - v rfl
    refine (freeDataBlock_working (s := .table) hl hu.takeTable ⟨rfl, rfl⟩ hzero rfl h0).mono
      fun _ v hv => ?_
    exact hv.noTable rfl

theorem freeAllBlocks_working (h : Working e alive ino (· = ino) nothing x ents t)
    (hn : NoEntries x ents 0) : Does e (freeAllBlocks x)
      (fun y u => y = { x with blocks := fun _ => 0, indirect := 0, doubleIndirect := 0 } ∧
        Working e alive ino (· = ino) nothing y ents u) t := by
  refine (freeDirect_working hl h).bind fun _ u hu => ?_
  refine (Meets.onlyIf (Q := fun _ => Working e alive ino (· = ino) nothing
    { x.cutDirect 0 with indirect := 0 } ents) (fun h0 => ?_) fun h0 => ?_).bind fun _ u hu => ?_
  · exact freeIndirectBlock_working hl hu h0 hn
  · exact hu.congr rfl (not_not.mp h0) rfl
  have hsingle : x.doubleIndirect = 0 := hu.single
  refine (Meets.onlyIf (Q := fun _ => Working e alive ino (· = ino) nothing
    { x.cutDirect 0 with indirect := 0 } ents) (fun hc => absurd hsingle hc) fun _ => hu).bind
    fun _ u hu => Meets.pure ?_
  exact ⟨rfl, hu.congr x.cutDirect_zero rfl hsingle⟩

end

/-! ## `truncate_to_length` -/

theorem shrinkEntries_same {first : Nat} (hz : ∀ j < 1024, first ≤ j → indEntry t.buf j = 0) :
    Does e (shrinkEntries first) (fun _ u => u = t) t := by
  refine .forUpTo (fun _ v => v = t) rfl ?_
  rintro j v h1 h2 rfl
  refine getBuf_same.bind ?_
  rintro b u ⟨rfl, rfl⟩
  exact .onlyIf (fun hc => absurd (hz j (by omega) h1) hc) fun _ => rfl

/-- The first table entry that `shrink` to this length drops. -/
def firstDropped (length : Nat) : Nat :=
  if (length - 1) / 4096 < 10 then 0 else (length - 1) / 4096 - 10 + 1

/-- The inode that `shrink` returns. -/
def Inode.shrunk (x : Inode) (length : Nat) : Inode :=
  if (length - 1) / 4096 < 10 then
    { x with blocks := fun i => if (length - 1) / 4096 < i.1 then 0 else x.blocks i, indirect := 0 }
  else x

theorem shrink_working (hl : Layout e.toVolume) (h : Working e alive ino (· = ino) nothing x ents t)
    {length : Nat} (hn : NoEntries x ents (firstDropped length)) :
    Does e (shrink x length)
      (fun y u => y = x.shrunk length ∧ Working e alive ino (· = ino) nothing y ents u) t := by
  unfold shrink Inode.shrunk
  unfold firstDropped at hn
  simp only
  split
  · rename_i hlast
    rw [if_pos hlast] at hn
    refine (freeDirectFrom_working hl h _).bind fun _ u hu => ?_
    refine (Meets.onlyIf (Q := fun _ => Working e alive ino (· = ino) nothing
      { x.cutDirect ((length - 1) / 4096 + 1) with indirect := 0 } ents) (fun h0 => ?_)
      fun h0 => ?_).bind fun _ u hu => Meets.pure ?_
    · exact freeIndirectBlock_working hl hu h0 hn
    · exact hu.congr rfl (not_not.mp h0) rfl
    · exact ⟨rfl, hu⟩
  rename_i hlast
  rw [if_neg hlast] at hn
  split
  · exact Meets.pure ⟨rfl, h⟩
  rename_i h0
  refine (load_table_working hl h h0).bind ?_
  rintro - u ⟨ht, hu⟩
  refine (shrinkEntries_same fun j hj hle => ?_).bind ?_
  · rw [ht j hj]
    exact hn h0 j hj hle
  rintro - v rfl
  refine getBuf_same.bind ?_
  rintro table v ⟨rfl, rfl⟩
  exact (put_table_working hl hu.takeTable h0 ht).bind fun _ u hu => Meets.pure ⟨rfl, hu⟩

theorem fetchTable_working (hl : Layout e.toVolume) (h : Working e alive ino X nothing x ents t) :
    Does e (fetchTable x) (fun table u => (x.indirect ≠ 0 → ∀ j < 1024, indEntry table j = ents j) ∧
      Working e alive ino X nothing x ents u) t := by
  unfold fetchTable
  split
  · rename_i h0
    exact .pure ⟨fun hc => absurd h0 hc, h⟩
  · rename_i h0
    exact (fetch_table_working hl h h0).mono fun _ _ hu => ⟨fun _ => hu.1, hu.2⟩

/-! ## What freeing leaves alone -/

/-- The volume is one of those in `K`. -/
def Keeping (e : Env) (K : Disk Block → Prop) (t : FsState) : Prop := ∃ d, On e d t ∧ K d

/-- The body leads from volumes in `K` to volumes in `K`. -/
def Spares {α : Type} (e : Env) (K : Disk Block → Prop) (p : FsProg α) : Prop :=
  ∀ t, Keeping e K t → Does e p (fun _ => Keeping e K) t

section

variable {K : Disk Block → Prop} {α β : Type} {p : FsProg Unit}

theorem spares_pure (a : α) : Spares e K (pure a) := fun _ h => .pure h

theorem Spares.bind {p : FsProg α} {f : α → FsProg β} (hp : Spares e K p) (hf : ∀ a, Spares e K (f a)) :
    Spares e K (p >>= f) :=
  fun t h => (hp t h).bind fun a u hu => hf a u hu

theorem Spares.onlyIf {c : Prop} [Decidable c] (hp : Spares e K p) : Spares e K (.onlyIf c p) :=
  fun t h => .onlyIf (fun _ => hp t h) fun _ => h

theorem Spares.forUpTo {body : Nat → FsProg Unit} {n i : Nat} (hb : ∀ j, Spares e K (body j)) :
    Spares e K (.forUpTo n i body) :=
  fun _ h => .forUpTo (fun _ => Keeping e K) h fun j u _ _ hu => hb j u hu

theorem load_keeping (blk : Nat) : Spares e K (load blk) := by
  rintro t ⟨d, ⟨b, hat⟩, hk⟩
  exact ((load_any hat blk).weaken fun _ hu => hu.1).mono fun _ u hu => ⟨d, hu.on, hk⟩

theorem getBuf_keeping : Spares e K getBuf := by
  rintro t ⟨d, ⟨b, hat⟩, hk⟩
  exact (getBuf_spec hat).mono fun _ u hu => ⟨d, hu.2.on, hk⟩

theorem setBuf_keeping (x : Block) : Spares e K (setBuf x) := by
  rintro t ⟨d, ⟨b, hat⟩, hk⟩
  exact (setBuf_spec hat x).mono fun _ u hu => ⟨d, hu.on, hk⟩

theorem jiffies_keeping : Spares e K jiffies := by
  rintro t ⟨d, ⟨b, hat⟩, hk⟩
  exact (jiffies_spec hat).mono fun _ u hu => ⟨d, hu.2.on, hk⟩

variable (hl : Layout e.toVolume)
    (hK : ∀ {d : Disk Block} (x : Block), K d → K (update d e.sb.dataBitmapStart.toNat x))
include hl hK

theorem freeDataBlock_keeping (blk : UInt32) : Spares e K (freeDataBlock blk) := by
  rintro t ⟨d, ⟨b, hat⟩, hk⟩
  exact (freeDataBlock_spec hl hat blk).mono fun _ u hu => ⟨_, hu, hK _ hk⟩

theorem freeIfSet_keeping (blk : UInt32) : Spares e K (freeIfSet blk) := by
  unfold freeIfSet
  split
  · exact spares_pure ()
  · exact freeDataBlock_keeping hl hK blk

theorem freeDirectFrom_keeping (x : Inode) (first : Nat) : Spares e K (freeDirectFrom x first) := by
  refine Spares.forUpTo fun j => ?_
  split
  · exact freeIfSet_keeping hl hK _
  · exact spares_pure ()

theorem freeIndirectBlock_keeping (ind : UInt32) : Spares e K (freeIndirectBlock ind) := by
  refine (load_keeping _).bind fun _ => (Spares.forUpTo fun j => ?_).bind fun _ => ?_
  · exact getBuf_keeping.bind fun _ => freeIfSet_keeping hl hK _
  · exact freeDataBlock_keeping hl hK ind

theorem freeAllBlocks_keeping (x : Inode) : Spares e K (freeAllBlocks x) := by
  refine (freeDirectFrom_keeping hl hK x 0).bind fun _ => ?_
  refine (freeIndirectBlock_keeping hl hK _).onlyIf.bind fun _ => ?_
  refine (Spares.onlyIf ?_).bind fun _ => spares_pure _
  refine (Spares.forUpTo fun j => ?_).bind fun _ => freeDataBlock_keeping hl hK _
  refine (load_keeping _).bind fun _ => getBuf_keeping.bind fun _ => ?_
  exact (freeIndirectBlock_keeping hl hK _).onlyIf

theorem shrink_keeping {x : Inode}
    (hx : x.indirect ≠ 0 → Target e.sb x.indirect.toNat ∧
      ∀ {d : Disk Block} (b : Block), K d → K (update d x.indirect.toNat b))
    (length : Nat) : Spares e K (shrink x length) := by
  unfold shrink
  simp only
  split
  · refine (freeDirectFrom_keeping hl hK x _).bind fun _ => ?_
    exact (freeIndirectBlock_keeping hl hK _).onlyIf.bind fun _ => spares_pure _
  split
  · exact spares_pure x
  rename_i h0
  refine (load_keeping _).bind fun _ => (Spares.forUpTo fun j => ?_).bind fun _ => ?_
  · refine getBuf_keeping.bind fun pb => Spares.onlyIf ?_
    refine (freeDataBlock_keeping hl hK _).bind fun _ => ?_
    exact getBuf_keeping.bind fun pb => setBuf_keeping _
  refine getBuf_keeping.bind fun pb => ?_
  rintro t ⟨d, ⟨b, hat⟩, hk⟩
  exact (put_spec hat (hx h0).1 pb).bind fun _ u hu => .pure ⟨_, hu.on, (hx h0).2 pb hk⟩

end

def DropsNoEntry (x : Inode) (ents : Nat → UInt32) (length : UInt64) : Prop :=
  length < x.size → NoEntries x ents (firstDropped length.toNat)

theorem truncateToLength_spec {D : Disk Block → Prop} {length : UInt64}
    (h : Does e (truncateToLengthBody ino length) (fun _ u => ∃ d, D d ∧ On e d u) t) :
    StateProg.wp (truncateToLength ino length) (fun _ u => ∃ d, D d ∧ On e d u) (fun _ => Stopped e) t := by
  refine StateProg.wp_then h.spec fun changed u hu => ?_
  cases changed with
  | false => exact hu
  | true =>
    obtain ⟨d, hd, b, hu⟩ := hu
    exact StateProg.wp_imp (journalCommit_at hu) fun _ v hv => ⟨d, hd, hv.on⟩

end OnyxFs
