import OnyxKernel.Core.Errno
import OnyxKernel.OnyxFs.Format

/-!
# Blocks of a snapshot

`rle_compress` and `rle_decompress` of `fs/onyxfs/compress.rs`, and how `snapshot_create` stores a block
with them and `snapshot_rollback` gets it back. A slot has 8192 bytes; what of it is in use, and whether
it is packed, is to be seen from the recorded size alone.
-/

namespace OnyxFs

open Infra Onyx List

/-! ## The functions of the source -/

/-- The loops that count equal bytes, up to `m`. -/
def runFrom (b : UInt8) : (m : Nat) → List UInt8 → Nat
  | 0, _ => 0
  | _ + 1, [] => 0
  | m + 1, c :: src => if c = b then runFrom b m src + 1 else 0

/-- The literal bytes, up to `m`: three equal ones end them. -/
def literalLen : (m : Nat) → List UInt8 → Nat
  | 0, _ => 0
  | _ + 1, [] => 0
  | m + 1, b :: src => if 3 ≤ runFrom b 3 (b :: src) then 0 else literalLen m src + 1

/-- The packets of `rle_compress`; every round takes at least one byte. -/
def packed : (fuel : Nat) → List UInt8 → List UInt8
  | _, [] => []
  | 0, _ :: _ => []
  | fuel + 1, cur :: src =>
    let run := runFrom cur 128 (cur :: src)
    let lit := max 1 (literalLen 128 (cur :: src))
    if 3 ≤ run then (0x80 ||| UInt8.ofNat (run - 1)) :: cur :: packed fuel ((cur :: src).drop run)
    else UInt8.ofNat (lit - 1) :: ((cur :: src).take lit ++ packed fuel ((cur :: src).drop lit))

/-- `rle_compress`. Room is checked before each packet, so that the loop is left with 0 if and only if
they do not all fit. -/
def rleCompress (src : List UInt8) (cap : Nat) : Option (List UInt8) :=
  if cap < (packed src.length src).length then none else some (packed src.length src)

/-- The packets in `src`, expanded behind `out`. -/
def decompressLoop (cap : Nat) : (fuel : Nat) → (src out : List UInt8) → Option (List UInt8)
  | _, [], out => some out
  | 0, _ :: _, _ => none
  | fuel + 1, tag :: src, out =>
    if cap ≤ out.length then some out
    else if tag &&& 0x80 ≠ 0 then
      let count := (tag &&& 0x7F).toNat + 1
      match src with
      | [] => none
      | val :: src =>
        if cap < out.length + count then none
        else decompressLoop cap fuel src (out ++ replicate count val)
    else
      let count := tag.toNat + 1
      if src.length < count ∨ cap < out.length + count then none
      else decompressLoop cap fuel (src.drop count) (out ++ src.take count)

def rleDecompress (src : List UInt8) (cap : Nat) : Option (List UInt8) := decompressLoop cap src.length src []

/-- The recorded size and the two blocks of the slot, as `snapshot_create` writes them. `compBuf` is what
the block before has left in the buffer. -/
def storeBlock (compBuf : List UInt8) (blk : Block) : Nat × List UInt8 :=
  match rleCompress (ofFn blk) 8192 with
  | some c => if c.length = 0 ∨ 8192 < c.length then (4096, ofFn blk ++ compBuf.drop 4096)
    else (c.length, c ++ compBuf.drop c.length)
  | none => (4096, ofFn blk ++ compBuf.drop 4096)

/-- The block that `snapshot_rollback` makes of a slot. -/
def restoreBlock (compSize : Nat) (compBuf : List UInt8) : Except Errno (List UInt8) :=
  if compSize = 4096 then .ok (compBuf.take 4096)
  else match rleDecompress (compBuf.take compSize) 4096 with
    | some out => if out.length = 4096 then .ok out else .error .io
    | none => .error .io

/-! ## Packets -/

variable {b cur : UInt8} {m fuel cap n : Nat} {src out : List UInt8}

theorem runFrom_le : runFrom b m src ≤ m ∧ runFrom b m src ≤ src.length := by
  fun_induction runFrom b m src <;> simp_all

theorem runFrom_split : src = replicate (runFrom b m src) b ++ src.drop (runFrom b m src) := by
  fun_induction runFrom b m src with
  | case3 m src ih =>
    rw [replicate_succ, cons_append, drop_succ_cons, ← ih]
  | _ => simp

theorem runFrom_stops (h : runFrom b m src < m) : (src.drop (runFrom b m src)).head? ≠ some b := by
  fun_induction runFrom b m src with
  | case3 m src ih => exact ih (by omega)
  | _ => simp_all

theorem three_le_runFrom : 3 ≤ runFrom b (m + 3) (b :: src) ↔ ∃ l, src = b :: b :: l := by
  match src with
  | [] | [_] => simp [runFrom]; try split <;> simp
  | x :: y :: l => by_cases hx : x = b <;> by_cases hy : y = b <;> simp [runFrom, hx, hy]

theorem literalLen_le : literalLen m src ≤ m ∧ literalLen m src ≤ src.length := by
  fun_induction literalLen m src <;> simp_all

/-- How many bytes a packet stands for. -/
theorem packet_bounds (cur : UInt8) (src : List UInt8) :
    (0 < runFrom cur 128 (cur :: src) ∧ runFrom cur 128 (cur :: src) ≤ 128 ∧
      runFrom cur 128 (cur :: src) ≤ src.length + 1) ∧
    0 < max 1 (literalLen 128 (cur :: src)) ∧ max 1 (literalLen 128 (cur :: src)) ≤ 128 ∧
      max 1 (literalLen 128 (cur :: src)) ≤ src.length + 1 := by
  have hrun := @runFrom_le cur 128 (cur :: src)
  have hlit := @literalLen_le 128 (cur :: src)
  have hpos : 0 < runFrom cur 128 (cur :: src) := by simp [runFrom]
  simp only [length_cons] at hrun hlit
  omega

/-- A packet is at most twice as long as what it stands for. -/
theorem length_packed_le : (packed fuel src).length ≤ 2 * src.length := by
  induction fuel generalizing src with
  | zero => cases src <;> simp [packed]
  | succ fuel ih =>
    cases src with
    | nil => simp [packed]
    | cons cur src =>
      have hb := packet_bounds cur src
      simp only [packed]
      generalize runFrom cur 128 (cur :: src) = run at *
      generalize max 1 (literalLen 128 (cur :: src)) = lit at *
      have hrun := @ih ((cur :: src).drop run)
      have hlit := @ih ((cur :: src).drop lit)
      split <;> simp at hrun hlit ⊢ <;> omega

/-- The tags tell a run from literals, and how many bytes they stand for. -/
theorem tag_spec : ∀ k < 128, (0x80 ||| UInt8.ofNat k) &&& 0x80 ≠ 0 ∧
    ((0x80 ||| UInt8.ofNat k) &&& 0x7F).toNat = k ∧ UInt8.ofNat k &&& 0x80 = 0 ∧ (UInt8.ofNat k).toNat = k ∧
    (0x80 ||| UInt8.ofNat k = 0xFF ↔ k = 127) ∧ UInt8.ofNat k ≠ 0xFF := by
  decide +kernel

theorem decompressLoop_packed (hf : src.length ≤ fuel) (hn : (packed fuel src).length ≤ n)
    (hcap : out.length + src.length ≤ cap) :
    decompressLoop cap n (packed fuel src) out = some (out ++ src) := by
  induction fuel generalizing src out n with
  | zero =>
    obtain rfl : src = [] := length_eq_zero_iff.mp (by omega)
    cases n <;> simp [decompressLoop, packed]
  | succ fuel ih =>
    cases src with
    | nil => cases n <;> simp [decompressLoop, packed]
    | cons cur src =>
      have hb := packet_bounds cur src
      have hsplit := @runFrom_split cur 128 (cur :: src)
      simp only [packed] at hn ⊢
      simp only [length_cons] at hf hcap
      generalize runFrom cur 128 (cur :: src) = run at *
      generalize max 1 (literalLen 128 (cur :: src)) = lit at *
      split at hn <;> rename_i h3
      · obtain ⟨n, rfl⟩ : ∃ k, n = k + 1 := ⟨n - 1, by simp at hn; omega⟩
        obtain ⟨hset, hcount, -⟩ := tag_spec (run - 1) (by omega)
        rw [if_pos h3, decompressLoop, if_neg (by omega), if_pos hset]
        simp only [hcount, Nat.sub_add_cancel hb.1.1]
        rw [if_neg (by omega), ih (by simp; omega) (by simp at hn; omega) (by simp; omega), append_assoc, ← hsplit]
      · obtain ⟨n, rfl⟩ : ∃ k, n = k + 1 := ⟨n - 1, by simp at hn; omega⟩
        obtain ⟨-, -, hclear, hcount, -⟩ := tag_spec (lit - 1) (by omega)
        have htake : ((cur :: src).take lit).length = lit := by simp; omega
        rw [if_neg h3, decompressLoop, if_neg (by omega), if_neg (not_not.mpr hclear)]
        simp only [hcount, Nat.sub_add_cancel hb.2.1]
        rw [if_neg (by simp; omega), drop_left' htake, take_left' htake,
          ih (by simp; omega) (by simp at hn; omega) (by simp; omega), append_assoc, take_append_drop]

/-! ## Decompression -/

/-- What was compressed comes back in every buffer that is large enough for it. -/
theorem rleDecompress_rleCompress {c : List UInt8} (h : rleCompress src cap = some c) :
    c.length ≤ cap ∧ c.length ≤ 2 * src.length ∧ ∀ n ≥ src.length, rleDecompress c n = some src := by
  unfold rleCompress at h
  split at h
  · cases h
  · cases h
    refine ⟨by omega, length_packed_le, fun n hn => ?_⟩
    exact decompressLoop_packed (Nat.le_refl _) (Nat.le_refl _) (by simpa using hn)

theorem rleDecompress_rleCompress_run : rleDecompress [0x83, 1, 0, 2] 5 = some [1, 1, 1, 1, 2] :=
  (rleDecompress_rleCompress (show rleCompress [1, 1, 1, 1, 2] 6 = some _ by decide)).2.2 5 (by decide)

/-! ## No block is packed to itself -/

/-- The number of leading `0xFF` bytes; it is the tag of a full run. -/
def lead (l : List UInt8) : Nat := (l.takeWhile (· = 0xFF)).length

theorem lead_replicate (k : Nat) (l : List UInt8) : lead (replicate k 0xFF ++ l) = k + lead l := by
  induction k with
  | zero => simp
  | succ k ih =>
    simp only [lead, replicate_succ, cons_append] at ih ⊢
    simp
    omega

theorem lead_packed : lead (packed fuel src) ≤ 2 * (lead src / 128) + 1 := by
  induction fuel generalizing src with
  | zero => cases src <;> simp [packed, lead]
  | succ fuel ih =>
    cases src with
    | nil => simp [packed, lead]
    | cons cur src =>
      have hb := packet_bounds cur src
      have hsplit := @runFrom_split cur 128 (cur :: src)
      simp only [packed]
      generalize runFrom cur 128 (cur :: src) = run at *
      generalize max 1 (literalLen 128 (cur :: src)) = lit at *
      split
      · have htag := (tag_spec (run - 1) (by omega)).2.2.2.2.1
        by_cases hfull : run = 128
        · subst hfull
          by_cases hcur : cur = 0xFF
          · subst hcur
            have hrest := @ih ((0xFF :: src).drop 128)
            have htwo := lead_replicate 2 (packed fuel ((0xFF :: src).drop 128))
            simp only [replicate_succ, replicate_zero, cons_append, nil_append] at htwo
            rw [hsplit, lead_replicate, ← hsplit, htag.mpr rfl]
            omega
          · simp [lead, hcur, takeWhile_cons]
            split <;> simp
        · have hne : ¬0x80 ||| UInt8.ofNat (run - 1) = 0xFF := fun h => hfull (by have := htag.mp h; omega)
          simp [lead, hne]
      · simp [lead, (tag_spec (lit - 1) (by omega)).2.2.2.2.2]

/-- The first packet: a run of bytes `a`, or literals that do not start with three equal bytes; a single
literal has three equal bytes behind it. -/
theorem packed_cases (fuel : Nat) (a : UInt8) (src : List UInt8) :
    (∃ k z, k + 3 ≤ 128 ∧ src = a :: a :: (replicate k a ++ z) ∧ (k + 3 < 128 → z.head? ≠ some a) ∧
      packed (fuel + 1) (a :: src) = (0x80 ||| UInt8.ofNat (k + 2)) :: a :: packed fuel z) ∨
    ∃ k, k < 128 ∧ (∀ l, src ≠ a :: a :: l) ∧
      (k = 0 → ∀ c l, src = c :: l → ∃ l', l = c :: c :: l') ∧
      packed (fuel + 1) (a :: src) = UInt8.ofNat k :: a :: (src.take k ++ packed fuel (src.drop k)) := by
  have hrun := @runFrom_le a 128 (a :: src)
  have hlit := @literalLen_le 128 (a :: src)
  simp only [packed]
  split
  · rename_i h3
    obtain ⟨k, hk⟩ : ∃ k, runFrom a 128 (a :: src) = k + 3 := ⟨_, (Nat.sub_add_cancel h3).symm⟩
    have hsplit := @runFrom_split a 128 (a :: src)
    have hstops := @runFrom_stops a 128 (a :: src)
    rw [hk] at hsplit hstops hrun ⊢
    refine .inl ⟨k, (a :: src).drop (k + 3), hrun.1, ?_, hstops, rfl⟩
    simpa [replicate_succ] using hsplit
  · rename_i h3
    obtain ⟨k, hk⟩ : ∃ k, max 1 (literalLen 128 (a :: src)) = k + 1 :=
      ⟨_, (Nat.sub_add_cancel (by omega)).symm⟩
    refine .inr ⟨k, by omega, ?_, ?_, by rw [hk]; simp⟩
    · exact fun l hl => h3 (three_le_runFrom.mpr ⟨l, hl⟩)
    · rintro rfl c l rfl
      have hfirst : ¬3 ≤ runFrom a 3 (a :: c :: l) := fun h => h3 (three_le_runFrom.mpr (three_le_runFrom.mp h))
      rw [literalLen, if_neg hfirst, literalLen] at hk
      split at hk
      · exact three_le_runFrom.mp ‹_›
      · omega

theorem packed_ne (hf : src.length ≤ fuel) (h8 : 8 ≤ src.length) : packed fuel src ≠ src := by
  intro heq
  obtain ⟨f, rfl⟩ : ∃ k, fuel = k + 1 := ⟨fuel - 1, by omega⟩
  obtain ⟨a, src, rfl⟩ := exists_cons_of_length_pos (l := src) (by omega)
  have hlead := @lead_packed (f + 1) (a :: src)
  rw [heq] at hlead
  rcases packed_cases f a src with ⟨k, z, hk, hsrc, hstop, hp⟩ | ⟨k, hk, hrun, hone, hp⟩
  · -- A run whose tag is the byte itself.
    rw [heq, cons.injEq] at hp
    obtain ⟨htag, hp⟩ := hp
    by_cases hfull : k + 3 = 128
    · rw [(tag_spec (k + 2) (by omega)).2.2.2.2.1.mpr (by omega)] at htag
      have hall : a :: src = replicate (k + 3) 0xFF ++ z := by simp [hsrc, htag, replicate_succ]
      rw [hall, lead_replicate] at hlead
      omega
    have hmask := tag_spec (k + 2) (by omega)
    rw [← htag] at hmask
    rw [hsrc, cons.injEq] at hp
    have hlen := congrArg length hsrc
    match z with
    | [] => cases f <;> simp [packed] at hp
    | z0 :: z =>
      simp at hstop hlen h8 hf
      obtain ⟨f, rfl⟩ : ∃ j, f = j + 1 := ⟨f - 1, by omega⟩
      rcases packed_cases f z0 z with ⟨k2, y, hk2, hz, hstop2, hp2⟩ | ⟨k2, hk2, -, -, hp2⟩
      · -- The next tag is the same byte again, so that both are runs of three.
        simp only [hp2, true_and, cons.injEq] at hp
        have hmask2 := tag_spec (k2 + 2) (by omega)
        rw [← hp.1] at hmask2
        obtain rfl : k2 = k := by omega
        cases k2 with
        | succ k2 => exact hstop (by omega) (cons.inj hp.2.symm).1
        | zero =>
          simp [hz] at hp
          match y with
          | [] => cases f <;> simp [packed] at hp
          | y0 :: y =>
            simp [hz] at hstop2 hlen
            obtain ⟨f, rfl⟩ : ∃ j, f = j + 1 := ⟨f - 1, by omega⟩
            rcases packed_cases f y0 y with ⟨_, _, _, _, _, hp3⟩ | ⟨_, _, _, _, hp3⟩ <;>
              simp [hp3] at hp <;> exact hstop2 hp.2.2.1.symm
      · simp only [hp2, true_and, cons.injEq] at hp
        rw [hp.1] at hmask
        exact hmask.1 (tag_spec k2 hk2).2.2.1
  · rw [heq, cons.injEq] at hp
    cases k with
    | zero =>
      obtain ⟨l, hl⟩ := hone rfl _ _ hp.2
      exact hrun (a :: l) (by rw [hp.2, hl])
    | succ k =>
      have htake : src.take (k + 1) = a :: src.tail.take k := by rw [hp.2]; rfl
      rw [htake] at hp
      exact hrun _ hp.2

/-! ## The round trip -/

theorem rleCompress_eq (h0 : src ≠ []) (hcap : 2 * src.length ≤ cap) :
    rleCompress src cap = some (packed src.length src) ∧ (packed src.length src).length ≤ cap ∧
      (packed src.length src).length ≠ 0 := by
  have hle := @length_packed_le src.length src
  refine ⟨if_neg (by omega), by omega, fun hz => h0 ?_⟩
  have hback := decompressLoop_packed (n := 0) (Nat.le_refl src.length) (Nat.le_of_eq hz)
    (show ([] : List UInt8).length + _ ≤ src.length by simp)
  rw [length_eq_zero_iff.mp hz] at hback
  simpa [decompressLoop] using hback.symm

/-- The comparison of sizes, for a block of any size. -/
theorem restored_iff {size : Nat} (hlen : src.length = size) (h8 : 8 ≤ size) (rest : List UInt8) :
    (if (packed src.length src).length = size then .ok ((packed src.length src ++ rest).take size)
      else match rleDecompress ((packed src.length src ++ rest).take (packed src.length src).length) size with
        | some out => if out.length = size then .ok out else .error .io
        | none => .error .io : Except Errno (List UInt8)) = .ok src ↔ (packed src.length src).length ≠ size := by
  have hback : decompressLoop size (packed src.length src).length (packed src.length src) [] = some ([] ++ src) :=
    decompressLoop_packed (Nat.le_refl src.length) (Nat.le_refl _) (by simp [hlen])
  have hne := packed_ne (Nat.le_refl src.length) (by omega)
  generalize packed src.length src = c at *
  by_cases hsize : c.length = size
  · simp [hsize, take_left' hsize, hne]
  · rw [if_neg hsize, take_left, rleDecompress, hback]
    simp [hsize, hlen]

theorem restore_store_iff (compBuf : List UInt8) (blk : Block) :
    restoreBlock (storeBlock compBuf blk).1 (storeBlock compBuf blk).2 = .ok (ofFn blk) ↔
      (packed (ofFn blk).length (ofFn blk)).length ≠ 4096 := by
  have hlen : (ofFn blk).length = 4096 := length_ofFn
  unfold storeBlock
  generalize ofFn blk = src at *
  have h0 : src ≠ [] := ne_nil_of_length_pos (by omega)
  obtain ⟨hc, hle, h0⟩ := rleCompress_eq h0 (show 2 * src.length ≤ 8192 by omega)
  rw [hc]
  dsimp only
  rw [if_neg (not_or.mpr ⟨h0, Nat.not_lt.mpr hle⟩)]
  exact restored_iff hlen (by omega) _

/-- A block that is stored in a snapshot comes back, whatever the buffer held before, if and only if the
packets for it are not exactly as long as the block. -/
theorem snapshotBlock_roundTrip_iff (compBuf : List UInt8) (blk : Block) :
    restoreBlock (storeBlock compBuf blk).1 (storeBlock compBuf blk).2 = .ok (ofFn blk) ↔
      (rleCompress (ofFn blk) 8192).map length ≠ some 4096 := by
  have hlen : (ofFn blk).length = 4096 := length_ofFn
  have h0 : ofFn blk ≠ [] := ne_nil_of_length_pos (by omega)
  rw [restore_store_iff, (rleCompress_eq h0 (by omega)).1, Option.map_some, ne_eq, ne_eq, Option.some.injEq]

/-- Groups of one byte and three equal ones, which take four bytes each when they are packed. -/
def fourByFour : Block := fun i => if i.1 % 4 = 0 then 1 else 2

/-- The packets are taken for the block itself. -/
theorem snapshotBlock_not_restored :
    restoreBlock (storeBlock [] fourByFour).1 (storeBlock [] fourByFour).2 ≠ .ok (ofFn fourByFour) := by
  rw [ne_eq, restore_store_iff, not_not]
  decide +kernel

end OnyxFs
