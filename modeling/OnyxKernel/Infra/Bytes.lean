import Mathlib.Data.Nat.Bitwise

/-!
# Fixed-size byte buffers

A buffer of `n` bytes is a function from `Fin n`. Reading outside the buffer gives `0`, so the
codecs below can take their offsets as plain numbers: parts, little-endian words and single bits.
Each writer comes with the lemma that reads its own value back and the lemma that it leaves every
disjoint place alone.
-/

namespace Infra

/-- A buffer of `n` bytes. -/
def Bytes (n : Nat) := Fin n → UInt8

namespace Bytes

variable {n m : Nat}

theorem ext {a b : Bytes n} (h : ∀ i : Fin n, a i = b i) : a = b := funext h

/-- The byte at `i`, or `0` past the end. -/
def get (b : Bytes n) (i : Nat) : UInt8 := if h : i < n then b ⟨i, h⟩ else 0

def zero : Bytes n := fun _ => 0

/-- `m` bytes starting at `off`. -/
def slice (b : Bytes n) (off m : Nat) : Bytes m := fun i => b.get (off + i)

/-- Copy `src` over the bytes that start at `off`. -/
def blit (b : Bytes n) (off : Nat) (src : Bytes m) : Bytes n :=
  fun i => if off ≤ i.1 ∧ i.1 < off + m then src.get (i.1 - off) else b i

def set (b : Bytes n) (off : Nat) (v : UInt8) : Bytes n := fun i => if i.1 = off then v else b i

/-- The first `k` bytes of `src` over `b`. -/
def blitTake (b : Bytes n) (k : Nat) (src : Bytes n) : Bytes n := fun i => if i.1 < k then src i else b i

def toList (b : Bytes n) : List UInt8 := (List.range n).map b.get

/-- A buffer that starts with the bytes of a list, with zeros after them. -/
def ofList (src : List UInt8) : Bytes n := fun i => src.getD i.1 0

instance : Inhabited (Bytes n) := ⟨zero⟩

variable {i off off' : Nat} (b : Bytes n)

theorem get_of_lt (h : i < n) : b.get i = b ⟨i, h⟩ := by
  simp [get, h]

@[simp] theorem get_fin (i : Fin n) : b.get i.1 = b i := by
  simp [get]

theorem get_of_ge (h : n ≤ i) : b.get i = 0 := by
  simp [get, Nat.not_lt.mpr h]

theorem ext_get {a b : Bytes n} (h : ∀ i, i < n → a.get i = b.get i) : a = b := by
  refine ext fun i => ?_
  have := h i.1 i.2
  simpa using this

instance : DecidableEq (Bytes n) := fun a b =>
  decidable_of_iff (∀ i < n, a.get i = b.get i) ⟨ext_get, fun h _ _ => h ▸ rfl⟩

@[simp] theorem get_zero (i : Nat) : (zero : Bytes n).get i = 0 := by
  unfold get
  split <;> rfl

@[simp] theorem length_toList : b.toList.length = n := by
  simp [toList]

theorem toList_succ (b : Bytes (n + 1)) : b.toList = b.get 0 :: (List.range n).map fun i => b.get (i + 1) := by
  rw [toList, List.range_succ_eq_map]
  simp

theorem getD_toList : b.toList.getD i 0 = b.get i := by
  rcases Nat.lt_or_ge i n with h | h
  · simp [toList, List.getD_eq_getElem?_getD, h]
  · simp [toList, List.getD_eq_getElem?_getD, get_of_ge b h, Nat.not_lt.mpr h]

theorem toList_eq_map {b : Bytes n} {f : Nat → UInt8} (h : ∀ i : Fin n, b i = f i) :
    b.toList = (List.range n).map f := by
  refine List.map_congr_left fun i hi => ?_
  rw [get_of_lt _ (List.mem_range.mp hi), h]

theorem get_ofList (src : List UInt8) (h : i < n) : (ofList src : Bytes n).get i = src.getD i 0 := by
  rw [get_of_lt _ h]
  rfl

theorem toList_ofList {l : List UInt8} (h : l.length ≤ n) :
    (ofList l : Bytes n).toList = l ++ List.replicate (n - l.length) 0 := by
  refine List.ext_getElem (by simp; omega) fun i h1 h2 => ?_
  have hi : i < n := by simpa using h1
  rw [← List.getD_eq_getElem _ 0 h1, getD_toList, get_ofList _ hi, List.getElem_append]
  split
  · rw [List.getD_eq_getElem]
  · rw [List.getD_eq_default _ _ (by omega), List.getElem_replicate]

theorem takeWhile_padded (l : List UInt8) (k : Nat) :
    (l ++ List.replicate k 0).takeWhile (· ≠ 0) = l.takeWhile (· ≠ 0) := by
  induction l with
  | nil => simp
  | cons x l ih => by_cases hx : x = 0 <;> simp_all

theorem get_slice (off : Nat) (h : i < m) : (b.slice off m).get i = b.get (off + i) := by
  rw [get_of_lt _ h]
  rfl

theorem get_blit (off : Nat) (src : Bytes m) (h : i < n) :
    (b.blit off src).get i = if off ≤ i ∧ i < off + m then src.get (i - off) else b.get i := by
  rw [get_of_lt _ h, get_of_lt b h]
  rfl

theorem get_blit_inside (off : Nat) (src : Bytes m) (h : i < n)
    (h1 : off ≤ i) (h2 : i < off + m) : (b.blit off src).get i = src.get (i - off) := by
  rw [get_blit b off src h, if_pos ⟨h1, h2⟩]

theorem get_blit_outside (off : Nat) (src : Bytes m)
    (h : i < off ∨ off + m ≤ i) : (b.blit off src).get i = b.get i := by
  by_cases hi : i < n
  · rw [get_blit b off src hi, if_neg (by omega)]
  · rw [get_of_ge _ (by omega), get_of_ge _ (by omega)]

theorem slice_blit_self (off : Nat) (src : Bytes m) (h : off + m ≤ n) : (b.blit off src).slice off m = src := by
  apply ext_get
  intro i hi
  rw [get_slice _ _ hi, get_blit_inside b off src (by omega) (by omega) (by omega), Nat.add_sub_cancel_left]

theorem get_set (off : Nat) (v : UInt8) (h : i < n) : (b.set off v).get i = if i = off then v else b.get i := by
  rw [get_of_lt _ h, get_of_lt b h]
  rfl

theorem get_set_ne (v : UInt8) (h : i ≠ off) : (b.set off v).get i = b.get i := by
  by_cases hi : i < n
  · rw [get_set b off v hi, if_neg h]
  · rw [get_of_ge _ (by omega), get_of_ge _ (by omega)]

/-! ## Little-endian words -/

/-- The 32-bit little-endian word at `off`. -/
def le32 (b : Bytes n) (off : Nat) : UInt32 :=
  UInt32.ofNat ((b.get off).toNat + 256 * ((b.get (off + 1)).toNat
    + 256 * ((b.get (off + 2)).toNat + 256 * (b.get (off + 3)).toNat)))

def ofU32 (v : UInt32) : Bytes 4 := fun i => UInt8.ofNat (v.toNat / 2 ^ (8 * i.1))

def put32 (b : Bytes n) (off : Nat) (v : UInt32) : Bytes n := b.blit off (ofU32 v)

/-- The 64-bit little-endian word at `off`. -/
def le64 (b : Bytes n) (off : Nat) : UInt64 := UInt64.ofNat ((b.le32 off).toNat + 2 ^ 32 * (b.le32 (off + 4)).toNat)

def ofU64 (v : UInt64) : Bytes 8 := fun i => UInt8.ofNat (v.toNat / 2 ^ (8 * i.1))

def put64 (b : Bytes n) (off : Nat) (v : UInt64) : Bytes n := b.blit off (ofU64 v)

theorem toNat_ofU32 (v : UInt32) (h : i < 4) : ((ofU32 v).get i).toNat = v.toNat / 2 ^ (8 * i) % 256 := by
  rw [get_of_lt _ h]
  simp [ofU32]

theorem toNat_ofU64 (v : UInt64) (h : i < 8) : ((ofU64 v).get i).toNat = v.toNat / 2 ^ (8 * i) % 256 := by
  rw [get_of_lt _ h]
  simp [ofU64]

theorem le32_congr {b : Bytes n} {c : Bytes m}
    (h : ∀ i, i < 4 → b.get (off + i) = c.get (off' + i)) : b.le32 off = c.le32 off' := by
  have h0 := h 0 (by omega)
  have h1 := h 1 (by omega)
  have h2 := h 2 (by omega)
  have h3 := h 3 (by omega)
  simp only [Nat.add_zero] at h0
  simp only [le32, h0, h1, h2, h3]

theorem le32_ofU32 (v : UInt32) : (ofU32 v).le32 0 = v := by
  have hv : v.toNat < 2 ^ 32 := UInt32.toNat_lt v
  apply UInt32.toNat_inj.mp
  simp [le32, toNat_ofU32]
  omega

theorem le64_ofU64 (v : UInt64) : (ofU64 v).le64 0 = v := by
  have hv : v.toNat < 2 ^ 64 := UInt64.toNat_lt v
  apply UInt64.toNat_inj.mp
  simp [le64, le32, toNat_ofU64]
  omega

theorem le32_blit_inside {off k : Nat} (src : Bytes m) (hn : off + k + 4 ≤ n)
    (hk : k + 4 ≤ m) : (b.blit off src).le32 (off + k) = src.le32 k := by
  apply le32_congr
  intro i hi
  rw [get_blit_inside b off src (by omega) (by omega) (by omega)]
  congr 1
  omega

theorem le32_blit_outside (src : Bytes m)
    (h : off' + 4 ≤ off ∨ off + m ≤ off') : (b.blit off src).le32 off' = b.le32 off' := by
  apply le32_congr
  intro i hi
  exact get_blit_outside b off src (by omega)

theorem le64_blit_inside {off k : Nat} (src : Bytes m) (hn : off + k + 8 ≤ n)
    (hk : k + 8 ≤ m) : (b.blit off src).le64 (off + k) = src.le64 k := by
  rw [le64, le64, Nat.add_assoc, le32_blit_inside b src (by omega) (by omega),
    le32_blit_inside b src (by omega) (by omega)]

theorem le64_blit_outside (src : Bytes m)
    (h : off' + 8 ≤ off ∨ off + m ≤ off') : (b.blit off src).le64 off' = b.le64 off' := by
  rw [le64, le64, le32_blit_outside b src (by omega), le32_blit_outside b src (by omega)]

theorem le32_put32_self (v : UInt32) (h : off + 4 ≤ n) : (b.put32 off v).le32 off = v := by
  have := le32_blit_inside (k := 0) b (ofU32 v) h (by omega)
  rwa [Nat.add_zero, le32_ofU32] at this

theorem le32_put32_ne (v : UInt32) (h : off' + 4 ≤ off ∨ off + 4 ≤ off') :
    (b.put32 off v).le32 off' = b.le32 off' :=
  le32_blit_outside b _ h

theorem le64_put64_self (v : UInt64) (h : off + 8 ≤ n) : (b.put64 off v).le64 off = v := by
  have := le64_blit_inside (k := 0) b (ofU64 v) h (by omega)
  rwa [Nat.add_zero, le64_ofU64] at this

theorem le64_put64_ne (v : UInt64) (h : off' + 8 ≤ off ∨ off + 8 ≤ off') :
    (b.put64 off v).le64 off' = b.le64 off' :=
  le64_blit_outside b _ h

theorem le32_put64_ne (v : UInt64) (h : off' + 4 ≤ off ∨ off + 8 ≤ off') :
    (b.put64 off v).le32 off' = b.le32 off' :=
  le32_blit_outside b _ h

theorem le64_put32_ne (v : UInt32) (h : off' + 8 ≤ off ∨ off + 4 ≤ off') :
    (b.put32 off v).le64 off' = b.le64 off' :=
  le64_blit_outside b _ h

/-- `k` words one after the other. -/
def ofWords {k : Nat} (f : Fin k → UInt32) : Bytes (4 * k) :=
  fun i => (ofU32 (f ⟨i.1 / 4, by omega⟩)).get (i.1 % 4)

theorem le32_ofWords {k : Nat} (f : Fin k → UInt32) (i : Fin k) : (ofWords f).le32 (4 * i.1) = f i := by
  have hword : (ofWords f).le32 (4 * i.1) = (ofU32 (f i)).le32 0 := by
    apply le32_congr
    intro j hj
    have hdiv : (4 * i.1 + j) / 4 = i.1 := by omega
    have hmod : (4 * i.1 + j) % 4 = 0 + j := by omega
    rw [get_of_lt _ (by omega)]
    simp only [ofWords, hdiv, hmod]
  rw [hword, le32_ofU32]

@[simp] theorem le32_zero (off : Nat) : (zero : Bytes n).le32 off = 0 := by
  simp [le32]

@[simp] theorem le64_zero (off : Nat) : (zero : Bytes n).le64 off = 0 := by
  simp [le64]

/-! ## Bytes from outside -/

/-- Copy `count` bytes of `src` over the bytes that start at `off`. -/
def splice (b : Bytes n) (off count : Nat) (src : Nat → UInt8) : Bytes n :=
  fun i => if off ≤ i.1 ∧ i.1 < off + count then src (i.1 - off) else b i

theorem get_splice (off count : Nat) (src : Nat → UInt8) (h : i < n) :
    (b.splice off count src).get i =
      if off ≤ i ∧ i < off + count then src (i - off) else b.get i := by
  rw [get_of_lt _ h, get_of_lt b h]
  rfl

/-! ## Bits -/

/-- Bit `i` of a bitmap. -/
def getBit (b : Bytes n) (i : Nat) : Bool := (b.get (i / 8)).toBitVec.getLsbD (i % 8)

/-- `b[i / 8] |= 1 << (i % 8)` -/
def setBit (b : Bytes n) (i : Nat) : Bytes n := b.set (i / 8) (b.get (i / 8) ||| 1 <<< UInt8.ofNat (i % 8))

/-- `b[i / 8] &= !(1 << (i % 8))` -/
def clearBit (b : Bytes n) (i : Nat) : Bytes n := b.set (i / 8) (b.get (i / 8) &&& ~~~(1 <<< UInt8.ofNat (i % 8)))

theorem getLsbD_mask (k j : Nat) (hk : k < 8) (hj : j < 8) :
    ((1 : UInt8) <<< UInt8.ofNat k).toBitVec.getLsbD j = decide (j = k) := by
  have hall : ∀ k j : Fin 8, ((1 : UInt8) <<< UInt8.ofNat k.1).toBitVec.getLsbD j.1 = decide (j.1 = k.1) := by decide
  exact hall ⟨k, hk⟩ ⟨j, hj⟩

theorem lt_of_getBit {b : Bytes n} (h : b.getBit i = true) : i / 8 < n := by
  by_contra hge
  rw [getBit, get_of_ge b (by omega)] at h
  simp at h

theorem getBit_setBit (hi : i / 8 < n) (j : Nat) : (b.setBit i).getBit j = (decide (j = i) || b.getBit j) := by
  unfold getBit setBit
  by_cases hb : j / 8 = i / 8
  · rw [get_set b _ _ (by omega), if_pos hb, hb, UInt8.toBitVec_or, BitVec.getLsbD_or,
      getLsbD_mask _ _ (by omega) (by omega), Bool.or_comm]
    congr 1
    simp only [decide_eq_decide]
    omega
  · have hne : j ≠ i := fun he => hb (by rw [he])
    rw [get_set_ne b _ hb]
    simp [hne]

theorem getBit_clearBit (hi : i / 8 < n) (j : Nat) : (b.clearBit i).getBit j = (decide (j ≠ i) && b.getBit j) := by
  unfold getBit clearBit
  by_cases hb : j / 8 = i / 8
  · rw [get_set b _ _ (by omega), if_pos hb, hb, UInt8.toBitVec_and, BitVec.getLsbD_and,
      UInt8.toBitVec_not, BitVec.getLsbD_not, getLsbD_mask _ _ (by omega) (by omega), Bool.and_comm]
    congr 1
    have h8 : j % 8 < 8 := by omega
    simp only [h8, decide_true, Bool.true_and, ← decide_not, decide_eq_decide]
    omega
  · have hne : j ≠ i := fun he => hb (by rw [he])
    rw [get_set_ne b _ hb]
    simp [hne]

end Bytes

end Infra
