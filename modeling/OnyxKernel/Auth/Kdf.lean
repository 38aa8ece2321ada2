import OnyxKernel.Infra.Bytes

/-!
# Password fields

The field of a user in `/etc/shadow` is `$5$`, the salt and the hash of the password, both in hexadecimal. Two
ways of hashing are told apart by trying them. SHA-256 itself is a parameter: nothing below depends on what it
computes.

`parseShadowField_format`: a field that `format_shadow_field` has written is parsed as its salt and hash.
`shadowField_codec`: a field that is parsed is written again as it was, unless it has a capital digit.
-/

namespace Auth

open Infra List

/-! ## Hashing -/

/-- `hash_password`, over the hash function `sha256`. -/
def hashPassword (sha256 : List UInt8 → Bytes 32) (password : List UInt8) (salt : Bytes 8) : Bytes 32 :=
  (fun h : Bytes 32 => sha256 (h.toList ++ salt.toList))^[10000] (sha256 password)

def legacyHashPassword (sha256 : List UInt8 → Bytes 32) (password : List UInt8) (salt : Bytes 8) : Bytes 32 :=
  sha256 ((password.take 72 ++ salt.toList).take 72)

/-! ## Hexadecimal -/

/-- `hex_chars[n]` -/
def hexChar (n : UInt8) : UInt8 := [48, 49, 50, 51, 52, 53, 54, 55, 56, 57, 97, 98, 99, 100, 101, 102].getD n.toNat 0

def hexDigits (bytes : List UInt8) : List UInt8 :=
  bytes.flatMap fun b : UInt8 => [hexChar (b >>> 4), hexChar (b &&& 0xF)]

def bytesToHex (bytes : List UInt8) : List UInt8 := (hexDigits (bytes.take 32) ++ replicate 64 0).take 64

def hexVal (c : UInt8) : UInt8 :=
  if 48 ≤ c ∧ c ≤ 57 then c - 48 else if 97 ≤ c ∧ c ≤ 102 then c - 97 + 10 else 0

def hexByte (hex : List UInt8) (i : Nat) : UInt8 :=
  (hexVal (hex.getD (2 * i) 0) <<< 4) ||| hexVal (hex.getD (2 * i + 1) 0)

def hexDecode8 (hex : List UInt8) : Bytes 8 := fun i => if i.1 < min (hex.length / 2) 8 then hexByte hex i.1 else 0

/-- `is_ascii_hexdigit`. -/
def isHexDigit (c : UInt8) : Bool := (48 ≤ c && c ≤ 57) || (65 ≤ c && c ≤ 70) || (97 ≤ c && c ≤ 102)

/-! ## Fields -/

/-- `struct ShadowField`. -/
structure ShadowField where
  salt : Bytes 8
  hash : Bytes 32
  deriving DecidableEq

def parseShadowField (data : List UInt8) : Option ShadowField :=
  if data.length < 84 ∨ data.take 3 ≠ [36, 53, 36] then none
  else
    let rest := data.drop 3
    if rest.findIdx? (· = 36) ≠ some 16 then none
    else
      let saltHex := rest.take 16
      let storedHashHex := (rest.drop 17).take 64
      if storedHashHex.length < 64 then none
      else if (saltHex ++ storedHashHex).all isHexDigit = false then none
      else some { salt := hexDecode8 saltHex, hash := fun i => hexByte storedHashHex i.1 }

/-- What `format_shadow_field` writes into a buffer that has room for it. -/
def formatShadowField (salt : Bytes 8) (hash : Bytes 32) : List UInt8 :=
  [36, 53, 36] ++ (bytesToHex salt.toList).take 16 ++ [36] ++ bytesToHex hash.toList

/-- `enum HashScheme`. -/
inductive HashScheme
  | iterated | legacy | unknown
  deriving DecidableEq

def classifyPassword (sha256 : List UInt8 → Bytes 32) (password : List UInt8) (field : ShadowField) : HashScheme :=
  if hashPassword sha256 password field.salt = field.hash then .iterated
  else if legacyHashPassword sha256 password field.salt = field.hash then .legacy
  else .unknown

/-! ## A field is parsed as it was written -/

@[simp] theorem length_hexDigits (bytes : List UInt8) : (hexDigits bytes).length = 2 * bytes.length := by
  induction bytes with
  | nil => rfl
  | cons b bs ih =>
    rw [hexDigits, flatMap_cons, length_append, ← hexDigits, ih, length_cons]
    simp only [length_cons, length_nil]
    omega

theorem bytesToHex_eq (b : Bytes 32) : bytesToHex b.toList = hexDigits b.toList := by
  rw [bytesToHex, take_of_length_le (by simp : b.toList.length ≤ 32),
    take_append_of_le_length (by simp), take_of_length_le (by simp)]

theorem bytesToHex_salt (b : Bytes 8) : (bytesToHex b.toList).take 16 = hexDigits b.toList := by
  rw [bytesToHex, take_take, take_of_length_le (by simp : b.toList.length ≤ 32),
    take_append_of_le_length (by simp), take_of_length_le (by simp)]

theorem formatShadowField_eq (salt : Bytes 8) (hash : Bytes 32) :
    formatShadowField salt hash = 36 :: 53 :: 36 :: (hexDigits salt.toList ++ 36 :: hexDigits hash.toList) := by
  rw [formatShadowField, bytesToHex_eq, bytesToHex_salt]
  simp

@[simp] theorem length_formatShadowField (salt : Bytes 8) (hash : Bytes 32) :
    (formatShadowField salt hash).length = 84 := by
  rw [formatShadowField_eq]
  simp

instance decidableForallByte (p : UInt8 → Prop) [DecidablePred p] : Decidable (∀ b, p b) :=
  decidable_of_iff (∀ n < 256, p (.ofNat n)) ⟨fun h b => b.ofNat_toNat ▸ h b.toNat b.toNat_lt, fun h _ _ => h _⟩

theorem hexChar_spec (b : UInt8) : isHexDigit (hexChar (b >>> 4)) = true ∧ isHexDigit (hexChar (b &&& 0xF)) = true ∧
    (hexVal (hexChar (b >>> 4)) <<< 4) ||| hexVal (hexChar (b &&& 0xF)) = b := by
  revert b
  decide +kernel

theorem isHexDigit_of_mem {bytes : List UInt8} {c : UInt8} (h : c ∈ hexDigits bytes) : isHexDigit c = true := by
  obtain ⟨b, -, hc⟩ := mem_flatMap.mp h
  obtain ⟨h1, h2, -⟩ := hexChar_spec b
  simp only [mem_cons, not_mem_nil, or_false] at hc
  rcases hc with rfl | rfl
  · exact h1
  · exact h2

theorem hexByte_hexDigits : ∀ (bytes : List UInt8) (i : Nat), i < bytes.length →
    hexByte (hexDigits bytes) i = bytes.getD i 0
  | b :: bs, 0, _ => (hexChar_spec b).2.2
  | b :: bs, i + 1, h => by
    have ih := hexByte_hexDigits bs i (by simpa using h)
    rw [getD_cons_succ, ← ih]
    rfl

theorem parseShadowField_format (salt : Bytes 8) (hash : Bytes 32) :
    parseShadowField (formatShadowField salt hash) = some ⟨salt, hash⟩ := by
  have hlen := length_formatShadowField salt hash
  have h36 : ∀ c ∈ hexDigits salt.toList, ¬ c = 36 := by
    rintro c hc rfl
    exact absurd (isHexDigit_of_mem hc) (by decide)
  rw [formatShadowField_eq] at hlen ⊢
  unfold parseShadowField
  rw [if_neg (by rw [hlen]; simp)]
  simp only [drop_succ_cons, drop_zero]
  have hidx : (hexDigits salt.toList ++ 36 :: hexDigits hash.toList).findIdx? (· = 36) = some 16 := by
    rw [findIdx?_append, findIdx?_eq_none_iff.mpr (by simpa using h36)]
    simp [findIdx?_cons]
  have hsalt : (hexDigits salt.toList ++ 36 :: hexDigits hash.toList).take 16 = hexDigits salt.toList := by
    rw [take_append_of_le_length (by simp), take_of_length_le (by simp)]
  have hhash : ((hexDigits salt.toList ++ 36 :: hexDigits hash.toList).drop 17).take 64 = hexDigits hash.toList := by
    rw [drop_append]
    simp [take_of_length_le]
  have hall : (hexDigits salt.toList ++ hexDigits hash.toList).all isHexDigit = true := by
    rw [all_eq_true]
    intro c hc
    rcases mem_append.mp hc with hc | hc <;> exact isHexDigit_of_mem hc
  rw [if_neg (by rw [hidx]; simp), hsalt, hhash, if_neg (by simp), if_neg (by rw [hall]; simp)]
  congr 2
  · refine Bytes.ext fun i => ?_
    have hi : i.1 < min ((hexDigits salt.toList).length / 2) 8 := by
      simp only [length_hexDigits, Bytes.length_toList]
      omega
    rw [hexDecode8, if_pos hi, hexByte_hexDigits _ _ (by simp), Bytes.getD_toList, Bytes.get_fin]
  · refine Bytes.ext fun i => ?_
    rw [hexByte_hexDigits _ _ (by simp), Bytes.getD_toList, Bytes.get_fin]

theorem parseShadowField_short {data : List UInt8} (h : data.length < 84) : parseShadowField data = none :=
  if_pos (.inl h)

/-! ## A field is written as it was parsed -/

/-- The digits that `is_ascii_hexdigit` accepts and `hex_val` reads as `0`. -/
def isCapital (c : UInt8) : Bool := 65 ≤ c && c ≤ 70

theorem hexChar_hexByte : ∀ a, isHexDigit a = true → ∀ b, isHexDigit b = true →
    (hexChar (hexByte [a, b] 0 >>> 4) = a ↔ isCapital a = false) ∧
      (hexChar (hexByte [a, b] 0 &&& 0xF) = b ↔ isCapital b = false) := by
  decide +kernel

theorem hexDigits_hexByte : ∀ (n : Nat) (hex : List UInt8),
    hex.length = 2 * n → (∀ c ∈ hex, isHexDigit c = true) →
    (hexDigits ((range n).map (hexByte hex)) = hex ↔ ∀ c ∈ hex, isCapital c = false)
  | 0, [], _, _ => by simp [hexDigits]
  | n + 1, a :: b :: hex, hlen, hall => by
    simp only [forall_mem_cons] at hall
    obtain ⟨ha, hb⟩ := hexChar_hexByte a hall.1 b hall.2.1
    have ih := hexDigits_hexByte n hex (by simpa [Nat.mul_succ] using hlen) hall.2.2
    rw [range_succ_eq_map, map_cons, map_map]
    show hexChar _ :: hexChar _ :: hexDigits ((range n).map (hexByte hex)) = _ ↔ _
    simp only [cons.injEq, forall_mem_cons, ← ih, ← ha, ← hb]
    rfl

theorem parseShadowField_some {data : List UInt8} {field : ShadowField} (h : parseShadowField data = some field) :
    ∃ saltHex hashHex, data.take 84 = 36 :: 53 :: 36 :: (saltHex ++ 36 :: hashHex) ∧ saltHex.length = 2 * 8 ∧
      hashHex.length = 2 * 32 ∧ (saltHex ++ hashHex).all isHexDigit = true ∧
      field.salt.toList = (range 8).map (hexByte saltHex) ∧ field.hash.toList = (range 32).map (hexByte hashHex) := by
  unfold parseShadowField at h
  dsimp only at h
  split_ifs at h with hdata hidx hlen hall
  cases h
  rw [not_or, not_not] at hdata
  obtain ⟨h16, hdollar, -⟩ := findIdx?_eq_some_iff_getElem.mp (not_not.mp hidx)
  have hsalt : ((data.drop 3).take 16).length = 16 := length_take_of_le h16.le
  refine ⟨_, _, ?_, hsalt, Nat.le_antisymm (length_take_le ..) (Nat.not_lt.mp hlen),
    Bool.eq_true_of_not_eq_false hall,
    Bytes.toList_eq_map fun i => ?_, Bytes.toList_eq_map fun i => rfl⟩
  · have hrest : (data.drop 3).drop 16 = 36 :: (data.drop 3).drop 17 := by
      rw [drop_eq_getElem_cons h16, of_decide_eq_true hdollar]
    rw [show 84 = 3 + (16 + (64 + 1)) from rfl, take_add, take_add, hrest, hdata.2]
    rfl
  · show hexDecode8 _ i = _
    rw [hexDecode8, hsalt]
    exact if_pos i.2

/-- A field with a capital digit is parsed as the one with `0` in its place. -/
theorem shadowField_codec (salt : Bytes 8) (hash : Bytes 32) (data : List UInt8) :
    parseShadowField (formatShadowField salt hash) = some ⟨salt, hash⟩ ∧
      ((∀ field, parseShadowField data = some field → formatShadowField field.salt field.hash = data.take 84) ↔
        parseShadowField data = none ∨ ∀ c ∈ data.take 84, isCapital c = false) := by
  refine ⟨parseShadowField_format salt hash, ?_⟩
  cases hparse : parseShadowField data with
  | none => simp
  | some field =>
    obtain ⟨saltHex, hashHex, htake, hs, hh, hall, hsalt, hhash⟩ := parseShadowField_some hparse
    rw [all_eq_true, forall_mem_append] at hall
    have hs' := hexDigits_hexByte 8 saltHex hs hall.1
    have hh' := hexDigits_hexByte 32 hashHex hh hall.2
    have hparts : hexDigits field.salt.toList ++ 36 :: hexDigits field.hash.toList = saltHex ++ 36 :: hashHex ↔
        hexDigits field.salt.toList = saltHex ∧ hexDigits field.hash.toList = hashHex := by
      refine ⟨fun h => ?_, fun h => by rw [h.1, h.2]⟩
      obtain ⟨h1, h2⟩ := append_inj h (by simp [hs])
      exact ⟨h1, (cons.inj h2).2⟩
    rw [← hsalt] at hs'
    rw [← hhash] at hh'
    simp [htake, formatShadowField_eq, hparts, hs', hh', isCapital, or_imp, forall_and]

/-- `$5$A000000000000000$` and 64 zeros are the credential of a salt and a hash of zeros. -/
theorem shadowField_capital :
    let data : List UInt8 := [36, 53, 36, 65] ++ replicate 15 48 ++ 36 :: replicate 64 48
    let zeros := formatShadowField .zero .zero
    (parseShadowField data).map (fun field => formatShadowField field.salt field.hash) = some zeros ∧
      zeros ≠ data.take 84 := by
  decide +kernel

end Auth
