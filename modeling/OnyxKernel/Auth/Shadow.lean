import OnyxKernel.Auth.Kdf
import OnyxKernel.Auth.Passwd
import OnyxKernel.Core.Sha256

/-!
# `/etc/shadow`

How a password is checked against `/etc/shadow`, and how `update_shadow_password` replaces the line of one user.
Both see at most the first 4096 bytes of the file.

Whether the other users keep their passwords is a matter of places. A field is recognised by its first 84 bytes, so
a user is lost when the place where these end is beyond what was read, or beyond what was written
(`shadowField_take`).
-/

namespace Auth

open Infra Onyx StateProg Bytes List

/-! ## Checking -/

def shadowPath : List UInt8 := [47, 101, 116, 99, 47, 115, 104, 97, 100, 111, 119]

/-- What stands behind the colon of a line, if the name before it is `username`. -/
def lineField (username line : List UInt8) : Option (List UInt8) :=
  match splitFirst 58 line with
  | none => none
  | some (name, entry) => if name = username then some entry else none

def readShadowPassword (username : List UInt8) : Sys (Bytes 128) := do
  let data ← readFile
  match (pieces 10 data).findSome? (lineField username) with
  | some entry => pure (ofList (entry.take 127))
  | none => fail (-2)

def storedSlice (stored : Bytes 128) : List UInt8 := stored.toList.takeWhile (· ≠ 0)

/-- `enum VerifyOutcome`. -/
inductive VerifyOutcome
  | ok | okLegacy | fail
  deriving DecidableEq

section

variable (sha256 : List UInt8 → Bytes 32)

def outcomeOf (password : List UInt8) : Option ShadowField → VerifyOutcome
  | none => .fail
  | some field =>
    match classifyPassword sha256 password field with
    | .iterated => .ok
    | .legacy => .okLegacy
    | .unknown => .fail

/-- `verify_shadow_outcome`: an error is a failure. -/
def verifyShadowOutcome (username password : List UInt8) : Sys VerifyOutcome :=
  orElse (do
    let stored ← readShadowPassword username
    pure (outcomeOf sha256 password (parseShadowField (storedSlice stored)))) (pure .fail)

def verifyShadowPassword (username password : List UInt8) : Sys Bool := do
  let outcome ← verifyShadowOutcome sha256 username password
  pure (outcome != .fail)

/-! ## Updating -/

/-- `format_shadow_entry`, with the salt that `generate_salt` has returned. -/
def formatShadowEntry (salt : Bytes 8) (username password : List UInt8) : List UInt8 :=
  let hash := hashPassword sha256 password salt
  let buf := username.take 128
  let buf := if buf.length < 128 then buf ++ [58] else buf
  if 128 - buf.length < 84 then buf else buf ++ formatShadowField salt hash

/-- A line without a colon is copied, the one of the user is replaced. -/
def treatShadow (username line : List UInt8) : Treat :=
  match splitFirst 58 line with
  | none => .copy
  | some (name, _) => if name = username then .replace else .copy

/-- `update_shadow_password`, with the salts that `generate_salt` will return. -/
def updateShadowPassword (salt : Nat → Bytes 8) (username newPassword : List UInt8) : Sys Unit := do
  let data ← orElse readFile (pure [])
  atomicRewrite shadowPath
    (rewrite (treatShadow username) (fun k => formatShadowEntry sha256 (salt k) username newPassword) data)

end

theorem outcomeOf_hashPassword (sha256 : List UInt8 → Bytes 32) (password : List UInt8) (salt : Bytes 8) :
    outcomeOf sha256 password (some ⟨salt, hashPassword sha256 password salt⟩) = .ok := by
  unfold outcomeOf
  simp only [classifyPassword, if_pos]

/-! ## The field of a user -/

/-- The field that is found for a user in the lines; only its first 84 bytes matter. -/
def shadowField (username : List UInt8) (lines : List (List UInt8)) : Option ShadowField :=
  (lines.findSome? (lineField username)).bind fun entry => parseShadowField ((entry.take 84).takeWhile (· ≠ 0))

variable {u line entry : List UInt8}

theorem lineField_eq_some (h : lineField u line = some entry) : line = u ++ 58 :: entry ∧ 58 ∉ u := by
  unfold lineField at h
  cases hs : splitFirst 58 line with
  | none =>
    rw [hs] at h
    cases h
  | some p =>
    rw [hs] at h
    obtain ⟨name, rest⟩ := p
    simp only [Option.ite_none_right_eq_some, Option.some.injEq] at h
    obtain ⟨rfl, rfl⟩ := h
    exact splitFirst_eq_some hs

theorem lineField_append {u entry : List UInt8} (h : 58 ∉ u) : lineField u (u ++ 58 :: entry) = some entry := by
  unfold lineField
  rw [splitFirst_append h]
  exact if_pos rfl

theorem lineField_take {m : Nat} (h : lineField u (line.take m) = some entry) :
    ∃ entry', lineField u line = some entry' ∧ entry = entry'.take (m - u.length - 1) ∧ u.length < m := by
  obtain ⟨heq, hu⟩ := lineField_eq_some h
  have hline : line = u ++ 58 :: (entry ++ line.drop m) := by
    conv_lhs => rw [← take_append_drop m line, heq]
    simp
  have hlen := congrArg length heq
  have hm : u.length < m := by
    simp only [length_take, length_append, length_cons] at hlen
    omega
  refine ⟨_, by rw [hline]; exact lineField_append hu, ?_, hm⟩
  have htake : line.take m = u ++ 58 :: (entry ++ line.drop m).take (m - u.length - 1) := by
    conv_lhs => rw [hline]
    rw [take_append, take_of_length_le (by omega), take_cons (by omega)]
  rw [htake] at heq
  exact (cons.inj (append_cancel_left heq)).2.symm

theorem parseShadowField_take (data : List UInt8) : parseShadowField (data.take 84) = parseShadowField data := by
  rcases Nat.lt_or_ge data.length 84 with h | h
  · rw [take_of_length_le (Nat.le_of_lt h)]
  · have hlen : (data.take 84).length = 84 := by
      rw [length_take]
      omega
    have hidx : ((data.drop 3).take 81).findIdx? (· = 36) ≠ some 16 ↔
        (data.drop 3).findIdx? (· = 36) ≠ some 16 := by
      rw [findIdx?_take]
      cases (data.drop 3).findIdx? (· = 36) with
      | none => simp
      | some i =>
        simp only [Option.bind_some, Option.guard, ne_eq, Option.some.injEq]
        split
        · simp_all
        · simp_all
          omega
    unfold parseShadowField
    simp only [hlen, Nat.not_lt.mpr h, Nat.lt_irrefl, false_or, take_take, drop_take,
      Nat.reduceSub, hidx, (by decide : min 3 84 = 3), (by decide : min 16 81 = 16), (by decide : min 64 64 = 64)]

theorem parseShadowField_stored (entry : List UInt8) :
    parseShadowField (storedSlice (ofList (entry.take 127))) =
      parseShadowField ((entry.take 84).takeWhile (· ≠ 0)) := by
  have hslice : storedSlice (ofList (entry.take 127)) = (entry.take 127).takeWhile (· ≠ 0) := by
    have hl : (entry.take 127).length ≤ 127 := length_take_le _ _
    rw [storedSlice, toList_ofList (by omega), takeWhile_padded]
  rw [hslice, ← parseShadowField_take, take_takeWhile, take_take]
  rfl

/-! ## Where a field ends -/

/-- The place where the 84 bytes of a user's field end in a text of these lines, when the lines before it take `size`
bytes each and a newline. A user without a line comes last. -/
def fieldEnd (size : List UInt8 → Nat) (u : List UInt8) : List (List UInt8) → Nat
  | [] => u.length + 85
  | line :: rest => if (lineField u line).isSome then u.length + 85 else size line + 1 + fieldEnd size u rest

theorem shadowField_cons (u line : List UInt8) (rest : List (List UInt8)) :
    shadowField u (line :: rest) =
      match lineField u line with
      | some entry => parseShadowField ((entry.take 84).takeWhile (· ≠ 0))
      | none => shadowField u rest := by
  unfold shadowField
  rw [findSome?_cons]
  cases lineField u line with
  | none | some entry => rfl

theorem shadowField_take_line (u line : List UInt8) (m : Nat) : shadowField u [line.take m] =
      if u.length + 85 ≤ m then (lineField u line).bind fun entry =>
        parseShadowField ((entry.take 84).takeWhile (· ≠ 0))
      else none := by
  rw [shadowField_cons]
  cases hcut : lineField u (line.take m) with
  | some entry =>
    obtain ⟨entry', hline, rfl, hm⟩ := lineField_take hcut
    rw [hline]
    by_cases hle : u.length + 85 ≤ m
    · rw [if_pos hle]
      show parseShadowField (((entry'.take (m - u.length - 1)).take 84).takeWhile (· ≠ 0)) = _
      rw [take_take, Nat.min_eq_left (by omega)]
      rfl
    · rw [if_neg hle]
      refine parseShadowField_short (Nat.lt_of_le_of_lt (List.takeWhile_prefix _).length_le ?_)
      simp only [length_take]
      omega
  | none =>
    show none = _
    cases hline : lineField u line with
    | none => simp
    | some entry =>
      -- the cut was before the end of the colon
      obtain ⟨rfl, hu⟩ := lineField_eq_some hline
      have hm : ¬ u.length + 85 ≤ m := by
        intro hle
        rw [take_append, take_of_length_le (by omega), take_cons (by omega), lineField_append hu] at hcut
        cases hcut
      rw [if_neg hm]

theorem shadowField_take (u : List UInt8) : ∀ (lines : List (List UInt8)) (m : Nat), (∀ l ∈ lines, 10 ∉ l) →
    shadowField u (pieces 10 ((closed 10 lines).take m)) =
      if fieldEnd length u lines ≤ m then shadowField u lines else none
  | [], m, _ => by simp [shadowField]
  | line :: rest, m, h => by
    have hline := h line mem_cons_self
    have ih := fun m => shadowField_take u rest m fun l hl => h l (mem_cons_of_mem _ hl)
    rw [closed_cons]
    rcases Nat.lt_or_ge line.length m with hm | hm
    · have hcut : (line ++ 10 :: closed 10 rest).take m =
          line ++ 10 :: (closed 10 rest).take (m - line.length - 1) := by
        rw [take_append, take_of_length_le (Nat.le_of_lt hm), take_cons (by omega)]
      rw [hcut, pieces_append_sep hline, shadowField_cons, shadowField_cons]
      unfold fieldEnd
      cases hf : lineField u line with
      | none =>
        simp only [Option.isSome_none, Bool.false_eq_true, if_false]
        rw [ih]
        congr 1
        exact propext ⟨fun _ => by omega, fun _ => by omega⟩
      | some entry =>
        simp only [Option.isSome_some, if_true]
        split
        · rfl
        · -- the whole line is there, so its field is short
          obtain ⟨rfl, -⟩ := lineField_eq_some hf
          refine parseShadowField_short (Nat.lt_of_le_of_lt (List.takeWhile_prefix _).length_le ?_)
          simp only [length_append, length_cons] at hm
          simp only [length_take]
          omega
    · rw [take_append_of_le_length hm]
      have hfree : 10 ∉ line.take m := fun hc => hline (mem_of_mem_take hc)
      have hone : shadowField u (pieces 10 (line.take m)) = shadowField u [line.take m] := by
        by_cases hnil : line.take m = []
        · rw [hnil]
          rfl
        · rw [pieces_of_free hfree hnil]
      rw [hone, shadowField_take_line]
      unfold fieldEnd
      rw [shadowField_cons]
      cases hf : lineField u line with
      | none =>
        simp only [Option.isSome_none, Bool.false_eq_true, if_false, Option.bind_none, ite_self]
        rw [if_neg (by omega)]
      | some entry => rfl

theorem shadowField_got (u : List UInt8) {got text : List UInt8} (h : got = text.take got.length) :
    shadowField u (pieces 10 got) =
      if fieldEnd length u (pieces 10 text) ≤ got.length then shadowField u (pieces 10 text) else none := by
  have hlen : got.length ≤ text.length := by
    have := congrArg length h
    rw [length_take] at this
    omega
  have htext : (closed 10 (pieces 10 text)).take text.length = text := take_closed_pieces text
  have hclosed : got = (closed 10 (pieces 10 text)).take got.length := by
    conv_lhs => rw [h, ← htext]
    rw [take_take, Nat.min_eq_left hlen]
  conv_lhs => rw [hclosed]
  exact shadowField_take u _ _ fun _ => free_of_mem_pieces

/-! ## The lines after an update -/

/-- The length of a line after an update for `username`. -/
def sizeAfter (username line : List UInt8) : Nat :=
  if (lineField username line).isSome then username.length + 85 else line.length

section

variable {username : List UInt8} {entry : Nat → List UInt8} {field : Nat → List UInt8}

theorem treatShadow_eq (username line : List UInt8) :
    treatShadow username line = if (lineField username line).isSome then .replace else .copy := by
  unfold treatShadow lineField
  cases splitFirst 58 line with
  | none => rfl
  | some p =>
    by_cases h : p.1 = username
    · simp [h]
    · simp [h]

theorem lineField_other {u line a : List UInt8} (hu : u ≠ username) (h : lineField username line = some a) :
    lineField u line = none := by
  obtain ⟨rfl, hc⟩ := lineField_eq_some h
  unfold lineField
  rw [splitFirst_append hc]
  exact if_neg hu.symm

section

variable (hname : 58 ∉ username) (hentry : ∀ k, entry k = username ++ 58 :: field k)
include hname hentry

theorem lineField_new (k : Nat) : lineField username (entry k) = some (field k) := by
  rw [hentry k]
  exact lineField_append hname

theorem shadowField_rewritten_other {u : List UInt8} (hu : u ≠ username) :
    ∀ (lines : List (List UInt8)) (k : Nat),
    shadowField u (rewritten (treatShadow username) entry lines k) = shadowField u lines
  | [], k => by
    unfold rewritten
    split
    · rw [shadowField_cons, lineField_other hu (lineField_new hname hentry 0)]
    · rfl
  | line :: rest, k => by
    have ih := shadowField_rewritten_other hu rest
    unfold rewritten
    rw [treatShadow_eq, shadowField_cons u line rest]
    cases hf : lineField username line with
    | none =>
      simp only [Option.isSome_none, Bool.false_eq_true, if_false]
      rw [shadowField_cons, ih]
    | some a =>
      simp only [Option.isSome_some, if_true]
      rw [shadowField_cons, lineField_other hu (lineField_new hname hentry k), lineField_other hu hf]
      exact ih (k + 1)

theorem shadowField_rewritten_own :
    ∀ lines : List (List UInt8), shadowField username (rewritten (treatShadow username) entry lines 0) =
      parseShadowField (((field 0).take 84).takeWhile (· ≠ 0))
  | [] => by
    unfold rewritten
    rw [if_pos rfl, shadowField_cons, lineField_new hname hentry 0]
  | line :: rest => by
    have ih := shadowField_rewritten_own rest
    unfold rewritten
    rw [treatShadow_eq]
    cases hf : lineField username line with
    | none =>
      simp only [Option.isSome_none, Bool.false_eq_true, if_false]
      rw [shadowField_cons, hf]
      exact ih
    | some a =>
      simp only [Option.isSome_some, if_true]
      rw [shadowField_cons, lineField_new hname hentry 0]

/-- Where the fields end after an update: the one of the user, and those that other users have. -/
theorem fieldEnd_rewritten (hfield : ∀ k, (field k).length = 84) {u : List UInt8} :
    ∀ (lines : List (List UInt8)) (k : Nat),
    (u = username ∧ k = 0) ∨ (u ≠ username ∧ (shadowField u lines).isSome) →
    fieldEnd length u (rewritten (treatShadow username) entry lines k) = fieldEnd (sizeAfter username) u lines
  | [], k, h => by
    rcases h with ⟨rfl, rfl⟩ | ⟨-, h⟩
    · unfold rewritten fieldEnd
      rw [if_pos rfl]
      simp only
      rw [lineField_new hname hentry 0]
      rfl
    · cases h
  | line :: rest, k, h => by
    have ih := fieldEnd_rewritten hfield (u := u) rest
    have hlen : (entry k).length = username.length + 85 := by
      rw [hentry k, length_append, length_cons, hfield k]
    unfold rewritten
    rw [treatShadow_eq, fieldEnd, sizeAfter]
    rcases h with ⟨rfl, rfl⟩ | ⟨hne, hfound⟩
    · cases hf : lineField u line with
      | none =>
        simp only [Option.isSome_none, Bool.false_eq_true, if_false]
        rw [fieldEnd, hf, ih 0 (.inl ⟨rfl, rfl⟩)]
        rfl
      | some a =>
        simp only [Option.isSome_some, if_true]
        rw [fieldEnd, lineField_new hname hentry 0]
        rfl
    · rw [shadowField_cons] at hfound
      cases hf : lineField username line with
      | none =>
        simp only [Option.isSome_none, Bool.false_eq_true, if_false]
        rw [fieldEnd]
        cases hl : lineField u line with
        | none =>
          rw [hl] at hfound
          rw [ih k (.inr ⟨hne, hfound⟩)]
        | some b => rfl
      | some a =>
        have hl := lineField_other hne hf
        rw [hl] at hfound
        simp only [Option.isSome_some, if_true, hl, Option.isSome_none, Bool.false_eq_true, if_false]
        rw [fieldEnd, lineField_other hne (lineField_new hname hentry k), ih (k + 1) (.inr ⟨hne, hfound⟩), hlen]
        rfl

end

end

/-! ## What is checked against a file -/

def World.visible (w : World) : List UInt8 := (w.file.getD []).take bufLen

theorem readShadowPassword_spec {w : World} (hw : ReadsWell w) (u : List UInt8) :
    wp (readShadowPassword u)
      (fun stored _ => parseShadowField (storedSlice stored) = shadowField u (pieces 10 w.visible))
      (fun _ _ => shadowField u (pieces 10 w.visible) = none) w := by
  refine wp_seq (readFile_spec w) ?_ ?_
  · rintro got w' ⟨-, data, hdata, -, -, hall⟩
    have hgot : got = w.visible := by
      rw [hall hw, World.visible, hdata]
      rfl
    rw [hgot, shadowField]
    cases hf : (pieces 10 w.visible).findSome? (lineField u) with
    | none => exact rfl
    | some entry => exact parseShadowField_stored entry
  · rintro e w' ⟨-, hnone | hbad⟩
    · rw [World.visible, hnone]
      rfl
    · exact absurd hw hbad

section

variable (sha256 : List UInt8 → Bytes 32) {username : List UInt8}

theorem verifyShadowOutcome_run {w : World} (hw : ReadsWell w) (u password : List UInt8) :
    ((verifyShadowOutcome sha256 u password).run w).1 =
      .ok (outcomeOf sha256 password (shadowField u (pieces 10 w.visible))) := by
  have hspec : wp (verifyShadowOutcome sha256 u password)
      (fun o _ => o = outcomeOf sha256 password (shadowField u (pieces 10 w.visible))) (fun _ _ => False) w := by
    refine wp_orElse (wp_seq (readShadowPassword_spec hw u) ?_ ?_)
    · intro stored w' h
      show _ = _
      rw [h]
    · intro e w' h
      show VerifyOutcome.fail = _
      rw [h]
      rfl
  obtain ⟨o, w', hrun, rfl⟩ := hspec.returned
  rw [hrun]

def working (file : Option (List UInt8)) : World where
  file := file
  tmp := none
  outcome := fun _ _ => .does bufLen
  calls := 0

theorem working_reads (file : Option (List UInt8)) : ReadsWell (working file) :=
  ⟨fun _ => ⟨bufLen, rfl, by decide⟩, fun _ => ⟨bufLen, rfl⟩⟩

/-- What `verify_shadow_password` returns when the file can be read. -/
def verifies (file : Option (List UInt8)) (u password : List UInt8) : Bool :=
  ((verifyShadowPassword sha256 u password).run (working file)).1.toOption.getD false

theorem verifyShadowPassword_run {w : World} (hw : ReadsWell w) (u password : List UInt8) :
    ((verifyShadowPassword sha256 u password).run w).1 =
      .ok (outcomeOf sha256 password (shadowField u (pieces 10 w.visible)) != .fail) := by
  have h := verifyShadowOutcome_run sha256 hw u password
  have hrun : (verifyShadowOutcome sha256 u password).run w =
      (.ok (outcomeOf sha256 password (shadowField u (pieces 10 w.visible))),
        ((verifyShadowOutcome sha256 u password).run w).2) := by
    rw [← h]
  unfold verifyShadowPassword
  rw [run_bind_ok hrun]
  rfl

theorem verifies_eq (file : Option (List UInt8)) (u password : List UInt8) :
    verifies sha256 file u password =
      (outcomeOf sha256 password (shadowField u (pieces 10 (working file).visible)) != .fail) := by
  unfold verifies
  rw [verifyShadowPassword_run sha256 (working_reads file)]
  rfl

theorem verifies_found {file : Option (List UInt8)} {u password : List UInt8}
    (h : verifies sha256 file u password = true) : (shadowField u (pieces 10 (working file).visible)).isSome := by
  rw [verifies_eq] at h
  cases hf : shadowField u (pieces 10 (working file).visible) with
  | none =>
    rw [hf] at h
    cases h
  | some field => rfl

/-! ## Every other user keeps the password -/

/-- The new password is accepted, and for every other user the same passwords as before. -/
structure KeepsPasswords (username password : List UInt8) (before after : Option (List UInt8)) : Prop where
  own : verifies sha256 after username password = true
  others : ∀ u, u ≠ username → ∀ p, verifies sha256 after u p = verifies sha256 before u p

/-- The bytes that the first calls deliver: those of the file that are read, or none if it cannot be opened. -/
def World.delivered (w : World) : List UInt8 := ((orElse readFile (pure [])).run w).1.toOption.getD []

/-- The bytes that `write` transfers after that, of those that the buffer has. -/
def World.transferred (w : World) : Nat :=
  match w.outcome .write (((orElse readFile (pure [])).run w).2.calls + 1) with
  | .does n => min n bufLen
  | .fails _ => 0

/-- The new field is within what is written. The fields of the other users who have a password are within what is read
and, moved to their new places, within what is written. -/
structure HasRoom (username : List UInt8) (w : World) : Prop where
  own : fieldEnd (sizeAfter username) username (pieces 10 w.delivered) ≤ w.transferred
  others : ∀ u, u ≠ username → (∃ p, verifies sha256 w.file u p = true) →
    fieldEnd length u (pieces 10 w.visible) ≤ w.delivered.length ∧
      fieldEnd (sizeAfter username) u (pieces 10 w.delivered) ≤ w.transferred

theorem mem_formatShadowField {salt : Bytes 8} {hash : Bytes 32} {c : UInt8} (h : c ∈ formatShadowField salt hash) :
    isHexDigit c = true ∨ c = 36 := by
  rw [formatShadowField_eq] at h
  simp only [mem_cons, mem_append] at h
  rcases h with rfl | rfl | rfl | h | rfl | h
  · exact .inr rfl
  · exact .inl rfl
  · exact .inr rfl
  · exact .inl (isHexDigit_of_mem h)
  · exact .inr rfl
  · exact .inl (isHexDigit_of_mem h)

theorem not_mem_formatShadowField {salt : Bytes 8} {hash : Bytes 32} {c : UInt8}
    (h : isHexDigit c = false ∧ c ≠ 36) : c ∉ formatShadowField salt hash := by
  intro hc
  rcases mem_formatShadowField hc with hd | hd
  · rw [h.1] at hd
    cases hd
  · exact h.2 hd

theorem formatShadowEntry_eq (salt : Bytes 8) (password : List UInt8)
    (h : username.length ≤ 31) : formatShadowEntry sha256 salt username password =
      username ++ 58 :: formatShadowField salt (hashPassword sha256 password salt) := by
  unfold formatShadowEntry
  simp only
  rw [take_of_length_le (by omega), if_pos (by omega : username.length < 128), if_neg]
  · simp
  · rw [length_append, length_singleton]
    omega

theorem parseShadowField_new (salt : Bytes 8) (hash : Bytes 32) :
    parseShadowField (((formatShadowField salt hash).take 84).takeWhile (· ≠ 0)) = some ⟨salt, hash⟩ := by
  have hall : (formatShadowField salt hash).takeWhile (· ≠ 0) = formatShadowField salt hash := by
    rw [takeWhile_eq_self_iff]
    intro c hc
    have h0 : c ≠ 0 := fun h => not_mem_formatShadowField (by decide) (h ▸ hc)
    simpa using h0
  rw [take_of_length_le (by simp), hall, parseShadowField_format]

theorem validUsername_spec (h : RootFlow.validUsername username = true) :
    username.length ≤ 31 ∧ 58 ∉ username ∧ 10 ∉ username := by
  have hwf : (newRecord username [] []).WellFormed := newRecord_wellFormed h (by simp) (by simp)
  exact ⟨length_le_of_validUsername h, hwf.colon username (by simp [newRecord]),
    hwf.newline username (by simp [newRecord])⟩

theorem delivered_spec (w : World) :
    ∃ w₁, (orElse readFile (pure [])).run w = (.ok w.delivered, w₁) ∧ Same w w₁ ∧
    w.delivered = w.visible.take w.delivered.length := by
  have hspec : wp (orElse readFile (pure [])) (fun got w' => Same w w' ∧ got = w.visible.take got.length)
      (fun _ _ => False) w := by
    refine wp_orElse (wp_mono (readFile_spec w) ?_ ?_)
    · rintro got w' ⟨hs, data, hdata, hgot, hle, -⟩
      refine ⟨hs, ?_⟩
      rw [World.visible, hdata]
      rw [take_take, Nat.min_eq_left hle]
      exact hgot
    · rintro e w' ⟨hs, -⟩
      exact ⟨hs, rfl⟩
  obtain ⟨got, w₁, hrun, hs, hgot⟩ := hspec.returned
  have hd : w.delivered = got := by
    unfold World.delivered
    rw [hrun]
    rfl
  rw [hd]
  exact ⟨w₁, hrun, hs, hgot⟩

section

variable {username password : List UInt8} {salt : Nat → Bytes 8} {lines : List (List UInt8)}

theorem shadowField_after (hu : RootFlow.validUsername username = true)
    (hlines : ∀ l ∈ lines, 10 ∉ l) (u : List UInt8) (m : Nat) :
    shadowField u (pieces 10 ((closed 10 (rewritten (treatShadow username)
        (fun k => formatShadowEntry sha256 (salt k) username password) lines 0)).take m)) =
      if fieldEnd (sizeAfter username) u lines ≤ m then
        if u = username then some ⟨salt 0, hashPassword sha256 password (salt 0)⟩ else shadowField u lines
      else none := by
  obtain ⟨hlen, hcolon, hnewline⟩ := validUsername_spec hu
  have hentry := fun k => formatShadowEntry_eq sha256 (salt k) password hlen
  have hfree : ∀ k, 10 ∉ formatShadowEntry sha256 (salt k) username password := by
    intro k
    rw [hentry k]
    simp only [mem_append, mem_cons, not_or]
    exact ⟨hnewline, by decide, not_mem_formatShadowField (by decide)⟩
  have hends := fieldEnd_rewritten (u := u) hcolon hentry (fun _ => length_formatShadowField _ _) lines 0
  rw [shadowField_take u _ m (rewritten_free _ hfree lines 0 hlines)]
  by_cases hown : u = username
  · subst hown
    rw [hends (.inl ⟨rfl, rfl⟩), shadowField_rewritten_own hcolon hentry, parseShadowField_new, if_pos rfl]
  · rw [shadowField_rewritten_other hcolon hentry hown, if_neg hown]
    cases hf : shadowField u lines with
    | none => simp
    | some field => rw [hends (.inr ⟨hown, by rw [hf]; rfl⟩)]

theorem updateShadowPassword_run (w : World) : ∃ w₁, Same w w₁ ∧
    w₁.calls = ((orElse readFile (pure [])).run w).2.calls ∧
    (updateShadowPassword sha256 salt username password).run w =
      (atomicRewrite shadowPath ((closed 10 (rewritten (treatShadow username)
        (fun k => formatShadowEntry sha256 (salt k) username password) (pieces 10 w.delivered) 0)).take bufLen)).run
          w₁ := by
  obtain ⟨w₁, hrun, hs, -⟩ := delivered_spec w
  refine ⟨w₁, hs, by rw [hrun], ?_⟩
  unfold updateShadowPassword
  rw [run_bind_ok hrun, rewrite_eq]

theorem updateShadowPassword_failed {w w' : World} {e : Int}
    (h : (updateShadowPassword sha256 salt username password).run w = (.error e, w')) : w'.file = w.file := by
  obtain ⟨w₁, hs, -, hrun⟩ := updateShadowPassword_run sha256 w
  rw [hrun] at h
  exact ((atomicRewrite_spec _ _ w₁).error h).1.trans hs.file

theorem updateShadowPassword_works {w : World} {n : Nat} (htmp : w.tmp = none)
    (hout : ∀ c ∈ [Call.create, .write, .rename], ∀ k, w.outcome c k = .does n) :
    ∃ w', (updateShadowPassword sha256 salt username password).run w = (.ok (), w') := by
  obtain ⟨w₁, hs, -, hrun⟩ := @updateShadowPassword_run sha256 username password salt w
  rw [hrun]
  refine atomicRewrite_works (n := n) _ (by decide) (hs.tmp.trans htmp) ?_
  rw [hs.outcome]
  exact hout

theorem updateShadowPassword_fields (hu : RootFlow.validUsername username = true) {w w' : World}
    (h : (updateShadowPassword sha256 salt username password).run w = (.ok (), w')) (u : List UInt8) :
    shadowField u (pieces 10 w'.visible) =
      if fieldEnd (sizeAfter username) u (pieces 10 w.delivered) ≤ w.transferred then
        if u = username then some ⟨salt 0, hashPassword sha256 password (salt 0)⟩
        else shadowField u (pieces 10 w.delivered)
      else none := by
  obtain ⟨w₁, hs, hcalls, hrun⟩ := updateShadowPassword_run sha256 w
  rw [hrun] at h
  obtain ⟨-, n, hn, hfile⟩ := (atomicRewrite_spec _ _ w₁).ok h
  have htransferred : w.transferred = min n bufLen := by
    rw [hs.outcome, hcalls] at hn
    unfold World.transferred
    rw [hn]
  have hvisible : w'.visible = (closed 10 (rewritten (treatShadow username)
      (fun k => formatShadowEntry sha256 (salt k) username password) (pieces 10 w.delivered) 0)).take
        w.transferred := by
    rw [World.visible, hfile, htransferred]
    show ((take bufLen _).take n).take bufLen = _
    rw [take_take, take_take]
    congr 1
    omega
  rw [hvisible]
  exact shadowField_after sha256 hu (fun _ => free_of_mem_pieces) u _

/-- Whatever the file holds and whatever the calls do: a failed update leaves the file as it is, and one that succeeds
keeps the passwords if and only if there was room for them. -/
theorem updateShadowPassword_keeps_iff (salt : Nat → Bytes 8) (hu : RootFlow.validUsername username = true)
    (password : List UInt8) (w : World) :
    (∀ e w', (updateShadowPassword sha256 salt username password).run w = (.error e, w') → w'.file = w.file) ∧
    ∀ w', (updateShadowPassword sha256 salt username password).run w = (.ok (), w') →
      (KeepsPasswords sha256 username password w.file w'.file ↔ HasRoom sha256 username w) := by
  refine ⟨fun e w' h => updateShadowPassword_failed sha256 h, fun w' h => ?_⟩
  have hfields := updateShadowPassword_fields sha256 hu h
  obtain ⟨w₁, -, -, hdelivered⟩ := delivered_spec w
  have hafter (u p) : verifies sha256 w'.file u p =
      (outcomeOf sha256 p (shadowField u (pieces 10 w'.visible)) != .fail) :=
    verifies_eq sha256 w'.file u p
  have hbefore (u p) : verifies sha256 w.file u p =
      (outcomeOf sha256 p (shadowField u (pieces 10 w.visible)) != .fail) :=
    verifies_eq sha256 w.file u p
  -- what is left of another user's field
  have hother (u) (hne : u ≠ username) : shadowField u (pieces 10 w'.visible) =
      if fieldEnd length u (pieces 10 w.visible) ≤ w.delivered.length ∧
          fieldEnd (sizeAfter username) u (pieces 10 w.delivered) ≤ w.transferred
      then shadowField u (pieces 10 w.visible) else none := by
    rw [hfields, if_neg hne, shadowField_got u hdelivered, ← ite_and]
    exact if_congr and_comm rfl rfl
  constructor
  · intro hkeeps
    constructor
    · have hfound : (shadowField username (pieces 10 w'.visible)).isSome := verifies_found sha256 hkeeps.own
      rw [hfields] at hfound
      by_contra hno
      rw [if_neg hno] at hfound
      cases hfound
    · rintro u hne ⟨p, hp⟩
      have hfound : (shadowField u (pieces 10 w'.visible)).isSome :=
        verifies_found sha256 ((hkeeps.others u hne p).trans hp)
      rw [hother u hne] at hfound
      by_contra hno
      rw [if_neg hno] at hfound
      cases hfound
  · intro hroom
    constructor
    · rw [hafter, hfields, if_pos hroom.own, if_pos rfl, outcomeOf_hashPassword]
      rfl
    · intro u hne p
      by_cases hp : ∃ p', verifies sha256 w.file u p' = true
      · rw [hafter, hbefore, hother u hne, if_pos (hroom.others u hne hp)]
      · -- no password was accepted before, and none is now
        have hno : verifies sha256 w.file u p = false := by
          by_contra hc
          exact hp ⟨p, by simpa using hc⟩
        rw [hno, hafter, hother u hne]
        split
        · rw [← hbefore, hno]
        · rfl

end

end

/-! ## One user and a second one -/

/-- The name `ann`. -/
def ann : List UInt8 := [97, 110, 110]

/-- The line of `ann`. -/
def annLine (password : List UInt8) : List UInt8 :=
  ann ++ 58 :: formatShadowField zero (hashPassword sha256 password zero)

section

variable (password : List UInt8)
include password

theorem length_annLine : (annLine password).length = 88 := by
  rw [annLine, length_append, length_cons, length_formatShadowField]
  rfl

theorem pieces_annLine : pieces 10 (closed 10 [annLine password]) = [annLine password] := by
  refine pieces_closed fun l hl => ?_
  rw [mem_singleton.mp hl, annLine]
  simp only [mem_append, mem_cons, not_or]
  exact ⟨by decide, by decide, not_mem_formatShadowField (by decide)⟩

theorem take_annLine : (closed 10 [annLine password]).take bufLen = closed 10 [annLine password] := by
  refine take_of_length_le ?_
  rw [closed_cons, closed_nil, length_append, length_annLine]
  decide

theorem visible_annLine :
    (working (some (closed 10 [annLine password]))).visible = closed 10 [annLine password] := take_annLine password

theorem shadowField_annLine : shadowField ann [annLine password] =
    some ⟨zero, hashPassword sha256 password zero⟩ := by
  rw [shadowField_cons, annLine, lineField_append (by decide)]
  exact parseShadowField_new _ _

theorem verifies_annLine : verifies sha256 (some (closed 10 [annLine password])) ann password = true := by
  rw [verifies_eq, visible_annLine, pieces_annLine, shadowField_annLine, outcomeOf_hashPassword]
  rfl

end

/-- With calls that work, `bob` is added and `ann` keeps the password. -/
theorem updateShadowPassword_keeps_ann :
    ∃ w', (updateShadowPassword sha256 (fun _ => zero) bob [98]).run
        (working (some (closed 10 [annLine [97]]))) = (.ok (), w') ∧
      KeepsPasswords sha256 bob [98] (some (closed 10 [annLine [97]])) w'.file := by
  have hvisible := visible_annLine [97]
  generalize hw : working (some (closed 10 [annLine [97]])) = w at hvisible
  have hfile : w.file = some (closed 10 [annLine [97]]) := by rw [← hw]; rfl
  obtain ⟨w', hrun⟩ : ∃ w', (updateShadowPassword sha256 (fun _ => zero) bob [98]).run w = (.ok (), w') :=
    updateShadowPassword_works sha256 (by rw [← hw]; rfl) (n := bufLen) (by rw [← hw]; intro c _ k; rfl)
  refine ⟨w', hrun, ?_⟩
  rw [← hfile]
  refine ((updateShadowPassword_keeps_iff sha256 (fun _ => zero) (by decide) [98] w).2 w' hrun).mpr ?_
  obtain ⟨w₁, hread, hs⟩ := readFile_run hfile (hw ▸ working_reads _)
  rw [take_annLine] at hread
  have hdelivered : w.delivered = closed 10 [annLine [97]] := by
    unfold World.delivered
    rw [run_orElse_ok hread]
    rfl
  have htransferred : w.transferred = 4096 := by
    rw [← hw]
    rfl
  have hann : lineField ann (annLine [97]) = some _ := lineField_append (by decide)
  have hbob : lineField bob (annLine [97]) = none := lineField_other (by decide) hann
  constructor
  · rw [hdelivered, htransferred, pieces_annLine]
    simp only [fieldEnd, sizeAfter, hbob, Option.isSome_none, Bool.false_eq_true, if_false, length_annLine]
    decide
  · rintro u hne ⟨p, hp⟩
    have hfound : (shadowField u (pieces 10 w.visible)).isSome := verifies_found sha256 hp
    rw [hdelivered, htransferred, hvisible, pieces_annLine]
    rw [hvisible, pieces_annLine, shadowField_cons] at hfound
    obtain rfl : u = ann := by
      by_contra hc
      rw [lineField_other hc hann] at hfound
      cases hfound
    decide

/-- The world of `ann`, in which the file cannot be opened. -/
def busyWorld : World where
  file := some (closed 10 [annLine [97]])
  tmp := none
  outcome := fun c _ => if c = .open then .fails Errno.io.asI64 else .does bufLen
  calls := 0

/-- The file could not be opened, so it is taken for empty: `bob` is added and `ann` is gone. -/
theorem updateShadowPassword_drops_ann :
    validUsername bob = true ∧ verifies sha256 busyWorld.file ann [97] = true ∧
    ∃ w', (updateShadowPassword sha256 (fun _ => zero) bob [98]).run busyWorld = (.ok (), w') ∧
      verifies sha256 w'.file ann [97] = false := by
  have hbob : validUsername bob = true := by decide
  obtain ⟨w', hrun⟩ : ∃ w',
      (updateShadowPassword sha256 (fun _ => zero) bob [98]).run busyWorld = (.ok (), w') := by
    refine updateShadowPassword_works sha256 rfl (n := bufLen) fun c hc k => ?_
    simp only [mem_cons, not_mem_nil, or_false] at hc
    rcases hc with rfl | rfl | rfl <;> rfl
  refine ⟨hbob, verifies_annLine [97], w', hrun, ?_⟩
  have hfields := updateShadowPassword_fields sha256 (rootFlow_of_validUsername hbob) hrun ann
  have hdelivered : busyWorld.delivered = [] := rfl
  rw [hdelivered, if_neg (by decide : ¬ ann = bob)] at hfields
  have hnone : shadowField ann (pieces 10 w'.visible) = none := by
    rw [hfields]
    exact ite_self none
  rw [verifies_eq]
  show (outcomeOf sha256 [97] (shadowField ann (pieces 10 w'.visible)) != .fail) = false
  rw [hnone]
  rfl

end Auth
