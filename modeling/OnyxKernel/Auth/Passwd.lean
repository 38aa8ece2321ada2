import OnyxKernel.Auth.Files
import OnyxKernel.Infra.Bytes
import Mathlib.Data.Fintype.Pi
import Mathlib.Data.List.TakeWhile
import Mathlib.Tactic.NormNum

/-!
# `/etc/passwd`

The entries of `/etc/passwd`, and how `update_passwd_entry` replaces one line.
`format_dec` writes the digits of a number to the end of its buffer; the loop of
`format_passwd_entry` stops at the first zero byte, which is the first byte of that buffer. So no digit is ever
written, and the number is read back as 0 (`digits_eq_nil`).
-/

namespace Auth

open Infra Onyx StateProg List

/-! ## Numbers -/

/-- The loop of `format_dec`, which goes from the end of the buffer to its start. -/
def formatDecLoop : (pos : Nat) → (val : UInt32) → Bytes 12 → Bytes 12
  | 0, _, buf => buf
  | pos + 1, val, buf =>
    if val = 0 then buf
    else formatDecLoop pos (val / 10) (buf.set pos (48 + (val % 10).toUInt8))

def formatDec (n : UInt32) : Bytes 12 :=
  if n = 0 then Bytes.zero.set 10 48 else formatDecLoop 11 n Bytes.zero

/-- The loop of `parse_dec`. -/
def parseDecFrom (val : UInt32) : List UInt8 → UInt32
  | [] => val
  | b :: bs => if 48 ≤ b ∧ b ≤ 57 then parseDecFrom (val * 10 + (b - 48).toUInt32) bs else val

def parseDec (s : List UInt8) : UInt32 := parseDecFrom 0 s

/-- The bytes of a formatted number that are copied: those before the first zero. -/
def digits (n : UInt32) : List UInt8 := (formatDec n).toList.takeWhile (· ≠ 0)

theorem formatDecLoop_first : ∀ (pos : Nat) (val : UInt32) (buf : Bytes 12), val.toNat < 10 ^ (pos - 1) →
    (formatDecLoop pos val buf).get 0 = buf.get 0
  | 0, _, _, _ => rfl
  | pos + 1, val, buf, h => by
    unfold formatDecLoop
    split
    · rfl
    · rename_i h0
      have hval : val.toNat ≠ 0 := fun hc => h0 (UInt32.toNat_inj.mp hc)
      rw [Nat.add_sub_cancel] at h
      have hpos : 0 < pos := by
        rcases Nat.eq_zero_or_pos pos with rfl | hpos
        · rw [pow_zero] at h
          omega
        · exact hpos
      have hdiv : (val / 10).toNat < 10 ^ (pos - 1) := by
        have h10 : (10 : UInt32).toNat = 10 := rfl
        have hpow : 10 ^ pos = 10 ^ (pos - 1) * 10 := by
          rw [← pow_succ, Nat.sub_add_cancel hpos]
        rw [UInt32.toNat_div, h10]
        omega
      rw [formatDecLoop_first pos (val / 10) _ hdiv, Bytes.get_set_ne _ _ (by omega)]

theorem formatDec_first (n : UInt32) : (formatDec n).get 0 = 0 := by
  unfold formatDec
  split
  · rfl
  · have hn : n.toNat < 10 ^ (11 - 1) := by
      have := n.toNat_lt
      omega
    rw [formatDecLoop_first 11 n _ hn, Bytes.get_zero]

theorem digits_eq_nil (n : UInt32) : digits n = [] := by
  unfold digits
  rw [Bytes.toList_succ, formatDec_first]
  rfl

/-! ## Entries -/

/-- `struct PasswdEntry`. -/
structure PasswdEntry where
  name : Bytes 32
  uid : UInt32
  gid : UInt32
  home : Bytes 64
  shell : Bytes 32
  deriving DecidableEq

def maxUsers : Nat := 16

def passwdPath : List UInt8 := [47, 101, 116, 99, 47, 112, 97, 115, 115, 119, 100]

/-- `copy_slice` into a buffer of zeros. -/
def copySlice (n : Nat) (src : List UInt8) : Bytes n := Bytes.ofList (src.take n)

/-- `line[start..stop]` -/
def slice (line : List UInt8) (start stop : Nat) : List UInt8 := (line.drop start).take (stop - start)

/-- The loop over the bytes of a line: where each field before a colon starts, at most five of them, and where the
last field starts. -/
def scanFields : (line : List UInt8) → (i start : Nat) → (fields : List Nat) → List Nat × Nat
  | [], _, start, fields => (fields, start)
  | b :: bs, i, start, fields =>
    if b = 58 then scanFields bs (i + 1) (i + 1) (if fields.length < 5 then fields ++ [start] else fields)
    else scanFields bs (i + 1) start fields

/-- The part of `parse_passwd` for one line. -/
def parseLine (line : List UInt8) : Option PasswdEntry :=
  if line = [] ∨ line.head? = some 35 then none
  else
    let (fields, last) := scanFields line 0 0 []
    if fields.length < 4 then none
    else
      let f (i : Nat) := if i = 4 then last else fields.getD i 0
      some
        { name := copySlice 32 (slice line (f 0) (f 1 - 1))
          uid := parseDec (slice line (f 1) (f 2 - 1))
          gid := parseDec (slice line (f 2) (f 3 - 1))
          home := copySlice 64 (slice line (f 3) (f 4 - 1))
          shell := copySlice 32 (line.drop (f 4)) }

def parsePasswd (data : List UInt8) : List PasswdEntry := ((pieces 10 data).filterMap parseLine).take maxUsers

def readPasswd : Sys (List PasswdEntry) := do
  let data ← readFile
  pure (parsePasswd data)

def putField (buf field : List UInt8) : List UInt8 := buf ++ field.take (256 - buf.length)

def putColon (buf : List UInt8) : List UInt8 := if buf.length < 256 then buf ++ [58] else buf

def formatPasswdEntry (username : List UInt8) (uid gid : UInt32) (home shell : List UInt8) : List UInt8 :=
  let buf := putColon (putField [] username)
  let buf := putColon (putField buf (digits uid))
  let buf := putColon (putField buf (digits gid))
  let buf := putColon (putField buf home)
  putField buf shell

/-- A line without a colon is dropped, the one of the user is replaced. -/
def treatPasswd (username line : List UInt8) : Treat :=
  match splitFirst 58 line with
  | none => .drop
  | some (name, _) => if name = username then .replace else .copy

def updatePasswdEntry (username : List UInt8) (uid gid : UInt32) (home shell : List UInt8) : Sys Unit := do
  let data ← orElse readFile (pure [])
  atomicRewrite passwdPath
    (rewrite (treatPasswd username) (fun _ => formatPasswdEntry username uid gid home shell) data)

/-- `valid_username` of `passwd_flow/root_flow.rs`. -/
def RootFlow.validUsername (u : List UInt8) : Bool :=
  !u.isEmpty && u.length ≤ 31 &&
    u.all (fun b => (48 ≤ b && b ≤ 57) || (65 ≤ b && b ≤ 90) ||
      (97 ≤ b && b ≤ 122) || b == 45 || b == 95 || b == 46)

/-- `valid_username` of `useradd`, which refuses `root` as well. -/
def validUsername (u : List UInt8) : Bool := RootFlow.validUsername u && u != [114, 111, 111, 116]

/-! ## Lines of five fields -/

/-- The five fields of a line. -/
structure Record where
  name : List UInt8
  uid : List UInt8
  gid : List UInt8
  home : List UInt8
  shell : List UInt8

def Record.line (r : Record) : List UInt8 := r.name ++ 58 :: (r.uid ++ 58 :: (r.gid ++ 58 :: (r.home ++ 58 :: r.shell)))

/-- No field has a colon or a newline, and the name can be stored in an entry. -/
structure Record.WellFormed (r : Record) : Prop where
  colon : ∀ f ∈ [r.name, r.uid, r.gid, r.home, r.shell], 58 ∉ f
  newline : ∀ f ∈ [r.name, r.uid, r.gid, r.home, r.shell], 10 ∉ f
  named : r.name ≠ []
  comment : r.name.head? ≠ some 35
  nul : 0 ∉ r.name
  short : r.name.length ≤ 32

def Record.entry (r : Record) : PasswdEntry where
  name := copySlice 32 r.name
  uid := parseDec r.uid
  gid := parseDec r.gid
  home := copySlice 64 r.home
  shell := copySlice 32 r.shell

open Record

theorem scanFields_append (rest : List UInt8) : ∀ (f : List UInt8) (i start : Nat) (fields : List Nat), 58 ∉ f →
    scanFields (f ++ rest) i start fields = scanFields rest (i + f.length) start fields
  | [], _, _, _, _ => rfl
  | b :: bs, i, start, fields, h => by
    have hb : b ≠ 58 := fun he => h (he ▸ mem_cons_self)
    have hbs : 58 ∉ bs := fun hc => h (mem_cons_of_mem _ hc)
    rw [cons_append, scanFields, if_neg hb, scanFields_append rest bs (i + 1) start fields hbs, length_cons]
    congr 1
    omega

variable {home shell username : List UInt8} {new r : Record} {rs : List Record} {start : Nat}

theorem scanFields_field {rest f : List UInt8} {i : Nat} {fields : List Nat} (h : 58 ∉ f)
    (h5 : fields.length < 5) : scanFields (f ++ 58 :: rest) i start fields =
      scanFields rest (i + f.length + 1) (i + f.length + 1) (fields ++ [start]) := by
  rw [scanFields_append _ f i start fields h, scanFields, if_pos rfl, if_pos h5]

theorem scanFields_last {f : List UInt8} {i : Nat} {fields : List Nat} (h : 58 ∉ f) :
    scanFields f i start fields = (fields, start) := by
  have := scanFields_append [] f i start fields h
  rw [append_nil] at this
  exact this

theorem slice_append (p m q : List UInt8) {stop : Nat} (h1 : start = p.length) (h2 : stop = p.length + m.length) :
    slice (p ++ (m ++ q)) start stop = m := by
  subst h1 h2
  simp [slice]

theorem Record.WellFormed.fields (h : r.WellFormed) : ∃ a b c d, scanFields r.line 0 0 [] = ([0, a, b, c], d) ∧
    slice r.line 0 (a - 1) = r.name ∧ slice r.line a (b - 1) = r.uid ∧ slice r.line b (c - 1) = r.gid ∧
    slice r.line c (d - 1) = r.home ∧ r.line.drop d = r.shell := by
  have hc := h.colon
  simp only [mem_cons, not_mem_nil, or_false, forall_eq_or_imp, forall_eq] at hc
  obtain ⟨hname, huid, hgid, hhome, hshell⟩ := hc
  have hline₁ : r.line = (r.name ++ [58]) ++ (r.uid ++ 58 :: (r.gid ++ 58 :: (r.home ++ 58 :: r.shell))) := by
    simp [line]
  have hline₂ : r.line = (r.name ++ 58 :: (r.uid ++ [58])) ++ (r.gid ++ 58 :: (r.home ++ 58 :: r.shell)) := by
    simp [line]
  have hline₃ : r.line = (r.name ++ 58 :: (r.uid ++ 58 :: (r.gid ++ [58]))) ++ (r.home ++ 58 :: r.shell) := by
    simp [line]
  have hline₄ : r.line = (r.name ++ 58 :: (r.uid ++ 58 :: (r.gid ++ 58 :: (r.home ++ [58])))) ++ r.shell := by
    simp [line]
  refine ⟨_, _, _, _, (scanFields_field hname (by simp)).trans ((scanFields_field huid (by simp)).trans
    ((scanFields_field hgid (by simp)).trans ((scanFields_field hhome (by simp)).trans (scanFields_last hshell)))),
    slice_append [] _ _ rfl rfl, ?_, ?_, ?_, ?_⟩
  · rw [hline₁]
    refine slice_append _ _ _ ?_ ?_ <;> simp
  · rw [hline₂]
    refine slice_append _ _ _ ?_ ?_ <;> simp only [length_append, length_cons, length_nil] <;> omega
  · rw [hline₃]
    refine slice_append _ _ _ ?_ ?_ <;> simp only [length_append, length_cons, length_nil] <;> omega
  · rw [hline₄]
    refine drop_left' ?_
    simp only [length_append, length_cons, length_nil]
    omega

theorem parseLine_line (h : r.WellFormed) : parseLine r.line = some r.entry := by
  have hline : ¬ (r.line = [] ∨ r.line.head? = some 35) := by
    rintro (hnil | hhash)
    · simp [line] at hnil
    · cases hn : r.name with
      | nil => exact h.named hn
      | cons b bs =>
        have hcomment := h.comment
        rw [line, hn] at hhash
        rw [hn] at hcomment
        exact hcomment hhash
  obtain ⟨a, b, c, d, hscan, hname, huid, hgid, hhome, hshell⟩ := h.fields
  unfold parseLine
  rw [if_neg hline, hscan]
  show some (PasswdEntry.mk (copySlice 32 (slice r.line 0 (a - 1))) (parseDec (slice r.line a (b - 1)))
    (parseDec (slice r.line b (c - 1))) (copySlice 64 (slice r.line c (d - 1))) (copySlice 32 (r.line.drop d))) = _
  rw [hname, huid, hgid, hhome, hshell]
  rfl

/-! ## A new line -/

/-- The line that `format_passwd_entry` writes: both numbers are missing. -/
def newRecord (username home shell : List UInt8) : Record := ⟨username, [], [], home, shell⟩

theorem formatPasswdEntry_eq (uid gid : UInt32)
    (h : username.length + home.length + shell.length + 4 ≤ 256) :
    formatPasswdEntry username uid gid home shell = (newRecord username home shell).line := by
  have hput (buf field : List UInt8) (hr : buf.length + field.length < 256) :
      putColon (putField buf field) = buf ++ (field ++ [58]) := by
    rw [putField, take_of_length_le (by omega), putColon, if_pos (by rw [length_append]; exact hr), append_assoc]
  have hname : putColon (putField [] username) = username ++ [58] := by
    rw [hput _ _ (by rw [length_nil]; omega), nil_append]
  have huid : putColon (putField (username ++ [58]) []) = username ++ [58, 58] := by
    rw [hput _ _ (by simp; omega)]
    simp
  have hgid : putColon (putField (username ++ [58, 58]) []) = username ++ [58, 58, 58] := by
    rw [hput _ _ (by simp; omega)]
    simp
  have hhome : putColon (putField (username ++ [58, 58, 58]) home) = username ++ 58 :: 58 :: 58 :: (home ++ [58]) := by
    rw [hput _ _ (by simp; omega)]
    simp
  unfold formatPasswdEntry
  simp only [digits_eq_nil]
  rw [hname, huid, hgid, hhome, putField, take_of_length_le]
  · simp [newRecord, line]
  · simp only [length_append, length_cons, length_nil]
    omega

theorem rootFlow_of_validUsername (hu : validUsername username = true) : RootFlow.validUsername username = true :=
  Bool.and_elim_left hu

theorem length_le_of_validUsername (hu : RootFlow.validUsername username = true) : username.length ≤ 31 := by
  unfold RootFlow.validUsername at hu
  simp only [Bool.and_eq_true, decide_eq_true_eq] at hu
  exact hu.1.2

theorem newRecord_wellFormed (hu : RootFlow.validUsername username = true) (hhome : 58 ∉ home ∧ 10 ∉ home)
    (hshell : 58 ∉ shell ∧ 10 ∉ shell) : (newRecord username home shell).WellFormed := by
  unfold RootFlow.validUsername at hu
  simp only [Bool.and_eq_true, Bool.not_eq_true', isEmpty_eq_false_iff, decide_eq_true_eq, all_eq_true] at hu
  obtain ⟨⟨hne, hlen⟩, hall⟩ := hu
  -- a byte that is no letter, digit or one of the three signs does not occur
  have hout (b : UInt8)
      (hb : ((48 ≤ b && b ≤ 57) || (65 ≤ b && b ≤ 90) || (97 ≤ b && b ≤ 122) || b == 45 || b == 95 ||
      b == 46) = false) : b ∉ username := by
    intro hmem
    have := hall b hmem
    rw [hb] at this
    cases this
  refine ⟨?_, ?_, hne, ?_, hout 0 (by decide), by show username.length ≤ 32; omega⟩
  · simp only [newRecord, mem_cons, not_mem_nil, or_false, forall_eq_or_imp, forall_eq]
    exact ⟨hout 58 (by decide), not_false, not_false, hhome.1, hshell.1⟩
  · simp only [newRecord, mem_cons, not_mem_nil, or_false, forall_eq_or_imp, forall_eq]
    exact ⟨hout 10 (by decide), not_false, not_false, hhome.2, hshell.2⟩
  · intro hhead
    exact hout 35 (by decide) (mem_of_mem_head? hhead)

/-! ## The file after an update -/

/-- The lines with the one of the new record's user replaced, or with the new one at the end. -/
def setRecord (rs : List Record) (new : Record) : List Record :=
  if ∃ r ∈ rs, r.name = new.name then rs.map fun r => if r.name = new.name then new else r else rs ++ [new]

theorem Record.WellFormed.splitFirst (h : r.WellFormed) : ∃ rest, Infra.splitFirst 58 r.line = some (r.name, rest) :=
  ⟨_, splitFirst_append (h.colon r.name (by simp))⟩

theorem Record.WellFormed.treat (h : r.WellFormed) (username : List UInt8) :
    treatPasswd username r.line = if r.name = username then .replace else .copy := by
  obtain ⟨rest, hrest⟩ := h.splitFirst
  rw [treatPasswd, hrest]

theorem rewritten_records (new : Record) : ∀ (rs : List Record) (k : Nat), (∀ r ∈ rs, r.WellFormed) →
    rewritten (treatPasswd new.name) (fun _ => new.line) (rs.map line) k =
      (rs.map fun r => if r.name = new.name then new else r).map line ++
        if k = 0 ∧ ∀ r ∈ rs, r.name ≠ new.name then [new.line] else []
  | [], k, _ => by simp [rewritten]
  | r :: rs, k, h => by
    have hr := h r mem_cons_self
    have ih := fun k => rewritten_records new rs k fun r' hr' => h r' (mem_cons_of_mem _ hr')
    rw [map_cons, rewritten, hr.treat]
    by_cases hn : r.name = new.name
    · simp only [hn, if_true, map_cons, cons_append, cons.injEq, true_and]
      rw [ih (k + 1)]
      simp [hn]
    · simp only [hn, if_false, map_cons, cons_append, cons.injEq, true_and]
      rw [ih k]
      simp [hn]

theorem rewritten_setRecord (new : Record) (h : ∀ r ∈ rs, r.WellFormed) :
    rewritten (treatPasswd new.name) (fun _ => new.line) (rs.map line) 0 = (setRecord rs new).map line := by
  rw [rewritten_records new rs 0 h, setRecord]
  by_cases hex : ∃ r ∈ rs, r.name = new.name
  · rw [if_pos hex, if_neg fun hc => hex.elim fun r hr => hc.2 r hr.1 hr.2, append_nil]
  · have hall : ∀ r ∈ rs, r.name ≠ new.name := fun r hr hc => hex ⟨r, hr, hc⟩
    have hsame : (rs.map fun r => if r.name = new.name then new else r) = rs :=
      (map_congr_left fun r hr => if_neg (hall r hr)).trans (map_id rs)
    rw [if_neg hex, if_pos ⟨rfl, hall⟩, hsame, map_append]
    rfl

theorem mem_setRecord_iff : r ∈ setRecord rs new ↔ r = new ∨ r ∈ rs ∧ r.name ≠ new.name := by
  unfold setRecord
  split
  · rename_i hex
    rw [mem_map]
    constructor
    · rintro ⟨r', hr', rfl⟩
      by_cases hn : r'.name = new.name
      · exact .inl (if_pos hn)
      · rw [if_neg hn]
        exact .inr ⟨hr', hn⟩
    · rintro (rfl | ⟨hr, hn⟩)
      · obtain ⟨r', hr', hn⟩ := hex
        exact ⟨r', hr', if_pos hn⟩
      · exact ⟨r, hr, if_neg hn⟩
  · rename_i hno
    have hne : r ∈ rs → r.name ≠ new.name := fun hr hn => hno ⟨r, hr, hn⟩
    simp only [mem_append, mem_singleton]
    tauto

theorem setRecord_wellFormed (hnew : new.WellFormed) (h : ∀ r ∈ rs, r.WellFormed) :
    ∀ r ∈ setRecord rs new, r.WellFormed := by
  intro r hr
  rcases mem_setRecord_iff.mp hr with rfl | hr
  · exact hnew
  · exact h r hr.1

theorem length_setRecord_le (new : Record) (rs : List Record) : (setRecord rs new).length ≤ rs.length + 1 := by
  unfold setRecord
  split
  · simp
  · simp

theorem Record.WellFormed.line_newline (h : r.WellFormed) : 10 ∉ r.line := by
  have hn := h.newline
  simp only [mem_cons, not_mem_nil, or_false, forall_eq_or_imp, forall_eq] at hn
  obtain ⟨h1, h2, h3, h4, h5⟩ := hn
  simp [line, h1, h2, h3, h4, h5]

theorem filterMap_parseLine (h : ∀ r ∈ rs, r.WellFormed) : (rs.map line).filterMap parseLine = rs.map entry := by
  induction rs with
  | nil => rfl
  | cons r rs ih =>
    have hrs := ih fun r' hr' => h r' (mem_cons_of_mem _ hr')
    rw [map_cons, filterMap_cons, parseLine_line (h r mem_cons_self), hrs, map_cons]

theorem parsePasswd_closed (h : ∀ r ∈ rs, r.WellFormed) (h16 : rs.length ≤ maxUsers) :
    parsePasswd (closed 10 (rs.map line)) = rs.map entry := by
  have hfree : ∀ l ∈ rs.map line, 10 ∉ l := by
    intro l hl
    obtain ⟨r, hr, rfl⟩ := mem_map.mp hl
    exact (h r hr).line_newline
  rw [parsePasswd, pieces_closed hfree, filterMap_parseLine h, take_of_length_le (by simpa using h16)]

/-! ## Reading back -/

/-- What a user database is asked to keep when `entry` is written: it is the one entry under its name, and the
entries under other names are those from before. -/
structure RoundTrip (before after : List PasswdEntry) (entry : PasswdEntry) : Prop where
  written : entry ∈ after
  only : ∀ e ∈ after, e.name = entry.name → e = entry
  others : after.filter (fun e => e.name ≠ entry.name) = before.filter (fun e => e.name ≠ entry.name)

theorem copySlice_inj {a b : List UInt8} (ha : 0 ∉ a) (hb : 0 ∉ b) (hal : a.length ≤ 32) (hbl : b.length ≤ 32)
    (h : copySlice 32 a = copySlice 32 b) : a = b := by
  -- a list is what its buffer holds before the first zero
  have hback {c : List UInt8} (hc : 0 ∉ c) (hcl : c.length ≤ 32) :
      (copySlice 32 c).toList.takeWhile (· ≠ 0) = c := by
    rw [copySlice, take_of_length_le hcl, Bytes.toList_ofList hcl, Bytes.takeWhile_padded, takeWhile_eq_self_iff]
    exact fun x hx => decide_eq_true (ne_of_mem_of_not_mem hx hc)
  rw [← hback ha hal, h, hback hb hbl]

theorem Record.name_inj {r' : Record} (h : r.WellFormed) (h' : r'.WellFormed) :
    r.entry.name = r'.entry.name ↔ r.name = r'.name := by
  constructor
  · exact copySlice_inj h.nul h'.nul h.short h'.short
  · intro he
    show copySlice 32 r.name = copySlice 32 r'.name
    rw [he]

theorem setRecord_others (hnew : new.WellFormed) (h : ∀ r ∈ rs, r.WellFormed) :
    ((setRecord rs new).map entry).filter (fun e => e.name ≠ new.entry.name) =
      (rs.map entry).filter (fun e => e.name ≠ new.entry.name) := by
  -- among well-formed lines the name of an entry is as good as the name of its line
  have hnames {l : List Record} (hl : ∀ r ∈ l, r.WellFormed) :
      (l.map entry).filter (fun e => e.name ≠ new.entry.name) = (l.filter (·.name ≠ new.name)).map entry := by
    rw [filter_map]
    exact congrArg _ (filter_congr fun r hr => by simp [name_inj (hl r hr) hnew])
  have hmap (l : List Record) : (l.map fun r => if r.name = new.name then new else r).filter (·.name ≠ new.name) =
      l.filter (·.name ≠ new.name) := by
    induction l with
    | nil => rfl
    | cons r l ih => by_cases hn : r.name = new.name <;> simp_all
  rw [hnames (setRecord_wellFormed hnew h), hnames h, setRecord]
  split
  · rw [hmap]
  · simp

theorem roundTrip_newRecord {uid gid : UInt32}
    (hnew : (newRecord username home shell).WellFormed) (h : ∀ r ∈ rs, r.WellFormed) :
    RoundTrip (rs.map entry) ((setRecord rs (newRecord username home shell)).map entry)
        ⟨copySlice 32 username, uid, gid, copySlice 64 home, copySlice 32 shell⟩ ↔ uid = 0 ∧ gid = 0 := by
  have hentry : (newRecord username home shell).entry =
      ⟨copySlice 32 username, 0, 0, copySlice 64 home, copySlice 32 shell⟩ := rfl
  have honly : ∀ e ∈ (setRecord rs (newRecord username home shell)).map entry,
      e.name = copySlice 32 username → e = (newRecord username home shell).entry := by
    intro e he hn
    obtain ⟨r, hr, rfl⟩ := mem_map.mp he
    have hname := (name_inj (setRecord_wellFormed hnew h r hr) hnew).mp hn
    rcases mem_setRecord_iff.mp hr with rfl | hr
    · rfl
    · exact absurd hname hr.2
  constructor
  · intro ht
    have heq := honly _ ht.written rfl
    injection heq with h1 h2 h3
    exact ⟨h2, h3⟩
  · rintro ⟨rfl, rfl⟩
    exact ⟨mem_map.mpr ⟨_, mem_setRecord_iff.mpr (.inl rfl), rfl⟩, honly, setRecord_others hnew h⟩

theorem readPasswd_run {w : World} {data : List UInt8} (hf : w.file = some data) (hw : ReadsWell w)
    (hlen : data.length ≤ bufLen) : (readPasswd.run w).1 = .ok (parsePasswd data) := by
  obtain ⟨w', hrun, -⟩ := readFile_run hf hw
  unfold readPasswd
  rw [run_bind_ok hrun, take_of_length_le hlen]
  rfl

/-- The calls behave as specified: reading goes on until the end, and a write that does not fail is complete. -/
structure AsSpecified (w : World) : Prop where
  reads : ReadsWell w
  writes : ∀ k n, w.outcome .write k = .does n → bufLen ≤ n

theorem updatePasswdEntry_file {w w' : World} {data : List UInt8} {uid gid : UInt32}
    (hw : AsSpecified w) (hfile : w.file = some data) (hsize : data.length ≤ bufLen)
    (hlines : pieces 10 data = rs.map line) (hrs : ∀ r ∈ rs, r.WellFormed)
    (hlen : username.length + home.length + shell.length + 4 ≤ 256)
    (hafter : (closed 10 ((setRecord rs (newRecord username home shell)).map line)).length ≤ bufLen)
    (hrun : (updatePasswdEntry username uid gid home shell).run w = (.ok (), w')) :
    ReadsWell w' ∧ w'.file = some (closed 10 ((setRecord rs (newRecord username home shell)).map line)) := by
  obtain ⟨w₁, hread, hs⟩ := readFile_run hfile hw.reads
  rw [take_of_length_le hsize] at hread
  unfold updatePasswdEntry at hrun
  rw [run_bind_ok (run_orElse_ok hread), rewrite_eq, hlines, formatPasswdEntry_eq uid gid hlen] at hrun
  have hlines' : rewritten (treatPasswd username) (fun _ => (newRecord username home shell).line)
      (rs.map line) 0 = _ := rewritten_setRecord (newRecord username home shell) hrs
  rw [hlines', take_of_length_le hafter] at hrun
  obtain ⟨hout, n, hn, hf⟩ := (atomicRewrite_spec _ _ w₁).ok hrun
  refine ⟨hw.reads.congr (hout.trans hs.outcome), ?_⟩
  rw [hs.outcome] at hn
  rw [hf, take_of_length_le (hafter.trans (hw.writes _ n hn))]

/-- For a file of at most fifteen well-formed lines that fits the buffer before and after, an entry that is written
is read back as it is, and the others as before, if and only if its numbers are zero. -/
theorem updatePasswdEntry_roundTrip_iff {w w' : World} {username home shell data : List UInt8} {uid gid : UInt32}
    {rs : List Record} (hw : AsSpecified w) (hfile : w.file = some data) (hsize : data.length ≤ bufLen)
    (hlines : pieces 10 data = rs.map line) (hrs : ∀ r ∈ rs, r.WellFormed) (h15 : rs.length ≤ 15)
    (hu : validUsername username = true) (hhome : home.length ≤ 64 ∧ 58 ∉ home ∧ 10 ∉ home)
    (hshell : shell.length ≤ 32 ∧ 58 ∉ shell ∧ 10 ∉ shell)
    (hafter : (closed 10 ((setRecord rs (newRecord username home shell)).map line)).length ≤ bufLen)
    (hrun : (updatePasswdEntry username uid gid home shell).run w = (.ok (), w')) :
    ∃ before after, (readPasswd.run w).1 = .ok before ∧ (readPasswd.run w').1 = .ok after ∧
      (RoundTrip before after ⟨copySlice 32 username, uid, gid, copySlice 64 home, copySlice 32 shell⟩ ↔
        uid = 0 ∧ gid = 0) := by
  have hname := rootFlow_of_validUsername hu
  have hnew := newRecord_wellFormed hname hhome.2 hshell.2
  have hshort := length_le_of_validUsername hname
  obtain ⟨hreads, hfile'⟩ := updatePasswdEntry_file hw hfile hsize hlines hrs (by omega) hafter hrun
  refine ⟨_, _, readPasswd_run hfile hw.reads hsize, readPasswd_run hfile' hreads hafter, ?_⟩
  have hbefore : parsePasswd data = rs.map entry := by
    rw [parsePasswd, hlines, filterMap_parseLine hrs, take_of_length_le]
    rw [length_map, maxUsers]
    omega
  have hcount := length_setRecord_le (newRecord username home shell) rs
  rw [hbefore, parsePasswd_closed (setRecord_wellFormed hnew hrs) (by rw [maxUsers]; omega)]
  exact roundTrip_newRecord hnew hrs

/-! ## One user and a second one -/

/-- The user `ann` with the numbers 1. -/
def sampleRecord : Record := ⟨[97, 110, 110], [49], [49], [47], [47, 115]⟩

/-- A file with this user, and calls that do what they are asked for. -/
def sampleWorld : World where
  file := some (closed 10 [sampleRecord.line])
  tmp := none
  outcome := fun _ _ => .does 4096
  calls := 0

/-- The name `bob`. -/
def bob : List UInt8 := [98, 111, 98]

/-- The user `bob` with the numbers 0. -/
theorem updatePasswdEntry_roundTrip_zero :
    ∃ before after, (readPasswd.run sampleWorld).1 = .ok before ∧
      (readPasswd.run ((updatePasswdEntry bob 0 0 [47] [47, 115]).run sampleWorld).2).1 = .ok after ∧
      (RoundTrip before after ⟨copySlice 32 bob, 0, 0, copySlice 64 [47], copySlice 32 [47, 115]⟩ ↔
        (0 : UInt32) = 0 ∧ (0 : UInt32) = 0) := by
  have hok : ((updatePasswdEntry bob 0 0 [47] [47, 115]).run sampleWorld).1 = .ok () := by decide +kernel
  have hrecord : ∀ r ∈ [sampleRecord], r.WellFormed := by
    intro r hr
    rw [mem_singleton.mp hr]
    exact ⟨by decide, by decide, by decide, by decide, by decide, by decide⟩
  exact updatePasswdEntry_roundTrip_iff ⟨⟨fun _ => ⟨4096, rfl, by decide⟩, fun _ => ⟨4096, rfl⟩⟩,
      fun _ n hn => (Outcome.does.inj hn) ▸ Nat.le_refl _⟩ rfl
        (by decide +kernel) (by decide +kernel) hrecord (by decide)
    (by decide +kernel) (by decide) (by decide) (by decide +kernel) (by rw [← hok])

/-- The user `bob` with the numbers 1000 is read back as one with the numbers 0. -/
theorem updatePasswdEntry_loses_uid :
    ((updatePasswdEntry bob 1000 1000 [47] [47, 115]).run sampleWorld).1 = .ok () ∧
    ((readPasswd.run ((updatePasswdEntry bob 1000 1000 [47] [47, 115]).run sampleWorld).2).1.toOption.map
      fun users => users.map fun e => (e.name == copySlice 32 bob, e.uid, e.gid)) =
        some [(false, 1, 1), (true, 0, 0)] := by
  constructor
  · decide +kernel
  · decide +kernel

end Auth
