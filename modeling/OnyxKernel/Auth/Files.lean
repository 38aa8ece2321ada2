import OnyxKernel.Core.Errno
import OnyxKernel.Infra.Pieces
import OnyxKernel.Infra.StateProg

/-!
# Account files

`/etc/passwd` and `/etc/shadow` are read and rewritten by the programs of `init` in the same way: at most 4096
bytes are read into a buffer, the lines are copied into a second one of that size, and `atomic_rewrite` writes
it to a new file that is then renamed.

What the system calls do is in the `World`: each call has an outcome, it fails or it transfers as many bytes as
the outcome says. `rewriteLines_eq` says what a rewrite makes of the lines, up to where its buffer ends.
-/

namespace Auth

open Infra Onyx StateProg List

/-! ## System calls -/

/-- The calls that work on files. -/
inductive Call
  | open | read | create | write | unlink | rename
  deriving DecidableEq

/-- What a call does: it fails with an error, or it succeeds and transfers up to `n` bytes. -/
inductive Outcome
  | does (n : Nat)
  | fails (e : Int)
  deriving DecidableEq

/-- The file of a path, the one at the path with `.tmp` after it, and what the calls to come will do. -/
structure World where
  file : Option (List UInt8)
  tmp : Option (List UInt8)
  outcome : Call → Nat → Outcome
  calls : Nat

abbrev Sys (α : Type) := StateProg World Int α

def call (c : Call) : Sys Nat where
  run w := match w.outcome c w.calls with
    | .does n => (.ok n, { w with calls := w.calls + 1 })
    | .fails e => (.error e, { w with calls := w.calls + 1 })

/-- `open` for reading, with the contents behind the descriptor. -/
def openFile : Sys (List UInt8) := do
  let _ ← call .open
  match (← get).file with
  | none => fail Errno.noEnt.asI64
  | some data => pure data

/-- `read` of `n` bytes at the position of the descriptor. -/
def readSome (data : List UInt8) (pos n : Nat) : Sys (List UInt8) := do
  let k ← call .read
  pure (((data.drop pos).take n).take k)

/-- `create`, which refuses a path that exists. -/
def createTmp : Sys Unit := do
  let _ ← call .create
  match (← get).tmp with
  | some _ => fail Errno.exist.asI64
  | none => modify fun w => { w with tmp := some [] }

/-- `write` to the new file. -/
def writeTmp (data : List UInt8) : Sys Unit := do
  let k ← call .write
  modify fun w => { w with tmp := some (data.take k) }

/-- `unlink` of the new file; what it returns is not looked at. -/
def unlinkTmp : Sys Unit := orElse (do let _ ← call .unlink; modify fun w => { w with tmp := none }) (pure ())

/-- `rename` of the new file to the path. -/
def renameTmp : Sys Unit := do
  let _ ← call .rename
  modify fun w => { w with file := w.tmp, tmp := none }

/-! ## Reading -/

def bufLen : Nat := 4096

/-- The loop that fills the buffer: `got` is what it holds. -/
def readLoop (data : List UInt8) : Nat → List UInt8 → Sys (List UInt8)
  | 0, got => pure got
  | fuel + 1, got => do
    let chunk ← orElse (readSome data got.length (bufLen - got.length)) (pure [])
    if chunk = [] then pure got
    else if bufLen ≤ got.length + chunk.length then pure (got ++ chunk)
    else readLoop data fuel (got ++ chunk)

/-- The start of `read_passwd` and `read_shadow_password`. -/
def readFile : Sys (List UInt8) := do
  let data ← openFile
  readLoop data bufLen []

/-! ## Rewriting -/

def atomicRewrite (path data : List UInt8) : Sys Unit := do
  guard (path.length ≠ 0 && path.length + 4 < 64) (-1)
  createTmp
  onError (writeTmp data) unlinkTmp
  onError renameTmp unlinkTmp

/-- The copy of a line into the output buffer, and a newline if there is room. -/
def putLine (out line : List UInt8) : List UInt8 :=
  let out := out ++ line.take (bufLen - out.length)
  if out.length < bufLen then out ++ [10] else out

/-- How a line of the file is treated. -/
inductive Treat
  | drop
  | copy
  | replace
  deriving DecidableEq

/-- The loop of a rewrite: `entry k` is the new line in its `k`-th place. -/
def rewriteLoop (treat : List UInt8 → Treat) (entry : Nat → List UInt8) :
    List (List UInt8) → (out : List UInt8) → (k : Nat) → List UInt8 × Nat
  | [], out, k => (out, k)
  | line :: rest, out, k =>
    match treat line with
    | .drop => rewriteLoop treat entry rest out k
    | .copy => rewriteLoop treat entry rest (putLine out line) k
    | .replace => rewriteLoop treat entry rest (putLine out (entry k)) (k + 1)

/-- A rewrite of the lines, with the new line at the end if it had no place. -/
def rewrite (treat : List UInt8 → Treat) (entry : Nat → List UInt8) (data : List UInt8) : List UInt8 :=
  let (out, k) := rewriteLoop treat entry (pieces 10 data) [] 0
  if k = 0 then putLine out (entry 0) else out

/-! ## What is read -/

/-- Only calls have been made. -/
structure Same (w w' : World) : Prop where
  file : w'.file = w.file
  tmp : w'.tmp = w.tmp
  outcome : w'.outcome = w.outcome

theorem Same.trans {w w' w'' : World} (h : Same w w') (h' : Same w' w'') : Same w w'' :=
  ⟨h'.file.trans h.file, h'.tmp.trans h.tmp, h'.outcome.trans h.outcome⟩

/-- The call does not fail. -/
def Call.Works (c : Call) (outcome : Call → Nat → Outcome) : Prop := ∀ k, ∃ n, outcome c k = .does n

theorem call_spec (c : Call) (w : World) :
    wp (call c) (fun n w' => Same w w' ∧ w'.calls = w.calls + 1 ∧ w.outcome c w.calls = .does n)
      (fun _ w' => Same w w' ∧ ¬ c.Works w.outcome) w := by
  unfold wp call
  simp only
  cases hc : w.outcome c w.calls with
  | does n => exact ⟨⟨rfl, rfl, rfl⟩, rfl, rfl⟩
  | fails e =>
    refine ⟨⟨rfl, rfl, rfl⟩, fun h => ?_⟩
    obtain ⟨n, hn⟩ := h w.calls
    rw [hc] at hn
    cases hn

/-- Reading transfers something while something is left, and does not fail. -/
def ReadsWell (w : World) : Prop :=
  (∀ k, ∃ n, w.outcome .read k = .does n ∧ 0 < n) ∧ ∀ k, ∃ n, w.outcome .open k = .does n

theorem ReadsWell.congr {w w' : World} (h : ReadsWell w) (ho : w'.outcome = w.outcome) : ReadsWell w' := by
  unfold ReadsWell
  rw [ho]
  exact h

theorem readLoop_spec (data : List UInt8) : ∀ (fuel : Nat) (got : List UInt8) (w : World),
    got = data.take got.length → got.length < bufLen → bufLen ≤ got.length + fuel →
    wp (readLoop data fuel got)
      (fun got' w' => Same w w' ∧ got' = data.take got'.length ∧ got'.length ≤ bufLen ∧
        (ReadsWell w → got' = data.take bufLen)) (fun _ _ => False) w
  | 0, got, w, hgot, hlt, hfuel => by omega
  | fuel + 1, got, w, hgot, hlt, hfuel => by
    have hread : wp (orElse (readSome data got.length (bufLen - got.length)) (pure []))
        (fun chunk w' => Same w w' ∧ ∃ k, chunk = ((data.drop got.length).take (bufLen - got.length)).take k ∧
          (ReadsWell w → 0 < k)) (fun _ _ => False) w := by
      refine wp_orElse (wp_seq (call_spec .read w) ?_ ?_)
      · rintro n w' ⟨hs, -, hn⟩
        refine ⟨hs, n, rfl, fun hw => ?_⟩
        obtain ⟨n', hn', hpos⟩ := hw.1 w.calls
        rw [hn] at hn'
        exact (Outcome.does.inj hn') ▸ hpos
      · rintro e w' ⟨hs, hno⟩
        exact ⟨hs, 0, by simp, fun hw => absurd (fun k => (hw.1 k).imp fun _ h => h.1) hno⟩
    refine wp_then hread ?_
    rintro chunk w' ⟨hs, k, hchunk, hpos⟩
    have hsum : got ++ chunk = data.take (got ++ chunk).length := by
      have htake : chunk = (data.drop got.length).take chunk.length := by
        rw [hchunk, take_take, length_take, take_eq_take_min]
      conv_lhs => rw [hgot, htake]
      rw [length_append, take_add]
    have hcl : got.length + chunk.length ≤ bufLen := by
      rw [hchunk]
      simp only [length_take]
      omega
    split
    · rename_i hnil
      refine ⟨hs, hgot, by omega, fun hw => ?_⟩
      -- nothing came, so nothing is left
      have hk := hpos hw
      have hend : data.length ≤ got.length := by
        rw [hchunk] at hnil
        have := congrArg length hnil
        simp only [length_take, length_drop, length_nil] at this
        omega
      rw [hgot, take_of_length_le hend, take_of_length_le (by omega)]
    split
    · rename_i hfull
      refine ⟨hs, hsum, by rw [length_append]; exact hcl, fun _ => ?_⟩
      have hlen' : (got ++ chunk).length = bufLen := by
        rw [length_append]
        omega
      rw [hsum, hlen']
    · rename_i hne hroom
      have hsome : 0 < chunk.length := length_pos_iff.mpr hne
      refine wp_imp (readLoop_spec data fuel (got ++ chunk) w' hsum ?_ ?_) ?_
      · rw [length_append]
        omega
      · rw [length_append]
        omega
      · rintro got' w'' ⟨hs', hgot', hle', hall⟩
        exact ⟨hs.trans hs', hgot', hle', fun hw => hall (hw.congr hs.outcome)⟩

variable (w : World)

theorem openFile_spec : wp openFile (fun data w' => Same w w' ∧ w.file = some data)
      (fun _ w' => Same w w' ∧ (w.file = none ∨ ¬ ReadsWell w)) w := by
  refine wp_seq (call_spec .open w) ?_ ?_
  · rintro n w' ⟨hs, -⟩
    show wp (match w'.file with
      | none => fail Errno.noEnt.asI64
      | some data => pure data) _ _ w'
    cases hf : w'.file with
    | none => exact ⟨hs, .inl (hs.file.symm.trans hf)⟩
    | some data => exact ⟨hs, hs.file.symm.trans hf⟩
  · rintro e w' ⟨hs, hno⟩
    exact ⟨hs, .inr fun hw => hno hw.2⟩

theorem readFile_spec :
    wp readFile (fun got w' => Same w w' ∧ ∃ data, w.file = some data ∧ got = data.take got.length ∧
        got.length ≤ bufLen ∧ (ReadsWell w → got = data.take bufLen))
      (fun _ w' => Same w w' ∧ (w.file = none ∨ ¬ ReadsWell w)) w := by
  refine wp_then (openFile_spec w) ?_
  rintro data w' ⟨hs, hf⟩
  refine wp_mono (readLoop_spec data bufLen [] w' (by simp) (by decide) (by simp)) ?_ fun _ _ h => h.elim
  rintro got w'' ⟨hs', hgot, hle, hall⟩
  exact ⟨hs.trans hs', data, hf, hgot, hle, fun hw => hall (hw.congr hs.outcome)⟩

theorem readFile_run {w : World} {data : List UInt8} (hf : w.file = some data) (hw : ReadsWell w) :
    ∃ w', readFile.run w = (.ok (data.take bufLen), w') ∧ Same w w' := by
  have hspec : wp readFile (fun got w' => got = data.take bufLen ∧ Same w w') (fun _ _ => False) w := by
    refine wp_mono (readFile_spec w) ?_ ?_
    · rintro got w' ⟨hs, data', hf', -, -, hall⟩
      rw [hf] at hf'
      exact ⟨Option.some.inj hf' ▸ hall hw, hs⟩
    · rintro e w' ⟨-, hnone | hbad⟩
      · rw [hf] at hnone
        cases hnone
      · exact hbad hw
  obtain ⟨got, w', hrun, rfl, hs⟩ := hspec.returned
  exact ⟨w', hrun, hs⟩

theorem unlinkTmp_spec : wp unlinkTmp (fun _ w' => w'.file = w.file) (fun _ _ => False) w := by
  refine wp_orElse (wp_seq (call_spec .unlink w) ?_ ?_)
  · rintro n w' ⟨hs, -⟩
    exact hs.file
  · rintro e w' ⟨hs, -⟩
    exact hs.file

theorem createTmp_spec :
    wp createTmp (fun _ w' => w'.file = w.file ∧ w'.outcome = w.outcome ∧ w'.calls = w.calls + 1)
      (fun _ w' => w'.file = w.file ∧ (Call.create.Works w.outcome → w.tmp ≠ none)) w := by
  refine wp_seq (call_spec .create w) ?_ ?_
  · rintro n w' ⟨hs, hcalls, -⟩
    show wp (match w'.tmp with
      | some _ => fail Errno.exist.asI64
      | none => modify fun w => { w with tmp := some [] }) _ _ w'
    cases ht : w'.tmp with
    | some _ => exact ⟨hs.file, fun _ hn => nomatch ht.symm.trans (hs.tmp.trans hn)⟩
    | none => exact ⟨hs.file, hs.outcome, hcalls⟩
  · rintro e w' ⟨hs, hno⟩
    exact ⟨hs.file, fun h => absurd h hno⟩

theorem writeTmp_spec (data : List UInt8) (w : World) :
    wp (onError (writeTmp data) unlinkTmp) (fun _ w' => w'.file = w.file ∧ w'.outcome = w.outcome ∧
        ∃ n, w.outcome .write w.calls = .does n ∧ w'.tmp = some (data.take n))
      (fun _ w' => w'.file = w.file ∧ ¬ Call.write.Works w.outcome) w := by
  refine wp_onError ?_
  refine wp_seq (call_spec .write w) ?_ ?_
  · rintro n w' ⟨hs, -, hn⟩
    exact ⟨hs.file, hs.outcome, n, hn, rfl⟩
  · rintro e w' ⟨hs, hno⟩
    refine wp_mono (unlinkTmp_spec w') ?_ fun _ _ h => h.elim
    intro _ w'' h
    exact ⟨h.trans hs.file, hno⟩

theorem renameTmp_spec :
    wp (onError renameTmp unlinkTmp) (fun _ w' => w'.file = w.tmp ∧ w'.outcome = w.outcome)
      (fun _ w' => w'.file = w.file ∧ ¬ Call.rename.Works w.outcome) w := by
  refine wp_onError ?_
  refine wp_seq (call_spec .rename w) ?_ ?_
  · rintro n w' ⟨hs, -⟩
    exact ⟨hs.tmp, hs.outcome⟩
  · rintro e w' ⟨hs, hno⟩
    refine wp_mono (unlinkTmp_spec w') ?_ fun _ _ h => h.elim
    intro _ w'' h
    exact ⟨h.trans hs.file, hno⟩

/-- A rewrite that succeeds leaves what its `write` has transferred, and one that fails leaves the file alone. It fails
only if the path is too long, the new file exists or a call does not work. -/
theorem atomicRewrite_spec (path data : List UInt8) (w : World) :
    wp (atomicRewrite path data) (fun _ w' => w'.outcome = w.outcome ∧
        ∃ n, w.outcome .write (w.calls + 1) = .does n ∧ w'.file = some (data.take n))
      (fun _ w' => w'.file = w.file ∧ ¬ ((path.length ≠ 0 ∧ path.length + 4 < 64) ∧ w.tmp = none ∧
        ∀ c ∈ [Call.create, .write, .rename], c.Works w.outcome)) w := by
  refine wp_then (Q := fun _ w' => w' = w) (wp_guard (fun _ => rfl) fun hc => ⟨rfl, fun h => ?_⟩) ?_
  · simp [h.1] at hc
  rintro - w₀ rfl
  refine wp_seq (createTmp_spec w₀) ?_ fun _ _ h => ⟨h.1, fun hw => h.2 (hw.2.2 _ (by simp)) hw.2.1⟩
  rintro - w₁ ⟨hfile₁, hout₁, hcalls⟩
  refine wp_seq (writeTmp_spec data w₁) ?_ fun _ _ h =>
    ⟨h.1.trans hfile₁, fun hw => h.2 (hout₁ ▸ hw.2.2 _ (by simp))⟩
  rintro - w₂ ⟨hfile₂, hout₂, n, hn, htmp⟩
  have hout := hout₂.trans hout₁
  refine wp_mono (renameTmp_spec w₂) ?_ fun _ _ h =>
    ⟨h.1.trans (hfile₂.trans hfile₁), fun hw => h.2 (hout ▸ hw.2.2 _ (by simp))⟩
  rintro - w₃ ⟨hfile₃, hout₃⟩
  rw [hout₁, hcalls] at hn
  exact ⟨hout₃.trans hout, n, hn, hfile₃.trans htmp⟩

theorem atomicRewrite_works {path : List UInt8} (data : List UInt8) {w : World} {n : Nat}
    (hpath : path.length ≠ 0 ∧ path.length + 4 < 64) (htmp : w.tmp = none)
    (hout : ∀ c ∈ [Call.create, .write, .rename], ∀ k, w.outcome c k = .does n) :
    ∃ w', (atomicRewrite path data).run w = (.ok (), w') := by
  rcases hrun : (atomicRewrite path data).run w with ⟨e | _, w'⟩
  · exact absurd ⟨hpath, htmp, fun c hc k => ⟨n, hout c hc k⟩⟩ ((atomicRewrite_spec path data w).error hrun).2
  · exact ⟨w', rfl⟩

/-! ## What a rewrite makes of the lines -/

/-- The lines after a rewrite that has already placed `k` new lines. -/
def rewritten (treat : List UInt8 → Treat) (entry : Nat → List UInt8) :
    List (List UInt8) → Nat → List (List UInt8)
  | [], k => if k = 0 then [entry 0] else []
  | line :: rest, k =>
    match treat line with
    | .drop => rewritten treat entry rest k
    | .copy => line :: rewritten treat entry rest k
    | .replace => entry k :: rewritten treat entry rest (k + 1)

theorem rewritten_free (treat : List UInt8 → Treat) {entry : Nat → List UInt8} (hentry : ∀ k, 10 ∉ entry k) :
    ∀ (ls : List (List UInt8)) (k : Nat), (∀ l ∈ ls, 10 ∉ l) → ∀ l ∈ rewritten treat entry ls k, 10 ∉ l
  | [], k, _, l, hl => by
    unfold rewritten at hl
    split at hl
    · rw [mem_singleton.mp hl]
      exact hentry 0
    · cases hl
  | line :: rest, k, h, l, hl => by
    have ih := fun k => rewritten_free treat hentry rest k fun l hl => h l (mem_cons_of_mem _ hl)
    unfold rewritten at hl
    cases ht : treat line with rw [ht] at hl
    | drop => exact ih k l hl
    | copy =>
      rcases mem_cons.mp hl with rfl | hl
      · exact h l mem_cons_self
      · exact ih k l hl
    | replace =>
      rcases mem_cons.mp hl with rfl | hl
      · exact hentry k
      · exact ih (k + 1) l hl

theorem putLine_take (text line : List UInt8) :
    putLine (text.take bufLen) line = (text ++ (line ++ [10])).take bufLen := by
  unfold putLine
  simp only [length_append, length_take]
  by_cases h : text.length < bufLen
  · rw [take_of_length_le (Nat.le_of_lt h), Nat.min_eq_right (Nat.le_of_lt h)]
    by_cases hl : text.length + line.length < bufLen
    · rw [if_pos (by omega), take_of_length_le (by omega : line.length ≤ _), append_assoc, take_of_length_le]
      simp only [length_append, length_singleton]
      omega
    · rw [if_neg (by omega), take_append, take_append, take_of_length_le (Nat.le_of_lt h)]
      have : bufLen - text.length - line.length = 0 := by omega
      rw [this]
      simp
  · rw [Nat.min_eq_left (by omega), Nat.sub_self, take_zero, append_nil, if_neg (by simp),
      take_append_of_le_length (by omega)]

theorem rewriteLoop_eq (treat : List UInt8 → Treat) (entry : Nat → List UInt8) :
    ∀ (ls : List (List UInt8)) (text : List UInt8) (k : Nat),
      (let r := rewriteLoop treat entry ls (text.take bufLen) k
       if r.2 = 0 then putLine r.1 (entry 0) else r.1) = (text ++ closed 10 (rewritten treat entry ls k)).take bufLen
  | [], text, k => by
    unfold rewriteLoop rewritten
    simp only
    split
    · rw [putLine_take]
      simp
    · simp
  | line :: rest, text, k => by
    unfold rewriteLoop rewritten
    cases treat line with
    | drop => exact rewriteLoop_eq treat entry rest text k
    | copy =>
      simp only [putLine_take]
      rw [rewriteLoop_eq treat entry rest _ k]
      simp
    | replace =>
      simp only [putLine_take]
      rw [rewriteLoop_eq treat entry rest _ (k + 1)]
      simp

theorem rewrite_eq (treat : List UInt8 → Treat) (entry : Nat → List UInt8) (data : List UInt8) :
    rewrite treat entry data = (closed 10 (rewritten treat entry (pieces 10 data) 0)).take bufLen := by
  have h := rewriteLoop_eq treat entry (pieces 10 data) [] 0
  exact h

end Auth
