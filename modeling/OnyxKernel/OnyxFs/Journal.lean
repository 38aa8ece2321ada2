import OnyxKernel.OnyxFs.State

/-!
# The journal

`journal_log`, `journal_commit` and `journal_recover` of `fs/onyxfs/journal.rs`.

On a device without faults each of them is a list of block writes (`logWrites`, `commitWrites`,
`recoverWrites`), which is a function of the state it starts from. A crash inside one of them leaves
a prefix of that list on the disk, so everything about crashes is said about these lists.
-/

namespace OnyxFs

open Infra Onyx StateProg

/-! ## The functions of the source -/

def journalLog (blockNum : Nat) (data : Block) : Fs Unit := do
  let s ← get
  if s.sb.hasJournal = false then pure ()
  else if s.sb.journalSize.toNat ≤ s.head then fail .noSpace
  else do
    writeBlock (s.sb.journalStart.toNat + s.head) (logEntry (UInt32.ofNat blockNum) data)
    modify fun t => { t with head := s.head + 1 }

/-- `journal_log(blk, data)?; write_block(blk, data)?`: the only way an operation changes a block. -/
def logWrite (blk : Nat) (data : Block) : Fs Unit := do
  journalLog blk data
  writeInPlace blk data

def journalCommit : Fs Unit := do
  let s ← get
  if s.sb.hasJournal = false then pure ()
  else if s.head = 0 then pure ()
  else do
    let start := s.sb.journalStart.toNat
    onlyIf (s.head < s.sb.journalSize.toNat) (writeBlock (start + s.head) commitEntry)
    modify fun t => { t with head := 0 }
    forUpTo s.head 0 fun j => writeBlock (start + j) Bytes.zero
    onlyIf (s.head < s.sb.journalSize.toNat) (writeBlock (start + s.head) Bytes.zero)

/-- `let _ = read_block(blk, &mut buf)` on a zeroed buffer. -/
def readIgnoringError (blk : Nat) : Fs Block where
  run s := match s.fault s.ticks with
    | none => (.ok (s.disk blk), { s with ticks := s.ticks + 1 })
    | some n => (.ok (Bytes.zero.blitTake (512 * n.1) (s.disk blk)), { s with ticks := s.ticks + 1 })

/-- One round of the scan: `some` ends it, with the position of the marker if it is one. -/
def scanRound (start i : Nat) : Fs (Option (Option Nat)) := do
  let entry ← readLocal (start + i)
  match journalScanStep (journalEntryType entry) with
  | .continue => pure none
  | .commit => pure (some (some i))
  | .stop => pure (some none)

def replayRound (start j : Nat) : Fs Unit := do
  let entry ← readLocal (start + j)
  match journalReplayEntry entry with
  | none => pure ()
  | some (blockNum, data) => do
    let blk ← readIgnoringError blockNum.toNat
    writeBlock blockNum.toNat (blk.blit 0 data)

def journalRecover : Fs Unit := do
  let s ← get
  if s.sb.hasJournal = false then pure ()
  else do
    let start := s.sb.journalStart.toNat
    let found ← findUpTo s.sb.journalSize.toNat 0 (scanRound start)
    match found.join with
    | none => modify fun t => { t with head := 0 }
    | some commitAt => do
      forUpTo commitAt 0 (replayRound start)
      forUpTo (commitAt + 1) 0 fun j => writeBlock (start + j) Bytes.zero
      modify fun t => { t with head := 0 }

/-! ## The block writes of each function -/

/-- The writes of `logWrite` when there is a journal with room. -/
def logWrites (start head blk : Nat) (data : Block) : List (Nat × Block) :=
  [(start + head, logEntry (UInt32.ofNat blk) data), (blk, data)]

/-- Zeroing `n` blocks from `start` on. -/
def zeroWrites (start n : Nat) : List (Nat × Block) := (List.range n).map fun j => (start + j, Bytes.zero)

/-- The writes of `journal_commit` for a transaction of `head` entries. -/
def commitWrites (start size head : Nat) : List (Nat × Block) :=
  if head = 0 then []
  else if head < size then (start + head, commitEntry) :: zeroWrites start (head + 1)
  else zeroWrites start head

def scanCommit (d : Disk Block) (start : Nat) : (n i : Nat) → Option Nat
  | 0, _ => none
  | n + 1, i =>
    match journalScanStep (journalEntryType (d (start + i))) with
    | .continue => scanCommit d start n (i + 1)
    | .commit => some i
    | .stop => none

/-- The writes of the replay of `n` entries from entry `j` on. -/
def replayWrites (start : Nat) : (n j : Nat) → Disk Block → List (Nat × Block)
  | 0, _, _ => []
  | n + 1, j, d =>
    match journalReplayEntry (d (start + j)) with
    | none => replayWrites start n (j + 1) d
    | some (b, data) =>
      (b.toNat, (d b.toNat).blit 0 data) ::
        replayWrites start n (j + 1) (Function.update d b.toNat ((d b.toNat).blit 0 data))

/-- The writes of `journal_recover` on a volume with contents `d`. -/
def recoverWrites (sb : Super) (d : Disk Block) : List (Nat × Block) :=
  if sb.hasJournal = false then []
  else match scanCommit d sb.journalStart.toNat sb.journalSize.toNat 0 with
    | none => []
    | some k =>
      replayWrites sb.journalStart.toNat k 0 d ++ zeroWrites sb.journalStart.toNat (k + 1)

theorem zeroWrites_succ (start n : Nat) :
    zeroWrites start (n + 1) = zeroWrites start n ++ [(start + n, Bytes.zero)] := by
  simp [zeroWrites, List.range_succ]

/-! ## On a device without faults the functions make these writes -/

section NoFaults

variable {s : FsState}

theorem logWrite_spec (h : s.NoFaults) (hj : s.sb.hasJournal = true)
    (hroom : s.head < s.sb.journalSize.toNat) (blk : Nat) (data : Block) : wp (logWrite blk data)
      (fun _ t => s.Wrote t (logWrites s.sb.journalStart.toNat s.head blk data) [(blk, data)] ∧
        t.head = s.head + 1) never s := by
  unfold logWrite journalLog
  rw [wp_bind, wp_bind, wp_get, if_neg (by simp [hj]), if_neg (by omega)]
  refine wp_then (writeBlock_spec h _ _) fun _ t ht => ?_
  rw [wp_modify]
  refine wp_imp (writeInPlace_spec ?_ blk data) fun _ u hu => ?_
  · exact ht.1.noFaults h
  · exact ⟨(ht.1.setHead (s.head + 1)).trans hu.1, hu.2⟩

theorem logWrite_full (hj : s.sb.hasJournal = true) (hfull : s.sb.journalSize.toNat ≤ s.head)
    (blk : Nat) (data : Block) : (logWrite blk data).run s = (.error .noSpace, s) := by
  have hlog : (journalLog blk data).run s = (.error .noSpace, s) := by
    unfold journalLog
    rw [run_bind_ok (a := s) rfl, if_neg (by simp [hj]), if_pos hfull]
    rfl
  exact run_bind_error hlog

theorem zeroLoop_spec (h : s.NoFaults) (start n : Nat) :
    wp (forUpTo n 0 fun j => writeBlock (start + j) Bytes.zero)
      (fun _ t => s.Wrote t (zeroWrites start n) [] ∧ t.head = s.head) never s := by
  have hloop : wp (forUpTo n 0 fun j => writeBlock (start + j) Bytes.zero)
      (fun _ t => s.Wrote t (zeroWrites start (0 + n)) [] ∧ t.head = s.head) never s := by
    refine wp_forUpTo (fun j t => s.Wrote t (zeroWrites start j) [] ∧ t.head = s.head) n 0 s
      ⟨FsState.Wrote.refl s, rfl⟩ fun j t _ _ ht => ?_
    refine wp_imp (writeBlock_spec (ht.1.noFaults h) _ _) fun _ u hu => ?_
    rw [zeroWrites_succ]
    exact ⟨ht.1.trans hu.1, hu.2.trans ht.2⟩
  rwa [Nat.zero_add] at hloop

theorem journalCommit_spec (h : s.NoFaults) (hj : s.sb.hasJournal = true) : wp journalCommit
      (fun _ t => s.Wrote t
        (commitWrites s.sb.journalStart.toNat s.sb.journalSize.toNat s.head) [] ∧ t.head = 0)
      never s := by
  unfold journalCommit commitWrites
  rw [wp_bind, wp_get, if_neg (by simp [hj])]
  by_cases h0 : s.head = 0
  · rw [if_pos h0, if_pos h0]
    exact ⟨FsState.Wrote.refl s, h0⟩
  rw [if_neg h0, if_neg h0]
  by_cases hlt : s.head < s.sb.journalSize.toNat
  · simp only [onlyIf, if_pos hlt]
    refine wp_then (writeBlock_spec h _ _) fun _ t ht => ?_
    rw [wp_bind, wp_modify]
    have htz := (ht.1.setHead 0)
    refine wp_then (zeroLoop_spec (htz.noFaults h) _ _) fun _ u hu => ?_
    have huz := htz.trans hu.1
    refine wp_imp (writeBlock_spec (huz.noFaults h) _ _) fun _ v hv => ?_
    refine ⟨?_, hv.2.trans hu.2⟩
    have := huz.trans hv.1
    rwa [List.append_assoc, ← zeroWrites_succ] at this
  · simp only [onlyIf, if_neg hlt]
    rw [wp_bind, wp_ret, wp_bind, wp_modify]
    have hsz := (FsState.Wrote.refl s).setHead 0
    refine wp_then (zeroLoop_spec (hsz.noFaults h) _ _) fun _ u hu => ?_
    exact ⟨hsz.trans hu.1, hu.2⟩

theorem replayRound_spec (h : s.NoFaults) (start j : Nat) : wp (replayRound start j)
      (fun _ t => s.Wrote t (match journalReplayEntry (s.disk (start + j)) with
        | none => []
        | some (b, data) => [(b.toNat, (s.disk b.toNat).blit 0 data)]) [] ∧ t.head = s.head)
      never s := by
  refine wp_then (readLocal_spec h _) fun x t ht => ?_
  obtain ⟨rfl, ht, hhead⟩ := ht
  cases he : journalReplayEntry (s.disk (start + j)) with
  | none => exact ⟨ht, hhead⟩
  | some e =>
    have hread : (readIgnoringError e.1.toNat).run t = (.ok (t.disk e.1.toNat), { t with ticks := t.ticks + 1 }) := by
      simp only [readIgnoringError, ht.noFaults h t.ticks]
    have htick : s.Wrote { t with ticks := t.ticks + 1 } [] [] := { ht with }
    have hdisk : t.disk e.1.toNat = s.disk e.1.toNat := by rw [ht.disk, applyWrites_nil]
    refine wp_bind.mpr (wp_of_run_ok hread ?_)
    refine wp_imp (writeBlock_spec (htick.noFaults h) _ _) fun _ u hu => ?_
    rw [hdisk] at hu
    exact ⟨htick.trans hu.1, hu.2.trans hhead⟩

theorem replayLoop_spec (start : Nat) : ∀ (n j : Nat) {s : FsState}, s.NoFaults →
    wp (forUpTo n j (replayRound start))
      (fun _ t => s.Wrote t (replayWrites start n j s.disk) [] ∧ t.head = s.head) never s
  | 0, _, s, _ => ⟨FsState.Wrote.refl s, rfl⟩
  | n + 1, j, s, h => by
    refine wp_then (replayRound_spec h start j) fun _ t ht => ?_
    refine wp_imp (replayLoop_spec start n (j + 1) (ht.1.noFaults h)) fun _ u hu => ?_
    refine ⟨?_, hu.2.trans ht.2⟩
    have hall := ht.1.trans hu.1
    rw [ht.1.disk] at hall
    unfold replayWrites
    cases he : journalReplayEntry (s.disk (start + j)) with
    | none => simpa only [he, applyWrites_nil, List.nil_append] using hall
    | some e =>
      simpa only [he, applyWrites_cons, applyWrites_nil, List.singleton_append, List.nil_append] using hall

theorem scanLoop_spec (start : Nat) : ∀ (n i : Nat) {s : FsState}, s.NoFaults →
    wp (findUpTo n i (scanRound start))
      (fun r t => r.join = scanCommit s.disk start n i ∧ s.Wrote t [] [] ∧ t.head = s.head) never s
  | 0, _, s, _ => ⟨rfl, FsState.Wrote.refl s, rfl⟩
  | n + 1, i, s, h => by
    unfold findUpTo scanRound scanCommit
    rw [wp_bind]
    refine wp_then (readLocal_spec h _) fun x t ht => ?_
    obtain ⟨rfl, ht, hhead⟩ := ht
    cases hstep : journalScanStep (journalEntryType (s.disk (start + i))) with
    | «continue» =>
      show wp (findUpTo n (i + 1) (scanRound start)) _ never t
      refine wp_imp (scanLoop_spec start n (i + 1) (ht.noFaults h)) fun r u hu => ?_
      obtain ⟨hr, hu, hhead'⟩ := hu
      rw [ht.disk, applyWrites_nil] at hr
      exact ⟨hr, ht.trans hu, hhead'.trans hhead⟩
    | commit | stop => exact ⟨rfl, ht, hhead⟩

theorem journalRecover_spec (h : s.NoFaults) (hj : s.sb.hasJournal = true) :
    wp journalRecover (fun _ t => s.Wrote t (recoverWrites s.sb s.disk) [] ∧ t.head = 0) never s := by
  unfold journalRecover recoverWrites
  rw [wp_bind, wp_get, if_neg (by simp [hj]), if_neg (by simp [hj])]
  refine wp_then (scanLoop_spec _ _ _ h) fun r t ht => ?_
  obtain ⟨hr, ht, -⟩ := ht
  rw [hr]
  have hdisk : t.disk = s.disk := by rw [ht.disk, applyWrites_nil]
  cases hscan : scanCommit s.disk s.sb.journalStart.toNat s.sb.journalSize.toNat 0 with
  | none => exact ⟨ht.setHead 0, rfl⟩
  | some k =>
    refine wp_then (replayLoop_spec _ k 0 (ht.noFaults h)) fun _ u hu => ?_
    rw [hdisk] at hu
    have htu := ht.trans hu.1
    refine wp_then (zeroLoop_spec (htu.noFaults h) _ _) fun _ v hv => ?_
    exact ⟨(htu.trans hv.1).setHead 0, rfl⟩

end NoFaults

end OnyxFs
