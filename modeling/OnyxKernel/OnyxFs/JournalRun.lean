import OnyxKernel.OnyxFs.JournalReplay

/-!
# Runs of the journal with crashes

A run is a sequence of `journal_log` calls, each followed by the in-place write of its block, and
`journal_commit` calls. Any of them can be cut after any number of block writes; the volume is then
mounted again, and `journal_recover` can be cut in the same way any number of times before it
completes. The device reports no errors and a block write is atomic.

`latest` keeps the entries logged since the last commit or mount.
-/

namespace OnyxFs

open Infra Onyx StateProg List

/-- One call of a transaction. -/
inductive JournalCall
  | log (blk : Nat) (data : Block)
  | commit

def JournalCall.prog : JournalCall → Fs Unit
  | log blk data => logWrite blk data
  | commit => journalCommit

def JournalCall.Valid (sb : Super) : JournalCall → Prop
  | log blk _ => Loggable sb blk
  | commit => True

/-- The entries of the latest transaction after a call that returned `r`. -/
def JournalCall.latest (T : List (Nat × Block)) : JournalCall → Except Errno Unit →
    List (Nat × Block)
  | log blk data, .ok _ => T ++ [(blk, data)]
  | log _ _, .error _ => T
  | commit, _ => []

def callWrites (c : JournalCall) (s : FsState) : List (Nat × Block) := (c.prog.run s).2.trace.drop s.trace.length

/-- The driver's memory after a restart, over a volume with contents `d`. -/
def FsState.remount (s : FsState) (d : Disk Block) : FsState :=
  { s with disk := d, buf := Bytes.zero, head := 0, ticks := 0, trace := [], inPlace := [] }

/-- The block writes of `journal_recover` after a restart. -/
def mountWrites (s : FsState) (d : Disk Block) : List (Nat × Block) := (journalRecover.run (s.remount d)).2.trace

/-- A `journal_recover` cut after `k` block writes. -/
def recoverCut (s : FsState) (d : Disk Block) (k : Nat) : Disk Block :=
  applyWrites ((mountWrites s d).take k) d

/-- Everything recovery writes after a crash: the attempts cut as `ks` says, then a complete one. -/
def recoveryWrites (s : FsState) : Disk Block → List Nat → List (Nat × Block)
  | d, [] => mountWrites s d
  | d, k :: ks => (mountWrites s d).take k ++ recoveryWrites s (recoverCut s d k) ks

/-- A completed `journal_recover` after the attempts that `ks` cuts. -/
def remounted (s : FsState) (d : Disk Block) (ks : List Nat) : Except Errno Unit × FsState :=
  journalRecover.run (s.remount (ks.foldl (recoverCut s) d))

/-- Runs from an all-zero journal area, with the entries of the latest transaction. -/
inductive JournalRun : FsState → List (Nat × Block) → Prop
  | start {s : FsState} (hj : s.sb.hasJournal = true) (hf : s.NoFaults) (h0 : s.head = 0)
      (hz : ∀ b, InJournal s.sb b → s.disk b = Bytes.zero) : JournalRun s []
  | call {s : FsState} {T : List (Nat × Block)} (h : JournalRun s T) (c : JournalCall)
      (hc : c.Valid s.sb) : JournalRun (c.prog.run s).2 (c.latest T (c.prog.run s).1)
  | crash {s : FsState} {T : List (Nat × Block)} (h : JournalRun s T) (c : JournalCall)
      (hc : c.Valid s.sb) (k : Nat) (ks : List Nat) :
      JournalRun (remounted s (applyWrites ((callWrites c s).take k) s.disk) ks).2 []

/-! ## The invariant of a run -/

/-- What holds between two calls. -/
structure Logging (s : FsState) (T : List (Nat × Block)) : Prop where
  hasJournal : s.sb.hasJournal = true
  noFaults : s.NoFaults
  head : s.head = T.length
  targets : ∀ w ∈ T, Loggable s.sb w.1
  pending : Pending s.sb T s.disk

section Steps

variable {s : FsState} {T : List (Nat × Block)}

theorem Logging.log_ok (h : Logging s T) {blk : Nat} (hb : Loggable s.sb blk) (data : Block)
    (hroom : T.length < s.sb.journalSize.toNat) : ∃ t, (logWrite blk data).run s = (.ok (), t) ∧
      s.Wrote t (logWrites s.sb.journalStart.toNat T.length blk data) [(blk, data)] ∧
      Logging t (T ++ [(blk, data)]) := by
  obtain ⟨_, t, hrun, hw, hhead⟩ :=
    (logWrite_spec h.noFaults h.hasJournal (by rw [h.head]; exact hroom) blk data).returned
  rw [h.head] at hw
  refine ⟨t, hrun, hw, ⟨by rw [hw.sb]; exact h.hasJournal, hw.noFaults h.noFaults, ?_, ?_, ?_⟩⟩
  · rw [hhead, h.head, length_append]
    rfl
  · intro w hwT
    rw [hw.sb]
    rcases mem_append.mp hwT with hwT | hwT
    · exact h.targets w hwT
    · rw [mem_singleton.mp hwT]
      exact hb
  · rw [hw.sb, hw.disk]
    exact h.pending.log h.targets hb data hroom

theorem Logging.commit_ok (h : Logging s T) : ∃ t, journalCommit.run s = (.ok (), t) ∧
      s.Wrote t (commitWrites s.sb.journalStart.toNat s.sb.journalSize.toNat T.length) [] ∧
      t.head = 0 := by
  obtain ⟨_, t, hrun, hw, hhead⟩ := (journalCommit_spec h.noFaults h.hasJournal).returned
  rw [h.head] at hw
  exact ⟨t, hrun, hw, hhead⟩

variable {c : JournalCall} {d : Disk Block} {sb : Super}

/-- A call cut after `k` block writes. Either no marker was written and the area is quiet, or the
marker of `T` was, and every entry of `T` is still there or no longer needed. -/
theorem Logging.cut (h : Logging s T) (hc : c.Valid s.sb) (k : Nat)
    {ws : List (Nat × Block)} (hws : ws = (callWrites c s).take k) :
    ((s.sb.journalStart.toNat + T.length, commitEntry) ∉ ws ∧ Quiet s.sb (applyWrites ws s.disk)) ∨
    ((s.sb.journalStart.toNat + T.length, commitEntry) ∈ ws ∧
      ((∃ j, Marked s.sb T j (applyWrites ws s.disk)) ∨
        Quiet s.sb (applyWrites ws s.disk) ∧ Synced T (applyWrites ws s.disk))) := by
  cases c with
  | log blk data =>
    left
    by_cases hroom : T.length < s.sb.journalSize.toNat
    · obtain ⟨t, hrun, hw, -⟩ := h.log_ok hc data hroom
      have hcall : callWrites (.log blk data) s = logWrites s.sb.journalStart.toNat T.length blk data := by
        simp only [callWrites, JournalCall.prog, hrun, hw.trace, drop_left]
      subst hws
      rw [hcall]
      refine ⟨fun hmem => ?_, h.pending.log_take hc data k⟩
      -- Neither of the two writes is a marker: one is a log entry, the other is outside the area.
      rcases mem_cons.mp (mem_of_mem_take hmem) with he | he
      · have htype := journalEntryType_logEntry (UInt32.ofNat blk) data
        rw [← (Prod.mk.inj he).2, journalEntryType_commitEntry] at htype
        exact absurd htype (by decide)
      · exact hc.ne_slot hroom (Prod.mk.inj (mem_singleton.mp he)).1.symm
    · have hfull := logWrite_full h.hasJournal (by rw [h.head]; omega) blk data
      have hcall : callWrites (.log blk data) s = [] := by
        simp only [callWrites, JournalCall.prog, hfull, drop_length]
      subst hws
      rw [hcall, take_nil]
      exact ⟨not_mem_nil, h.pending.quiet⟩
  | commit =>
    obtain ⟨t, hrun, hw, -⟩ := h.commit_ok
    have hcall : callWrites .commit s = commitWrites s.sb.journalStart.toNat s.sb.journalSize.toNat T.length := by
      simp only [callWrites, JournalCall.prog, hrun, hw.trace, drop_left]
    exact h.pending.commit_take h.targets k (by rw [hws, hcall])

/-! ## Recovery -/

theorem Logging.mount_ok (h : Logging s T) (d : Disk Block) :
    ∃ t, journalRecover.run (s.remount d) = (.ok (), t) ∧
      (s.remount d).Wrote t (recoverWrites s.sb d) [] ∧ t.head = 0 := by
  obtain ⟨_, t, hrun, hw, hhead⟩ := (journalRecover_spec (s := s.remount d) h.noFaults h.hasJournal).returned
  exact ⟨t, hrun, hw, hhead⟩

theorem Logging.mountWrites (h : Logging s T) (d : Disk Block) : OnyxFs.mountWrites s d = recoverWrites s.sb d := by
  obtain ⟨t, hrun, hw, -⟩ := h.mount_ok d
  simp only [OnyxFs.mountWrites, hrun, hw.trace]
  rfl

theorem Logging.remounted_disk (h : Logging s T) (d : Disk Block) (ks : List Nat) :
    (remounted s d ks).2.disk = applyWrites (recoveryWrites s d ks) d := by
  induction ks generalizing d with
  | nil =>
    obtain ⟨t, hrun, hw, -⟩ := h.mount_ok d
    simp only [remounted, foldl_nil, recoveryWrites, h.mountWrites, hrun, hw.disk]
    rfl
  | cons k ks ih =>
    rw [recoveryWrites, applyWrites_append]
    exact ih _

theorem Logging.recoveryWrites_of_quiet (h : Logging s T) (hd : Quiet s.sb d)
    (ks : List Nat) : recoveryWrites s d ks = [] := by
  have hnone : OnyxFs.mountWrites s d = [] := by rw [h.mountWrites, recoverWrites_of_quiet hd]
  induction ks with
  | nil => exact hnone
  | cons k ks ih =>
    have hcut : recoverCut s d k = d := by rw [recoverCut, hnone, take_nil, applyWrites_nil]
    rw [recoveryWrites, hnone, take_nil, nil_append, hcut, ih]

/-- The committed transaction `T` can still be recovered, or has been. -/
def Recoverable (sb : Super) (T : List (Nat × Block)) (d : Disk Block) : Prop :=
  (∃ j, Marked sb T j d) ∨ Quiet sb d ∧ Synced T d

section

variable (hd : Recoverable sb T d) (hj : sb.hasJournal = true) (hT : ∀ w ∈ T, Loggable sb w.1)
include hd hj hT

theorem Recoverable.cut (k : Nat) : Recoverable sb T (applyWrites ((recoverWrites sb d).take k) d) := by
  rcases hd with ⟨j, hm⟩ | ⟨hq, hs⟩
  · exact hm.recover_take hT hj k
  · rw [recoverWrites_of_quiet hq, take_nil]
    exact .inr ⟨hq, hs⟩

theorem Recoverable.recovered : Quiet sb (applyWrites (recoverWrites sb d) d) ∧
      Synced T (applyWrites (recoverWrites sb d) d) := by
  rcases hd with ⟨j, hm⟩ | ⟨hq, hs⟩
  · exact hm.recover hT hj
  · rw [recoverWrites_of_quiet hq]
    exact ⟨hq, hs⟩

theorem Recoverable.mem_recoverWrites {w : Nat × Block} (hw : w ∈ recoverWrites sb d)
    (hout : ¬ InJournal sb w.1) : ∃ e ∈ T, e.1 = w.1 ∧ covered w.2 = covered e.2 := by
  rcases hd with ⟨j, hm⟩ | ⟨hq, -⟩
  · rw [hm.recoverWrites hj hT] at hw
    rcases mem_append.mp hw with hw | hw
    · obtain ⟨e, he, h⟩ := mem_replayOf hw
      exact ⟨e, mem_of_mem_drop he, h⟩
    · obtain ⟨i, hi, rfl⟩ := mem_map.mp hw
      have hlt := mem_range.mp hi
      have hfits := hm.fits
      exact absurd ⟨by simp only; omega, by simp only; omega⟩ hout
  · rw [recoverWrites_of_quiet hq] at hw
    exact absurd hw not_mem_nil

end

theorem Logging.recovery (h : Logging s T) (hd : Recoverable s.sb T d) (ks : List Nat) :
    (Quiet s.sb (remounted s d ks).2.disk ∧ Synced T (remounted s d ks).2.disk) ∧
    ∀ w ∈ recoveryWrites s d ks, ¬ InJournal s.sb w.1 →
      ∃ e ∈ T, e.1 = w.1 ∧ covered w.2 = covered e.2 := by
  rw [h.remounted_disk]
  induction ks generalizing d with
  | nil =>
    rw [recoveryWrites, h.mountWrites]
    exact ⟨hd.recovered h.hasJournal h.targets,
      fun w hw hout => hd.mem_recoverWrites h.hasJournal h.targets hw hout⟩
  | cons k ks ih =>
    have hcut : Recoverable s.sb T (recoverCut s d k) := by
      rw [recoverCut, h.mountWrites]
      exact hd.cut h.hasJournal h.targets k
    obtain ⟨hend, hwrites⟩ := ih hcut
    rw [recoveryWrites, applyWrites_append]
    refine ⟨hend, fun w hw hout => ?_⟩
    rcases mem_append.mp hw with hw | hw
    · rw [h.mountWrites] at hw
      exact hd.mem_recoverWrites h.hasJournal h.targets (mem_of_mem_take hw) hout
    · exact hwrites w hw hout

/-! ## Runs keep the invariant -/

theorem Logging.call (h : Logging s T) (hc : c.Valid s.sb) :
    Logging (c.prog.run s).2 (c.latest T (c.prog.run s).1) := by
  cases c with
  | log blk data =>
    by_cases hroom : T.length < s.sb.journalSize.toNat
    · obtain ⟨t, hrun, -, ht⟩ := h.log_ok hc data hroom
      simpa only [JournalCall.prog, JournalCall.latest, hrun] using ht
    · have hfull := logWrite_full h.hasJournal (by rw [h.head]; omega) blk data
      simpa only [JournalCall.prog, JournalCall.latest, hfull] using h
  | commit =>
    obtain ⟨t, hrun, hw, hhead⟩ := h.commit_ok
    simp only [JournalCall.prog, JournalCall.latest, hrun]
    refine ⟨by rw [hw.sb]; exact h.hasJournal, hw.noFaults h.noFaults, hhead,
      fun w hw => absurd hw not_mem_nil, Pending.nil ?_⟩
    rw [hw.sb, hw.disk]
    exact h.pending.commit h.targets

theorem Logging.crash (h : Logging s T) (hc : c.Valid s.sb) (k : Nat) (ks : List Nat) :
    Logging (remounted s (applyWrites ((callWrites c s).take k) s.disk) ks).2 [] := by
  set d := applyWrites ((callWrites c s).take k) s.disk with hd
  have hquiet : Quiet s.sb (remounted s d ks).2.disk := by
    rcases h.cut hc k rfl with ⟨-, hq⟩ | ⟨-, hrec⟩
    · rw [h.remounted_disk, h.recoveryWrites_of_quiet hq, applyWrites_nil]
      exact hq
    · exact (h.recovery hrec ks).1.1
  obtain ⟨t, hrun, hw, hhead⟩ := h.mount_ok (ks.foldl (recoverCut s) d)
  have ht : (remounted s d ks).2 = t := by rw [remounted, hrun]
  rw [ht] at hquiet ⊢
  have hsb : t.sb = s.sb := hw.sb
  refine ⟨by rw [hsb]; exact h.hasJournal, hw.noFaults h.noFaults, hhead,
    fun w hw => absurd hw not_mem_nil, Pending.nil ?_⟩
  rw [hsb]
  exact hquiet

theorem JournalRun.logging (h : JournalRun s T) : Logging s T := by
  induction h with
  | start hj hf h0 hz =>
    refine ⟨hj, hf, h0, fun w hw => absurd hw not_mem_nil, Pending.nil fun i hi => ?_⟩
    rw [hz _ ⟨by omega, by omega⟩]
    exact calm_zero
  | call _ c hc ih => exact ih.call hc
  | crash _ c hc k ks ih => exact ih.crash hc k ks

/-- **Recovery replays exactly the committed transaction.** Take any run, cut its next call after
any number of block writes, cut `journal_recover` any number of times, and let it complete. It
writes nothing at all unless the commit marker of the latest transaction `T` had reached the disk;
outside the journal it only replays entries of `T`; and in the committed case every block that `T`
logged has the covered bytes of its last entry. -/
theorem journalRecover_replays_latest (h : JournalRun s T) (c : JournalCall) (hc : c.Valid s.sb)
    (k : Nat) (ks : List Nat) {ws : List (Nat × Block)} (hws : ws = (callWrites c s).take k) :
    (remounted s (applyWrites ws s.disk) ks).1 = .ok () ∧
    ((s.sb.journalStart.toNat + T.length, commitEntry) ∉ ws →
      recoveryWrites s (applyWrites ws s.disk) ks = [] ∧
      (remounted s (applyWrites ws s.disk) ks).2.disk = applyWrites ws s.disk) ∧
    (∀ w ∈ recoveryWrites s (applyWrites ws s.disk) ks, ¬ InJournal s.sb w.1 →
      (s.sb.journalStart.toNat + T.length, commitEntry) ∈ ws ∧
      ∃ e ∈ T, e.1 = w.1 ∧ covered w.2 = covered e.2) ∧
    ((s.sb.journalStart.toNat + T.length, commitEntry) ∈ ws →
      ∀ b x, lastWrite T b = some x →
        covered ((remounted s (applyWrites ws s.disk) ks).2.disk b) = covered x) := by
  have hlog := h.logging
  obtain ⟨t, hrun, -, -⟩ := hlog.mount_ok (ks.foldl (recoverCut s) (applyWrites ws s.disk))
  refine ⟨by rw [remounted, hrun], ?_⟩
  rcases hlog.cut hc k hws with ⟨hno, hq⟩ | ⟨hyes, hrec⟩
  · have hnone := hlog.recoveryWrites_of_quiet hq ks
    refine ⟨fun _ => ⟨hnone, ?_⟩, fun w hw => ?_, fun hyes => absurd hyes hno⟩
    · rw [hlog.remounted_disk, hnone, applyWrites_nil]
    · rw [hnone] at hw
      exact absurd hw not_mem_nil
  · obtain ⟨⟨-, hs⟩, hwrites⟩ := hlog.recovery hrec ks
    exact ⟨fun hno => absurd hyes hno, fun w hw hout => ⟨hyes, hwrites w hw hout⟩, fun _ b x hx => hs b x hx⟩

end Steps

def twoSlotVolume : FsState where
  version := 2
  sb :=
    { magic := onyfsMagic, blockSize := 4096, totalBlocks := 64, inodeCount := 32
      inodeTableStart := 3, dataBitmapStart := 2, dataBlocksStart := 6, journalStart := 4
      journalSize := 2 }
  buf := Bytes.zero
  head := 0
  jiffies := 0
  disk := fun _ => Bytes.zero
  ticks := 0
  fault := fun _ => none
  trace := []
  inPlace := []

/-- One logged block, its commit cut after the marker, recovery cut once and then completed. -/
theorem journalRecover_replays_latest_twoSlotVolume :
    covered ((remounted ((logWrite 7 commitEntry).run twoSlotVolume).2
      (applyWrites ((callWrites .commit ((logWrite 7 commitEntry).run twoSlotVolume).2).take 1)
        ((logWrite 7 commitEntry).run twoSlotVolume).2.disk) [1]).2.disk 7) = covered commitEntry := by
  have hstart : JournalRun twoSlotVolume [] := .start (by decide) (fun _ => rfl) rfl fun _ _ => rfl
  have hout : Loggable twoSlotVolume.sb 7 := by decide
  have hrun : JournalRun ((logWrite 7 commitEntry).run twoSlotVolume).2 [(7, commitEntry)] :=
    hstart.call (.log 7 commitEntry) hout
  have hmark : ((5 : Nat), commitEntry) ∈
      (callWrites .commit ((logWrite 7 commitEntry).run twoSlotVolume).2).take 1 :=
    mem_singleton.mpr rfl
  exact (journalRecover_replays_latest hrun .commit trivial 1 [1] rfl).2.2.2 hmark 7 commitEntry rfl

end OnyxFs
