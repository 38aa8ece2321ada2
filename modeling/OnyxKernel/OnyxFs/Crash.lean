import OnyxKernel.OnyxFs.JournalRun
import OnyxKernel.OnyxFs.Targets

/-!
# A crash inside an operation

On a device without errors an operation writes, for each block it changes, the log entry and then
the block itself; the commit marker comes after all of them. So when the marker reaches the disk the
home blocks are already in their final state, and before that recovery does nothing.
-/

namespace OnyxFs

open Infra Onyx StateProg List

/-! ## The writes of a body -/

/-- The operation without the `journal_commit` that ends it. -/
def FsOp.body : FsOp → Fs Unit
  | create dirIno name mode => do
    let _ ← exec (createBody dirIno name mode)
    pure ()
  | mkdir dirIno name => do
    let _ ← exec (mkdirBody dirIno name)
    pure ()
  | symlink dirIno name target => do
    let _ ← exec (symlinkBody dirIno name target)
    pure ()
  | write ino data off => do
    let _ ← exec (writeBody ino data off)
    pure ()
  | truncate ino => exec (truncateBody ino)
  | truncateToLength ino length => do
    let _ ← exec (truncateToLengthBody ino length)
    pure ()
  | unlink path => exec (unlinkBody path)
  | rename oldPath newPath => exec (renameBody oldPath newPath)

/-- The writes that log the entries `T` from slot `h` on, each followed by the write in place. -/
def trail (start : Nat) : (h : Nat) → List (Nat × Block) → List (Nat × Block)
  | _, [] => []
  | h, w :: T => logWrites start h w.1 w.2 ++ trail start (h + 1) T

theorem trail_concat (start : Nat) : ∀ (T : List (Nat × Block)) (h : Nat) (w : Nat × Block),
    trail start h (T ++ [w]) = trail start h T ++ logWrites start (h + T.length) w.1 w.2
  | [], h, w => by simp [trail]
  | v :: T, h, w => by
    rw [cons_append, trail, trail, trail_concat start T (h + 1) w, append_assoc, length_cons]
    congr 3
    omega

/-- The body has made the writes of `trail` for the entries `T`, and nothing else. -/
structure Ran (s u : FsState) (T : List (Nat × Block)) : Prop where
  sb : u.sb = s.sb
  fault : u.fault = s.fault
  head : u.head = T.length
  fits : T.length ≤ s.sb.journalSize.toNat
  disk : u.disk = applyWrites (trail s.sb.journalStart.toNat 0 T) s.disk
  trace : u.trace = s.trace ++ trail s.sb.journalStart.toNat 0 T
  inPlace : u.inPlace = s.inPlace ++ T

variable {s t u : FsState} {T : List (Nat × Block)} {ws : List (Nat × Block)} {o : FsOp}

theorem Ran.refl (h0 : s.head = 0) : Ran s s [] :=
  ⟨rfl, rfl, h0, Nat.zero_le _, rfl, (append_nil _).symm, (append_nil _).symm⟩

theorem Ran.noFaults (h : Ran s u T) (hcalm : s.NoFaults) : u.NoFaults := fun n => by
  rw [h.fault]
  exact hcalm n

section

variable (hcalm : s.NoFaults) (hj : s.sb.hasJournal = true)
include hcalm hj

/-- One command: reads change nothing that `Ran` is about, and a full journal refuses a write. -/
theorem Ran.command (c : FsCmd) : Keeps (fun u => ∃ T, Ran s u T) c.handle := by
  rintro u ⟨T, h⟩
  have hf := h.noFaults hcalm u.ticks
  have hread : ∀ v : FsState, v.sb = u.sb → v.fault = u.fault → v.head = u.head → v.disk = u.disk →
      v.trace = u.trace → v.inPlace = u.inPlace → Ran s v T := fun v h1 h2 h3 h4 h5 h6 =>
    ⟨h1.trans h.sb, h2.trans h.fault, h3.trans h.head, h.fits,
      h4.trans h.disk, h5.trans h.trace, h6.trans h.inPlace⟩
  cases c with
  | load blk =>
    have hrun : (readBuf blk).run u = (.ok (), { u with buf := u.disk blk, ticks := u.ticks + 1 }) :=
      by simp only [readBuf, hf]
    exact wp_of_run_ok hrun ⟨T, hread _ rfl rfl rfl rfl rfl rfl⟩
  | fetch blk =>
    have hrun : (readLocal blk).run u = (.ok (u.disk blk), { u with ticks := u.ticks + 1 }) := by
      simp only [readLocal, hf]
    exact wp_of_run_ok hrun ⟨T, hread _ rfl rfl rfl rfl rfl rfl⟩
  | getBuf | volume | jiffies => exact ⟨T, h⟩
  | setBuf data => exact ⟨T, hread _ rfl rfl rfl rfl rfl rfl⟩
  | put blk data =>
    have hju : u.sb.hasJournal = true := by rw [h.sb]; exact hj
    by_cases hroom : u.head < u.sb.journalSize.toNat
    · refine wp_mono (logWrite_spec (h.noFaults hcalm) hju hroom blk data) (fun _ v hv => ?_) fun _ _ he => he.elim
      obtain ⟨hw, hhead⟩ := hv
      rw [h.sb, h.head] at hroom hw
      refine ⟨T ++ [(blk, data)], hw.sb.trans h.sb, hw.fault.trans h.fault, ?_, ?_, ?_, ?_, ?_⟩
      · rw [hhead, h.head, length_append, length_singleton]
      · rw [length_append, length_singleton]
        omega
      · rw [hw.disk, h.disk, trail_concat, applyWrites_append, Nat.zero_add]
      · rw [hw.trace, h.trace, trail_concat, append_assoc, Nat.zero_add]
      · rw [hw.inPlace, h.inPlace, append_assoc]
    · exact wp_of_run_error (logWrite_full hju (by omega) blk data) ⟨T, h⟩

theorem exec_ran (h0 : s.head = 0) {α : Type} (p : FsProg α) :
    wp (exec p) (fun _ u => ∃ T, Ran s u T) (fun _ u => ∃ T, Ran s u T) s :=
  CmdProg.keeps_run (Ran.command hcalm hj) p s ⟨[], Ran.refl h0⟩

/-- An operation has made the writes of `trail`, and then those of the commit if it got there. -/
structure OpRan (s u : FsState) (T ws : List (Nat × Block)) : Prop where
  sb : u.sb = s.sb
  fits : T.length ≤ s.sb.journalSize.toNat
  commit : ws = [] ∨
    ws = commitWrites s.sb.journalStart.toNat s.sb.journalSize.toNat T.length
  disk : u.disk = applyWrites (trail s.sb.journalStart.toNat 0 T ++ ws) s.disk
  trace : u.trace = s.trace ++ (trail s.sb.journalStart.toNat 0 T ++ ws)
  inPlace : u.inPlace = s.inPlace ++ T

omit hcalm hj in
theorem Ran.stop (h : Ran s u T) : OpRan s u T [] :=
  ⟨h.sb, h.fits, .inl rfl, by rw [append_nil]; exact h.disk, by rw [append_nil]; exact h.trace, h.inPlace⟩

theorem Ran.commit (h : Ran s u T) : wp journalCommit (fun _ v => ∃ ws, OpRan s v T ws) never u := by
  have hju : u.sb.hasJournal = true := by rw [h.sb]; exact hj
  refine wp_imp (journalCommit_spec (h.noFaults hcalm) hju) fun _ v hv => ?_
  obtain ⟨hw, -⟩ := hv
  rw [h.sb, h.head] at hw
  refine ⟨_, hw.sb.trans h.sb, h.fits, .inr rfl, ?_, ?_, ?_⟩
  · rw [hw.disk, h.disk, applyWrites_append]
  · rw [hw.trace, h.trace, append_assoc]
  · rw [hw.inPlace, h.inPlace, append_nil]

/-- What the body and the whole operation have written, from the same entries. -/
def Ended (s u v : FsState) : Prop := ∃ T ws, Ran s u T ∧ OpRan s v T ws

theorem exec_ended (h0 : s.head = 0) {α β : Type} (p : FsProg α) {q : α → Fs β}
    (hq : ∀ a u T, Ran s u T → wp (q a) (fun _ v => ∃ ws, OpRan s v T ws) never u) :
    Ended s ((exec p).run s).2 ((exec p >>= q).run s).2 := by
  have hbody := exec_ran hcalm hj h0 p
  change Ended s ((exec p).run s).2 (StateProg.run ((exec p).bind q) s).2
  rcases hr : (exec p).run s with ⟨e | a, u⟩
  · obtain ⟨T, hu⟩ := hbody.error hr
    simp only [StateProg.bind, hr]
    exact ⟨T, [], hu, hu.stop⟩
  · obtain ⟨T, hu⟩ := hbody.ok hr
    obtain ⟨b, v, hrun, ws, hv⟩ := (hq a u T hu).returned
    simp only [StateProg.bind, hr, hrun]
    exact ⟨T, ws, hu, hv⟩

theorem transaction_ended (h0 : s.head = 0) {α : Type} (p : FsProg α) :
    Ended s ((exec p).run s).2 ((transaction p).run s).2 := by
  refine exec_ended hcalm hj h0 p fun a u T hu => ?_
  exact wp_then (hu.commit hcalm hj) fun _ _ hv => hv

omit hcalm hj in
theorem discard_run {α : Type} (p : Fs α) (s : FsState) :
    (StateProg.run (do let _ ← p; pure ()) s).2 = (p.run s).2 := by
  change (StateProg.run (p.bind fun _ => StateProg.ret ()) s).2 = _
  rcases hr : p.run s with ⟨e | a, u⟩ <;> simp only [StateProg.bind, StateProg.ret, hr]

theorem FsOp.ended (h0 : s.head = 0) (o : FsOp) : Ended s (o.body.run s).2 (o.prog.run s).2 := by
  cases o with
  | create dirIno name mode | mkdir dirIno name | symlink dirIno name target | write ino data off =>
    simp only [FsOp.body, FsOp.prog, discard_run]
    exact transaction_ended hcalm hj h0 _
  | truncate _ | unlink _ | rename _ _ => exact transaction_ended hcalm hj h0 _
  | truncateToLength ino length =>
    simp only [FsOp.body, discard_run]
    refine exec_ended hcalm hj h0 _ fun changed u T hu => ?_
    cases changed with
    | false => exact ⟨[], hu.stop⟩
    | true => exact hu.commit hcalm hj

/-- After a transaction the journal is empty; after one that failed it has an entry for each block written in
place, and no commit marker. -/
theorem transaction_journal (h0 : s.head = 0) {α : Type} (p : FsProg α) :
    wp (transaction p) (fun _ u => u.head = 0) (fun _ u => ∃ T, Ran s u T) s := by
  refine wp_then (exec_ran hcalm hj h0 p) ?_
  rintro a u ⟨T, hu⟩
  have hcommit := journalCommit_spec (hu.noFaults hcalm) (hu.sb ▸ hj)
  exact wp_seq hcommit (fun _ _ hv => hv.2) fun _ _ he => he.elim

end

theorem transaction_journal_mkdir :
    wp (transaction (mkdirBody 0 [97])) (fun _ u => u.head = 0)
      (fun _ u => ∃ T, Ran (sampleVolume 8) u T) (sampleVolume 8) :=
  transaction_journal (fun _ => rfl) (by decide) rfl _

/-! ## Recovery after a crash -/

section Recovery

variable {sb : Super} {d : Disk Block} {ws : List (Nat × Block)} {j : Nat}

def homeWrites (sb : Super) (ws : List (Nat × Block)) : List (Nat × Block) := ws.filter fun w => Home sb w.1

theorem homeOf_applyWrites (ws : List (Nat × Block)) (d : Disk Block) :
    homeOf sb (applyWrites ws d) = applyWrites (homeWrites sb ws) (homeOf sb d) := by
  unfold homeWrites
  induction ws generalizing d with
  | nil => rfl
  | cons w ws ih =>
    rw [applyWrites_cons, ih]
    by_cases hw : Home sb w.1
    · rw [filter_cons_of_pos (by simpa using hw), homeOf_update hw]
      rfl
    · rw [filter_cons_of_neg (by simpa using hw), homeOf_update_journal hw]

theorem length_trail (start : Nat) : ∀ (T : List (Nat × Block)) (h : Nat), (trail start h T).length = 2 * T.length
  | [], _ => rfl
  | w :: T, h => by
    rw [trail, length_append, length_trail start T (h + 1), length_cons]
    simp only [logWrites, length_cons, length_nil]
    omega

section

variable (hj : sb.hasJournal = true)
include hj

theorem not_home_slot {i : Nat} (hi : i < sb.journalSize.toNat) : ¬ Home sb (sb.journalStart.toNat + i) :=
  fun h => h hj ⟨by omega, by omega⟩

/-- Of two writes that log an entry, the second one changes a home block. -/
theorem homeWrites_take_trail : ∀ {T : List (Nat × Block)} {h : Nat}, (∀ w ∈ T, Loggable sb w.1) →
    h + T.length ≤ sb.journalSize.toNat →
    ∀ n, homeWrites sb ((trail sb.journalStart.toNat h T).take n) = T.take (n / 2)
  | [], _, _, _, n => by rw [trail, take_nil, take_nil]; rfl
  | w :: T, h, hT, hfits, n => by
    rw [length_cons] at hfits
    have hslot : ¬ Home sb (sb.journalStart.toNat + h) := not_home_slot hj (by omega)
    have hw : Home sb w.1 := fun _ => (hT w mem_cons_self).2
    match n with
    | 0 => rfl
    | 1 => simp [trail, logWrites, homeWrites, hslot]
    | n + 2 =>
      have ih := homeWrites_take_trail (T := T) (h := h + 1) (fun v hv => hT v (mem_cons_of_mem _ hv)) (by omega) n
      have hhalf : (n + 2) / 2 = n / 2 + 1 := by omega
      rw [hhalf, take_succ_cons, ← ih]
      simp [trail, logWrites, homeWrites, hslot, hw]

end

theorem pending_trail (hq : Quiet sb d) :
    ∀ {T : List (Nat × Block)}, (∀ w ∈ T, Loggable sb w.1) → T.length ≤ sb.journalSize.toNat →
      Pending sb T (applyWrites (trail sb.journalStart.toNat 0 T) d) ∧
        ∀ k, Quiet sb (applyWrites ((trail sb.journalStart.toNat 0 T).take k) d) := by
  intro T
  induction T using reverseRecOn with
  | nil =>
    intro _ _
    exact ⟨Pending.nil hq, fun k => by rw [trail, take_nil]; exact hq⟩
  | append_singleton T w ih =>
    intro hT hle
    rw [length_append, length_singleton] at hle
    have hTl : ∀ v ∈ T, Loggable sb v.1 := fun v hv => hT v (mem_append_left _ hv)
    have hw : Loggable sb w.1 := hT w (by simp)
    obtain ⟨hp, hcut⟩ := ih hTl (by omega)
    rw [trail_concat, Nat.zero_add]
    refine ⟨?_, fun k => ?_⟩
    · rw [applyWrites_append]
      exact hp.log hTl hw w.2 (by omega)
    · rw [take_append, applyWrites_append]
      by_cases hk : k ≤ (trail sb.journalStart.toNat 0 T).length
      · rw [Nat.sub_eq_zero_of_le hk]
        exact hcut k
      · have hall := take_of_length_le (Nat.le_of_not_le hk)
        rw [hall]
        exact hp.log_take hw w.2 _

theorem mem_commitWrites {start size n : Nat} {w : Nat × Block} (hn : n ≤ size)
    (hw : w ∈ commitWrites start size n) : ∃ i < size, w.1 = start + i := by
  have hzero : ∀ m ≤ size, w ∈ zeroWrites start m → ∃ i < size, w.1 = start + i := by
    intro m hm hmem
    obtain ⟨i, hi, rfl⟩ := mem_map.mp hmem
    exact ⟨i, by have := mem_range.mp hi; omega, rfl⟩
  unfold commitWrites at hw
  split at hw
  · exact absurd hw not_mem_nil
  split at hw
  · rename_i hlt
    rcases mem_cons.mp hw with rfl | hw
    · exact ⟨n, hlt, rfl⟩
    · exact hzero (n + 1) (by omega) hw
  · exact hzero n hn hw

/-- The disk a crash can leave: without a marker, or with the marker and every logged block in
place. -/
def Crashed (sb : Super) (T : List (Nat × Block)) (d : Disk Block) : Prop :=
  Quiet sb d ∨ ∃ j, Marked sb T j d ∧ Synced T d

theorem OpRan.crashed {T ws : List (Nat × Block)} (h : OpRan s u T ws) (hq : Quiet s.sb s.disk)
    (hT : ∀ w ∈ T, Loggable s.sb w.1) (k : Nat) : Crashed s.sb T
      (applyWrites ((trail s.sb.journalStart.toNat 0 T ++ ws).take k) s.disk) := by
  obtain ⟨hp, hcut⟩ := pending_trail hq hT h.fits
  rw [take_append, applyWrites_append]
  by_cases hk : k ≤ (trail s.sb.journalStart.toNat 0 T).length
  · rw [Nat.sub_eq_zero_of_le hk]
    exact .inl (hcut k)
  have hall := take_of_length_le (Nat.le_of_not_le hk)
  rw [hall]
  generalize k - (trail s.sb.journalStart.toNat 0 T).length = m
  rcases h.commit with rfl | rfl
  · rw [take_nil]
    exact .inl hp.quiet
  rcases hp.commit_take hT m rfl with ⟨-, hquiet⟩ | ⟨-, ⟨j, hm⟩ | ⟨hquiet, -⟩⟩
  · exact .inl hquiet
  · -- The commit writes to slots only, so the logged blocks are still in place.
    refine .inr ⟨j, hm, fun b x hx => ?_⟩
    have hb := loggable_of_lastWrite hT hx
    rw [applyWrites_of_not_mem (fun w hw => ?_), hp.home b x hx]
    obtain ⟨i, hi, he⟩ := mem_commitWrites h.fits (mem_of_mem_take hw)
    rw [he]
    exact (hb.ne_slot hi).symm
  · exact .inl hquiet

theorem overlay_self (y : Block) : y.blit 0 (covered y) = y := by
  refine Bytes.ext_get fun i hi => ?_
  by_cases h : i < 4088
  · rw [Bytes.get_blit_inside _ _ _ hi (by omega) (by omega)]
    simp [covered, Bytes.slice, Bytes.get_of_lt _ h]
  · rw [Bytes.get_blit_outside _ _ _ (by omega)]

theorem Marked.recover_home (h : Marked sb T j d) (hj : sb.hasJournal = true)
    (hT : ∀ w ∈ T, Loggable sb w.1) (hs : Synced T d) :
    homeOf sb (applyWrites (OnyxFs.recoverWrites sb d) d) = homeOf sb d := by
  funext b
  by_cases hb : Home sb b
  · have hout : b < sb.journalStart.toNat ∨ sb.journalStart.toNat + (T.length + 1) ≤ b := by
      by_contra hc
      have hfits := h.fits
      exact hb hj ⟨by omega, by omega⟩
    rw [homeOf_of_home hb, homeOf_of_home hb, h.recoverWrites hj hT, applyWrites_append,
      applyWrites_zeroWrites_of_ne hout]
    cases hlast : lastWrite (T.drop j) b with
    | none => exact applyWrites_replayOf_of_not_mem (lastWrite_eq_none_iff.mp hlast) d
    | some y =>
      have hy : lastWrite T b = some y := by
        rw [← take_append_drop j T, lastWrite_append, hlast, Option.some_or]
      rw [applyWrites_replayOf hlast, ← hs b y hy, overlay_self]
  · rw [homeOf, homeOf, if_neg hb, if_neg hb]

theorem Crashed.recover_home (h : Crashed sb T d) (hj : sb.hasJournal = true)
    (hT : ∀ w ∈ T, Loggable sb w.1) :
    homeOf sb (applyWrites (recoverWrites sb d) d) = homeOf sb d := by
  rcases h with hq | ⟨j, hm, hs⟩
  · rw [recoverWrites_of_quiet hq, applyWrites_nil]
  · exact hm.recover_home hj hT hs

end Recovery

/-! ## An operation that is cut -/

/-- A volume in order with a journal, between two operations, on a device without errors. -/
structure FsState.Journaled (s : FsState) : Prop where
  sound : s.Sound
  hasJournal : s.sb.hasJournal = true
  noFaults : s.NoFaults
  head : s.head = 0
  quiet : Quiet s.sb s.disk

def opWrites (o : FsOp) (s : FsState) : List (Nat × Block) := (o.prog.run s).2.trace.drop s.trace.length

def bodyLength (o : FsOp) (s : FsState) : Nat := (o.body.run s).2.trace.length - s.trace.length

/-- Where the machine stops: after `n` block writes of the body, or after the body and `n` block
writes of `journal_commit`. -/
inductive CrashPoint
  | body (n : Nat)
  | commit (n : Nat)

/-- The number of block writes before the crash. -/
def CrashPoint.writes (o : FsOp) (s : FsState) : CrashPoint → Nat
  | body n => min n (bodyLength o s)
  | commit n => bodyLength o s + n

def crashDisk (o : FsOp) (s : FsState) (c : CrashPoint) : Disk Block :=
  applyWrites ((opWrites o s).take (c.writes o s)) s.disk

theorem FsState.Journaled.ended (h : s.Journaled) (o : FsOp) :
    Ended s (o.body.run s).2 (o.prog.run s).2 := FsOp.ended h.noFaults h.hasJournal h.head o

theorem FsState.Journaled.loggable (h : s.Journaled) (ho : o.Aimed s.env s.home)
    (hran : OpRan s (o.prog.run s).2 T ws) :
    ∀ w ∈ T, Loggable s.sb w.1 := by
  have hstop : Stopped s.env (o.prog.run s).2 := by
    have hw := FsOp.aimed_stopped (e := s.env) h.sound.layout (FsState.start h.sound.head) h.sound.owned ho
    rcases hr : o.prog.run s with ⟨_ | a, t⟩
    · exact hw.error hr
    · exact hw.ok hr
  obtain ⟨T', heq, htarget⟩ := hstop.targets
  obtain rfl : T = T' := append_cancel_left (hran.inPlace.symm.trans heq)
  exact fun w hw => ⟨(htarget w hw).1, (htarget w hw).2 h.hasJournal⟩

theorem OpRan.opWrites (h : OpRan s (o.prog.run s).2 T ws) :
    OnyxFs.opWrites o s = trail s.sb.journalStart.toNat 0 T ++ ws := by
  rw [OnyxFs.opWrites, h.trace, drop_left]

theorem Ran.bodyLength (h : Ran s (o.body.run s).2 T) : OnyxFs.bodyLength o s = 2 * T.length := by
  rw [OnyxFs.bodyLength, h.trace, length_append, length_trail]
  omega

/-- The commit writes to slots only. -/
theorem OpRan.homeWrites_commit (h : OpRan s u T ws) (hj : s.sb.hasJournal = true) (n : Nat) :
    homeWrites s.sb (ws.take n) = [] := by
  refine filter_eq_nil_iff.mpr fun w hw => ?_
  have hmem : w ∈ commitWrites s.sb.journalStart.toNat s.sb.journalSize.toNat T.length := by
    rcases h.commit with rfl | rfl
    · rw [take_nil] at hw
      exact absurd hw not_mem_nil
    · exact mem_of_mem_take hw
  obtain ⟨i, hi, he⟩ := mem_commitWrites h.fits hmem
  rw [he, decide_eq_true_eq]
  exact not_home_slot hj hi

/-- Mounting restores nothing: recovery leaves the home blocks as the crash left them. -/
theorem FsState.Journaled.remounted_home (h : s.Journaled) (ho : o.Aimed s.env s.home)
    (c : CrashPoint) : (remounted s (crashDisk o s c) []).2.home = homeOf s.sb (crashDisk o s c) := by
  obtain ⟨T, ws, -, hran⟩ := h.ended o
  have hT := h.loggable ho hran
  have hcrash : Crashed s.sb T (crashDisk o s c) := by
    rw [crashDisk, hran.opWrites]
    exact hran.crashed h.quiet hT _
  obtain ⟨a, t, hrun, hw, -⟩ :=
    (journalRecover_spec (s := s.remount (crashDisk o s c)) h.noFaults h.hasJournal).returned
  have ht : (remounted s (crashDisk o s c) []).2 = t := by
    rw [remounted, foldl_nil, hrun]
  rw [ht, FsState.home, hw.sb, hw.disk]
  exact hcrash.recover_home h.hasJournal hT

/-- The home blocks after a crash and a mount, by the in-place writes made before the crash. -/
theorem FsState.Journaled.crashed_home (h : s.Journaled) (ho : o.Aimed s.env s.home) :
    ∃ T, (o.prog.run s).2.inPlace = s.inPlace ++ T ∧ (o.prog.run s).2.home = applyWrites T s.home ∧
      (∀ n, (remounted s (crashDisk o s (.body n)) []).2.home = applyWrites (T.take (n / 2)) s.home) ∧
      ∀ n, (remounted s (crashDisk o s (.commit n)) []).2.home = applyWrites T s.home := by
  obtain ⟨T, ws, hbody, hran⟩ := h.ended o
  have hT := h.loggable ho hran
  have htrail := homeWrites_take_trail h.hasJournal (h := 0) hT (by have := hran.fits; omega)
  have hlen := length_trail s.sb.journalStart.toNat T 0
  have hmade : ∀ c, (remounted s (crashDisk o s c) []).2.home =
      applyWrites (homeWrites s.sb ((trail s.sb.journalStart.toNat 0 T ++ ws).take (c.writes o s))) s.home := by
    intro c
    rw [h.remounted_home ho, crashDisk, hran.opWrites, homeOf_applyWrites]
    rfl
  have hwhole : homeWrites s.sb (trail s.sb.journalStart.toNat 0 T) = T := by
    have hall := htrail (2 * T.length)
    rwa [take_of_length_le hlen.le, Nat.mul_div_cancel_left _ (by omega), take_length] at hall
  have hcommit : ∀ n, homeWrites s.sb (trail s.sb.journalStart.toNat 0 T ++ ws.take n) = T := fun n => by
    rw [homeWrites, filter_append, ← homeWrites, ← homeWrites, hwhole, hran.homeWrites_commit h.hasJournal,
      append_nil]
  refine ⟨T, hran.inPlace, ?_, fun n => ?_, fun n => ?_⟩
  · rw [FsState.home, hran.sb, hran.disk, homeOf_applyWrites, ← take_length (l := ws), hcommit]
    rfl
  · have hcut : CrashPoint.writes o s (.body n) = min n (2 * T.length) := by rw [CrashPoint.writes, hbody.bodyLength]
    have hhalf : T.take (min n (2 * T.length) / 2) = T.take (n / 2) := by
      rw [take_eq_take_iff]
      omega
    rw [hmade, hcut, take_append_of_le_length (by omega), htrail, hhalf]
  · have hcut : CrashPoint.writes o s (.commit n) = (trail s.sb.journalStart.toNat 0 T).length + n := by
      rw [CrashPoint.writes, hbody.bodyLength, hlen]
    rw [hmade, hcut, take_length_add_append, hcommit]

/-- A crash before the second block write of the body leaves the home blocks as they were, and one in
the commit leaves them as the operation leaves them. In between the mount takes back none of the
in-place writes made before the crash, and adds none. -/
theorem crash_atomic (h : s.Journaled) {o : FsOp} (ho : o.Aimed s.env s.home) :
    (∀ n ≤ 1, (remounted s (crashDisk o s (.body n)) []).2.home = s.home) ∧
    (∀ n, (remounted s (crashDisk o s (.commit n)) []).2.home = (o.prog.run s).2.home) ∧
    ∃ T, (o.prog.run s).2.inPlace = s.inPlace ++ T ∧
      ∀ n, (remounted s (crashDisk o s (.body n)) []).2.home = applyWrites (T.take (n / 2)) s.home := by
  obtain ⟨T, hplace, hhome, hbody, hcommit⟩ := h.crashed_home ho
  refine ⟨fun n hn => ?_, fun n => (hcommit n).trans hhome.symm, T, hplace, hbody⟩
  have hnone : n / 2 = 0 := by omega
  rw [hbody, hnone, take_zero, applyWrites_nil]

/-- The sample volume with a journal of eight blocks, one tick after its inode was written. -/
def journaledVolume : FsState := { sampleVolume 8 with jiffies := 1 }

theorem journaledVolume_journaled : journaledVolume.Journaled where
  sound := (sample_sound (J := 8)).idle rfl rfl rfl
  hasJournal := by decide
  noFaults _ := rfl
  head := rfl
  quiet i hi := by
    have hstart : journaledVolume.sb.journalStart.toNat = 40 := rfl
    have hzero : journaledVolume.disk (journaledVolume.sb.journalStart.toNat + i) = Bytes.zero := by
      rw [hstart]
      simp only [journaledVolume, sampleVolume]
      iterate 5 rw [if_neg (by omega)]
    rw [hzero]
    exact calm_zero

theorem journaledVolume_aimed (off : Nat) (hoff : off < 4095) :
    (FsOp.write 1 [7] off).Aimed journaledVolume.env journaledVolume.home := by
  refine ⟨sample_live (J := 8) 1, ?_⟩
  intro idx h10 _ hlt _
  simp only [length_singleton] at hlt
  omega

/-- Cut after its first log entry the write has not happened; cut after the commit marker it has. -/
theorem crash_atomic_journaledVolume :
    (remounted journaledVolume (crashDisk (.write 1 [7] 3) journaledVolume (.body 1)) []).2.home =
      journaledVolume.home ∧
    (remounted journaledVolume (crashDisk (.write 1 [7] 3) journaledVolume (.commit 1)) []).2.home =
      ((FsOp.write 1 [7] 3).prog.run journaledVolume).2.home := by
  obtain ⟨hearly, hlate, -⟩ := crash_atomic journaledVolume_journaled (journaledVolume_aimed 3 (by omega))
  exact ⟨hearly 1 (by omega), hlate 1⟩

/-- Cut after two block writes, the byte is in the data block and the inode has the old time. -/
theorem crash_leaves_mixture :
    journaledVolume.Journaled ∧
    ((FsOp.write 1 [7] 3).prog.run journaledVolume).1 = .ok () ∧
    (remounted journaledVolume (crashDisk (.write 1 [7] 3) journaledVolume (.body 2)) []).2.home ≠
      journaledVolume.home ∧
    (remounted journaledVolume (crashDisk (.write 1 [7] 3) journaledVolume (.body 2)) []).2.home ≠
      ((FsOp.write 1 [7] 3).prog.run journaledVolume).2.home := by
  refine ⟨journaledVolume_journaled, by decide +kernel, fun h => ?_, fun h => ?_⟩
  · have hbyte : ((remounted journaledVolume (crashDisk (.write 1 [7] 3) journaledVolume (.body 2)) []).2.home
        4).get 3 ≠ (journaledVolume.home 4).get 3 := by decide +kernel
    exact hbyte (by rw [h])
  · have hbyte : ((remounted journaledVolume (crashDisk (.write 1 [7] 3) journaledVolume (.body 2)) []).2.home
        3).get 112 ≠ (((FsOp.write 1 [7] 3).prog.run journaledVolume).2.home 3).get 112 := by
      decide +kernel
    exact hbyte (by rw [h])

end OnyxFs
