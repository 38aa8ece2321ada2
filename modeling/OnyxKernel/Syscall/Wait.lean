import OnyxKernel.Syscall.ReadWrite

/-!
# `sys_poll`, `sys_nanosleep` and the arithmetic of the calls

`poll` turns its timeout in milliseconds into a deadline in microseconds, `nanosleep` its request into timer
ticks; both then look at the timer pass after pass. `nanosleep` saturates. `poll` saturates the sum but not
the product `timeout as u64 * 1000`.

A call stops the kernel if and only if it is a seek whose sum, or a poll whose product, does not fit.
`nanosleep` does not yield. `poll` does, and after each switch it is made anew with a new deadline, so that it
may outlast its timeout for as long as other processes run.
-/

namespace Syscall

open Onyx Checked
open Vfs (FdTable permWrite)
open scoped Vfs

/-- `struct PollFd`, as the caller wrote it. -/
structure PollFd where
  fd : Int
  events : UInt32

def pollIn : UInt32 := 0x001

def pollOut : UInt32 := 0x004

def pollNval : UInt32 := 0x020

def pollMaxFds : Nat := 32

/-- The kernel and what a waiting call sees of it from pass to pass. -/
structure Timed extends Kernel where
  /-- `G_UPTICKS` before the loop of a call that is made with a pass. -/
  began : Nat → Nat
  /-- `G_UPTICKS` in a pass. -/
  upticks : Nat → Nat
  /-- `jiffies()`, a `u64`; reading 0 is the one before the loop. -/
  jiffies : Nat → Nat
  /-- The entries at a user address. -/
  pollfds : (fds n : Nat) → List PollFd
  length_pollfds : ∀ fds n, (pollfds fds n).length = n
  /-- The two words at a user address, each a `u64`. -/
  request : Nat → Nat × Nat
  consoleReady : Nat → Bool

/-- `if events & flag != 0 && holds { flag } else { 0 }`. -/
def reported (events flag : UInt32) (holds : Bool) : UInt32 :=
  if events &&& flag ≠ 0 ∧ holds = true then flag else 0

namespace Timed

variable (k : Timed)

/-- `uptime_us` before the loop. -/
def beganUs (i : Nat) : Nat := k.began i * 10000 % 2 ^ 64

/-- `uptime_us` in a pass. -/
def uptimeUs (i : Nat) : Nat := k.upticks i * 10000 % 2 ^ 64

def reventsConsole (i : Nat) (p : PollFd) : UInt32 :=
  if p.fd = 0 then reported p.events pollIn (k.consoleReady i)
  else if p.fd = 1 ∨ p.fd = 2 then reported p.events pollOut true
  else pollNval

def reventsToken (i : Nat) (p : PollFd) : UInt32 :=
  match k.fds.fdCheck (UInt64.ofNat p.fd.toNat) with
  | .error _ => pollNval
  | .ok idx =>
    let f := k.fds idx
    match if f.fs = .devfs then Vfs.ptyPoll (k.ptys i) f.ino else none with
    | some (readable, writable) => reported p.events pollIn readable ||| reported p.events pollOut writable
    | none =>
      reported p.events pollIn (f.pos < f.size || f.size == 0) |||
        reported p.events pollOut (f.perms &&& permWrite != 0)

/-- `scan`: the number of entries with something to report. -/
def scan (i : Nat) : List PollFd → Nat → Option Nat
  | [], ready => some ready
  | p :: rest, ready =>
    if p.fd < 0 then scan i rest ready
    else if (if p.fd ≤ 2 then k.reventsConsole i p else k.reventsToken i p) ≠ 0 then do
      let ready ← add 64 ready 1
      scan i rest ready
    else scan i rest ready

/-- `copyin_pollfds`: the number of entries. -/
def copyinPollfds (fds nfds : Nat) : Option (Except Errno Nat) :=
  if pollMaxFds < nfds then some (.error .inval)
  else if nfds = 0 then some (.ok 0)
  else do
    let bytes ← mul 64 nfds 16
    if userPtrOk fds bytes = false then return .error .fault
    match ← checkUserRange k.pages fds bytes true with
    | .error _ => return .error .fault
    | .ok () =>
      match ← copyUser k.pages false fds bytes with
      | .error _ => return .error .fault
      | .ok () => return .ok nfds

/-- `copyout_pollfds`; its callers do not look at the result. -/
def copyoutPollfds (fds n : Nat) : Option (Except Errno Unit) := do
  let bytes ← mul 64 n 16
  if userPtrOk fds bytes = false then return .error .fault
  match ← checkUserRange k.pages fds bytes true with
  | .error _ => return .error .fault
  | .ok () => copyUser k.pages true fds bytes

/-- The loop of `sys_poll`. -/
def pollLoop (fds n : Nat) (timeout : Int) (deadline : Nat) : (passes i : Nat) → Option Progress
  | 0, _ => some .waits
  | passes + 1, i => do
    let ready ← k.scan i (k.pollfds fds n) 0
    if 0 < ready ∨ timeout = 0 then
      let _ ← k.copyoutPollfds fds n
      return .returns (.ok ready)
    if deadline ≠ 0 ∧ deadline ≤ k.uptimeUs i then
      let _ ← k.copyoutPollfds fds n
      return .returns (.ok 0)
    if k.switches i then return .restarts (i + 1)
    pollLoop fds n timeout deadline passes (i + 1)

/-- The deadline of `sys_poll`; 0 is none. -/
def pollDeadline (start : Nat) (timeout : Int) : Option Nat :=
  if 0 < timeout then (mul 64 timeout.toNat 1000).map (saturatingAdd 64 (k.beganUs start)) else some 0

def sysPoll (passes start : Nat) (fds nfds timeout : UInt64) : Option Progress := do
  match ← k.copyinPollfds fds.toNat nfds.toNat with
  | .error e => return .returns (.error e)
  | .ok n =>
    if n = 0 then return .returns (.ok 0)
    let deadline ← k.pollDeadline start timeout.toBitVec.toInt
    k.pollLoop fds.toNat n timeout.toBitVec.toInt deadline passes start

/-- The loop of `sys_nanosleep`. -/
def sleepLoop (target : Nat) : (passes i : Nat) → Progress
  | 0, _ => .waits
  | passes + 1, i => if k.jiffies (i + 1) < target then sleepLoop target passes (i + 1) else .returns (.ok 0)

/-- The tick that `sys_nanosleep` waits for. -/
def sleepTarget (request : Nat × Nat) : Nat :=
  let totalNs := saturatingAdd 64 (saturatingMul 64 request.1 1000000000) request.2
  (k.jiffies 0 + max (totalNs / 10000000) 1) % 2 ^ 64

def sysNanosleep (passes : Nat) (req : UInt64) : Option Progress :=
  if userPtrOk req.toNat 16 = false then some (.returns (.error .fault))
  else do
    match ← copyUser k.pages false req.toNat 16 with
    | .error e => return .returns (.error e)
    | .ok () => return k.sleepLoop (k.sleepTarget (k.request req.toNat)) passes 0

end Timed

namespace Timed

variable {k : Timed}

theorem scan_fine (i : Nat) :
    ∀ (entries : List PollFd) (ready : Nat), ready + entries.length < 2 ^ 64 →
      Fine (k.scan i entries ready) fun _ => True
  | [], _, _ => fine_some trivial
  | p :: rest, ready, h => by
    have hlen : (p :: rest).length = rest.length + 1 := List.length_cons
    refine fine_ite (fun _ => scan_fine i rest ready (by omega)) fun _ => ?_
    refine fine_ite (fun _ => ?_) fun _ => scan_fine i rest ready (by omega)
    exact (fine_add (by omega)).bind fun ready' h' => scan_fine i rest ready' (by omega)

theorem copyinPollfds_fine (fds nfds : Nat) :
    Fine (k.copyinPollfds fds nfds) fun r => ∀ n, r = .ok n → n ≤ pollMaxFds := by
  refine fine_ite (fun _ => fine_some nofun) fun hmax => fine_ite (fun _ => fine_some ?_) fun _ => ?_
  · rintro n ⟨⟩
    exact Nat.zero_le _
  · have hle : nfds ≤ 32 := Nat.le_of_not_lt hmax
    refine (fine_mul (by omega)).bind fun bytes _ => fine_ite (fun _ => fine_pure nofun) fun hok => ?_
    have hok : userPtrOk fds bytes = true := by simpa using hok
    refine (checkUserRange_fine k.pages true hok).bind fun r _ => ?_
    cases r with
    | error e => exact fine_pure nofun
    | ok _ =>
      refine (copyUser_fine k.pages false hok).bind fun r _ => ?_
      cases r with
      | error e => exact fine_pure nofun
      | ok _ =>
        refine fine_pure ?_
        rintro n ⟨⟩
        exact hle

theorem copyoutPollfds_fine (fds : Nat) {n : Nat} (hn : n ≤ pollMaxFds) :
    Fine (k.copyoutPollfds fds n) fun _ => True := by
  have hle : n ≤ 32 := hn
  refine (fine_mul (by omega)).bind fun bytes _ => fine_ite (fun _ => fine_pure trivial) fun hok => ?_
  have hok : userPtrOk fds bytes = true := by simpa using hok
  refine (checkUserRange_fine k.pages true hok).bind fun r _ => ?_
  cases r with
  | error e => exact fine_pure trivial
  | ok _ => exact copyUser_fine k.pages true hok

/-! ### Calls that are made anew -/

/-- The pass with which a call was last made that is in pass `i`. -/
def lastStart (k : Timed) : Nat → Nat
  | 0 => 0
  | i + 1 => if k.switches i then i + 1 else k.lastStart i

/-- A call from pass `i` on, up to pass `last`, that has nothing to wait for in the passes of `P`. -/
def Stage (k : Timed) (P : Nat → Prop) (i last : Nat) : Progress → Prop
  | .returns _ => ∃ j, i ≤ j ∧ j < last ∧ P j
  | .waits => ∀ j, i ≤ j → j < last → ¬ P j
  | .restarts m => i < m ∧ m ≤ last ∧ k.lastStart m = m ∧ ∀ j, i ≤ j → j < m → ¬ P j

theorem Stage.skip {P : Nat → Prop} {i last : Nat} (h0 : ¬ P i) {r : Progress} (h : k.Stage P (i + 1) last r) :
    k.Stage P i last r := by
  have hlater : ∀ j, i ≤ j → P j → i + 1 ≤ j := fun j hij hp =>
    Nat.lt_of_le_of_ne hij fun he => h0 (he ▸ hp)
  cases r with
  | returns v =>
    obtain ⟨j, h1, h2, h3⟩ := h
    exact ⟨j, by omega, h2, h3⟩
  | waits => exact fun j h1 h2 h3 => h j (hlater j h1 h3) h2 h3
  | restarts m =>
    obtain ⟨h1, h2, h3, h4⟩ := h
    exact ⟨by omega, h2, h3, fun j h5 h6 h7 => h4 j (hlater j h5 h7) h6 h7⟩

section

variable {n deadline start : Nat} {timeout : Int}

/-- `poll` has something to report in pass `i`, or the time since it was last made is over. -/
def PollEnds (k : Timed) (fds n : Nat) (timeout : Int) (i : Nat) : Prop :=
  (∃ ready, k.scan i (k.pollfds fds n) 0 = some ready ∧ 0 < ready) ∨ timeout = 0 ∨
    0 < timeout ∧ saturatingAdd 64 (k.beganUs (k.lastStart i)) (timeout.toNat * 1000) ≤ k.uptimeUs i

/-- Waiting does not stop the kernel, and it is over with the first pass that ends it. -/
theorem pollLoop_spec (fds : Nat) (hn : n ≤ pollMaxFds)
    (hdeadline : ∀ us, deadline ≠ 0 ∧ deadline ≤ us ↔
      0 < timeout ∧ saturatingAdd 64 (k.beganUs start) (timeout.toNat * 1000) ≤ us) :
    ∀ passes i, k.lastStart i = start →
      Fine (k.pollLoop fds n timeout deadline passes i) (k.Stage (k.PollEnds fds n timeout) i (i + passes))
  | 0, i, _ => fine_some fun j h1 h2 => by omega
  | passes + 1, i, hi => by
    have hlen : (k.pollfds fds n).length ≤ 32 := (k.length_pollfds fds n).trans_le hn
    have hreturns : k.PollEnds fds n timeout i →
        ∀ v, k.Stage (k.PollEnds fds n timeout) i (i + (passes + 1)) (.returns v) := fun h _ =>
      ⟨i, le_rfl, by omega, h⟩
    refine (scan_fine i (k.pollfds fds n) 0 (by omega)).self.bind fun ready ⟨hready, _⟩ => ?_
    refine fine_ite (fun hnow => ?_) fun hwait => fine_ite (fun hlate => ?_) fun hearly => ?_
    · refine (copyoutPollfds_fine fds hn).bind fun _ _ => fine_pure (hreturns ?_ _)
      exact hnow.elim (fun h => .inl ⟨ready, hready, h⟩) fun h => .inr (.inl h)
    · refine (copyoutPollfds_fine fds hn).bind fun _ _ => fine_pure (hreturns ?_ _)
      exact .inr (.inr (hi ▸ (hdeadline _).mp hlate))
    have hnot : ¬ k.PollEnds fds n timeout i := by
      rintro (⟨r, hr, hpos⟩ | h0 | hd)
      · exact hwait (.inl (Option.some.inj (hready.symm.trans hr) ▸ hpos))
      · exact hwait (.inr h0)
      · exact hearly ((hdeadline _).mpr (hi ▸ hd))
    refine fine_ite (fun hswitch => fine_pure ?_) fun hstay => ?_
    · have hstart : k.lastStart (i + 1) = i + 1 := by rw [lastStart, if_pos hswitch]
      refine ⟨Nat.lt_succ_self i, by omega, hstart, fun j h1 h2 => ?_⟩
      obtain rfl : j = i := by omega
      exact hnot
    · have hstart : k.lastStart (i + 1) = start := by rw [lastStart, if_neg hstay, hi]
      refine (pollLoop_spec fds hn hdeadline passes (i + 1) hstart).mono fun r hr => .skip hnot ?_
      rwa [Nat.add_assoc, Nat.add_comm 1] at hr

theorem pollDeadline_fine (hfits : timeout.toNat * 1000 < 2 ^ 64) :
    Fine (k.pollDeadline start timeout) fun deadline => ∀ us, deadline ≠ 0 ∧ deadline ≤ us ↔
      0 < timeout ∧ saturatingAdd 64 (k.beganUs start) (timeout.toNat * 1000) ≤ us := by
  refine fine_ite (fun hpos => ?_) fun hneg => fine_some fun us => by simp [hneg]
  obtain ⟨us, hus, rfl⟩ := fine_mul hfits
  refine ⟨_, by rw [hus]; rfl, fun us => ?_⟩
  have hne : saturatingAdd 64 (k.beganUs start) (timeout.toNat * 1000) ≠ 0 := by
    unfold saturatingAdd
    omega
  simp [hpos, hne]

end

theorem sleepLoop_returns {target j : Nat} (hover : target ≤ k.jiffies (j + 1)) :
    ∀ passes i, i ≤ j → j < i + passes → ∃ v, k.sleepLoop target passes i = .returns v
  | 0, _, _, _ => by omega
  | passes + 1, i, hij, hj => by
    unfold sleepLoop
    split_ifs with hlt
    · rcases Nat.eq_or_lt_of_le hij with rfl | hij'
      · omega
      · exact sleepLoop_returns hover passes (i + 1) hij' (by omega)
    · exact ⟨_, rfl⟩

theorem sleepLoop_ne_restarts (target : Nat) : ∀ passes i pass, k.sleepLoop target passes i ≠ .restarts pass
  | 0, _, _ => nofun
  | passes + 1, i, pass => by
    unfold sleepLoop
    split_ifs
    · exact sleepLoop_ne_restarts target passes (i + 1) pass
    · nofun

/-- The tick is not after the requested time, since the count of nanoseconds only saturates downwards. -/
theorem sleepTarget_le {request : Nat × Nat} {now : Nat}
    (hover : k.jiffies 0 * 10000000 + (request.1 * 1000000000 + request.2) < now * 10000000) :
    k.sleepTarget request ≤ now := by
  unfold sleepTarget
  have hmul := saturatingMul_le 64 request.1 1000000000
  have hadd := saturatingAdd_le 64 (saturatingMul 64 request.1 1000000000) request.2
  simp only
  omega

end Timed

/-! ## The calls -/

/-- A call with its registers. -/
inductive Call
  | lseek (fd off whence : UInt64)
  | poll (fds nfds timeout : UInt64)
  | nanosleep (req rem : UInt64)
  | read (fd buf len : UInt64)
  | write (fd buf len : UInt64)

namespace Call

/-- A call that is made with pass `start`. -/
def attempt (k : Timed) (passes start : Nat) : Call → Option Progress
  | lseek fd off whence => k.sysLseek fd off whence
  | poll fds nfds timeout => k.sysPoll passes start fds nfds timeout
  | nanosleep req _ => k.sysNanosleep passes req
  | read fd buf len => k.sysRead passes start fd buf len
  | write fd buf len => k.sysWrite passes start fd buf len

/-- A call up to pass `last`, made anew when a `sched_yield` has switched. -/
def runFrom (k : Timed) (last : Nat) (c : Call) : (rounds start : Nat) → Option Progress
  | 0, _ => some .waits
  | rounds + 1, start => do
    match ← c.attempt k (last - start) start with
    | .restarts pass => c.runFrom k last rounds pass
    | r => return r

def run (k : Timed) (passes : Nat) (c : Call) : Option Progress := c.runFrom k passes (passes + 1) 0

/-- In pass `i` the timer stands past the time that a call with a finite timeout was given, counted from its
first reading. -/
def TimeIsOver (k : Timed) (i : Nat) : Call → Prop
  | poll _ _ timeout =>
    0 ≤ timeout.toBitVec.toInt ∧
      k.beganUs 0 + timeout.toNat * 1000 ≤ k.uptimeUs i
  | nanosleep req _ =>
    k.jiffies 0 * 10000000 + ((k.request req.toNat).1 * 1000000000 + (k.request req.toNat).2) <
      k.jiffies (i + 1) * 10000000
  | _ => False

/-- No operation of the call leaves its type, however long it waits, and it has returned once the time it was
given is over. -/
structure Completes (k : Timed) (c : Call) : Prop where
  runs : ∀ passes, c.run k passes ≠ none
  inTime : ∀ i passes, i < passes → c.TimeIsOver k i → ∃ v, c.run k passes = some (.returns v)

/-- The offset of a seek and the timeout of a poll that gets as far as using it. -/
def ArgsFit (k : Timed) : Call → Prop
  | lseek fd off whence => k.SeekFits fd off whence
  | poll fds nfds timeout =>
    ∀ n, k.copyinPollfds fds.toNat nfds.toNat = some (.ok n) → n ≠ 0 → 0 < timeout.toBitVec.toInt →
      timeout.toNat * 1000 < 2 ^ 64
  | _ => True

/-- When the time of a `poll` is over, it has had something to report, or the time since it was last made is
over. -/
def NotDelayed (k : Timed) : Call → Prop
  | poll fds nfds timeout =>
    ∀ n, k.copyinPollfds fds.toNat nfds.toNat = some (.ok n) → n ≠ 0 →
      ∀ i, (poll fds nfds timeout).TimeIsOver k i → ∃ j ≤ i, k.PollEnds fds.toNat n timeout.toBitVec.toInt j
  | _ => True

theorem toInt_toNat {x : UInt64} (h : 0 ≤ x.toBitVec.toInt) : x.toBitVec.toInt.toNat = x.toNat := by
  have hx : x.toBitVec.toNat = x.toNat := rfl
  rw [BitVec.toInt_eq_toNat_cond, hx] at h ⊢
  split_ifs at h ⊢ <;> omega

variable {k : Timed} {fds nfds timeout : UInt64}

theorem runFrom_fine {c : Call} {last : Nat} (h : ∀ passes start, Fine (c.attempt k passes start) fun _ => True) :
    ∀ rounds start, Fine (c.runFrom k last rounds start) fun _ => True
  | 0, _ => fine_some trivial
  | rounds + 1, start => by
    refine (h (last - start) start).bind fun r _ => ?_
    cases r with
    | restarts pass => exact runFrom_fine h rounds pass
    | waits | returns v => exact fine_pure trivial

/-- A call that has no time limit. -/
theorem Completes.of_fine {c : Call} (h : ∀ passes start, Fine (c.attempt k passes start) fun _ => True)
    (hnever : ∀ i, ¬ c.TimeIsOver k i) : c.Completes k :=
  ⟨fun passes => (runFrom_fine h (passes + 1) 0).ne_none, fun i _ _ hover => absurd hover (hnever i)⟩

theorem completes_nanosleep (req rem : UInt64) : (nanosleep req rem).Completes k := by
  have hrun (passes i : Nat) : Fine (k.sysNanosleep passes req) fun r => (∀ pass, r ≠ .restarts pass) ∧
      (i < passes → (nanosleep req rem).TimeIsOver k i → ∃ v, r = .returns v) := by
    refine fine_ite (fun _ => fine_some ⟨nofun, fun _ _ => ⟨_, rfl⟩⟩) fun hok => ?_
    have hok : userPtrOk req.toNat 16 = true := by simpa using hok
    refine (copyUser_fine k.pages false hok).bind fun r _ => ?_
    cases r with
    | error e => exact fine_pure ⟨nofun, fun _ _ => ⟨_, rfl⟩⟩
    | ok _ =>
      refine fine_pure ⟨Timed.sleepLoop_ne_restarts _ passes 0, fun hi hover => ?_⟩
      exact Timed.sleepLoop_returns (Timed.sleepTarget_le hover) passes 0 (Nat.zero_le _) (by omega)
  have hone (passes : Nat) : (nanosleep req rem).run k passes = k.sysNanosleep passes req := by
    obtain ⟨r, hr, hnot, -⟩ := hrun passes 0
    show (k.sysNanosleep (passes - 0) req).bind _ = _
    rw [Nat.sub_zero, hr]
    cases r with
    | restarts pass => exact absurd rfl (hnot pass)
    | waits | returns v => rfl
  refine ⟨fun passes => ?_, fun i passes hi hover => ?_⟩
  · rw [hone]
    exact (hrun passes 0).ne_none
  · obtain ⟨r, hr, -, hret⟩ := hrun passes i
    obtain ⟨v, rfl⟩ := hret hi hover
    exact ⟨v, (hone passes).trans hr⟩

/-- A call that goes through its stages returns in the first pass that ends it, however often it is made. -/
theorem runFrom_stages {c : Call} {last : Nat} {P : Nat → Prop}
    (h : ∀ start, k.lastStart start = start → start ≤ last →
      Fine (c.attempt k (last - start) start) (k.Stage P start last)) :
    ∀ rounds start, k.lastStart start = start → start ≤ last → last < start + rounds →
      Fine (c.runFrom k last rounds start) fun r => (∃ v, r = .returns v) ↔ ∃ j, start ≤ j ∧ j < last ∧ P j
  | 0, start, _, _, _ => by omega
  | rounds + 1, start, hstart, hle, hrounds => by
    refine (h start hstart hle).bind fun r hr => ?_
    cases r with
    | returns v => exact fine_pure (iff_of_true ⟨v, rfl⟩ hr)
    | waits => exact fine_pure (iff_of_false nofun fun ⟨j, h1, h2, h3⟩ => hr j h1 h2 h3)
    | restarts m =>
      obtain ⟨h1, h2, h3, h4⟩ := hr
      refine (runFrom_stages h rounds m h3 h2 (by omega)).mono fun r hr => hr.trans ⟨?_, ?_⟩
      · rintro ⟨j, h5, h6, h7⟩
        exact ⟨j, by omega, h6, h7⟩
      · rintro ⟨j, h5, h6, h7⟩
        exact ⟨j, Nat.le_of_not_lt fun h => h4 j h5 h h7, h6, h7⟩

section

variable {n : Nat} (hcopy : k.copyinPollfds fds.toNat nfds.toNat = some (.ok n)) (hn : n ≠ 0)
include hcopy hn

/-- A `poll` with entries, whose timeout fits. -/
theorem run_poll (hfit : (poll fds nfds timeout).ArgsFit k) (passes : Nat) :
    Fine ((poll fds nfds timeout).run k passes) fun r =>
      (∃ v, r = .returns v) ↔ ∃ j < passes, k.PollEnds fds.toNat n timeout.toBitVec.toInt j := by
  have hmax : n ≤ pollMaxFds := by
    obtain ⟨r, hr, hle⟩ := Timed.copyinPollfds_fine (k := k) fds.toNat nfds.toNat
    exact hle n (Option.some.inj (hr.symm.trans hcopy))
  have hus : timeout.toBitVec.toInt.toNat * 1000 < 2 ^ 64 := by
    rcases lt_or_ge 0 timeout.toBitVec.toInt with hpos | hneg
    · rw [toInt_toNat hpos.le]
      exact hfit n hcopy hn hpos
    · simp [Int.toNat_of_nonpos hneg]
  refine (runFrom_stages (P := k.PollEnds fds.toNat n timeout.toBitVec.toInt) (fun start hstart hle => ?_)
    (passes + 1) 0 rfl (Nat.zero_le _) (by omega)).mono fun r hr => by simpa using hr
  show Fine (k.sysPoll (passes - start) start fds nfds timeout) _
  refine Fine.bind ⟨_, hcopy, rfl⟩ ?_
  rintro r rfl
  simp only [if_neg hn]
  refine (Timed.pollDeadline_fine hus).bind fun deadline hdeadline => ?_
  have hloop := Timed.pollLoop_spec fds.toNat hmax hdeadline (passes - start) start hstart
  rwa [Nat.add_sub_cancel' hle] at hloop

theorem argsFit_of_runs (h : (poll fds nfds timeout).run k 0 ≠ none) (hpos : 0 < timeout.toBitVec.toInt) :
    timeout.toNat * 1000 < 2 ^ 64 := by
  by_contra hbig
  apply h
  have hmul : mul 64 timeout.toBitVec.toInt.toNat 1000 = none := by
    rw [mul_eq_none_iff, toInt_toNat hpos.le]
    exact Nat.le_of_not_lt hbig
  simp [run, runFrom, attempt, Timed.sysPoll, hcopy, hn, Timed.pollDeadline, hpos, hmul]

end

/-- A `poll` without entries, or with entries that cannot be read. -/
theorem run_poll_idle {r : Except Errno Nat} (hcopy : k.copyinPollfds fds.toNat nfds.toNat = some r)
    (hidle : ∀ n, r = .ok n → n = 0) (passes : Nat) :
    ∃ v, (poll fds nfds timeout).run k passes = some (.returns v) := by
  cases r with
  | error e => exact ⟨.error e, by simp [run, runFrom, attempt, Timed.sysPoll, hcopy]⟩
  | ok n => exact ⟨.ok 0, by simp [run, runFrom, attempt, Timed.sysPoll, hcopy, hidle n rfl]⟩

theorem completes_poll_iff : (poll fds nfds timeout).Completes k ↔
    (poll fds nfds timeout).ArgsFit k ∧ (poll fds nfds timeout).NotDelayed k := by
  constructor
  · intro h
    have hfit : (poll fds nfds timeout).ArgsFit k := fun n hcopy hn => argsFit_of_runs hcopy hn (h.runs 0)
    refine ⟨hfit, fun n hcopy hn i hover => ?_⟩
    obtain ⟨r, hr, hiff⟩ := run_poll hcopy hn hfit (i + 1)
    obtain ⟨v, hv⟩ := h.inTime i (i + 1) (Nat.lt_succ_self i) hover
    obtain ⟨j, hj, hends⟩ := hiff.mp ⟨v, Option.some.inj (hr.symm.trans hv)⟩
    exact ⟨j, by omega, hends⟩
  · rintro ⟨hfit, htime⟩
    obtain ⟨r, hcopy, -⟩ := Timed.copyinPollfds_fine (k := k) fds.toNat nfds.toNat
    by_cases hidle : ∀ n, r = .ok n → n = 0
    · have hret (passes : Nat) : ∃ v, (poll fds nfds timeout).run k passes = some (.returns v) :=
        run_poll_idle hcopy hidle passes
      refine ⟨fun passes => ?_, fun _ passes _ _ => hret passes⟩
      obtain ⟨v, hv⟩ := hret passes
      simp [hv]
    · obtain ⟨n, rfl, hn⟩ : ∃ n, r = .ok n ∧ n ≠ 0 := by simpa using hidle
      refine ⟨fun passes => (run_poll hcopy hn hfit passes).ne_none, fun i passes hi hover => ?_⟩
      obtain ⟨r, hr, hiff⟩ := run_poll hcopy hn hfit passes
      obtain ⟨j, hj, hends⟩ := htime n hcopy hn i hover
      obtain ⟨v, rfl⟩ := hiff.mpr ⟨j, by omega, hends⟩
      exact ⟨v, hr⟩

/-- A `poll` that is made once is not delayed. -/
theorem notDelayed_alone (hstay : ∀ i, k.switches i = false) (c : Call) : c.NotDelayed k := by
  have hstart : ∀ i, k.lastStart i = 0 := fun i => by
    induction i with
    | zero => rfl
    | succ i ih => rw [Timed.lastStart, hstay i, if_neg Bool.false_ne_true, ih]
  cases c with
  | lseek | nanosleep | read | write => trivial
  | poll fds nfds timeout =>
    rintro n - - i ⟨h0, hover⟩
    refine ⟨i, le_rfl, .inr (h0.eq_or_lt.imp Eq.symm fun hpos => ⟨hpos, ?_⟩)⟩
    rw [hstart, toInt_toNat h0]
    exact (saturatingAdd_le ..).trans hover

/-- A call completes if and only if the sum of a seek fits into `i64`, the timeout of a poll, in microseconds,
into `u64`, and no switch to another process delays the poll. Nothing that `read`, `write` and `nanosleep` are
given matters, and a poll is not delayed if nothing else runs. -/
theorem completes_iff (k : Timed) (c : Call) :
    (c.Completes k ↔ c.ArgsFit k ∧ c.NotDelayed k) ∧ ((∀ i, k.switches i = false) → c.NotDelayed k) := by
  refine ⟨?_, fun hstay => notDelayed_alone hstay c⟩
  cases c with
  | lseek fd off whence =>
    have hiff := Kernel.sysLseek_ne_none_iff (k := k.toKernel) fd off whence
    refine ⟨fun h => ⟨hiff.mp fun hnone => h.runs 0 ?_, trivial⟩, fun h => .of_fine (fun _ _ => ?_) fun _ => id⟩
    · simp [run, runFrom, attempt, hnone]
    · obtain ⟨r, hr⟩ := Option.ne_none_iff_exists'.mp (hiff.mpr h.1)
      exact ⟨r, hr, trivial⟩
  | poll fds nfds timeout => exact completes_poll_iff
  | nanosleep req rem => exact iff_of_true (completes_nanosleep req rem) ⟨trivial, trivial⟩
  | read fd buf len =>
    exact iff_of_true (.of_fine (fun passes start => Kernel.sysRead_fine passes start fd buf len) fun _ => id)
      ⟨trivial, trivial⟩
  | write fd buf len =>
    exact iff_of_true (.of_fine (fun passes start => Kernel.sysWrite_fine passes start fd buf len) fun _ => id)
      ⟨trivial, trivial⟩

/-! ## A seek and a poll that stop the kernel -/

/-- A process with one file open in slot 3, at position 1, and all of its memory mapped. -/
def oneFile : Timed where
  fds := fun i =>
    if i = 3 then { Vfs.VfsFd.default with size := 8, pos := 1, fs := .onyx, used := true, perms := 7, epoch := 1 }
    else .default
  pos_lt := by decide
  size_lt := by decide
  pages := ⟨fun _ => true, fun _ => true⟩
  byteAt := fun _ => 0
  console := ⟨false, true, false, 1, 0, fun _ => none, fun _ => false, fun _ => 0⟩
  back :=
    { v2 := fun _ => true
      onyx := fun _ => .error .noEnt
      fat := fun _ => ⟨1, by decide, by decide, fun _ => 0, fun _ => by decide, fun _ => .ok (), fun _ => none⟩
      proc := fun _ => .error .noEnt
      chans := fun _ => .zeroed
      pid := 1
      dev := fun _ => .other }
  ptys := fun _ _ => ⟨false, .new, .new⟩
  switches := fun _ => false
  began := fun i => i
  upticks := fun i => i
  jiffies := fun i => i
  pollfds := fun _ n => List.replicate n ⟨0, 1⟩
  length_pollfds := fun _ n => List.length_replicate
  request := fun _ => (0, 0)
  consoleReady := fun _ => false

/-- `lseek(fd, i64::MAX, 1)` from position 1, `poll(fds, 1, i64::MAX)`, and `poll(fds, 1, 10)` beside a process
that runs for a tick after each switch: 20 ms later it still waits. -/
theorem seek_and_poll_stop :
    ¬(lseek (Vfs.fdToken 3 1) 0x7FFFFFFFFFFFFFFF 1).Completes oneFile ∧
      ¬(poll 0x10000 1 0x7FFFFFFFFFFFFFFF).Completes oneFile ∧
      ¬(poll 0x10000 1 10).Completes { oneFile with switches := fun _ => true } := by
  refine ⟨fun h => h.runs 0 (by decide +kernel), fun h => h.runs 0 (by decide +kernel), fun h => ?_⟩
  obtain ⟨v, hv⟩ := h.inTime 2 3 (by decide) ⟨by decide, by decide⟩
  have hwaits : (poll 0x10000 1 10).run { oneFile with switches := fun _ => true } 3 = some .waits := by
    decide +kernel
  cases hwaits.symm.trans hv

end Call

end Syscall
