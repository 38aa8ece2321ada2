import OnyxKernel.Syscall.Backends
import OnyxKernel.Vfs.Pty

/-!
# `sys_read`, `sys_write` and `sys_lseek`

The calls from their arguments down to the file systems. A call may have to wait; it is given a number of
passes of its loop and reports whether it is still waiting. Between two passes it calls `sched_yield`. If that
switches to another process it does not return: the frame it has saved still points at the `ecall`, so that the
call is made anew when the process runs again.

The position moves by the plain sum `fd.pos + read_n` in `read`, by `checked_add` in `write`, and by a sum of
two signed numbers in `lseek`. The first is safe because no file system moves more than it is asked for. The
last is not: the offset is the caller's.
-/

namespace Syscall

open Onyx Checked
open Vfs (FdTable VfsFd permRead permWrite permSeek)

/-- Where a call stands after a number of passes. -/
inductive Progress
  | waits
  | returns (value : Except Errno Nat)
  /-- A `sched_yield` has switched; the call is made again with this pass. -/
  | restarts (pass : Nat)
  deriving DecidableEq

/-! ## The console -/

/-- The terminal settings of a process, and what the console answers to it pass after pass. -/
structure Console where
  rawStdin : Bool
  icanon : Bool
  nonblock : Bool
  vmin : UInt8
  vtime : UInt8
  nextByte : Nat → Option UInt8
  ready : Nat → Bool
  uptimeUs : Nat → Nat

namespace Console

-- `switches` says whether the `sched_yield` of a pass switches.
variable (c : Console) (switches : Nat → Bool)

/-- The rest of `raw_read`: what is queued behind the first byte. -/
def rawDrain (len : Nat) : (fuel i n : Nat) → Option Progress
  | 0, _, _ => none
  | fuel + 1, i, n =>
    if n < len then
      match c.nextByte i with
      | some _ => do
        let n ← add 64 n 1
        rawDrain len fuel (i + 1) n
      | none => some (.returns (.ok n))
    else some (.returns (.ok n))

/-- The loop of `first_byte`, and on with `raw_read`. -/
def rawWait (len : Nat) : (passes i : Nat) → Option Progress
  | 0, _ => some .waits
  | passes + 1, i =>
    if (c.nextByte (i + 1)).isSome then c.rawDrain len len (i + 2) 1
    else if switches i then some (.restarts (i + 1))
    else rawWait len passes (i + 1)

def rawRead (passes start len : Nat) : Option Progress :=
  if (c.nextByte start).isSome then c.rawDrain len len (start + 1) 1
  else if c.nonblock then some (.returns (.error .again))
  else c.rawWait switches len passes start

def vtimeUs : Option Nat := mul 64 c.vtime.toNat 100000

/-- The loop of `noncanon_read`. -/
def noncanonLoop (maxlen want : Nat) : (passes i n deadline : Nat) → Option Progress
  | 0, _, _, _ => some .waits
  | passes + 1, i, n, deadline =>
    match c.nextByte i with
    | some _ => do
      let n ← add 64 n 1
      let vtime ← c.vtimeUs
      -- the window between two bytes begins anew
      let deadline :=
        if 0 < c.vmin ∧ 0 < c.vtime then saturatingAdd 64 (c.uptimeUs (i + 1)) vtime else deadline
      if max want 1 ≤ n ∨ maxlen ≤ n then return .returns (.ok n)
      noncanonLoop maxlen want passes (i + 1) n deadline
    | none =>
      if c.vmin = 0 ∧ c.vtime = 0 then some (.returns (.ok n))
      else if deadline ≠ 0 ∧ deadline ≤ c.uptimeUs (i + 1) ∧ (0 < c.vmin ∨ n = 0) then
        some (.returns (.ok n))
      else if c.nonblock then
        if n = 0 then some (.returns (.error .again)) else some (.returns (.ok n))
      else if switches i then some (.restarts (i + 1))
      else if maxlen ≤ n then some (.returns (.ok n))
      else noncanonLoop maxlen want passes (i + 1) n deadline

def noncanonRead (passes start len : Nat) : Option Progress := do
  let vtime ← c.vtimeUs
  let deadline := if c.vmin = 0 ∧ 0 < c.vtime then saturatingAdd 64 (c.uptimeUs start) vtime else 0
  c.noncanonLoop switches len (min c.vmin.toNat len) passes start 0 deadline

/-- The loop of `cooked_read`. -/
def cookedLoop (limit : Nat) : (passes i n : Nat) → Option Progress
  | 0, _, _ => some .waits
  | passes + 1, i, n =>
    if limit ≤ n then some (.returns (.ok n))
    else
      match c.nextByte i with
      | none =>
        if c.nonblock && n == 0 && !c.ready (i + 1) then some (.returns (.error .again))
        else if switches i then some (.restarts (i + 1))
        else cookedLoop limit passes (i + 1) n
      | some b =>
        if b = 13 ∨ b = 10 then do
          let n ← add 64 n 1
          return .returns (.ok n)
        else if b = 0x7F ∨ b = 8 then
          if 0 < n then do
            let n ← sub n 1
            cookedLoop limit passes (i + 1) n
          else cookedLoop limit passes (i + 1) n
        else if b = 4 then some (.returns (.ok n))
        else do
          let n ← add 64 n 1
          cookedLoop limit passes (i + 1) n

def cookedRead (passes start len : Nat) : Option Progress :=
  if c.nonblock && !c.ready start then some (.returns (.error .again))
  else do
    let most ← sub len 1
    c.cookedLoop switches (max most 1) passes start 0

/-- `console_read`. -/
def read (passes start len : Nat) : Option Progress :=
  if len = 0 then some (.returns (.ok 0))
  else if c.rawStdin then c.rawRead switches passes start len
  else if c.icanon = false then c.noncanonRead switches passes start len
  else c.cookedRead switches passes start len

end Console

/-- The bytes that `sys_write` gives to the console one by one. -/
def consoleWrite (len : Nat) : (fuel i : Nat) → (written : Int) → Option Int
  | 0, _, _ => none
  | fuel + 1, i, written =>
    if i < len then do
      let written ← addI64 written 1
      let i ← add 64 i 1
      consoleWrite len fuel i written
    else some written

/-! ## The descriptors -/

/-- What a system call finds: the descriptors of its process with their 32-bit positions and sizes, its
memory, its terminal, the file systems, and the pairs behind its pseudo terminals. -/
structure Kernel where
  fds : FdTable
  pos_lt : ∀ i, (fds i).pos < 2 ^ 32
  size_lt : ∀ i, (fds i).size < 2 ^ 32
  pages : UserPages
  byteAt : Nat → UInt8
  console : Console
  back : Backends
  /-- The pairs that a pass finds. -/
  ptys : Nat → Fin 4 → Vfs.Pty
  /-- Whether the `sched_yield` of a pass switches to another process. -/
  switches : Nat → Bool

/-- What `side_read` or `side_write` returns. -/
def sideMoves (p : Vfs.Pty) (side : Vfs.Side) (work : Vfs.Work) : Except Errno Nat :=
  match (match work with
    | .read len => p.sideRead side len
    | .write data => p.sideWrite side data).1 with
  | .fails e => .error e
  | .moved bytes => .ok bytes.length

/-- The loop of `read_hook` and `write_hook`. -/
def ptyLoop (nonblock : Bool) (switches : Nat → Bool) (side : Nat → Except Errno Nat) :
    (passes i : Nat) → Progress
  | 0, _ => .waits
  | passes + 1, i =>
    match side i with
    | .ok 0 =>
      if nonblock then .returns (.error .again)
      else if switches i then .restarts (i + 1)
      else ptyLoop nonblock switches side passes (i + 1)
    | .ok n => .returns (.ok n)
    | .error e => .returns (.error e)

namespace Kernel

variable (k : Kernel)

def resolveStdio (token : UInt64) : UInt64 :=
  if token ≤ 2 then
    let slot := Vfs.fdTokenIdx token
    if (k.fds slot).used then Vfs.fdToken slot (k.fds slot).epoch else token
  else token

def userBufOk (buf len : Nat) (write : Bool) : Option Bool :=
  if userPtrOk buf len = false then some false
  else do
    match ← checkUserRange k.pages buf len write with
    | .error _ => return false
    | .ok () => return true

/-- `read_hook` and `write_hook`: nothing if the descriptor is not of a pseudo terminal. -/
def ptyHook (passes start : Nat) (token : UInt64) (work : Vfs.Work) : Option Progress :=
  match k.fds.fdCheck token with
  | .error e => some (.returns (.error e))
  | .ok idx =>
    if (k.fds idx).fs ≠ .devfs then none
    else
      match Vfs.ptyClassify (k.ptys start) (k.fds idx).ino with
      | none => none
      | some (pair, side) =>
        if work.isEmpty then some (.returns (.ok 0))
        else
          some (ptyLoop ((k.fds idx).flags &&& Vfs.oNonblock != 0) k.switches
            (fun i => sideMoves (k.ptys i pair) side work) passes start)

/-- `vfs::read`. -/
def vfsRead (token : UInt64) (len : Nat) : Option (Except Errno Nat × FdTable) :=
  match k.fds.fdCheckPerm token permRead with
  | .error e => some (.error e, k.fds)
  | .ok idx =>
    let fd := k.fds idx
    let toRead := min len (fd.size - fd.pos)
    if toRead = 0 then some (.ok 0, k.fds)
    else do
      match ← k.back.readFrom fd toRead with
      | .error e => return (.error e, k.fds)
      | .ok readN =>
        let pos ← add 32 fd.pos readN
        return (.ok readN, k.fds.fdUpdatePos idx pos)

/-- `vfs::write`; `checked_add` refuses a position past `u32`. -/
def vfsWrite (token : UInt64) (data : List UInt8) : Option (Except Errno Nat × FdTable) :=
  match k.fds.fdCheckPerm token permWrite with
  | .error e => some (.error e, k.fds)
  | .ok idx => do
    let fd := k.fds idx
    match ← k.back.writeTo fd data with
    | .error e => return (.error e, k.fds)
    | .ok written =>
      match add 32 fd.pos written with
      | none => return (.error .noMem, k.fds)
      | some pos => return (.ok written, Function.update k.fds idx { fd with pos, size := max fd.size pos })

/-- The end of `lseek`: the position must be a `u32`. -/
def seekTo (idx : Fin 16) (pos : Int) : Except Errno Nat × FdTable :=
  if pos < 0 then (.error .range, k.fds)
  else if 2 ^ 32 ≤ pos then (.error .range, k.fds)
  else (.ok pos.toNat, k.fds.fdUpdatePos idx pos.toNat)

def lseek (token : UInt64) (off : Int) (whence : UInt32) : Option (Except Errno Nat × FdTable) :=
  match k.fds.fdCheckPerm token permSeek with
  | .error e => some (.error e, k.fds)
  | .ok idx =>
    if whence = 0 then some (k.seekTo idx off)
    else if whence = 1 then (addI64 (k.fds idx).pos off).map (k.seekTo idx)
    else if whence = 2 then (addI64 (k.fds idx).size off).map (k.seekTo idx)
    else some (.error .inval, k.fds)

def bytes (buf len : Nat) : List UInt8 := (List.range len).map fun i => k.byteAt (buf + i)

def sysRead (passes start : Nat) (fd buf len : UInt64) : Option Progress := do
  match ← k.userBufOk buf.toNat len.toNat true with
  | false => return .returns (.error .fault)
  | true =>
    let fd := k.resolveStdio fd
    if fd = 0 then k.console.read k.switches passes start len.toNat
    else if fd ≤ 2 then return .returns (.error .badFd)
    else
      match k.ptyHook passes start fd (.read (len.toNat % 2 ^ 32)) with
      | some answer => return answer
      | none =>
        let answer ← k.vfsRead fd (len.toNat % 2 ^ 32)
        return .returns answer.1

def sysWrite (passes start : Nat) (fd buf len : UInt64) : Option Progress := do
  match ← k.userBufOk buf.toNat len.toNat false with
  | false => return .returns (.error .fault)
  | true =>
    let fd := k.resolveStdio fd
    if fd = 1 ∨ fd = 2 then
      let written ← consoleWrite len.toNat (len.toNat + 1) 0 0
      return .returns (.ok written.toNat)
    else
      let data := k.bytes buf.toNat (len.toNat % 2 ^ 32)
      match k.ptyHook passes start fd (.write data) with
      | some answer => return answer
      | none =>
        let answer ← k.vfsWrite fd data
        return .returns answer.1

def sysLseek (fd off whence : UInt64) : Option Progress := do
  let answer ← k.lseek fd off.toBitVec.toInt whence.toUInt32
  return .returns answer.1

end Kernel

/-! ## Reading and writing do not leave a type -/

namespace Console

variable {c : Console} {switches : Nat → Bool} {len : Nat}

theorem rawDrain_fine (hlen : len < 2 ^ 64) :
    ∀ fuel i n, n ≤ len → len < n + fuel → Fine (c.rawDrain len fuel i n) fun _ => True
  | 0, _, _, _, _ => by omega
  | fuel + 1, i, n, hn, hfuel => by
    refine fine_ite (fun hlt => ?_) fun _ => fine_some trivial
    cases c.nextByte i with
    | none => exact fine_some trivial
    | some b =>
      exact (fine_add (by omega)).bind fun n' hn' => rawDrain_fine hlen fuel (i + 1) n' (by omega) (by omega)

theorem rawWait_fine (hlen : len < 2 ^ 64) (hpos : 0 < len) :
    ∀ passes i, Fine (c.rawWait switches len passes i) fun _ => True
  | 0, _ => fine_some trivial
  | passes + 1, i => by
    refine fine_ite (fun _ => rawDrain_fine hlen len (i + 2) 1 hpos (by omega)) fun _ => ?_
    exact fine_ite (fun _ => fine_some trivial) fun _ => rawWait_fine hlen hpos passes (i + 1)

theorem rawRead_fine (hlen : len < 2 ^ 64) (hpos : 0 < len) (passes start : Nat) :
    Fine (c.rawRead switches passes start len) fun _ => True := by
  refine fine_ite (fun _ => rawDrain_fine hlen len (start + 1) 1 hpos (by omega)) fun _ => ?_
  exact fine_ite (fun _ => fine_some trivial) fun _ => rawWait_fine hlen hpos passes start

theorem vtimeUs_fine : Fine c.vtimeUs fun _ => True := by
  have := c.vtime.toNat_lt
  exact (fine_mul (by omega)).mono fun _ _ => trivial

theorem noncanonLoop_fine {want : Nat} (hlen : len < 2 ^ 64) :
    ∀ passes i n deadline, n < len → Fine (c.noncanonLoop switches len want passes i n deadline) fun _ => True
  | 0, _, _, _, _ => fine_some trivial
  | passes + 1, i, n, deadline, hn => by
    unfold noncanonLoop
    cases c.nextByte i with
    | some b =>
      refine (fine_add (by omega)).bind fun n' hn' => vtimeUs_fine.bind fun vtime _ => ?_
      refine fine_ite (fun _ => fine_pure trivial) fun hgo => ?_
      exact noncanonLoop_fine hlen passes (i + 1) n' _ (by omega)
    | none =>
      refine fine_ite (fun _ => fine_some trivial) fun _ => ?_
      refine fine_ite (fun _ => fine_some trivial) fun _ => ?_
      refine fine_ite (fun _ => ?_) fun _ => fine_ite (fun _ => fine_some trivial) fun _ => ?_
      · exact fine_ite (fun _ => fine_some trivial) fun _ => fine_some trivial
      · refine fine_ite (fun _ => fine_some trivial) fun _ => ?_
        exact noncanonLoop_fine hlen passes (i + 1) n deadline hn

theorem cookedLoop_fine {limit : Nat} (hlimit : limit < 2 ^ 64) :
    ∀ passes i n, Fine (c.cookedLoop switches limit passes i n) fun _ => True
  | 0, _, _ => fine_some trivial
  | passes + 1, i, n => by
    have ih (m : Nat) := cookedLoop_fine hlimit passes (i + 1) m
    refine fine_ite (fun _ => fine_some trivial) fun hn => ?_
    cases c.nextByte i with
    | none => exact fine_ite (fun _ => fine_some trivial) fun _ => fine_ite (fun _ => fine_some trivial) fun _ => ih n
    | some b =>
      refine fine_ite (fun _ => (fine_add (by omega)).bind fun _ _ => fine_pure trivial) fun _ => ?_
      refine fine_ite (fun _ => ?_) fun _ => ?_
      · exact fine_ite (fun h => (fine_sub (by omega)).bind fun m _ => ih m) fun _ => ih n
      · refine fine_ite (fun _ => fine_some trivial) fun _ => ?_
        exact (fine_add (by omega)).bind fun m _ => ih m

theorem read_fine (hlen : len < 2 ^ 64) (passes start : Nat) :
    Fine (c.read switches passes start len) fun _ => True := by
  refine fine_ite (fun _ => fine_some trivial) fun hpos => fine_ite (fun _ => ?_) fun _ => ?_
  · exact rawRead_fine hlen (by omega) passes start
  · refine fine_ite (fun _ => ?_) fun _ => fine_ite (fun _ => fine_some trivial) fun _ => ?_
    · exact vtimeUs_fine.bind fun _ _ => noncanonLoop_fine hlen _ _ _ _ (by omega)
    · exact (fine_sub (by omega)).bind fun most _ => cookedLoop_fine (by omega) _ _ _

end Console

theorem consoleWrite_fine {len : Nat} (hlen : len < 2 ^ 63) :
    ∀ (fuel i : Nat) (written : Int), written = i → i ≤ len → len < i + fuel →
      Fine (consoleWrite len fuel i written) fun _ => True
  | 0, _, _, _, _, _ => by omega
  | fuel + 1, i, written, hw, hi, hfuel => by
    refine fine_ite (fun hlt => ?_) fun _ => fine_some trivial
    refine (fine_addI64 (by omega) (by omega)).bind fun written' hw' => ?_
    refine (fine_add (by omega)).bind fun i' hi' => ?_
    exact consoleWrite_fine hlen fuel i' written' (by omega) (by omega) (by omega)

namespace Kernel

variable {k : Kernel}

theorem userBufOk_fine (buf len : Nat) (write : Bool) :
    Fine (k.userBufOk buf len write) fun b => b = true → len < 2 ^ 32 := by
  refine fine_ite (fun _ => fine_some nofun) fun h => ?_
  have hok : userPtrOk buf len = true := by simpa using h
  have hlen : len < 2 ^ 32 := by
    have hle := (userPtrOk_iff.mp hok).2
    have htop : userTop < 2 ^ 32 := by decide
    omega
  refine (checkUserRange_fine k.pages write hok).bind fun r _ => ?_
  cases r with
  | error e => exact fine_pure nofun
  | ok _ => exact fine_pure fun _ => hlen

/-- An open descriptor is only called bad by its file system. -/
theorem vfsRead_fine (token : UInt64) {len : Nat} (hlen : len < 2 ^ 32) :
    Fine (k.vfsRead token len) fun a => a.1 = .error .badFd →
      ∀ i, k.fds.fdCheck token = .ok i → ∃ n, k.back.readFrom (k.fds i) n = some (.error .badFd) := by
  unfold vfsRead FdTable.fdCheckPerm
  cases k.fds.fdCheck token with
  | error e => exact fine_some nofun
  | ok idx =>
    have hsize := k.size_lt idx
    by_cases hperm : (k.fds idx).perms &&& permRead = 0
    · simp only [if_pos hperm]
      exact fine_some nofun
    simp only [if_neg hperm]
    refine fine_ite (fun _ => fine_some nofun) fun hpos => ?_
    refine (Backends.readFrom_fine (k.pos_lt idx) (by omega)).self.bind fun r ⟨hr, hle⟩ => ?_
    cases r with
    | error e =>
      refine fine_pure ?_
      rintro ⟨⟩ i ⟨⟩
      exact ⟨_, hr⟩
    | ok readN =>
      have hle := hle readN rfl
      exact (fine_add (by omega)).bind fun _ _ => fine_pure nofun

theorem vfsWrite_fine (token : UInt64) {data : List UInt8} (hlen : data.length < 2 ^ 32) :
    Fine (k.vfsWrite token data) fun _ => True := by
  unfold vfsWrite
  cases k.fds.fdCheckPerm token permWrite with
  | error e => exact fine_some trivial
  | ok idx =>
    refine (Backends.writeTo_fine (k.pos_lt idx) hlen).bind fun r _ => ?_
    cases r with
    | error e => exact fine_pure trivial
    | ok written =>
      simp only
      cases add 32 (k.fds idx).pos written with
      | none | some pos => exact fine_pure trivial

theorem sysRead_fine (passes start : Nat) (fd buf len : UInt64) :
    Fine (k.sysRead passes start fd buf len) fun _ => True := by
  refine (userBufOk_fine buf.toNat len.toNat true).bind fun ok hlen => ?_
  cases ok with
  | false => exact fine_pure trivial
  | true =>
    have hlen := hlen rfl
    refine fine_ite (fun _ => Console.read_fine (by omega) passes start) fun _ => ?_
    refine fine_ite (fun _ => fine_pure trivial) fun _ => ?_
    cases k.ptyHook passes start (k.resolveStdio fd) (.read (len.toNat % 2 ^ 32)) with
    | some answer => exact fine_pure trivial
    | none => exact (vfsRead_fine _ (Nat.mod_lt _ (by decide))).bind fun _ _ => fine_pure trivial

theorem sysWrite_fine (passes start : Nat) (fd buf len : UInt64) :
    Fine (k.sysWrite passes start fd buf len) fun _ => True := by
  refine (userBufOk_fine buf.toNat len.toNat false).bind fun ok hlen => ?_
  cases ok with
  | false => exact fine_pure trivial
  | true =>
    have hlen := hlen rfl
    refine fine_ite (fun _ => ?_) fun _ => ?_
    · have hlen : len.toNat < 2 ^ 63 := by omega
      refine (consoleWrite_fine hlen _ 0 0 rfl (Nat.zero_le _) (by omega)).bind fun _ _ => ?_
      exact fine_pure trivial
    · dsimp only
      cases k.ptyHook passes start (k.resolveStdio fd) (.write (k.bytes buf.toNat (len.toNat % 2 ^ 32))) with
      | some answer => exact fine_pure trivial
      | none =>
        have hbytes : (k.bytes buf.toNat (len.toNat % 2 ^ 32)).length < 2 ^ 32 := by
          simp only [bytes, List.length_map, List.length_range]
          exact Nat.mod_lt _ (by decide)
        exact (vfsWrite_fine _ hbytes).bind fun _ _ => fine_pure trivial

/-! ## Seeking

The position and the size are not negative, so that the sum can only be too great.
-/

/-- What `lseek` adds the offset to. -/
def seekBase (k : Kernel) (idx : Fin 16) (whence : UInt32) : Option Nat :=
  if whence = 1 then some (k.fds idx).pos
  else if whence = 2 then some (k.fds idx).size
  else none

/-- The sum of a seek fits into `i64`. -/
def SeekFits (k : Kernel) (fd off whence : UInt64) : Prop :=
  ∀ idx base, k.fds.fdCheckPerm fd permSeek = .ok idx → k.seekBase idx whence.toUInt32 = some base →
    base + off.toBitVec.toInt < 2 ^ 63

theorem sysLseek_ne_none_iff (fd off whence : UInt64) :
    k.sysLseek fd off whence ≠ none ↔ k.SeekFits fd off whence := by
  have hoff : -2 ^ 63 ≤ off.toBitVec.toInt := BitVec.le_toInt _
  -- the one sum of the call
  have hsum (base : Nat) (g : Int → Except Errno Nat × FdTable) :
      (addI64 base off.toBitVec.toInt).map g ≠ none ↔ base + off.toBitVec.toInt < 2 ^ 63 := by
    rw [Ne, Option.map_eq_none_iff, addI64_eq_none_iff]
    omega
  have hcall : k.sysLseek fd off whence ≠ none ↔
      k.lseek fd off.toBitVec.toInt whence.toUInt32 ≠ none := by
    simp only [sysLseek, ne_eq, Option.bind_eq_bind, Option.bind_eq_none_iff, Option.pure_def]
    cases k.lseek fd off.toBitVec.toInt whence.toUInt32 <;> simp
  rw [hcall]
  unfold lseek SeekFits seekBase
  cases k.fds.fdCheckPerm fd permSeek with
  | error e => simp
  | ok idx =>
    by_cases h0 : whence.toUInt32 = 0
    · simp [h0]
    · by_cases h1 : whence.toUInt32 = 1
      · simpa [h1] using hsum _ (k.seekTo idx)
      · by_cases h2 : whence.toUInt32 = 2
        · simpa [h2] using hsum _ (k.seekTo idx)
        · simp [h0, h1, h2]

end Kernel

end Syscall
