import OnyxKernel.Infra.Machine
import OnyxKernel.Proc.Process

/-!
# The scheduler, `exit` and `wait` on several harts

Each hart runs `sched_yield`, `steal`, `signal_send`, `wait`, `sys_waitpid`, `exit` and
`publish_ready`; what one of them does under a lock is one step, and so is each access to a process
outside the locks. The `Pc` of a hart says where it is between two steps.

Trap frames are not kept: `sched_yield` saves the frame in its first section. Pending signals are in
`Proc.Signals`; here any signal may be sent and a process may be stopped at any time. `n` is
`MAX_HARTS`.
-/

namespace Sched

open Infra Proc Function

/-! ## Process table and run queues -/

structure Node where
  pid : Nat
  parentPid : Nat
  state : ProcState
  exitCode : Int
  noCldwait : Bool
  onRq : Bool
  affinity : Int
  deriving DecidableEq, Repr

/-- The process list, the run queues and the current processes. A process is the address of its
node. -/
structure Table (n : Nat) where
  node : Nat → Node
  allProcs : List Nat
  rq : Fin n → List Nat
  current : Fin n → Option Nat

namespace Table

variable {n : Nat} (t : Table n)

def setNode (p : Nat) (v : Node) : Table n := { t with node := update t.node p v }

def setState (p : Nat) (state : ProcState) : Table n := t.setNode p { t.node p with state }

def setOnRq (p : Nat) (onRq : Bool) : Table n := t.setNode p { t.node p with onRq }

def setQueue (h : Fin n) (l : List Nat) : Table n := { t with rq := update t.rq h l }

def setCurrent (h : Fin n) (p : Option Nat) : Table n := { t with current := update t.current h p }

def enqueue (h : Fin n) (p : Nat) : Table n :=
  if (t.node p).onRq = true then t else (t.setOnRq p true).setQueue h (t.rq h ++ [p])

def dequeue (h : Fin n) : Option Nat × Table n :=
  match t.rq h with
  | [] => (none, t)
  | p :: l => (some p, (t.setOnRq p false).setQueue h l)

def remove (h : Fin n) (p : Nat) : Table n :=
  if (t.node p).onRq = false then t
  else if p ∈ t.rq h then (t.setOnRq p false).setQueue h ((t.rq h).erase p)
  else t

/-- `by_pid_unlocked`. -/
def byPid (pid : Nat) : Option Nat := t.allProcs.find? fun a => (t.node a).pid = pid ∧ (t.node a).state ≠ .free

/-! ## `sched_yield` and `steal` -/

/-- The current process is saved and, if it was preempted, put on the queue of its hart. -/
def save (h : Fin n) : Table n :=
  match t.current h with
  | none => t
  | some p => if (t.node p).state = .running then (t.setState p .ready).enqueue h p else t

def run (h : Fin n) (p : Nat) : Table n := (t.setState p .running).setCurrent h (some p)

def target (h : Fin n) (p : Nat) : Fin n :=
  if hlt : 0 ≤ (t.node p).affinity ∧ (t.node p).affinity.toNat < n then ⟨_, hlt.2⟩ else h

/-- The first section of `sched_yield`, under the lock of the own queue. `remote` says whether the
lock of another hart's queue is free if the process is pinned there. The answer is `false` if the
hart has to look at other queues. -/
def yieldFirst (h : Fin n) (remote : Bool) : Bool × Table n :=
  let t := t.save h
  match t.dequeue h with
  | (none, t) => (false, t)
  | (some q, t) =>
    if (t.node q).state ≠ .ready then (false, t)
    else if t.current h = some q then (true, t.setState q .running)
    else if t.target h q = h then (true, t.run h q)
    else
      -- The process taken instead is not looked at again.
      let t := t.enqueue (if remote = true then t.target h q else h) q
      match t.dequeue h with
      | (none, t) => (false, t)
      | (some r, t) => (true, t.run h r)

/-- What `steal` does with the queue of `victim` once it has the lock. -/
def stealFrom (h victim : Fin n) : Option Nat × Table n :=
  match t.dequeue victim with
  | (none, t) => (none, t)
  | (some p, t) =>
    if 0 ≤ (t.node p).affinity ∧ (t.node p).affinity ≠ (h.val : Int) then (none, t.enqueue victim p)
    else (some p, t)

/-- The last section of `sched_yield`, when nothing was stolen. -/
def settle (h : Fin n) : Table n :=
  match t.dequeue h with
  | (some r, t) => t.run h r
  | (none, t) =>
    match t.current h with
    | none => t
    | some p =>
      match (t.node p).state with
      | .exited => t.setCurrent h none
      | .ready => t.setState p .running
      | _ => t

/-! ## `exit` -/

def exitPublish (p : Nat) : Table n := (List.finRange n).foldl (fun t h => t.remove h p) (t.setState p .exited)

def parentOf (p : Nat) : Option Nat :=
  if (t.node p).parentPid ≠ 0 then t.byPid (t.node p).parentPid else none

/-- The parent is woken if it is in `Waiting`. -/
def wakeParent (h : Fin n) (p : Nat) : Table n :=
  match t.parentOf p with
  | none => t
  | some a => if (t.node a).state = .waiting then (t.setState a .ready).enqueue h a else t

/-- The children that are not `Exited` get `init` as their parent. -/
def reparent (pid : Nat) : Table n :=
  { t with node := fun a =>
      if a ∈ t.allProcs ∧ (t.node a).parentPid = pid ∧ (t.node a).state ≠ .free ∧
        (t.node a).state ≠ .exited then { t.node a with parentPid := 1 } else t.node a }

def unlink (p : Nat) : Table n := { t with allProcs := t.allProcs.erase p }

/-- Whether the parent has set `SA_NOCLDWAIT`. -/
def autoReap (p : Nat) : Bool := (t.parentOf p).any fun a => (t.node a).noCldwait

def exitFinal (h : Fin n) (p : Nat) : Table n :=
  let auto := t.autoReap p
  let t := ((t.setState p .exited).wakeParent h p).reparent (t.node p).pid
  if auto = true then t.unlink p else t

/-! ## `wait` and `sys_waitpid` -/

/-- Whether `sys_waitpid` of `pid` means a child; 0 is what `wait` asks for. -/
def selects (pid : UInt64) (child : Nat) : Bool :=
  pid = 0xFFFFFFFF || pid = 0 || 2 ^ 63 ≤ pid.toNat || child = pid.toNat % 2 ^ 32

def zombie (me : Nat) (pid : UInt64) : Option Nat :=
  t.allProcs.find? fun a =>
    (t.node a).parentPid = me ∧ (t.node a).state = .exited ∧ selects pid (t.node a).pid

def hasChild (me : Nat) (pid : UInt64) : Bool :=
  t.allProcs.any fun a =>
    (t.node a).parentPid = me ∧ (t.node a).state ≠ .free ∧ selects pid (t.node a).pid

/-! ## `publish_ready` -/

def publishReady (h : Fin n) (pid : Nat) : Table n :=
  match t.byPid pid with
  | none => t
  | some p => if (t.node p).state = .creating then (t.setState p .ready).enqueue h p else t

end Table

/-! ## Harts -/

/-- Where a hart is. -/
inductive Pc
  /-- In its process, or idle. -/
  | run
  /-- Before the first section of `sched_yield`. -/
  | yield
  /-- In `steal`, before the `i`-th victim; past the last one, before the last section. -/
  | steal (i : Nat)
  /-- `steal` has returned `p`. -/
  | stolen (p : Nat)
  /-- In `signal_send`, with the process found. -/
  | sigFound (p : Nat) (signal : Nat)
  /-- In `signal_send`, with the process found asleep. -/
  | wake (p : Nat)
  /-- In `signal_send`, with `Ready` stored and the process not yet queued. -/
  | link (p : Nat)
  /-- In `exit`, with the process found. -/
  | exitFound (p : Nat) (code : Int)
  /-- In `exit`, after the section under all queue locks. -/
  | exitPublished (p : Nat) (code : Int)
  /-- In `exit`, with the exit code stored. -/
  | exitCoded (p : Nat)
  /-- In `exit`, before the node is freed. -/
  | exitFree (p : Nat)
  /-- In `wait`, with the child unlinked and not yet freed. -/
  | reap (p : Nat)
  deriving DecidableEq, Repr

structure Harts (n : Nat) where
  table : Table n
  pc : Fin n → Pc
  /-- The codes given to `exit`; no code reads this. -/
  exits : Nat → Option Int
  /-- The children that `wait` has reported, with the status; no code reads this. -/
  reports : List (Nat × Int)

def sigCont : Nat := 18

def sigKill : Nat := 9

/-- Steps of a hart. -/
inductive Act (n : Nat)
  /-- A trap that leads to `sched_yield`. -/
  | trap (h : Fin n)
  | yieldFirst (h : Fin n) (remote : Bool)
  /-- One victim; `locked` says whether its lock is held by somebody. -/
  | trySteal (h : Fin n) (locked : Bool)
  | runStolen (h : Fin n)
  | settle (h : Fin n)
  /-- The section of `wait` and `sys_waitpid`. -/
  | wait (h : Fin n) (pid : UInt64) (nohang : Bool)
  /-- The status is stored, or not, and the child freed. -/
  | free (h : Fin n) (copied : Bool)
  /-- `signal_check` stops the process. -/
  | stop (h : Fin n)
  | sigFind (h : Fin n) (pid signal : Nat)
  | sigRead (h : Fin n)
  | sigStore (h : Fin n)
  | sigLink (h : Fin n)
  | exitFind (h : Fin n) (code : Int)
  | exitPublish (h : Fin n)
  | exitCode (h : Fin n)
  | exitFinal (h : Fin n)
  | exitFree (h : Fin n)
  | publish (h : Fin n) (pid : Nat)
  deriving DecidableEq, Repr

namespace Harts

variable {n : Nat} (w : Harts n)

/-- The hart goes on at `pc` with a changed table. -/
def go (h : Fin n) (pc : Pc) (table : Table n) : Harts n := { w with table, pc := update w.pc h pc }

/-- The section of `wait` of process `p`. -/
def scan (h : Fin n) (p : Nat) (pid : UInt64) (nohang : Bool) : Harts n :=
  let me := (w.table.node p).pid
  match w.table.zombie me pid with
  | some a =>
    { w.go h (.reap a) (w.table.unlink a) with
      reports := w.reports ++ [(a, (w.table.node a).exitCode)] }
  | none =>
    if w.table.hasChild me pid = false ∨ nohang = true then w
    else w.go h .yield (w.table.setState p .waiting)

/-- Whether `signal` resumes a process in a state. -/
def resumes (signal : Nat) : ProcState → Bool
  | .waiting => true
  | .stopped => signal = sigCont || signal = sigKill
  | _ => false

theorem victim_lt (h : Fin n) (i : Nat) : (h.val + i) % n < n := Nat.mod_lt _ h.pos

/-- The `i`-th victim of hart `h`. -/
def victim (h : Fin n) (i : Nat) : Fin n := ⟨(h.val + i) % n, victim_lt h i⟩

/-- A step that a hart takes at `pc`. -/
def stepAt : Pc → Act n → Option (Harts n)
  | .run, .trap h => some (w.go h .yield w.table)
  | .run, .wait h pid nohang => (w.table.current h).map fun p => w.scan h p pid nohang
  | .run, .stop h => (w.table.current h).map fun p => w.go h .run (w.table.setState p .stopped)
  | .run, .sigFind h pid signal =>
    if signal = 0 ∨ 32 ≤ signal then none
    else (w.table.byPid pid).map fun p => w.go h (.sigFound p signal) w.table
  | .run, .exitFind h code =>
    (w.table.current h).bind fun c => (w.table.byPid (w.table.node c).pid).map fun p =>
      { w.go h (.exitFound p code) w.table with exits := update w.exits p (some code) }
  | .run, .publish h pid => some (w.go h .run (w.table.publishReady h pid))
  | .yield, .yieldFirst h remote =>
    match w.table.yieldFirst h remote with
    | (true, t) => some (w.go h .run t)
    | (false, t) => some (w.go h (.steal 1) t)
  | .steal i, .trySteal h locked =>
    if n ≤ i then none
    else if locked = true then some (w.go h (.steal (i + 1)) w.table)
    else match w.table.stealFrom h (victim h i) with
      | (some p, t) => some (w.go h (.stolen p) t)
      | (none, t) => some (w.go h (.steal (i + 1)) t)
  | .stolen p, .runStolen h =>
    if (w.table.node p).state = .ready then some (w.go h .run (w.table.run h p))
    else some (w.go h (.steal n) w.table)
  | .steal i, .settle h => if n ≤ i then some (w.go h .run (w.table.settle h)) else none
  | .reap _, .free h _ => some (w.go h .run w.table)
  | .sigFound p signal, .sigRead h =>
    some (w.go h (if resumes signal (w.table.node p).state = true then .wake p else .run) w.table)
  | .wake p, .sigStore h => some (w.go h (.link p) (w.table.setState p .ready))
  | .link p, .sigLink h => some (w.go h .run (w.table.enqueue h p))
  | .exitFound p code, .exitPublish h => some (w.go h (.exitPublished p code) (w.table.exitPublish p))
  | .exitPublished p code, .exitCode h =>
    some (w.go h (.exitCoded p) (w.table.setNode p { w.table.node p with exitCode := code }))
  | .exitCoded p, .exitFinal h =>
    some (w.go h (if w.table.autoReap p = true then .exitFree p else .yield) (w.table.exitFinal h p))
  | .exitFree _, .exitFree h => some (w.go h .yield w.table)
  | _, _ => none

end Harts

def Act.hart {n : Nat} : Act n → Fin n
  | .trap h | .yieldFirst h _ | .trySteal h _ | .runStolen h | .settle h | .wait h _ _ | .free h _
  | .stop h | .sigFind h _ _ | .sigRead h | .sigStore h | .sigLink h | .exitFind h _
  | .exitPublish h | .exitCode h | .exitFinal h | .exitFree h | .publish h _ => h

def harts (n : Nat) : Machine (Harts n) (Act n) where
  step w a := w.stepAt (w.pc a.hart) a

/-! ## What a step can do -/

/-- The steps of hart `h`, with what they find. -/
inductive Step {n : Nat} (w : Harts n) : Act n → Harts n → Prop
  | trap {h} : w.pc h = .run → Step w (.trap h) (w.go h .yield w.table)
  | reported {h p a pid nohang} : w.pc h = .run → w.table.current h = some p →
      w.table.zombie (w.table.node p).pid pid = some a →
      Step w (.wait h pid nohang)
        { w.go h (.reap a) (w.table.unlink a) with
          reports := w.reports ++ [(a, (w.table.node a).exitCode)] }
  | nothing {h pid nohang} : w.pc h = .run → Step w (.wait h pid nohang) w
  | waiting {h p pid nohang} : w.pc h = .run → w.table.current h = some p →
      Step w (.wait h pid nohang) (w.go h .yield (w.table.setState p .waiting))
  | stop {h p} : w.pc h = .run → w.table.current h = some p →
      Step w (.stop h) (w.go h .run (w.table.setState p .stopped))
  | sigFind {h p pid signal} : w.pc h = .run → w.table.byPid pid = some p →
      Step w (.sigFind h pid signal) (w.go h (.sigFound p signal) w.table)
  | exitFind {h c p code} : w.pc h = .run → w.table.current h = some c →
      w.table.byPid (w.table.node c).pid = some p →
      Step w (.exitFind h code) { w.go h (.exitFound p code) w.table with exits := update w.exits p (some code) }
  | publish {h pid} : w.pc h = .run → Step w (.publish h pid) (w.go h .run (w.table.publishReady h pid))
  | yielded {h remote} : w.pc h = .yield → Step w (.yieldFirst h remote)
      (w.go h (if (w.table.yieldFirst h remote).1 = true then .run else .steal 1) (w.table.yieldFirst h remote).2)
  | skipped {h i} : w.pc h = .steal i → Step w (.trySteal h true) (w.go h (.steal (i + 1)) w.table)
  | tried {h i} : w.pc h = .steal i → Step w (.trySteal h false)
      (w.go h (((w.table.stealFrom h (Harts.victim h i)).1.map Pc.stolen).getD (.steal (i + 1)))
        (w.table.stealFrom h (Harts.victim h i)).2)
  | runStolen {h p} : w.pc h = .stolen p → (w.table.node p).state = .ready →
      Step w (.runStolen h) (w.go h .run (w.table.run h p))
  | dropStolen {h p} : w.pc h = .stolen p → (w.table.node p).state ≠ .ready →
      Step w (.runStolen h) (w.go h (.steal n) w.table)
  | settle {h i} : w.pc h = .steal i → Step w (.settle h) (w.go h .run (w.table.settle h))
  | free {h p copied} : w.pc h = .reap p → Step w (.free h copied) (w.go h .run w.table)
  | sigRead {h p signal} : w.pc h = .sigFound p signal →
      Step w (.sigRead h)
        (w.go h (if Harts.resumes signal (w.table.node p).state = true then .wake p else .run) w.table)
  | sigStore {h p} : w.pc h = .wake p →
      Step w (.sigStore h) (w.go h (.link p) (w.table.setState p .ready))
  | sigLink {h p} : w.pc h = .link p → Step w (.sigLink h) (w.go h .run (w.table.enqueue h p))
  | exitPublish {h p code} : w.pc h = .exitFound p code →
      Step w (.exitPublish h) (w.go h (.exitPublished p code) (w.table.exitPublish p))
  | exitCode {h p code} : w.pc h = .exitPublished p code →
      Step w (.exitCode h) (w.go h (.exitCoded p) (w.table.setNode p { w.table.node p with exitCode := code }))
  | exitFinal {h p} : w.pc h = .exitCoded p →
      Step w (.exitFinal h) (w.go h (if w.table.autoReap p = true then .exitFree p else .yield) (w.table.exitFinal h p))
  | exitFree {h p} : w.pc h = .exitFree p → Step w (.exitFree h) (w.go h .yield w.table)

theorem step_inv {n : Nat} {w u : Harts n} {a : Act n} (hstep : (harts n).step w a = some u) : Step w a u := by
  change w.stepAt (w.pc a.hart) a = some u at hstep
  unfold Harts.stepAt at hstep
  split at hstep
  · cases hstep
    exact .trap ‹_›
  · rename_i h pid nohang hpc
    obtain ⟨p, hp, rfl⟩ := Option.map_eq_some_iff.mp hstep
    simp only [Harts.scan]
    cases hz : w.table.zombie (w.table.node p).pid pid with
    | some a => exact .reported hpc hp hz
    | none =>
      simp only
      split
      · exact .nothing hpc
      · exact .waiting hpc hp
  · obtain ⟨p, hp, rfl⟩ := Option.map_eq_some_iff.mp hstep
    exact .stop ‹_› hp
  · split at hstep
    · cases hstep
    · obtain ⟨p, hp, rfl⟩ := Option.map_eq_some_iff.mp hstep
      exact .sigFind ‹_› hp
  · obtain ⟨c, hc, hstep⟩ := Option.bind_eq_some_iff.mp hstep
    obtain ⟨p, hp, rfl⟩ := Option.map_eq_some_iff.mp hstep
    exact .exitFind ‹_› hc hp
  · cases hstep
    exact .publish ‹_›
  · rename_i h remote hpc
    have hy : Step w (.yieldFirst h remote) _ := .yielded hpc
    split at hstep
    · rename_i t ht
      rw [ht] at hy
      cases hstep
      exact hy
    · rename_i t ht
      rw [ht] at hy
      cases hstep
      exact hy
  · rename_i i h locked hpc
    split at hstep
    · cases hstep
    · split at hstep
      · rename_i hlocked
        cases hstep
        rw [hlocked]
        exact .skipped hpc
      · rename_i hlocked
        have hy : Step w (.trySteal h false) _ := .tried hpc
        rw [Bool.not_eq_true] at hlocked
        rw [hlocked]
        split at hstep
        · rename_i p t ht
          rw [ht] at hy
          cases hstep
          exact hy
        · rename_i t ht
          rw [ht] at hy
          cases hstep
          exact hy
  · split at hstep
    · cases hstep
      exact .runStolen ‹_› ‹_›
    · cases hstep
      exact .dropStolen ‹_› ‹_›
  · split at hstep
    · cases hstep
      exact .settle ‹_›
    · cases hstep
  · cases hstep
    exact .free ‹_›
  · cases hstep
    exact .sigRead ‹_›
  · cases hstep
    exact .sigStore ‹_›
  · cases hstep
    exact .sigLink ‹_›
  · cases hstep
    exact .exitPublish ‹_›
  · cases hstep
    exact .exitCode ‹_›
  · cases hstep
    exact .exitFinal ‹_›
  · cases hstep
    exact .exitFree ‹_›
  · cases hstep

end Sched
