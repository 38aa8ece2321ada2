import OnyxKernel.Infra.Chain
import OnyxKernel.Ipc.Channel
import OnyxKernel.Proc.Placement

/-!
# Sleeping and waking on channels

`send` and `recv` over the scheduler. A process that finds no room or no bytes stores `Waiting` in
its own state, links itself in front of the list of the channel and yields; the other side walks
the list and stores `Ready` in every process on it. The lists run through `wait_next`, of which a
process has one. The channel calls are atomic, as under the lock of the slot.

`asleep` says where a process has put itself to sleep and has not been woken or executed since, and
`sleeps` how often that has happened. No code reads `asleep`; `sleeps` bounds the walks.
-/

namespace Ipc

open Infra Infra.Machine Sched Channel Proc Function List

/-- The two lists of a channel. -/
inductive Side
  | send
  | recv
  deriving DecidableEq

def Channel.first (ch : Channel) : Side → Option Nat
  | .send => ch.sendWait
  | .recv => ch.recvWait

def Channel.setFirst (ch : Channel) : Side → Option Nat → Channel
  | .send, head => { ch with sendWait := head }
  | .recv, head => { ch with recvWait := head }

/-- What a process sleeps for: a byte, or room for some bytes. -/
structure Wait where
  slot : Nat
  room : Option Nat
  deriving DecidableEq

def Wait.side (x : Wait) : Side :=
  match x.room with
  | none => .recv
  | some _ => .send

def Channel.Lacks (ch : Channel) : Option Nat → Prop
  | none => ringUsed ch.head ch.tail = 0
  | some len => (ringFree chanBufSize ch.head ch.tail).toNat < len

structure Sleepers (n : Nat) where
  harts : Harts n
  chan : Nat → Channel
  waitNext : Nat → Option Nat
  asleep : Nat → Option Wait
  sleeps : Nat

inductive Move (n : Nat)
  /-- A step of the scheduler, of a signal, of `wait` or of `exit`. -/
  | sched (a : Sched.Act n)
  | create (h : Fin n)
  | connect (h : Fin n) (slot : Nat)
  | send (h : Fin n) (slot : Nat) (src : List UInt8)
  | recv (h : Fin n) (slot len : Nat)
  | close (h : Fin n) (slot : Nat)
  /-- `disconnect_waiter` at one slot. -/
  | detach (h : Fin n) (slot : Nat)

/-- The loop of `wait_wake_all`. -/
def wakeLoop {n : Nat} : Nat → Option Nat → Table n → (Nat → Option Nat) → Table n × (Nat → Option Nat)
  | 0, _, t, next => (t, next)
  | _ + 1, none, t, next => (t, next)
  | k + 1, some p, t, next =>
    wakeLoop k (next p) (t.setState p .ready) (update next p none)

namespace Sleepers

variable {n : Nat} (w : Sleepers n)

def waiters (slot : Nat) (side : Side) : List Nat := walk w.waitNext (w.sleeps + 1) ((w.chan slot).first side)

def caller (h : Fin n) : Option Nat :=
  if w.harts.pc h = .run then w.harts.table.current h else none

def setChan (slot : Nat) (ch : Channel) : Sleepers n := { w with chan := update w.chan slot ch }

def rise (p : Nat) : Sleepers n := { w with asleep := update w.asleep p none }

/-- `wait_enqueue`, and on to `sched_yield`. -/
def waitEnqueue (h : Fin n) (p slot : Nat) (room : Option Nat) : Sleepers n :=
  let x : Wait := ⟨slot, room⟩
  { harts := w.harts.go h .yield (w.harts.table.setState p .waiting)
    chan := update w.chan slot ((w.chan slot).setFirst x.side (some p))
    waitNext := update w.waitNext p ((w.chan slot).first x.side)
    asleep := update w.asleep p (some x)
    sleeps := w.sleeps + 1 }

def waitWakeAll (slot : Nat) (side : Side) : Sleepers n :=
  let woken := wakeLoop (w.sleeps + 1) ((w.chan slot).first side) w.harts.table w.waitNext
  { w with
    harts := { w.harts with table := woken.1 }
    waitNext := woken.2
    chan := update w.chan slot ((w.chan slot).setFirst side none)
    asleep := fun q => if q ∈ w.waiters slot side then none else w.asleep q }

/-- The wake that `send` and `recv` do only for a list that is not empty. -/
def wake (slot : Nat) (side : Side) : Sleepers n :=
  if ((w.chan slot).first side).isNone then w else w.waitWakeAll slot side

/-- One of the lists of a slot, without `p`. -/
def drop (p slot : Nat) (side : Side) : Sleepers n :=
  let r := unlink p (w.sleeps + 1) none ((w.chan slot).first side) ((w.chan slot).first side) w.waitNext
  { w with
    chan := update w.chan slot ((w.chan slot).setFirst side r.1)
    waitNext := r.2 }

/-- What the locked section decided, put into effect: the other side is woken when bytes move. -/
def carryOut (h : Fin n) (p slot : Nat) (room : Option Nat) : Answer × Channel → Sleepers n
  | (.fails _, _) => w
  | (.blocks, _) => w.waitEnqueue h p slot room
  | (.moved _, ch) =>
    (w.setChan slot ch).wake slot (match room with
      | none => .send
      | some _ => .recv)

def call (h : Fin n) (slot : Nat) (body : Nat → Sleepers n → Sleepers n) : Option (Sleepers n) :=
  (w.caller h).map fun p => if slot < chanMax then body p (w.rise p) else w.rise p

def step : Move n → Option (Sleepers n)
  | .sched a => ((Sched.harts n).step w.harts a).map fun harts =>
    match w.caller a.hart with
    | none => { w with harts }
    | some p => { w.rise p with harts }
  | .create h => (w.caller h).map fun p =>
    match (range chanMax).find? fun i => !(w.chan i).used with
    | none => w.rise p
    | some i =>
      (w.rise p).setChan i { Channel.zeroed with ownerPid := (w.harts.table.node p).pid, used := true }
  | .connect h slot => w.call h slot fun p v =>
    match (v.chan slot).connect (v.harts.table.node p).pid with
    | .error _ => v
    | .ok ch => v.setChan slot ch
  | .send h slot src => w.call h slot fun p v =>
    v.carryOut h p slot (some src.length) ((v.chan slot).send (v.harts.table.node p).pid src)
  | .recv h slot len => w.call h slot fun p v =>
    v.carryOut h p slot none ((v.chan slot).recv (v.harts.table.node p).pid len)
  | .close h slot => w.call h slot fun _ v =>
    match (v.chan slot).close with
    | .error _ => v
    | .ok ch => v.setChan slot ch
  | .detach h slot =>
    match w.harts.pc h with
    | .exitPublished p _ =>
      if slot < chanMax then some (((w.rise p).drop p slot .recv).drop p slot .send) else none
    | _ => none

end Sleepers

/-- Channels and scheduler on `n` harts. -/
def sleepers (n : Nat) : Machine (Sleepers n) (Move n) := ⟨Sleepers.step⟩

def timesQueued {n : Nat} (t : Table n) (p : Nat) : Nat := ((finRange n).map fun h => (t.rq h).count p).sum

/-- `Ready`, and on exactly one run queue. -/
def readyQueued {n : Nat} (t : Table n) (p : Nat) : Bool := (t.node p).state = .ready && timesQueued t p = 1

/-- `Running`, or where the scheduler finds it. -/
def schedulable {n : Nat} (t : Table n) (p : Nat) : Bool := (t.node p).state = .running || readyQueued t p

namespace Sleepers

variable {n : Nat} (w : Sleepers n)

/-- The answer that the locked section of a `send` or `recv` will give. -/
def answer (h : Fin n) (slot : Nat) (body : Channel → Nat → Answer × Channel) : Answer :=
  match w.caller h with
  | none => .fails .inval
  | some p =>
    if slot < chanMax then (body (w.chan slot) (w.harts.table.node p).pid).1 else .fails .inval

/-- The processes that have put themselves to sleep for what the action brings about. -/
def rouses : Move n → List Nat
  | .send h slot src =>
    match w.answer h slot fun ch pid => ch.send pid src with
    | .moved _ => w.waiters slot .recv
    | _ => []
  | .recv h slot len =>
    match w.answer h slot fun ch pid => ch.recv pid len with
    | .moved _ => w.waiters slot .send
    | _ => []
  | .close h slot =>
    if (w.caller h).isSome && slot < chanMax && (w.chan slot).used then
      w.waiters slot .recv ++ w.waiters slot .send
    else []
  | _ => []

def unlinked (p : Nat) : Bool :=
  (range chanMax).all fun i => !(w.waiters i .send).contains p && !(w.waiters i .recv).contains p

def fallsAsleep : Move n → Option Nat
  | .send h slot src =>
    match w.answer h slot fun ch pid => ch.send pid src with
    | .blocks => w.caller h
    | _ => none
  | .recv h slot len =>
    match w.answer h slot fun ch pid => ch.recv pid len with
    | .blocks => w.caller h
    | _ => none
  | _ => none

/-- Every process that a `send` or `recv` wakes is back on a run queue already, every process on the
lists of a channel that is closed runs or is back on a run queue, and a process goes to sleep only
while it is on no list. -/
def undisturbed (a : Move n) : Bool :=
  (match a with
    | .close _ _ => (w.rouses a).all (schedulable w.harts.table)
    | _ => (w.rouses a).all (readyQueued w.harts.table)) &&
    (w.fallsAsleep a).all w.unlinked

end Sleepers

/-! ## The lists stay apart -/

variable {n : Nat} {w u : Sleepers n} {t : Table n} {L : Nat × Side → List Nat} {p q slot : Nat} {h : Fin n}

/-- The wait lists are chains that share no process; list `k.2` of slot `k.1` holds `L k`. -/
structure Linked (w : Sleepers n) (L : Nat × Side → List Nat) : Prop where
  chain : ∀ k, Chain w.waitNext ((w.chan k.1).first k.2) (L k)
  nodup : ∀ k, (L k).Nodup
  apart : ∀ {p k k'}, p ∈ L k → p ∈ L k' → k = k'
  short : ∀ k, (L k).length ≤ w.sleeps
  outside : ∀ k, chanMax ≤ k.1 → L k = []

theorem Linked.waiters_eq (hl : Linked w L) (slot : Nat) (side : Side) : w.waiters slot side = L (slot, side) :=
  (hl.chain (slot, side)).walk_eq (Nat.le_succ_of_le (hl.short _))

theorem Linked.congr (hl : Linked w L) (hfirst : ∀ i s, (u.chan i).first s = (w.chan i).first s)
    (hnext : u.waitNext = w.waitNext) (hs : u.sleeps = w.sleeps) : Linked u L := by
  refine ⟨fun k => ?_, hl.nodup, hl.apart, fun k => hs ▸ hl.short k, hl.outside⟩
  rw [hfirst, hnext]
  exact hl.chain k

variable {ch : Channel} {l : List Nat} {room : Option Nat} {t t' : Table n}

theorem Linked.edit (hl : Linked w L) {k : Nat × Side} (hin : k.1 < chanMax)
    (hchain : Chain u.waitNext ((u.chan k.1).first k.2) l)
    (hfirst : ∀ k', k' ≠ k → (u.chan k'.1).first k'.2 = (w.chan k'.1).first k'.2)
    (hnext : ∀ k', k' ≠ k → ∀ q ∈ L k', u.waitNext q = w.waitNext q) (hn : l.Nodup)
    (hnew : ∀ q ∈ l, ∀ k', k' ≠ k → q ∉ L k') (hshort : l.length ≤ u.sleeps)
    (hs : w.sleeps ≤ u.sleeps) : Linked u (update L k l) := by
  refine ⟨(forall_update_iff L fun k' x => Chain u.waitNext ((u.chan k'.1).first k'.2) x).mpr
    ⟨hchain, fun k' hk => ?_⟩,
    (forall_update_iff L fun _ x => x.Nodup).mpr ⟨hn, fun k' _ => hl.nodup k'⟩, fun {p k1 k2} h1 h2 => ?_,
    (forall_update_iff L fun _ x => x.length ≤ u.sleeps).mpr ⟨hshort, fun k' _ => Nat.le_trans (hl.short k') hs⟩,
    (forall_update_iff L fun k' x => chanMax ≤ k'.1 → x = []).mpr
      ⟨fun _ => by omega, fun k' _ => hl.outside k'⟩⟩
  · rw [hfirst k' hk]
    exact (hl.chain k').congr (hnext k' hk)
  · by_cases hk1 : k1 = k
    · subst hk1
      rw [update_self] at h1
      by_contra hne
      rw [update_of_ne (Ne.symm hne)] at h2
      exact hnew p h1 k2 (Ne.symm hne) h2
    · rw [update_of_ne hk1] at h1
      by_cases hk2 : k2 = k
      · subst hk2
        rw [update_self] at h2
        exact absurd h1 (hnew p h2 k1 hk1)
      · rw [update_of_ne hk2] at h2
        exact hl.apart h1 h2

theorem Linked.setChan (hl : Linked w L) (hfirst : ∀ s, ch.first s = (w.chan slot).first s) :
    Linked (w.setChan slot ch) L := by
  refine hl.congr ?_ rfl rfl
  exact (forall_update_iff w.chan fun i c => ∀ s, c.first s = (w.chan i).first s).mpr ⟨hfirst, fun _ _ _ => rfl⟩

theorem first_setFirst (ch : Channel) (side side' : Side) (head : Option Nat) :
    (ch.setFirst side head).first side' = if side' = side then head else ch.first side' := by
  cases side <;> cases side' <;> rfl

theorem first_update (chan : Nat → Channel) (side : Side) (head : Option Nat) {k : Nat × Side}
    (hk : k ≠ (slot, side)) :
    (update chan slot ((chan slot).setFirst side head) k.1).first k.2 = (chan k.1).first k.2 := by
  by_cases hs : k.1 = slot
  · rw [hs, update_self, first_setFirst, if_neg]
    exact fun he => hk (Prod.ext hs he)
  · rw [update_of_ne hs]

theorem first_update_self (chan : Nat → Channel) (slot : Nat) (side : Side) (head : Option Nat) :
    (update chan slot ((chan slot).setFirst side head) slot).first side = head := by
  rw [update_self, first_setFirst, if_pos rfl]

theorem sameContents_update (chan : Nat → Channel) (slot : Nat) (side : Side) (head : Option Nat) (i : Nat) :
    (chan i).SameContents (update chan slot ((chan slot).setFirst side head) i) := by
  refine (forall_update_iff chan fun i c => (chan i).SameContents c).mpr ⟨?_, fun _ _ => .refl⟩ i
  cases side <;> exact SameContents.refl

theorem Linked.waitEnqueue (hl : Linked w L) (hin : slot < chanMax) (hp : ∀ k, p ∉ L k) :
    Linked (w.waitEnqueue h p slot room)
      (update L (slot, (Wait.mk slot room).side) (p :: L (slot, (Wait.mk slot room).side))) := by
  refine hl.edit hin ?_ (fun k' hk' => first_update _ _ _ hk') (fun k' _ q hq => ?_) ?_ ?_ ?_
    (Nat.le_succ _)
  · have hfirst : ((w.waitEnqueue h p slot room).chan slot).first (Wait.mk slot room).side = some p :=
      first_update_self _ _ _ _
    rw [hfirst]
    exact (hl.chain (slot, _)).push (hp _)
  · exact update_of_ne (ne_of_mem_of_not_mem hq (hp k')) _ _
  · exact nodup_cons.mpr ⟨hp _, hl.nodup _⟩
  · intro q hq k' hk' hq'
    rcases mem_cons.mp hq with rfl | hq
    · exact hp k' hq'
    · exact hk' (hl.apart hq' hq)
  · exact Nat.succ_le_succ (hl.short _)

/-- Every process of `l` is `Ready` and unlinked. -/
structure Woken (l : List Nat) (t : Table n) (next : Nat → Option Nat)
    (r : Table n × (Nat → Option Nat)) : Prop where
  rq : r.1.rq = t.rq
  state : ∀ q, (r.1.node q).state = if q ∈ l then .ready else (t.node q).state
  next : ∀ q, r.2 q = if q ∈ l then none else next q

/-- What `wait_wake_all` does. -/
theorem wakeLoop_spec {cur : Option Nat} {next : Nat → Option Nat} (hc : Chain next cur l) (hn : l.Nodup)
    {k : Nat} (hk : l.length ≤ k) (t : Table n) : Woken l t next (wakeLoop k cur t next) := by
  induction l generalizing cur k t next with
  | nil =>
    obtain rfl := hc
    have he : wakeLoop k none t next = (t, next) := by cases k <;> rfl
    rw [he]
    exact ⟨rfl, fun _ => rfl, fun _ => rfl⟩
  | cons p l ih =>
    obtain ⟨rfl, hc⟩ := hc
    obtain ⟨hp, hn⟩ := nodup_cons.mp hn
    obtain ⟨k, rfl⟩ : ∃ j, k = j + 1 := ⟨k - 1, by simp only [length_cons] at hk; omega⟩
    obtain ⟨hrq, hst, hnext⟩ := ih (hc.update hp none) hn (Nat.le_of_succ_le_succ hk) (t.setState p .ready)
    rw [wakeLoop]
    refine ⟨hrq, fun q => ?_, fun q => ?_⟩
    · rw [hst]
      by_cases hq : q = p
      · subst hq
        rw [if_neg hp, if_pos mem_cons_self, setState_self]
      · simp only [mem_cons, hq, false_or, setState_of_ne t p _ hq]
    · rw [hnext]
      by_cases hq : q = p
      · subst hq
        rw [if_neg hp, if_pos mem_cons_self, update_self]
      · simp only [mem_cons, hq, false_or, update_of_ne hq]

theorem Linked.wakeLoop (hl : Linked w L) (slot : Nat) (side : Side) (t : Table n) :
    Woken (L (slot, side)) t w.waitNext (wakeLoop (w.sleeps + 1) ((w.chan slot).first side) t w.waitNext) :=
  wakeLoop_spec (hl.chain (slot, side)) (hl.nodup _) (Nat.le_succ_of_le (hl.short _)) t

theorem Linked.waitWakeAll (hl : Linked w L) (hin : slot < chanMax) (side : Side) :
    Linked (w.waitWakeAll slot side) (update L (slot, side) []) := by
  refine hl.edit hin (first_update_self _ _ _ _) (fun k' hk' => first_update _ _ _ hk')
    (fun k' hk' q hq => ?_) nodup_nil nofun (Nat.zero_le _) (Nat.le_refl _)
  have hnext := (hl.wakeLoop slot side w.harts.table).next q
  rwa [if_neg fun hq' => hk' (hl.apart hq hq')] at hnext

theorem Linked.nil_of_isNone (hl : Linked w L) {side : Side}
    (hnone : ((w.chan slot).first side).isNone = true) : L (slot, side) = [] := by
  have hc := hl.chain (slot, side)
  rw [Option.isNone_iff_eq_none.mp hnone] at hc
  cases hL : L (slot, side) with
  | nil => rfl
  | cons p l =>
    rw [hL] at hc
    cases hc.1

theorem Linked.wake (hl : Linked w L) (hin : slot < chanMax) (side : Side) :
    Linked (w.wake slot side) (update L (slot, side) []) := by
  unfold Sleepers.wake
  split
  · rename_i hnone
    rw [← hl.nil_of_isNone hnone, update_eq_self]
    exact hl
  · exact hl.waitWakeAll hin side

theorem Linked.drop (hl : Linked w L) (hin : slot < chanMax) (p : Nat) (side : Side) :
    Linked (w.drop p slot side) (update L (slot, side) ((L (slot, side)).erase p)) := by
  obtain ⟨hchain, hnext⟩ := (hl.chain (slot, side)).unlink (p := p) (hl.nodup _) (Nat.le_succ_of_le (hl.short _))
  refine hl.edit hin ?_ (fun k' hk' => first_update _ _ _ hk') (fun k' hk' q hq => ?_)
    ((hl.nodup _).erase p) (fun q hq k' hk' hq' => ?_) ?_ (Nat.le_refl _)
  · have hfirst := first_update_self w.chan slot side
      (unlink p (w.sleeps + 1) none ((w.chan slot).first side) ((w.chan slot).first side) w.waitNext).1
    rw [show ((w.drop p slot side).chan slot).first side = _ from hfirst]
    exact hchain
  · exact hnext q fun hq' => hk' (hl.apart hq hq')
  · exact hk' (hl.apart hq' (mem_of_mem_erase hq))
  · exact Nat.le_trans length_erase_le (hl.short _)

/-! ## The scheduler puts nobody else to sleep -/

/-- Who is in `Waiting` was so before. -/
def NoneDozes (t t' : Table n) : Prop := ∀ q, (t'.node q).state = .waiting → (t.node q).state = .waiting

theorem NoneDozes.trans {t'' : Table n} (h1 : NoneDozes t t') (h2 : NoneDozes t' t'') : NoneDozes t t'' :=
  fun q hq => h1 q (h2 q hq)

theorem noneDozes_of_state (h : ∀ q, (t'.node q).state = (t.node q).state) : NoneDozes t t' :=
  fun q hq => (h q).symm.trans hq

theorem noneDozes_setState (t : Table n) (p : Nat) {st : ProcState} (hst : st ≠ .waiting) :
    NoneDozes t (t.setState p st) := by
  intro q hq
  by_cases hqp : q = p
  · subst hqp
    rw [setState_self] at hq
    exact absurd hq hst
  · rwa [setState_of_ne t p st hqp] at hq

theorem noneDozes_across (h : Fin n) (t : Table n) : Across h (fun _ => True) (NoneDozes t) where
  ready _ hd := hd.trans (noneDozes_setState _ _ nofun)
  running _ hd := hd.trans (noneDozes_setState _ _ nofun)
  setCurrent _ hd := hd
  enqueue h' _ hd := hd.trans (noneDozes_of_state (requeued_enqueue _ h' _).state)
  dequeue hx hd := ⟨hd.trans (noneDozes_of_state (requeued_dequeue hx).state), fun _ _ => trivial⟩
  found _ _ := trivial
  reparent _ hd := hd.trans (noneDozes_of_state (reparent_state _ _))
  unlink _ hd := hd

theorem noneDozes_exited (t : Table n) (p : Nat) : NoneDozes t (t.setState p .exited) := noneDozes_setState t p nofun

theorem noneDozes_exitPublish (t : Table n) (p : Nat) : NoneDozes t (t.exitPublish p) :=
  (noneDozes_exited t p).trans (noneDozes_of_state (requeued_foldl_remove p _ _).state)

theorem asleep_before {v v' : Harts n} {a : Sched.Act n} (hstep : (Sched.harts n).step v a = some v')
    (hq : (v'.table.node q).state = .waiting) :
    (v.table.node q).state = .waiting ∨ v.pc a.hart = .run ∧ v.table.current a.hart = some q := by
  have hacross := fun h => noneDozes_across h v.table
  have hsame : NoneDozes v.table v.table := fun _ => id
  cases step_inv hstep with
  | trap | reported | nothing | sigFind | exitFind | skipped | dropStolen | free | sigRead | exitFree =>
    exact .inl hq
  | waiting hpc hc =>
    rename_i h p pid nohang
    by_cases hqp : q = p
    · exact .inr ⟨hpc, hqp ▸ hc⟩
    · left
      have hq : ((v.table.setState p .waiting).node q).state = .waiting := hq
      rwa [setState_of_ne v.table p _ hqp] at hq
  | @stop h p =>
    have hstop : NoneDozes v.table (v.table.setState p .stopped) := noneDozes_setState _ p nofun
    exact .inl (hstop q hq)
  | publish => exact .inl ((hacross _).publishReady hsame _ q hq)
  | yielded => exact .inl ((hacross _).yieldFirst hsame _ q hq)
  | tried => exact .inl ((hacross _).stealFrom hsame _ q hq)
  | runStolen => exact .inl ((hacross _).run hsame trivial q hq)
  | settle => exact .inl ((hacross _).settle hsame q hq)
  | @sigStore h p => exact .inl ((hacross h).ready trivial hsame q hq)
  | @sigLink h p => exact .inl ((hacross h).enqueue h trivial hsame q hq)
  | exitPublish => exact .inl (noneDozes_exitPublish _ _ q hq)
  | @exitCode h p code hpc =>
    have hstate := setNode_field v.table p q Node.state (v := { v.table.node p with exitCode := code }) rfl
    exact .inl (hstate.symm.trans hq)
  | exitFinal => exact .inl ((hacross _).exitFinal (noneDozes_exited _ _) (fun _ _ => trivial) q hq)

/-! ## Nobody sleeps for what is there -/

/-- The channel of a sleeping process is open and lacks what the process sleeps for. -/
def Channel.Denies (ch : Channel) (room : Option Nat) : Prop := ch.used = true ∧ ch.closed = false ∧ ch.Lacks room

theorem Channel.SameContents.denies {ch' : Channel} (h : ch.SameContents ch')
    (hd : ch.Denies room) : ch'.Denies room := by
  obtain ⟨-, hhead, htail, hused, hclosed⟩ := h
  obtain ⟨hu, hc, hl⟩ := hd
  refine ⟨hused.trans hu, hclosed.trans hc, ?_⟩
  cases room <;> simpa only [Channel.Lacks, hhead, htail] using hl

theorem Channel.SameContents.ringOk {ch' : Channel} (h : ch.SameContents ch')
    (hr : RingOk ch.head ch.tail) : RingOk ch'.head ch'.tail := by
  rw [h.2.1, h.2.2.1]
  exact hr

theorem ringOk_zero : RingOk 0 0 := by
  unfold RingOk
  decide

/-- Every process in `Waiting` on a channel is on its list, and rightly so. -/
structure Attended (w : Sleepers n) (L : Nat × Side → List Nat) : Prop where
  linked : Linked w L
  ring : ∀ i, RingOk (w.chan i).head (w.chan i).tail
  asleep : ∀ p x, w.asleep p = some x → (w.harts.table.node p).state = .waiting →
    p ∈ L (x.slot, x.side) ∧ (w.chan x.slot).Denies x.room

theorem Attended.rise (ha : Attended w L) (p : Nat) : Attended (w.rise p) L := by
  refine ⟨ha.linked.congr (fun _ _ => rfl) rfl rfl, ha.ring, fun q x hx hq => ?_⟩
  by_cases hqp : q = p
  · subst hqp
    rw [show (w.rise q).asleep q = none from update_self ..] at hx
    cases hx
  · rw [show (w.rise p).asleep q = w.asleep q from update_of_ne hqp _ _] at hx
    exact ha.asleep q x hx hq

theorem Attended.setChan (ha : Attended w L) (hfirst : ∀ s, ch.first s = (w.chan slot).first s)
    (hring : RingOk ch.head ch.tail)
    (hstay : ∀ q room, w.asleep q = some ⟨slot, room⟩ → (w.harts.table.node q).state = .waiting →
      q ∈ L (slot, (Wait.mk slot room).side) → (w.chan slot).Denies room → ch.Denies room) :
    Attended (w.setChan slot ch) L := by
  have hself : (w.setChan slot ch).chan slot = ch := update_self ..
  have hother : ∀ {i}, i ≠ slot → (w.setChan slot ch).chan i = w.chan i := fun hi => update_of_ne hi _ _
  refine ⟨ha.linked.setChan hfirst, (forall_update_iff w.chan fun _ c => RingOk c.head c.tail).mpr
    ⟨hring, fun i _ => ha.ring i⟩, fun q x hx hq => ?_⟩
  obtain ⟨hmem, hdeny⟩ := ha.asleep q x hx hq
  refine ⟨hmem, ?_⟩
  obtain ⟨i, room⟩ := x
  by_cases hi : i = slot
  · subst hi
    rw [hself]
    exact hstay q room hx hq hmem hdeny
  · rw [hother hi]
    exact hdeny

theorem sameContents_wake (w : Sleepers n) (slot : Nat) (side : Side) (i : Nat) :
    (w.chan i).SameContents ((w.wake slot side).chan i) := by
  unfold Sleepers.wake
  split
  · exact SameContents.refl
  · exact sameContents_update _ _ _ _ _

theorem asleep_of_wake (hl : Linked w L) {side : Side} {x : Wait}
    (hx : (w.wake slot side).asleep q = some x)
    (hq : ((w.wake slot side).harts.table.node q).state = .waiting) :
    q ∉ L (slot, side) ∧ w.asleep q = some x ∧ (w.harts.table.node q).state = .waiting := by
  unfold Sleepers.wake at hx hq
  split at hx
  · rename_i hnone
    rw [if_pos hnone] at hq
    rw [hl.nil_of_isNone hnone]
    exact ⟨not_mem_nil, hx, hq⟩
  · rename_i hsome
    rw [if_neg hsome] at hq
    have hstate := (hl.wakeLoop slot side w.harts.table).state q
    rw [show ((w.waitWakeAll slot side).harts.table.node q).state = _ from hstate] at hq
    by_cases hmem : q ∈ L (slot, side)
    · rw [if_pos hmem] at hq
      cases hq
    · rw [if_neg hmem] at hq
      have hx : (if q ∈ w.waiters slot side then none else w.asleep q) = some x := hx
      rw [hl.waiters_eq, if_neg hmem] at hx
      exact ⟨hmem, hx, hq⟩

section

variable (ha : Attended w L) (hin : slot < chanMax)
include ha hin

theorem Attended.wake (side : Side) : Attended (w.wake slot side) (update L (slot, side) []) := by
  refine ⟨ha.linked.wake hin side,
    fun i => (sameContents_wake w slot side i).ringOk (ha.ring i), fun q x hx hq => ?_⟩
  obtain ⟨hmem, hx, hq⟩ := asleep_of_wake ha.linked hx hq
  obtain ⟨hmem', hdeny⟩ := ha.asleep q x hx hq
  have hne : (x.slot, x.side) ≠ (slot, side) := fun he => hmem (he ▸ hmem')
  exact ⟨by rwa [update_of_ne hne], (sameContents_wake w slot side x.slot).denies hdeny⟩

theorem Attended.waitEnqueue (hp : ∀ k, p ∉ L k)
    (hdeny : (w.chan slot).Denies room) : Attended (w.waitEnqueue h p slot room)
      (update L (slot, (Wait.mk slot room).side) (p :: L (slot, (Wait.mk slot room).side))) := by
  have hsame := fun i => sameContents_update w.chan slot (Wait.mk slot room).side (some p) i
  refine ⟨ha.linked.waitEnqueue hin hp, fun i => (hsame i).ringOk (ha.ring i), fun q x hx hq => ?_⟩
  by_cases hqp : q = p
  · subst hqp
    rw [show (w.waitEnqueue h q slot room).asleep q = _ from update_self ..] at hx
    cases hx
    exact ⟨by rw [update_self]; exact mem_cons_self, (hsame slot).denies hdeny⟩
  · rw [show (w.waitEnqueue h p slot room).asleep q = _ from update_of_ne hqp _ _] at hx
    have hq : ((w.harts.table.setState p .waiting).node q).state = .waiting := hq
    rw [setState_of_ne _ p _ hqp] at hq
    obtain ⟨hmem, hold⟩ := ha.asleep q x hx hq
    refine ⟨?_, (hsame x.slot).denies hold⟩
    by_cases hk : (x.slot, x.side) = (slot, (Wait.mk slot room).side)
    · rw [hk, update_self, ← hk]
      exact mem_cons_of_mem p hmem
    · rwa [update_of_ne hk]

theorem Attended.drop (side : Side)
    (hp : w.asleep p = none) :
    Attended (w.drop p slot side) (update L (slot, side) ((L (slot, side)).erase p)) := by
  have hsame : ∀ i, (w.chan i).SameContents ((w.drop p slot side).chan i) :=
    fun i => sameContents_update w.chan slot side _ i
  refine ⟨ha.linked.drop hin p side, fun i => (hsame i).ringOk (ha.ring i), fun q x hx hq => ?_⟩
  obtain ⟨hmem, hdeny⟩ := ha.asleep q x hx hq
  refine ⟨?_, (hsame x.slot).denies hdeny⟩
  have hqp : q ≠ p := by
    rintro rfl
    exact absurd (hp.symm.trans hx) nofun
  by_cases hk : (x.slot, x.side) = (slot, side)
  · rw [hk, update_self]
    exact (mem_erase_of_ne hqp).mpr (hk ▸ hmem)
  · rwa [update_of_ne hk]

end

theorem Linked.create (hl : Linked w L) (hin : slot < chanMax) (pid : Nat) :
    Linked (w.setChan slot { Channel.zeroed with ownerPid := pid, used := true })
      (update (update L (slot, .send) []) (slot, .recv) []) := by
  let cleared (w : Sleepers n) (side : Side) : Sleepers n := w.setChan slot ((w.chan slot).setFirst side none)
  have hclear : ∀ {w : Sleepers n} {L} (side : Side), Linked w L →
      Linked (cleared w side) (update L (slot, side) []) := by
    intro w L side hl
    exact hl.edit hin (first_update_self _ _ _ _) (fun k' hk' => first_update _ _ _ hk') (fun _ _ _ _ => rfl)
      nodup_nil nofun (Nat.zero_le _) (Nat.le_refl _)
  refine (hclear .recv (hclear .send hl)).congr (fun i s => ?_) rfl rfl
  simp only [cleared, Sleepers.setChan]
  by_cases hi : i = slot
  · subst hi
    simp only [update_self, first_setFirst]
    cases s <;> rfl
  · simp only [update_of_ne hi]

theorem Attended.create (ha : Attended w L) (hin : slot < chanMax) (hu : (w.chan slot).used = false)
    (pid : Nat) : Attended (w.setChan slot { Channel.zeroed with ownerPid := pid, used := true })
      (update (update L (slot, .send) []) (slot, .recv) []) := by
  refine ⟨ha.linked.create hin pid, (forall_update_iff w.chan fun _ c => RingOk c.head c.tail).mpr
    ⟨ringOk_zero, fun i _ => ha.ring i⟩, fun q x hx hq => ?_⟩
  obtain ⟨hmem, hdeny⟩ := ha.asleep q x hx hq
  have hi : x.slot ≠ slot := by
    intro he
    rw [he] at hdeny
    exact absurd (hu.symm.trans hdeny.1) nofun
  have hk : ∀ s, (x.slot, x.side) ≠ (slot, s) := fun s he => hi (congrArg Prod.fst he)
  rw [update_of_ne (hk _), update_of_ne (hk _)]
  exact ⟨hmem, by rwa [show (w.setChan slot _).chan x.slot = _ from update_of_ne hi _ _]⟩

/-! ## Steps -/

theorem Attended.sched (ha : Attended w L) {a : Sched.Act n}
    (hstep : (sleepers n).step w (.sched a) = some u) : Attended u L := by
  obtain ⟨v, hv, rfl⟩ := Option.map_eq_some_iff.mp hstep
  -- The process that took the step is not asleep; no other one has become so.
  have hkeep : ∀ {w'}, Attended w' L → w'.harts = w.harts →
      (∀ q, w.caller a.hart = some q → w'.asleep q = none) → Attended { w' with harts := v } L := by
    intro w' ha hharts hup
    refine ⟨ha.linked.congr (fun _ _ => rfl) rfl rfl, ha.ring, fun q x hx hq => ?_⟩
    rcases asleep_before hv hq with hq | ⟨hpc, hcur⟩
    · exact ha.asleep q x hx (hharts ▸ hq)
    · rw [show w'.asleep q = none from hup q ((if_pos hpc).trans hcur)] at hx
      cases hx
  cases hc : w.caller a.hart with
  | none => exact hkeep ha rfl (by rw [hc]; nofun)
  | some p => exact hkeep (ha.rise p) rfl (by rw [hc]; rintro _ ⟨⟩; exact update_self ..)

theorem Linked.not_mem_of_unlinked (hl : Linked w L) (hp : w.unlinked p = true) (k : Nat × Side) : p ∉ L k := by
  intro hmem
  obtain ⟨i, side⟩ := k
  by_cases hi : i < chanMax
  · have hall := all_eq_true.mp hp i (mem_range.mpr hi)
    rw [hl.waiters_eq, hl.waiters_eq] at hall
    simp only [Bool.and_eq_true, Bool.not_eq_true', contains_eq_mem, decide_eq_false_iff_not] at hall
    cases side with
    | send => exact hall.1 hmem
    | recv => exact hall.2 hmem
  · rw [hl.outside (i, side) (Nat.le_of_not_lt hi)] at hmem
    cases hmem

theorem readyQueued_iff : readyQueued t q = true ↔ (t.node q).state = .ready ∧ timesQueued t q = 1 := by
  rw [readyQueued, Bool.and_eq_true, decide_eq_true_eq, decide_eq_true_eq]

theorem not_waiting_of_schedulable (hs : schedulable t q = true) : (t.node q).state ≠ .waiting := by
  rw [schedulable, Bool.or_eq_true, readyQueued_iff, decide_eq_true_eq] at hs
  rcases hs with hs | ⟨hs, -⟩
  · rw [hs]
    nofun
  · rw [hs]
    nofun

/-- A call is refused, or it is the body on behalf of the process that executes. -/
theorem call_cases {body : Nat → Sleepers n → Sleepers n} (hstep : w.call h slot body = some u) :
    ∃ p, w.caller h = some p ∧ (slot < chanMax ∧ u = body p (w.rise p) ∨ u = w.rise p) := by
  obtain ⟨p, hp, hu⟩ := Option.map_eq_some_iff.mp hstep
  refine ⟨p, hp, ?_⟩
  split_ifs at hu with hin
  · exact .inl ⟨hin, hu.symm⟩
  · exact .inr hu.symm

theorem answer_eq (hc : w.caller h = some p) (hin : slot < chanMax)
    (body : Channel → Nat → Answer × Channel) :
    w.answer h slot body = (body (w.chan slot) (w.harts.table.node p).pid).1 := by
  unfold Sleepers.answer
  simp only [hc, if_pos hin]

theorem Attended.connect (ha : Attended w L) (slot pid : Nat) :
    Attended (match (w.chan slot).connect pid with
      | .error _ => w
      | .ok ch => w.setChan slot ch) L := by
  cases hc : (w.chan slot).connect pid with
  | error e => exact ha
  | ok ch =>
    unfold Channel.connect at hc
    split_ifs at hc
    cases hc
    refine ha.setChan (fun s => by cases s <;> rfl) (ha.ring slot) fun _ room _ _ _ hd => ?_
    cases room <;> exact hd

theorem Attended.close (ha : Attended w L)
    (hall : (w.chan slot).used = true →
      (w.waiters slot .recv ++ w.waiters slot .send).all (schedulable w.harts.table) = true) :
    Attended (match (w.chan slot).close with
      | .error _ => w
      | .ok ch => w.setChan slot ch) L := by
  cases hc : (w.chan slot).close with
  | error e => exact ha
  | ok ch =>
    unfold Channel.close at hc
    split_ifs at hc with hu
    cases hc
    have hall := hall (by simpa using hu)
    rw [ha.linked.waiters_eq, ha.linked.waiters_eq] at hall
    refine ha.setChan (fun s => by cases s <;> rfl) (ha.ring slot) fun q room _ hq hmem _ => ?_
    refine absurd hq (not_waiting_of_schedulable (all_eq_true.mp hall q ?_))
    cases room with
    | none => exact mem_append_left _ hmem
    | some len => exact mem_append_right _ hmem

theorem readyQueued_wake (hl : Linked w L) (slot : Nat) (side : Side)
    (hq : readyQueued w.harts.table q = true) : readyQueued (w.wake slot side).harts.table q = true := by
  unfold Sleepers.wake
  split
  · exact hq
  · obtain ⟨hrq, hstate, -⟩ := hl.wakeLoop slot side w.harts.table
    obtain ⟨hready, hone⟩ := readyQueued_iff.mp hq
    refine readyQueued_iff.mpr ⟨(hstate q).trans ?_, ?_⟩
    · rw [hready, ite_self]
    · unfold timesQueued
      rw [show (w.waitWakeAll slot side).harts.table.rq = w.harts.table.rq from hrq]
      exact hone

section Exchange

/-! A `send` or a `recv`: `body` decides under the lock. -/

variable (body : Channel → Nat → Answer × Channel)
  (hstep : w.call h slot (fun p v => v.carryOut h p slot room
    (body (v.chan slot) (v.harts.table.node p).pid)) = some u)
include hstep

/-- The section fails, or the caller goes to sleep, or bytes move and the list is woken. -/
theorem exchange_cases : ∃ p, w.caller h = some p ∧ (u = w.rise p ∨ slot < chanMax ∧
    ((∃ ch, body (w.chan slot) (w.harts.table.node p).pid = (.blocks, ch) ∧
        u = (w.rise p).waitEnqueue h p slot room) ∨
      ∃ bytes ch, body (w.chan slot) (w.harts.table.node p).pid = (.moved bytes, ch) ∧
        u = (w.rise p).carryOut h p slot room (.moved bytes, ch))) := by
  obtain ⟨p, hp, ⟨hin, rfl⟩ | rfl⟩ := call_cases hstep
  · refine ⟨p, hp, ?_⟩
    rcases hs : body (w.chan slot) (w.harts.table.node p).pid with ⟨answer, ch⟩
    rw [show body ((w.rise p).chan slot) ((w.rise p).harts.table.node p).pid = _ from hs]
    cases answer with
    | fails e => exact .inl rfl
    | blocks => exact .inr ⟨hin, .inl ⟨ch, rfl, rfl⟩⟩
    | moved bytes => exact .inr ⟨hin, .inr ⟨bytes, ch, rfl, rfl⟩⟩
  · exact ⟨p, hp, .inl rfl⟩

/-- The processes on the list `side` are woken when bytes move. -/
theorem Attended.exchange (ha : Attended w L) (side : Side)
    (hside : ∀ (v : Sleepers n) p bytes ch,
      v.carryOut h p slot room (.moved bytes, ch) = (v.setChan slot ch).wake slot side)
    (hblocks : ∀ {pid ch}, body (w.chan slot) pid = (.blocks, ch) → (w.chan slot).Denies room)
    (hmoved : ∀ {pid bytes ch}, body (w.chan slot) pid = (.moved bytes, ch) →
      (∀ s, ch.first s = (w.chan slot).first s) ∧ RingOk ch.head ch.tail ∧ ∀ room',
      (Wait.mk slot room').side ≠ side → (w.chan slot).Denies room' → ch.Denies room')
    (hwake : (match w.answer h slot body with | .moved _ => w.waiters slot side | _ => []).all
      (readyQueued w.harts.table) = true)
    (hsleep : (match w.answer h slot body with | .blocks => w.caller h | _ => none).all w.unlinked = true) :
    ∃ L', Attended u L' := by
  obtain ⟨p, hp, rfl | ⟨hin, ⟨ch, hs, rfl⟩ | ⟨bytes, ch, hs, rfl⟩⟩⟩ := exchange_cases body hstep
  · exact ⟨L, ha.rise p⟩
  · have hr := ha.rise p
    rw [answer_eq hp hin, hs] at hsleep
    simp only [hp, Option.all_some] at hsleep
    exact ⟨_, hr.waitEnqueue hin (hr.linked.not_mem_of_unlinked hsleep) (hblocks hs)⟩
  · rw [answer_eq hp hin, hs] at hwake
    obtain ⟨hfirst, hring, hstay⟩ := hmoved hs
    rw [hside]
    refine ⟨_, ((ha.rise p).setChan hfirst hring fun q room' _ hq hmem => hstay room' fun he => ?_).wake hin side⟩
    rw [he, ← ha.linked.waiters_eq] at hmem
    exact not_waiting_of_schedulable (Bool.or_eq_true_iff.mpr (.inr (all_eq_true.mp hwake q hmem))) hq

theorem roused_exchange (side : Side) (hl : Linked w L)
    (hfirst : ∀ pid s, (body (w.chan slot) pid).2.first s = (w.chan slot).first s)
    (hready : readyQueued w.harts.table q = true)
    (hq : q ∈ match w.answer h slot body with | .moved _ => w.waiters slot side | _ => []) :
    schedulable u.harts.table q = true := by
  refine Bool.or_eq_true_iff.mpr (.inr ?_)
  obtain ⟨p, hp, rfl | ⟨hin, ⟨ch, hs, rfl⟩ | ⟨bytes, ch, hs, rfl⟩⟩⟩ := exchange_cases body hstep
  · exact hready
  · rw [answer_eq hp hin, hs] at hq
    cases hq
  · have hfirst := hfirst (w.harts.table.node p).pid
    rw [hs] at hfirst
    have hl' : Linked (w.rise p) L := hl.congr (fun _ _ => rfl) rfl rfl
    exact readyQueued_wake (hl'.setChan hfirst) slot _ hready

end Exchange

theorem Attended.step {a : Move n} (ha : Attended w L) (hok : w.undisturbed a = true)
    (hstep : (sleepers n).step w a = some u) : ∃ L', Attended u L' := by
  obtain ⟨hwake, hsleep⟩ := Bool.and_eq_true_iff.mp hok
  have hstep : w.step a = some u := hstep
  cases a with
  | sched a => exact ⟨L, ha.sched hstep⟩
  | create h =>
    obtain ⟨p, hp, hu⟩ := Option.map_eq_some_iff.mp hstep
    cases hf : (range chanMax).find? fun i => !(w.chan i).used with
    | none =>
      simp only [hf] at hu
      exact ⟨L, hu ▸ ha.rise p⟩
    | some i =>
      simp only [hf] at hu
      have hin := mem_range.mp (mem_of_find?_eq_some hf)
      have hunused : (w.chan i).used = false := by simpa using find?_some hf
      exact ⟨_, hu ▸ (ha.rise p).create hin hunused _⟩
  | connect h slot =>
    rw [Sleepers.step] at hstep
    obtain ⟨p, hp, ⟨hin, rfl⟩ | rfl⟩ := call_cases hstep
    · exact ⟨L, (ha.rise p).connect slot _⟩
    · exact ⟨L, ha.rise p⟩
  | send h slot src =>
    refine ha.exchange (fun ch pid => ch.send pid src) hstep .recv (fun _ _ _ _ => rfl)
      send_blocks (fun hs => ?_) hwake hsleep
    obtain ⟨buf, tail, rfl, hring, hless⟩ := send_moved (ha.ring slot) hs
    refine ⟨fun s => by cases s <;> rfl, hring, fun room' hne hdeny => ?_⟩
    cases room' with
    | none => exact absurd rfl hne
    | some len => exact ⟨hdeny.1, hdeny.2.1, Nat.lt_of_le_of_lt hless hdeny.2.2⟩
  | recv h slot len =>
    refine ha.exchange (fun ch pid => ch.recv pid len) hstep .send (fun _ _ _ _ => rfl)
      recv_blocks (fun hs => ?_) hwake hsleep
    obtain ⟨hsome, head, rfl, hring⟩ := recv_moved (ha.ring slot) hs
    refine ⟨fun s => by cases s <;> rfl, hring, fun room' hne hdeny => ?_⟩
    cases room' with
    | none => exact absurd hdeny.2.2 hsome
    | some len => exact absurd rfl hne
  | close h slot =>
    rw [Sleepers.step] at hstep
    obtain ⟨p, hp, ⟨hin, rfl⟩ | rfl⟩ := call_cases hstep
    · refine ⟨L, (ha.rise p).close fun hu => ?_⟩
      have hu : (w.chan slot).used = true := hu
      simp only [Sleepers.rouses, hp, Option.isSome_some, hin, hu, decide_true, Bool.and_self, if_true] at hwake
      exact hwake
    · exact ⟨L, ha.rise p⟩
  | detach h slot =>
    rw [Sleepers.step] at hstep
    split at hstep
    · rename_i p code hpc
      split_ifs at hstep with hin
      cases hstep
      have hp : (w.rise p).asleep p = none := update_self ..
      exact ⟨_, ((ha.rise p).drop hin .recv hp).drop hin .send hp⟩
    · cases hstep

/-! ## No wake-up is lost -/

theorem first_send (ch : Channel) (pid : Nat) (src : List UInt8) (s : Side) :
    (ch.send pid src).2.first s = ch.first s := by
  rcases send_eq ch pid src with he | ⟨-, buf, tail, he⟩ <;> rw [he]
  cases s <;> rfl

theorem first_recv (ch : Channel) (pid len : Nat) (s : Side) : (ch.recv pid len).2.first s = ch.first s := by
  rcases recv_eq ch pid len with he | ⟨-, head, he⟩ <;> rw [he]
  cases s <;> rfl

/-- The processes that an action wakes, or whose channel it closes, can be scheduled afterwards. -/
theorem roused_schedulable {a : Move n} (hl : Linked w L) (hok : w.undisturbed a = true)
    (hstep : (sleepers n).step w a = some u) (hq : q ∈ w.rouses a) :
    schedulable u.harts.table q = true := by
  obtain ⟨hwake, -⟩ := Bool.and_eq_true_iff.mp hok
  have hstep : w.step a = some u := hstep
  cases a with
  | sched | create | connect | detach => cases hq
  | send h slot src =>
    exact roused_exchange (fun ch pid => ch.send pid src) hstep .recv hl
      (fun pid => first_send _ pid src) (all_eq_true.mp hwake q hq) hq
  | recv h slot len =>
    exact roused_exchange (fun ch pid => ch.recv pid len) hstep .send hl
      (fun pid => first_recv _ pid len) (all_eq_true.mp hwake q hq) hq
  | close h slot =>
    rw [Sleepers.step] at hstep
    have hsched := all_eq_true.mp hwake q hq
    obtain ⟨p, hp, ⟨hin, rfl⟩ | rfl⟩ := call_cases hstep
    · cases hc : (w.chan slot).close with
      | error e | ok ch =>
        rw [show ((w.rise p).chan slot).close = _ from hc]
        exact hsched
    · exact hsched

/-- No channel has been used yet; the harts may be anywhere. -/
structure Sleepers.Fresh (w : Sleepers n) : Prop where
  chan : ∀ i, w.chan i = .zeroed
  next : ∀ p, w.waitNext p = none
  asleep : ∀ p, w.asleep p = none

theorem Sleepers.Fresh.attended (h0 : w.Fresh) : Attended w fun _ => [] := by
  refine ⟨⟨fun k => ?_, fun _ => nodup_nil, nofun, fun _ => Nat.zero_le _, fun _ _ => rfl⟩, fun i => ?_,
    fun p x hx => ?_⟩
  · rw [h0.chan]
    cases k.2 <;> rfl
  · rw [h0.chan]
    exact ringOk_zero
  · rw [h0.asleep] at hx
    cases hx

/-- Every process that a `send`, `recv` or `close` has to wake can be scheduled afterwards, and a
process in `Waiting` on a channel is on its list, the channel is open, and it lacks what the process
sleeps for. -/
theorem no_lost_wakeup {w₀ w : Sleepers n} (h0 : w₀.Fresh)
    (hrun : (sleepers n).Reach (fun v a => v.undisturbed a = true) w₀ w) :
    (∀ a u, w.undisturbed a = true → (sleepers n).step w a = some u →
      ∀ q ∈ w.rouses a, schedulable u.harts.table q = true) ∧
    ∀ p x, w.asleep p = some x → (w.harts.table.node p).state = .waiting →
      p ∈ w.waiters x.slot x.side ∧ (w.chan x.slot).Denies x.room := by
  obtain ⟨L, ha⟩ : ∃ L, Attended w L :=
    hrun.invariant (I := fun v => ∃ L, Attended v L) ⟨_, h0.attended⟩
      fun ⟨_, ha⟩ hok hstep => ha.step hok hstep
  refine ⟨fun a u hok hstep q hq => roused_schedulable ha.linked hok hstep hq, fun p x hx hp => ?_⟩
  rw [ha.linked.waiters_eq]
  exact ha.asleep p x hx hp

/-! ## One hart -/

def oneHart : Sleepers 1 where
  harts :=
    { table :=
        { node := fun
            | 1 => sampleNode 1 0 .running false
            | 2 => sampleNode 2 1 .ready true
            | _ => sampleNode 0 0 .free false
          allProcs := [2, 1]
          rq := fun _ => [2]
          current := fun _ => some 1 }
      pc := fun _ => .run
      exits := fun _ => none
      reports := [] }
  chan := fun _ => .zeroed
  waitNext := fun _ => none
  asleep := fun _ => none
  sleeps := 0

/-- Process 1 creates a channel and waits for a byte; process 2 runs and connects. -/
def waitForByte : List (Move 1) := [.create 0, .recv 0 0 1, .sched (.yieldFirst 0 true), .connect 0 0]

/-- Process 2 signals process 1 before it sends. -/
theorem no_lost_wakeup_signalled : ∃ w u,
    (sleepers 1).Reach (fun v a => v.undisturbed a = true) oneHart w ∧
      (sleepers 1).step w (.send 0 0 [7]) = some u ∧ 1 ∈ w.rouses (.send 0 0 [7]) ∧
      schedulable u.harts.table 1 = true := by
  obtain ⟨w, hrun, hok, hmem, hnext⟩ : ∃ w,
      (sleepers 1).Reach (fun v a => v.undisturbed a = true) oneHart w ∧
      w.undisturbed (.send 0 0 [7]) = true ∧ 1 ∈ w.rouses (.send 0 0 [7]) ∧
      ((sleepers 1).step w (.send 0 0 [7])).isSome = true := exists_reach_of_play
    (waitForByte ++ [.sched (.sigFind 0 1 18), .sched (.sigRead 0), .sched (.sigStore 0), .sched (.sigLink 0)])
    (by decide)
  obtain ⟨u, hstep⟩ := Option.isSome_iff_exists.mp hnext
  have h0 : oneHart.Fresh := ⟨fun _ => rfl, fun _ => rfl, fun _ => rfl⟩
  exact ⟨w, u, hrun, hstep, hmem, (no_lost_wakeup h0 hrun).1 _ _ hok hstep 1 hmem⟩

/-- Process 1 sleeps on its channel. When process 2 sends, process 1 is `Ready` and on no queue; when
process 2 closes the channel instead, process 1 stays in `Waiting`. -/
theorem woken_on_no_queue : ∃ w u v,
    (sleepers 1).Reach always oneHart w ∧
      (sleepers 1).step w (.send 0 0 [7]) = some u ∧ (sleepers 1).step w (.close 0 0) = some v ∧
      1 ∈ w.rouses (.send 0 0 [7]) ∧ (u.harts.table.node 1).state = .ready ∧
      timesQueued u.harts.table 1 = 0 ∧ u.harts.table.current 0 ≠ some 1 ∧
      v.asleep 1 = some ⟨0, none⟩ ∧ (v.harts.table.node 1).state = .waiting ∧ (v.chan 0).closed = true := by
  obtain ⟨w, hrun, hmem, hsend, hclose⟩ : ∃ w, (sleepers 1).Reach always oneHart w ∧
      1 ∈ w.rouses (.send 0 0 [7]) ∧
      (((sleepers 1).step w (.send 0 0 [7])).any fun u => (u.harts.table.node 1).state = .ready ∧
        timesQueued u.harts.table 1 = 0 ∧ u.harts.table.current 0 ≠ some 1) = true ∧
      (((sleepers 1).step w (.close 0 0)).any fun v => v.asleep 1 = some ⟨0, none⟩ ∧
        (v.harts.table.node 1).state = .waiting ∧ (v.chan 0).closed = true) = true :=
    exists_reach_of_play waitForByte (by decide)
  simp only [Option.any_eq_true, decide_eq_true_eq] at hsend hclose
  obtain ⟨⟨u, hu, hready, hnone, hcur⟩, v, hv, hasleep⟩ := And.intro hsend hclose
  exact ⟨w, u, v, hrun, hu, hv, hmem, hready, hnone, hcur, hasleep⟩

end Ipc
