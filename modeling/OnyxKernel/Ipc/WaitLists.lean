import OnyxKernel.Ipc.Wakeup
import OnyxKernel.Proc.Resting

/-!
# The wait lists of the channels

Every list is a chain of processes in `Waiting`, as long as a process links itself only while it is on no
list and on no run queue, and no signal and no exiting child wakes a process that is on a list.
`sched_yield` may return without a switch, after which a process in `Waiting` goes on and may link itself
again. A process that is on a list may exit: it is `Exited` until `disconnect_waiter` comes to the list.
-/

namespace Ipc

open Infra Infra.Machine Sched Channel Proc Function

variable {n : Nat} {w u : Sleepers n} {L L' : Nat × Side → List Nat} {p slot : Nat} {h : Fin n} {room : Option Nat}

namespace Sleepers

/-- A process goes to sleep only while it is on no list and on no run queue, and no process on a list is
stopped, woken by a signal or by the exit of a child, or still there when its `exit` goes on. -/
def leavesListed (w : Sleepers n) (a : Move n) : Bool :=
  ((w.fallsAsleep a).all fun p => w.unlinked p && decide (∀ h, p ∉ w.harts.table.rq h)) && match a with
    | .sched a => (w.harts.disturbs a).all w.unlinked
    | _ => true

end Sleepers

/-- The lists are well formed, and no process on one is where the scheduler finds it. -/
structure Seated (w : Sleepers n) (L : Nat × Side → List Nat) : Prop where
  linked : Linked w L
  down : ∀ {k p}, p ∈ L k → Down w.harts p

section

variable (hs : Seated w L)
include hs

theorem Seated.rise (p : Nat) : Seated (w.rise p) L := ⟨hs.linked.congr (fun _ _ => rfl) rfl rfl, hs.down⟩

theorem Seated.setChan {ch : Channel} (hfirst : ∀ s, ch.first s = (w.chan slot).first s) :
    Seated (w.setChan slot ch) L :=
  ⟨hs.linked.setChan hfirst, hs.down⟩

/-- Lists become shorter, and nothing else happens. -/
theorem Seated.fewer (hl : Linked u L') (hsub : ∀ k, L' k ⊆ L k) (hh : u.harts = w.harts) : Seated u L' :=
  ⟨hl, fun hp => hh ▸ hs.down (hsub _ hp)⟩

theorem Seated.waitEnqueue (hin : slot < chanMax) (hp : ∀ k, p ∉ L k) (hoff : ∀ h, p ∉ w.harts.table.rq h)
    (hpc : w.harts.pc h = .run) :
    Seated (w.waitEnqueue h p slot room)
      (update L (slot, (Wait.mk slot room).side) (p :: L (slot, (Wait.mk slot room).side))) := by
  refine ⟨hs.linked.waitEnqueue hin hp, fun {k q} hq => ?_⟩
  by_cases hqp : q = p
  · subst hqp
    exact .inl ⟨setState_self .., hoff⟩
  · refine Down.go (hs.down (k := k) ?_) (fun code he => nomatch hpc.symm.trans he)
      fun _ _ hr => hr.setState hqp .waiting
    rw [update_apply] at hq
    split at hq
    · rename_i hk
      exact hk ▸ (List.mem_cons.mp hq).resolve_left hqp
    · exact hq

theorem Seated.wake (hin : slot < chanMax) (side : Side) : Seated (w.wake slot side) (update L (slot, side) []) := by
  refine ⟨hs.linked.wake hin side, fun {k q} hq => ?_⟩
  rw [update_apply] at hq
  split at hq
  · cases hq
  · rename_i hk
    have hd := hs.down hq
    unfold Sleepers.wake
    split
    · exact hd
    · have hw := hs.linked.wakeLoop slot side w.harts.table
      have hstate := hw.state q
      rw [if_neg fun hq' => hk (hs.linked.apart hq hq')] at hstate
      exact hd.imp (·.congr hstate hw.rq) (.imp_left (·.congr hstate hw.rq))

/-- A call that leaves the lists of the slot. -/
theorem Seated.replace {r : Except Onyx.Errno Channel}
    (hr : ∀ ch, r = .ok ch → ∀ s, ch.first s = (w.chan slot).first s) :
    Seated (match r with | .error _ => w | .ok ch => w.setChan slot ch) L := by
  cases r with
  | error e => exact hs
  | ok ch => exact hs.setChan (hr ch rfl)

/-- A `send` or a `recv`: `body` decides under the lock. -/
theorem Seated.exchange (body : Channel → Nat → Answer × Channel)
    (hstep : w.call h slot (fun p v => v.carryOut h p slot room
      (body (v.chan slot) (v.harts.table.node p).pid)) = some u)
    (hfirst : ∀ pid s, (body (w.chan slot) pid).2.first s = (w.chan slot).first s)
    (hsleep : ((match w.answer h slot body with | .blocks => w.caller h | _ => none).all fun p =>
      w.unlinked p && decide (∀ h, p ∉ w.harts.table.rq h)) = true) :
    ∃ L', Seated u L' := by
  obtain ⟨p, hp, rfl | ⟨hin, ⟨ch, hb, rfl⟩ | ⟨bytes, ch, hb, rfl⟩⟩⟩ := exchange_cases body hstep
  · exact ⟨L, hs.rise p⟩
  · have hr := hs.rise p
    rw [answer_eq hp hin, hb] at hsleep
    simp only [hp, Option.all_some, Bool.and_eq_true, decide_eq_true_eq] at hsleep
    refine ⟨_, hr.waitEnqueue hin (hr.linked.not_mem_of_unlinked hsleep.1) hsleep.2 ?_⟩
    unfold Sleepers.caller at hp
    split at hp
    · assumption
    · cases hp
  · have hfirst := hfirst (w.harts.table.node p).pid
    rw [hb] at hfirst
    exact ⟨_, ((hs.rise p).setChan hfirst).wake hin _⟩

theorem Seated.drop (hin : slot < chanMax) (p : Nat) (side : Side) :
    Seated (w.drop p slot side) (update L (slot, side) ((L (slot, side)).erase p)) := by
  refine hs.fewer (hs.linked.drop hin p side) (fun k => ?_) rfl
  rw [update_apply]
  split
  · subst k
    exact List.erase_subset
  · exact List.Subset.refl _

theorem Seated.step {a : Move n} (hok : w.leavesListed a = true) (hstep : (sleepers n).step w a = some u) :
    ∃ L', Seated u L' := by
  obtain ⟨hsleep, hkept⟩ := Bool.and_eq_true_iff.mp hok
  have hstep : w.step a = some u := hstep
  cases a with
  | sched a =>
    obtain ⟨v, hv, rfl⟩ := Option.map_eq_some_iff.mp hstep
    refine ⟨L, ?_⟩
    cases w.caller a.hart with
    | none | some p =>
      exact ⟨hs.linked.congr (fun _ _ => rfl) rfl rfl, fun hp => (hs.down hp).step (fun hmem =>
        hs.linked.not_mem_of_unlinked (List.all_eq_true.mp hkept _ hmem) _ hp) hv⟩
  | create h =>
    obtain ⟨p, -, rfl⟩ := Option.map_eq_some_iff.mp hstep
    have hr := hs.rise p
    split
    · exact ⟨L, hr⟩
    · rename_i i hf
      refine ⟨_, hr.fewer (hr.linked.create (List.mem_range.mp (List.mem_of_find?_eq_some hf)) _) (fun k => ?_) rfl⟩
      simp only [update_apply]
      split_ifs <;> simp
  | connect h slot | close h slot =>
    rw [Sleepers.step] at hstep
    obtain ⟨p, -, ⟨-, rfl⟩ | rfl⟩ := call_cases hstep
    · refine ⟨L, (hs.rise p).replace fun ch hc s => ?_⟩
      simp only [Channel.connect, Channel.close] at hc
      split_ifs at hc
      cases hc
      cases s <;> rfl
    · exact ⟨L, hs.rise p⟩
  | send h slot src =>
    exact hs.exchange (fun ch pid => ch.send pid src) hstep (fun pid => first_send _ pid src) hsleep
  | recv h slot len =>
    exact hs.exchange (fun ch pid => ch.recv pid len) hstep (fun pid => first_recv _ pid len) hsleep
  | detach h slot =>
    rw [Sleepers.step] at hstep
    split at hstep
    · split_ifs at hstep with hin
      cases hstep
      exact ⟨_, ((hs.rise _).drop hin _ .recv).drop hin _ .send⟩
    · cases hstep

end

end Ipc
