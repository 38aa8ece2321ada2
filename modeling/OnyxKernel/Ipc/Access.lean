import OnyxKernel.Infra.Machine
import OnyxKernel.Ipc.Channel

/-!
# Who may do what on a channel

The calls of `ipc/channel/chan.rs` and the data path, interleaved at their locks. A call that is
one locked section is one action. `create`, `create_named` and `open_by_name` take several:

* `create` looks at one slot after the other, each under its lock. The slot it takes is
  overwritten together with its lock, so the owner and the `used` flag are written with the lock
  free again;
* `create_named` writes the name in a section of its own, after it has looked for the name without
  a lock;
* `open_by_name` also looks for the name without a lock.

`opened` and `left` count the clients that came and went; nothing reads them.
-/

namespace Ipc

open Infra Infra.Machine Channel Function List

/-- The step a call of a process takes next. -/
inductive Pc
  | idle
  /-- `create` locks this slot -/
  | scanning (slot : Nat) (name : Option (List UInt8))
  /-- `create` holds the lock of an unused slot and zeroes it -/
  | clearing (slot : Nat) (name : Option (List UInt8))
  /-- `create` writes `owner_pid` -/
  | owning (slot : Nat) (name : Option (List UInt8))
  /-- `create` writes `used` -/
  | enabling (slot : Nat) (name : Option (List UInt8))
  /-- `create_named` writes the name -/
  | naming (slot : Nat) (name : List UInt8)
  /-- `open_by_name` has found this slot -/
  | opening (slot : Nat)

/-- `G_CHANNELS`, the locks of its slots and the calls in progress, by process. -/
structure Calls where
  chan : Nat → Channel
  locked : Nat → Bool
  pc : Nat → Pc
  opened : Nat → Nat → Nat
  left : Nat → Nat → Nat

/-- `proceed` is the next step of the call a process is in, the others are calls. -/
inductive Act
  | create (pid : Nat)
  | createNamed (pid : Nat) (name : List UInt8)
  | openByName (pid : Nat) (name : List UInt8)
  | proceed (pid : Nat)
  | connect (pid slot : Nat)
  | disconnect (pid slot : Nat)
  | close (pid slot : Nat)
  | send (pid slot : Nat) (src : List UInt8)
  | recv (pid slot len : Nat)

def Act.pid : Act → Nat
  | create pid | createNamed pid _ | openByName pid _ | proceed pid | connect pid _
  | disconnect pid _ | close pid _ | send pid _ _ | recv pid _ _ => pid

/-- One more for `pid`. -/
def bump (count : Nat → Nat) (pid : Nat) : Nat → Nat := update count pid (count pid + 1)

namespace Calls

variable (w : Calls)

def goto (pid : Nat) (pc : Pc) : Calls := { w with pc := update w.pc pid pc }

def setChan (i : Nat) (ch : Channel) : Calls := { w with chan := update w.chan i ch }

def setLocked (i : Nat) (b : Bool) : Calls := { w with locked := update w.locked i b }

def forget (i : Nat) : Calls :=
  { w with opened := update w.opened i fun _ => 0
           left := update w.left i fun _ => 0 }

def countOpen (i pid : Nat) : Calls := { w with opened := update w.opened i (bump (w.opened i) pid) }

def countLeft (i pid : Nat) : Calls := { w with left := update w.left i (bump (w.left i) pid) }

def findByName (name : List UInt8) : Option Nat :=
  (range chanMax).find? fun i => (w.chan i).used && (w.chan i).name == name

def proceed (pid : Nat) : Option Calls :=
  match w.pc pid with
  | .idle => none
  | .scanning i name =>
    if i < chanMax then
      if w.locked i then none
      else if (w.chan i).used then some (w.goto pid (.scanning (i + 1) name))
      else some ((w.setLocked i true).goto pid (.clearing i name))
    else some (w.goto pid .idle)
  | .clearing i name =>
    -- The zeroed slot contains a free lock.
    some ((((w.setChan i .zeroed).forget i).setLocked i false).goto pid (.owning i name))
  | .owning i name =>
    some ((w.setChan i { w.chan i with ownerPid := pid }).goto pid (.enabling i name))
  | .enabling i name =>
    some ((w.setChan i { w.chan i with used := true }).goto pid
      (match name with
        | none => .idle
        | some name => .naming i name))
  | .naming i name =>
    if w.locked i then none
    else some ((w.setChan i { w.chan i with name }).goto pid .idle)
  | .opening i =>
    if w.locked i then none
    else
      match (w.chan i).openLocked pid with
      | .error _ => some (w.goto pid .idle)
      | .ok ch => some (((w.setChan i ch).countOpen i pid).goto pid .idle)

/-- A call that is one section of a slot: out of range it fails, under another's lock it waits. -/
def atSlot (pid i : Nat) (body : Calls) : Option Calls :=
  match w.pc pid with
  | .idle => if i < chanMax then if w.locked i then none else some body else some w
  | _ => none

def start (pid : Nat) (pc : Pc) : Option Calls :=
  match w.pc pid with
  | .idle => some (w.goto pid pc)
  | _ => none

def step : Act → Option Calls
  | .create pid => w.start pid (.scanning 0 none)
  | .createNamed pid name =>
    w.start pid
      (if name.isEmpty || chanNameMax - 1 < name.length then .idle
        else if (w.findByName name).isSome then .idle
        else .scanning 0 (some name))
  | .openByName pid name =>
    w.start pid
      (match w.findByName name with
        | none => .idle
        | some i => .opening i)
  | .proceed pid => w.proceed pid
  | .connect pid i =>
    w.atSlot pid i
      (match (w.chan i).connect pid with
        | .error _ => w
        | .ok ch => (w.setChan i ch).countOpen i pid)
  | .disconnect pid i =>
    w.atSlot pid i
      (if (w.chan i).used && (w.chan i).clients.contains pid then
        (w.setChan i ((w.chan i).disconnect pid)).countLeft i pid
      else w.setChan i ((w.chan i).disconnect pid))
  | .close pid i =>
    w.atSlot pid i
      (match (w.chan i).close with
        | .error _ => w
        | .ok ch => w.setChan i ch)
  | .send pid i src => w.atSlot pid i (w.setChan i ((w.chan i).send pid src).2)
  | .recv pid i len => w.atSlot pid i (w.setChan i ((w.chan i).recv pid len).2)

end Calls

def calls : Machine Calls Act := ⟨Calls.step⟩

/-- `G_CHANNELS` at boot. -/
def Calls.boot : Calls where
  chan := fun _ => .zeroed
  locked := fun _ => false
  pc := fun _ => .idle
  opened := fun _ _ => 0
  left := fun _ _ => 0

/-! ## What an action does to one slot -/

/-- The versions of slot `d`, and of its two counts, that an action can leave behind. -/
inductive SlotEffect (w : Calls) (a : Act) (d : Nat) : Channel → (Nat → Nat) → (Nat → Nat) → Prop
  | same : SlotEffect w a d (w.chan d) (w.opened d) (w.left d)
  | cleared {pid : Nat} {name : Option (List UInt8)} (ha : a = .proceed pid)
      (hpc : w.pc pid = .clearing d name) : SlotEffect w a d .zeroed (fun _ => 0) fun _ => 0
  | owned (pid : Nat) : SlotEffect w a d { w.chan d with ownerPid := pid } (w.opened d) (w.left d)
  | enabled {pid : Nat} {name : Option (List UInt8)} (ha : a = .proceed pid)
      (hpc : w.pc pid = .enabling d name) :
      SlotEffect w a d { w.chan d with used := true } (w.opened d) (w.left d)
  | named {pid : Nat} {name : List UInt8} (ha : a = .proceed pid)
      (hpc : w.pc pid = .naming d name) :
      SlotEffect w a d { w.chan d with name } (w.opened d) (w.left d)
  | joined {pid : Nat} {clients : List Nat}
      (hc : clients = (w.chan d).clients ∨ clients = (w.chan d).clients ++ [pid]) :
      SlotEffect w a d { w.chan d with clients } (bump (w.opened d) pid) (w.left d)
  | departed {pid : Nat} {clients : List Nat} (hc : (pid :: clients).Perm (w.chan d).clients) :
      SlotEffect w a d { w.chan d with clients } (w.opened d) (bump (w.left d) pid)
  | closed {pid : Nat} (ha : a = .close pid d) :
      SlotEffect w a d { w.chan d with closed := true, used := false } (w.opened d) (w.left d)
  | moved {buf : Nat → UInt8} {head tail : UInt32} (hp : (w.chan d).pidAllowed a.pid = true) :
      SlotEffect w a d { w.chan d with buf, head, tail } (w.opened d) (w.left d)

variable {w u : Calls} {a : Act} {d i pid : Nat} {ch : Channel}

theorem SlotEffect.set {opened left : Nat → Nat}
    (h : SlotEffect w a i ch opened left) :
    SlotEffect w a d (update w.chan i ch d) (update w.opened i opened d) (update w.left i left d) := by
  by_cases hd : d = i
  · subst hd
    simpa only [update_self] using h
  · simpa only [update_of_ne hd] using SlotEffect.same

theorem SlotEffect.setChan (h : SlotEffect w a i ch (w.opened i) (w.left i)) :
    SlotEffect w a d (update w.chan i ch d) (w.opened d) (w.left d) := by
  simpa only [update_eq_self] using h.set (d := d)

theorem SlotEffect.joins (h : ch.clients = (w.chan i).clients ∨
      ch.clients = (w.chan i).clients ++ [pid]) (hch : ch = { w.chan i with clients := ch.clients }) :
    SlotEffect w a d (update w.chan i ch d) (update w.opened i (bump (w.opened i) pid) d) (w.left d) := by
  have he : SlotEffect w a i ch (bump (w.opened i) pid) (w.left i) := hch ▸ .joined h
  simpa only [update_eq_self] using he.set (d := d)

theorem openLocked_eq {ch ch' : Channel} (h : ch.openLocked pid = .ok ch') :
    (ch'.clients = ch.clients ∨ ch'.clients = ch.clients ++ [pid]) ∧
      ch' = { ch with clients := ch'.clients } := by
  unfold openLocked at h
  split_ifs at h <;> cases h
  · exact ⟨.inl rfl, rfl⟩
  · exact ⟨.inr rfl, rfl⟩

theorem connect_eq {ch ch' : Channel} (h : ch.connect pid = .ok ch') :
    ch'.clients = ch.clients ++ [pid] ∧ ch' = { ch with clients := ch'.clients } := by
  unfold Channel.connect at h
  split_ifs at h
  cases h
  exact ⟨rfl, rfl⟩

theorem disconnect_eq (hu : ch.used = true) (hp : ch.clients.contains pid = true) :
    ∃ clients, (pid :: clients).Perm ch.clients ∧ ch.disconnect pid = { ch with clients } := by
  have hmem : pid ∈ ch.clients := contains_iff_mem.mp hp
  cases hi : ch.clients.idxOf? pid with
  | none => exact absurd hmem (idxOf?_eq_none_iff.mp hi)
  | some i =>
    obtain ⟨hlt, hget, -⟩ := idxOf?_eq_some_iff.mp hi
    have hperm := ((swapRemove_perm hlt).cons pid).trans
      (hget ▸ getElem_cons_eraseIdx_perm hlt)
    exact ⟨_, hperm, by simp only [Channel.disconnect, hu, hi, Bool.not_true, Bool.false_eq_true, if_false]⟩

theorem disconnect_of_not (h : ¬(ch.used && ch.clients.contains pid) = true) : ch.disconnect pid = ch := by
  unfold Channel.disconnect
  cases hu : ch.used with
  | false => rfl
  | true =>
    rw [hu, Bool.true_and, contains_iff_mem] at h
    rw [idxOf?_eq_none_iff.mpr h]
    rfl

theorem proceed_effect (h : w.proceed pid = some u) (ha : a = .proceed pid) (d : Nat) :
    SlotEffect w a d (u.chan d) (u.opened d) (u.left d) := by
  unfold Calls.proceed at h
  cases hpc : w.pc pid with simp only [hpc] at h
  | idle => cases h
  | scanning i name =>
    split_ifs at h <;> cases h <;> exact .same
  | clearing i name =>
    cases h
    exact (SlotEffect.cleared ha hpc).set
  | owning i name =>
    cases h
    exact (SlotEffect.owned pid).setChan
  | enabling i name =>
    cases h
    exact (SlotEffect.enabled ha hpc).setChan
  | naming i name =>
    split_ifs at h
    cases h
    exact (SlotEffect.named ha hpc).setChan
  | opening i =>
    split_ifs at h
    cases ho : (w.chan i).openLocked pid with simp only [ho] at h
    | error e =>
      cases h
      exact .same
    | ok ch =>
      cases h
      obtain ⟨hc, hch⟩ := openLocked_eq ho
      exact .joins hc hch

theorem start_effect {pc : Pc} (h : w.start pid pc = some u) (d : Nat) :
    SlotEffect w a d (u.chan d) (u.opened d) (u.left d) := by
  unfold Calls.start at h
  split at h
  · cases h
    exact .same
  · cases h

theorem atSlot_effect {body : Calls} (h : w.atSlot pid i body = some u) (d : Nat)
    (hb : SlotEffect w a d (body.chan d) (body.opened d) (body.left d)) :
    SlotEffect w a d (u.chan d) (u.opened d) (u.left d) := by
  unfold Calls.atSlot at h
  split at h
  · split_ifs at h <;> cases h
    · exact hb
    · exact .same
  · cases h

theorem step_effect (h : calls.step w a = some u) (d : Nat) : SlotEffect w a d (u.chan d) (u.opened d) (u.left d) := by
  cases a with
  | create pid | createNamed pid name | openByName pid name => exact start_effect h d
  | proceed pid => exact proceed_effect h rfl d
  | connect pid i =>
    refine atSlot_effect h d ?_
    cases hc : (w.chan i).connect pid with
    | error e => exact .same
    | ok ch =>
      obtain ⟨hcl, hch⟩ := connect_eq hc
      exact .joins (.inr hcl) hch
  | disconnect pid i =>
    refine atSlot_effect h d ?_
    split_ifs with hin
    · obtain ⟨hu, hp⟩ := Bool.and_eq_true_iff.mp hin
      obtain ⟨clients, hperm, heq⟩ := disconnect_eq hu hp
      have he : SlotEffect w (.disconnect pid i) i ((w.chan i).disconnect pid) (w.opened i)
          (bump (w.left i) pid) := heq ▸ .departed hperm
      have hd := he.set (d := d)
      rwa [update_eq_self] at hd
    · rw [disconnect_of_not hin]
      exact SlotEffect.same.setChan
  | close pid i =>
    refine atSlot_effect h d ?_
    unfold Channel.close
    split_ifs
    · exact .same
    · exact (SlotEffect.closed rfl).setChan
  | send pid i src =>
    refine atSlot_effect h d (SlotEffect.setChan ?_)
    rcases send_eq (w.chan i) pid src with he | ⟨hp, buf, tail, he⟩
    · rw [he]
      exact .same
    · rw [he]
      exact .moved hp
  | recv pid i len =>
    refine atSlot_effect h d (SlotEffect.setChan ?_)
    rcases recv_eq (w.chan i) pid len with he | ⟨hp, head, he⟩
    · rw [he]
      exact .same
    · rw [he]
      exact .moved hp

/-! ## Membership -/

/-- No process is a client more often than it has joined and not left since. -/
def Accounted (w : Calls) : Prop := ∀ d q, (w.chan d).clients.count q + w.left d q ≤ w.opened d q

theorem bump_apply (count : Nat → Nat) (pid q : Nat) : bump count pid q = count q + if q = pid then 1 else 0 := by
  unfold bump
  by_cases hq : q = pid
  · rw [if_pos hq, hq, update_self]
  · rw [if_neg hq, update_of_ne hq, Nat.add_zero]

theorem Accounted.step (h : Accounted w) (hstep : calls.step w a = some u) : Accounted u := by
  intro d q
  have hd := h d q
  generalize hch : u.chan d = ch, ho : u.opened d = opened, hl : u.left d = left
  have he := step_effect hstep d
  rw [hch, ho, hl] at he
  cases he with
  | same | owned | enabled | named | closed | moved => exact hd
  | cleared => exact Nat.le_refl 0
  | joined hc =>
    rename_i pid clients
    rw [bump_apply]
    rcases hc with rfl | rfl
    · exact Nat.le_trans hd (Nat.le_add_right _ _)
    · simp only [count_append, count_singleton, beq_iff_eq, eq_comm (a := pid)]
      omega
  | departed hc =>
    have hcount := hc.count_eq q
    rw [count_cons] at hcount
    simp only [beq_iff_eq] at hcount
    simp only [bump_apply, eq_comm (a := q)]
    omega

theorem Accounted.member (h : Accounted w) (hp : (w.chan d).pidAllowed pid = true) :
    pid = (w.chan d).ownerPid ∨ w.left d pid < w.opened d pid := by
  rcases Bool.or_eq_true_iff.mp hp with ho | hc
  · exact .inl (beq_iff_eq.mp ho)
  · right
    have hpos := count_pos_iff.mpr (contains_iff_mem.mp hc)
    have := h d pid
    omega

/-! ## Names and strangers -/

namespace Calls

/-- No used channel but `i` has this name. -/
def nameFree (w : Calls) (i : Nat) (name : List UInt8) : Bool :=
  name.isEmpty ||
    (range chanMax).all fun j => j == i || !(w.chan j).used || !((w.chan j).name == name)

/-- What the policy asks of an action. A channel is closed by its owner or a client. A name is
written, and a slot with a name comes into use, while no other used channel has the name. A slot
that `create` zeroes has not come into use since it was looked at. -/
def orderly (w : Calls) : Act → Bool
  | .proceed pid =>
    match w.pc pid with
    | .clearing i _ => !(w.chan i).used
    | .enabling i _ => w.nameFree i (w.chan i).name
    | .naming i name => w.nameFree i name
    | _ => true
  | .close pid i => !(w.chan i).used || (w.chan i).pidAllowed pid
  | _ => true

end Calls

def NamesDiffer (w : Calls) : Prop :=
  ∀ c d, c < chanMax → d < chanMax → (w.chan c).used = true → (w.chan d).used = true →
    (w.chan c).name = (w.chan d).name → (w.chan c).name ≠ [] → c = d

theorem nameFree_spec {name : List UInt8} (h : w.nameFree i name = true) (hn : name ≠ []) {j : Nat}
    (hj : j < chanMax) (hu : (w.chan j).used = true) (hname : (w.chan j).name = name) : j = i := by
  rcases Bool.or_eq_true_iff.mp h with he | hall
  · exact absurd (isEmpty_iff.mp he) hn
  · have := all_eq_true.mp hall j (mem_range.mpr hj)
    simpa [hu, hname] using this

def Pc.reveals : Pc → Option Nat
  | enabling i _ | naming i _ => some i
  | _ => none

/-- A used slot with a name had both before the action, or it is the one slot where the action
brings the name into view, and no other used slot has it. -/
theorem named_before (hok : w.orderly a = true) (hstep : calls.step w a = some u)
    (hu : (u.chan d).used = true) (hn : (u.chan d).name ≠ []) :
    (w.chan d).used = true ∧ (w.chan d).name = (u.chan d).name ∨
      (w.pc a.pid).reveals = some d ∧ w.nameFree d (u.chan d).name = true := by
  generalize hch : u.chan d = ch, ho : u.opened d = opened, hl : u.left d = left at hu hn
  have he := step_effect hstep d
  rw [hch, ho, hl] at he
  cases he with
  | same | owned | joined | departed | moved => exact .inl ⟨hu, rfl⟩
  | cleared | closed => cases hu
  | enabled ha hpc | named ha hpc =>
    subst ha
    simp only [Calls.orderly, hpc] at hok
    exact .inr ⟨congrArg Pc.reveals hpc, hok⟩

theorem NamesDiffer.step (h : NamesDiffer w) (hok : w.orderly a = true)
    (hstep : calls.step w a = some u) : NamesDiffer u := by
  intro c d hc hd huc hud hname hne
  have hned : (u.chan d).name ≠ [] := hname ▸ hne
  rcases named_before hok hstep huc hne with ⟨hc1, hc2⟩ | ⟨hc1, hc2⟩
  · rcases named_before hok hstep hud hned with ⟨hd1, hd2⟩ | ⟨-, hd2⟩
    · exact h c d hc hd hc1 hd1 (by rw [hc2, hd2, hname]) (hc2 ▸ hne)
    · exact nameFree_spec hd2 hned hc hc1 (hc2.trans hname)
  · rcases named_before hok hstep hud hned with ⟨hd1, hd2⟩ | ⟨hd1, -⟩
    · exact (nameFree_spec hc2 hne hd hd1 (hd2.trans hname.symm)).symm
    · exact Option.some.inj (hc1.symm.trans hd1)

theorem stranger_changes_nothing (hok : w.orderly a = true) (hstep : calls.step w a = some u)
    (hu : (w.chan d).used = true) (hp : (w.chan d).pidAllowed a.pid = false) :
    (w.chan d).SameContents (u.chan d) := by
  generalize hch : u.chan d = ch, ho : u.opened d = opened, hl : u.left d = left
  have he := step_effect hstep d
  rw [hch, ho, hl] at he
  cases he with
  | same | owned | named | joined | departed => exact SameContents.refl
  | enabled => exact ⟨rfl, rfl, rfl, hu.symm, rfl⟩
  | cleared ha hpc =>
    subst ha
    simp only [Calls.orderly, hpc, hu, Bool.not_true, Bool.false_eq_true] at hok
  | closed ha =>
    subst ha
    rw [Act.pid] at hp
    simp only [Calls.orderly, hu, hp, Bool.not_true, Bool.or_false, Bool.false_eq_true] at hok
  | moved ha =>
    rw [hp] at ha
    cases ha

/-- Names are unique among the channels in use, only the owner and members get through to the
ring, and no stranger touches a channel. -/
theorem channel_policy {w : Calls}
    (hrun : calls.Reach (fun v a => v.orderly a = true) .boot w) :
    NamesDiffer w ∧
      (∀ d pid src len, ((w.chan d).send pid src).1.succeeds = true ∨
          ((w.chan d).recv pid len).1.succeeds = true →
        pid = (w.chan d).ownerPid ∨ w.left d pid < w.opened d pid) ∧
      ∀ a u d, w.orderly a = true → calls.step w a = some u → (w.chan d).used = true →
        (w.chan d).pidAllowed a.pid = false → (w.chan d).SameContents (u.chan d) := by
  obtain ⟨hn, hm⟩ : NamesDiffer w ∧ Accounted w := by
    refine hrun.invariant (I := fun v => NamesDiffer v ∧ Accounted v) ⟨nofun, fun _ _ => Nat.le_refl 0⟩
      fun h hok hstep => ⟨h.1.step hok hstep, h.2.step hstep⟩
  refine ⟨hn, fun d pid src len hs => ?_, fun a u d hok hstep hu hp => ?_⟩
  · rcases hs with hs | hs
    · exact hm.member (allowed_of_send hs).2
    · exact hm.member (allowed_of_recv hs).2
  · exact stranger_changes_nothing hok hstep hu hp

/-- Process 1 creates a channel named `a`, process 2 opens it, and process 3 is refused. -/
theorem channel_policy_twoMembers : ∃ w,
    calls.Reach (fun v a => v.orderly a = true) .boot w ∧
      ((w.chan 0).send 2 [7]).1.succeeds = true ∧ w.left 0 2 < w.opened 0 2 ∧
      ((w.chan 0).send 3 [7]).1 = .fails .perm := by
  refine exists_reach_imp (P := fun w => ((w.chan 0).send 2 [7]).1.succeeds = true ∧ 2 ≠ (w.chan 0).ownerPid ∧
    ((w.chan 0).send 3 [7]).1 = .fails .perm)
    [.createNamed 1 [97], .proceed 1, .proceed 1, .proceed 1, .proceed 1, .proceed 1,
      .openByName 2 [97], .proceed 2] (by decide) ?_
  rintro w hrun ⟨hs, ho, hp⟩
  exact ⟨hs, ((channel_policy hrun).2.1 0 2 [7] 0 (.inl hs)).resolve_left ho, hp⟩

/-- Two processes create channels of one name at the same time, and a third one closes the first
of them. -/
theorem stranger_closes_channel : ∃ w u,
    calls.Reach always .boot w ∧ calls.step w (.close 3 0) = some u ∧ ¬NamesDiffer w ∧
      (w.chan 0).used = true ∧ (w.chan 0).pidAllowed 3 = false ∧ (u.chan 0).used = false := by
  obtain ⟨w, hrun, h0, h1, hn0, hn1, hp, hnext⟩ : ∃ w, calls.Reach always .boot w ∧
      (w.chan 0).used = true ∧ (w.chan 1).used = true ∧ (w.chan 0).name = [97] ∧ (w.chan 1).name = [97] ∧
      (w.chan 0).pidAllowed 3 = false ∧ ((calls.step w (.close 3 0)).any fun u => !(u.chan 0).used) = true :=
    exists_reach_of_play
      [.createNamed 1 [97], .createNamed 2 [97], .proceed 1, .proceed 1, .proceed 1, .proceed 1,
        .proceed 1, .proceed 2, .proceed 2, .proceed 2, .proceed 2, .proceed 2, .proceed 2] (by decide)
  simp only [Option.any_eq_true, Bool.not_eq_true'] at hnext
  obtain ⟨u, hstep, hu⟩ := hnext
  refine ⟨w, u, hrun, hstep, fun h => ?_, h0, hp, hu⟩
  exact absurd (h 0 1 (by decide) (by decide) h0 h1 (hn0.trans hn1.symm) (hn0 ▸ by decide)) (by decide)

end Ipc
