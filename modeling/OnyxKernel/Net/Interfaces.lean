import Mathlib.Logic.Function.Basic
import OnyxKernel.Core.Errno

/-!
# The selected card and the addresses in force

`select_device` of the driver, `activate` and `with_interface` of `net/config.rs` and `poll` of `net/mod.rs`. A
`NetDev` with the cursors of its rings is a `δ`. What goes over a card and what a call leaves is recorded in
`log`; no code reads it.

`activate` stores the addresses of an interface only if it is enabled, also on the way back to the caller's
card. `run_restores_iff` says for which calls the caller's context is in force again afterwards.
-/

namespace Nic

open Onyx Function

/-- `G_IP`, `G_GW`, `G_MASK` and `G_DNS`. -/
structure Addresses where
  ip : UInt32
  gateway : UInt32
  mask : UInt32
  dns : UInt32
  deriving DecidableEq

structure Interface extends Addresses where
  enabled : Bool

/-- The cards that boot has found and `INTERFACES`. -/
structure Setup where
  count : Nat
  count_le : count ≤ 8
  interfaces : Nat → Interface

/-- The selected card and the addresses in force. -/
structure Context where
  active : Nat
  addresses : Addresses
  deriving DecidableEq

/-- A frame is sent or received by an operation under `with_interface` or `poll` of the interface `wanted`, if
any; or one of these calls returns. -/
inductive Event (δ : Type)
  | transfer (wanted : Option Nat) (used : Context) (change : δ → δ)
  | returned (before after : Context)

structure Cards (δ : Type) extends Setup where
  active : Nat
  gNet : δ
  devices : Nat → δ
  addresses : Addresses
  log : List (Event δ)

variable {δ : Type}

def Setup.isConfigured (s : Setup) (i : Nat) : Bool := i < 8 && (s.interfaces i).enabled

namespace Cards

def selectDevice (w : Cards δ) (i : Nat) : Except Errno (Cards δ) :=
  if w.count ≤ i then .error .inval
  else
    let devices := update w.devices w.active w.gNet
    .ok { w with devices, gNet := devices i, active := i }

def activate (w : Cards δ) (i : Nat) : Except Errno Unit × Cards δ :=
  match w.selectDevice i with
  | .error e => (.error e, w)
  | .ok w => (.ok (), if (w.interfaces i).enabled then { w with addresses := (w.interfaces i).toAddresses } else w)

def withInterface (w : Cards δ) (i : Nat) (operation : Cards δ → Except Errno Unit × Cards δ) :
    Except Errno Unit × Cards δ :=
  let result := match w.activate i with
    | (.ok _, u) => operation u
    | (.error e, u) => (.error e, u)
  (result.1, (result.2.activate w.active).2)

/-- The loop of `poll` over the configured interfaces. -/
def pollEach (w : Cards δ) (drainCurrent : Nat → Cards δ → Cards δ) (l : List Nat) : Cards δ :=
  l.foldl (fun u i =>
    if u.isConfigured i && (u.activate i).1.isOk then drainCurrent i (u.activate i).2 else u) w

/-- `poll`; `drain_current` is told for which interface it is called. -/
def poll (w : Cards δ) (drainCurrent : Option Nat → Cards δ → Cards δ) : Cards δ :=
  if (List.range w.count).any w.isConfigured then
    ((w.pollEach (fun i => drainCurrent (some i)) (List.range w.count)).activate w.active).2
  else drainCurrent none w

/-- The state of a card, wherever it is kept. -/
def card (w : Cards δ) (j : Nat) : δ := if j = w.active then w.gNet else w.devices j

def context (w : Cards δ) : Context := ⟨w.active, w.addresses⟩

/-- The end of a call that was made in the context `before`. -/
def noteReturn (w : Cards δ) (before : Context) : Cards δ := { w with log := w.log ++ [.returned before w.context] }

end Cards

/-- What is done under the lock: any nesting of the two calls, around transfers on the selected card. -/
inductive Op (δ : Type)
  | done (result : Except Errno Unit)
  | transfer (change : δ → δ)
  | both (p q : Op δ)
  | withInterface (i : Nat) (operation : Op δ)
  | poll (drainCurrent : Option Nat → Op δ)

def Op.run : Op δ → (wanted : Option Nat) → Cards δ → Except Errno Unit × Cards δ
  | done r, _, w => (r, w)
  | transfer f, wanted, w =>
    (.ok (), { w with gNet := f w.gNet, log := w.log ++ [.transfer wanted w.context f] })
  | both p q, wanted, w =>
    match p.run wanted w with
    | (.ok _, u) => q.run wanted u
    | (.error e, u) => (.error e, u)
  | withInterface i p, _, w =>
    let r := w.withInterface i (p.run (some i))
    (r.1, r.2.noteReturn w.context)
  | poll drain, _, w => (.ok (), (w.poll fun wanted u => ((drain wanted).run wanted u).2).noteReturn w.context)

/-! ## The condition -/

namespace Setup

variable (s : Setup)

/-- Card `i` with the addresses of its interface. -/
def own (i : Nat) : Context := ⟨i, (s.interfaces i).toAddresses⟩

/-- What `activate` makes of a context. -/
def switch (c : Context) (i : Nat) : Context :=
  if i < s.count then ⟨i, if (s.interfaces i).enabled then (s.interfaces i).toAddresses else c.addresses⟩ else c

/-- The context of the last configured interface of `l`. -/
def lastOf (c : Context) (l : List Nat) : Context := l.foldl (fun c i => if s.isConfigured i then s.own i else c) c

end Setup

/-- Whether an operation succeeds: it fails only for a missing card. -/
def Op.result (s : Setup) : Op δ → Except Errno Unit
  | done r => r
  | transfer _ | poll _ => .ok ()
  | both p q =>
    match p.result s with
    | .ok _ => q.result s
    | .error e => .error e
  | withInterface i p => if i < s.count then p.result s else .error .inval

/-- The condition for an operation that is started for the interface `wanted` in the context `c`. The way
back from an interface, or from the last one that `poll` has met, leads to the context of the caller, and a
transfer for an interface is started with its card and its addresses. -/
def Op.Fits (s : Setup) : Op δ → (wanted : Option Nat) → Context → Prop
  | done _, _, _ => True
  | transfer _, wanted, c => ∀ i ∈ wanted, c = s.own i
  | both p q, wanted, c => p.Fits s wanted c ∧ (p.result s = .ok () → q.Fits s wanted c)
  | withInterface i p, _, c => (i < s.count → p.Fits s (some i) (s.switch c i)) ∧
      s.switch (s.switch c i) c.active = c
  | poll drain, _, c =>
    if (List.range s.count).any s.isConfigured then
      (∀ i ∈ List.range s.count, s.isConfigured i = true → (drain (some i)).Fits s (some i) (s.own i)) ∧
        s.switch (s.lastOf c (List.range s.count)) c.active = c
    else (drain none).Fits s none c

/-! ## Runs -/

/-- A transfer for an interface is made on its card and with its addresses; a call leaves the context in
which it was made. -/
def Event.Right (s : Setup) : Event δ → Prop
  | transfer wanted used _ => ∀ i ∈ wanted, used = s.own i
  | returned before after => after = before

/-- Card `j` after the transfers that went over it. -/
def replay (j : Nat) (l : List (Event δ)) (d : δ) : δ :=
  l.foldl (fun d e => match e with
    | .transfer _ used change => if used.active = j then change d else d
    | .returned .. => d) d

/-- `u` is `w` after the events `l`: each card is as its own transfers left it. -/
structure Ran (w u : Cards δ) (l : List (Event δ)) : Prop where
  setup : u.toSetup = w.toSetup
  log : u.log = w.log ++ l
  cards : ∀ j, u.card j = replay j l (w.card j)

/-- All events are right if and only if `P`, and then the context is `c` afterwards. -/
structure Judged (s : Setup) (l : List (Event δ)) (u : Cards δ) (P : Prop) (c : Context) : Prop where
  right : (∀ e ∈ l, e.Right s) ↔ P
  context : P → u.context = c

variable {w u v : Cards δ} {l l' : List (Event δ)} {i : Nat}

theorem Ran.refl (w : Cards δ) : Ran w w [] := ⟨rfl, by simp, fun _ => rfl⟩

theorem Ran.trans (h : Ran w u l) (h' : Ran u v l') : Ran w v (l ++ l') :=
  ⟨h'.setup.trans h.setup, by rw [h'.log, h.log, List.append_assoc],
    fun j => by rw [h'.cards, h.cards, replay, replay, replay, List.foldl_append]⟩

theorem Ran.noteReturn (h : Ran w u l) (c : Context) : Ran w (u.noteReturn c) (l ++ [.returned c u.context]) :=
  h.trans ⟨rfl, rfl, fun _ => rfl⟩

theorem activate_spec (w : Cards δ) (i : Nat) :
    Ran w (w.activate i).2 [] ∧ (w.activate i).2.context = w.switch w.context i ∧
      (w.activate i).1 = if i < w.count then .ok () else .error .inval := by
  have hcards : ∀ j, (if j = i then update w.devices w.active w.gNet i else update w.devices w.active w.gNet j) =
      w.card j := fun j => by
    rw [Cards.card, ← update_apply]
    split <;> simp [*]
  by_cases h : i < w.count
  · rw [Cards.activate, Cards.selectDevice, if_neg (Nat.not_le.mpr h), Setup.switch, if_pos h, if_pos h]
    dsimp only
    split
    · exact ⟨⟨rfl, by simp, hcards⟩, rfl, rfl⟩
    · exact ⟨⟨rfl, by simp, hcards⟩, rfl, rfl⟩
  · rw [Cards.activate, Cards.selectDevice, if_pos (Nat.le_of_not_lt h), Setup.switch, if_neg h, if_neg h]
    exact ⟨.refl w, rfl, rfl⟩

theorem Setup.switch_own (s : Setup) (c : Context) (hi : i < s.count) (hen : (s.interfaces i).enabled = true) :
    s.switch c i = s.own i := by
  rw [Setup.switch, if_pos hi, if_pos hen, Setup.own]

/-- What a run does, and what is right about it. -/
def Op.Spec (p : Op δ) : Prop := ∀ wanted (w : Cards δ), (p.run wanted w).1 = p.result w.toSetup ∧
  ∃ l, Ran w (p.run wanted w).2 l ∧
    Judged w.toSetup l (p.run wanted w).2 (p.Fits w.toSetup wanted w.context) w.context

section

variable {P Q : Prop} {s : Setup} {c : Context}

theorem Judged.nil (hc : u.context = c) : Judged s [] u True c := ⟨by simp, fun _ => hc⟩

/-- One run after another, which starts in the context that the first leaves if all is right. -/
theorem Judged.append {c' : Context} (h : Judged s l u P c) (h' : P → Judged s l' v Q c') :
    Judged s (l ++ l') v (P ∧ Q) c' := by
  refine ⟨?_, fun hpq => (h' hpq.1).context hpq.2⟩
  simp only [List.mem_append, or_imp, forall_and, h.right]
  exact and_congr_right fun hp => (h' hp).right

theorem Judged.activate (h : Judged s l u P c) (hs : u.toSetup = s) (i : Nat) :
    Judged s l (u.activate i).2 P (s.switch c i) :=
  ⟨h.right, fun hp => by rw [(activate_spec u i).2.1, hs, h.context hp]⟩

/-- The call returns to its caller. -/
theorem Judged.noteReturn (h : Judged s l u P c) (before : Context) :
    Judged s (l ++ [.returned before u.context]) (u.noteReturn before) (P ∧ c = before) before := by
  refine h.append fun hp => ⟨?_, (h.context hp).trans⟩
  simp only [List.mem_singleton, forall_eq, Event.Right, h.context hp]

end

theorem pollEach_spec {drain : Nat → Op δ} (hdrain : ∀ i, (drain i).Spec) (is : List Nat) :
    ∀ w : Cards δ, (∀ i ∈ is, i < w.count) →
      let u := w.pollEach (fun i u => ((drain i).run (some i) u).2) is
      ∃ l, Ran w u l ∧ Judged w.toSetup l u
        (∀ i ∈ is, w.isConfigured i = true → (drain i).Fits w.toSetup (some i) (w.own i))
          (w.lastOf w.context is) := by
  induction is with
  | nil => exact fun w _ => ⟨[], .refl w, by simp, fun _ => rfl⟩
  | cons i is ih =>
    intro w hlt
    obtain ⟨hi, hlt⟩ := List.forall_mem_cons.mp hlt
    simp only [List.forall_mem_cons, Cards.pollEach, Setup.lastOf, List.foldl_cons]
    by_cases hconf : w.isConfigured i = true
    · obtain ⟨hact, hctx, hok⟩ := activate_spec w i
      obtain ⟨-, l, hran, hj⟩ := hdrain i (some i) (w.activate i).2
      have hw := hact.trans hran
      rw [hact.setup, hctx, w.switch_own w.context hi (by simp_all [Setup.isConfigured])] at hj
      obtain ⟨l', hran', hj'⟩ := ih ((drain i).run (some i) (w.activate i).2).2 (by rw [hw.setup]; exact hlt)
      rw [hw.setup] at hj'
      simp only [hconf, hok, if_pos hi, Except.isOk, Except.toBool, Bool.and_self, if_true, true_implies]
      exact ⟨_, hw.trans hran', hj.append fun hp => hj.context hp ▸ hj'⟩
    · simp only [hconf, Bool.false_and, Bool.false_eq_true, if_false, false_implies, true_and]
      exact ih w hlt

/-- The events of every operation are right if and only if the condition holds where it is started. -/
theorem run_spec (p : Op δ) : p.Spec := by
  induction p with
  | done r => exact fun _ w => ⟨rfl, [], .refl w, .nil rfl⟩
  | transfer f =>
    refine fun wanted w => ⟨rfl, [.transfer wanted w.context f], ⟨rfl, rfl, fun j => ?_⟩, ?_, fun _ => rfl⟩
    · by_cases hj : w.active = j <;> simp [Op.run, Cards.card, Cards.context, replay, hj, Ne.symm, eq_comm]
    · simp [Event.Right, Op.Fits]
  | both p q ihp ihq =>
    intro wanted w
    obtain ⟨hres, l, hran, hj⟩ := ihp wanted w
    simp only [Op.run, Op.result, Op.Fits, ← hres]
    rcases hp : p.run wanted w with ⟨_ | _, u⟩
    · rw [hp] at hran hj
      refine ⟨rfl, l, hran, ?_⟩
      simpa using hj
    · rw [hp] at hran hj
      obtain ⟨hres', l', hran', hj'⟩ := ihq wanted u
      rw [hran.setup] at hres' hj'
      refine ⟨hres', l ++ l', hran.trans hran', ?_⟩
      simp only [true_implies]
      exact hj.append fun hf => hj.context hf ▸ hj'
  | withInterface i p ih =>
    intro wanted w
    obtain ⟨hact, hctx, hok⟩ := activate_spec w i
    simp only [Op.run, Op.result, Op.Fits, Cards.withInterface]
    by_cases hi : i < w.count
    · obtain ⟨hres, l, hran, hj⟩ := ih (some i) (w.activate i).2
      have hw := hact.trans hran
      rw [hact.setup, hctx] at hj
      rw [hact.setup] at hres
      rw [if_pos hi] at hok ⊢
      rw [show w.activate i = (.ok (), (w.activate i).2) from Prod.ext hok rfl]
      refine ⟨hres, _, (hw.trans (activate_spec _ w.active).1).noteReturn _, ?_⟩
      simp only [hi, true_implies]
      rw [List.append_nil]
      exact (hj.activate hw.setup w.active).noteReturn w.context
    · have hsame : w.activate i = (.error .inval, w) := by
        rw [Cards.activate, Cards.selectDevice, if_pos (Nat.le_of_not_lt hi)]
      rw [if_neg hi, hsame]
      refine ⟨rfl, _, (activate_spec w w.active).1.noteReturn _, ?_⟩
      rw [Setup.switch, if_neg hi]
      simp only [hi, false_implies]
      exact ((Judged.nil rfl).activate rfl w.active).noteReturn w.context
  | poll drain ih =>
    intro wanted w
    simp only [Op.run, Op.result, Op.Fits, Cards.poll]
    split
    · obtain ⟨l, hran, hj⟩ :=
        pollEach_spec (fun i => ih (some i)) (List.range w.count) w fun _ => List.mem_range.mp
      refine ⟨trivial, _, (hran.trans (activate_spec _ w.active).1).noteReturn _, ?_⟩
      rw [List.append_nil]
      exact (hj.activate hran.setup w.active).noteReturn w.context
    · obtain ⟨-, l, hran, hj⟩ := ih none none w
      refine ⟨trivial, _, hran.noteReturn _, ?_⟩
      simpa using hj.noteReturn w.context

/-- Every interface that is asked for satisfies `P`. -/
def Op.Requests (P : Nat → Prop) : Op δ → Prop
  | done _ | transfer _ => True
  | both p q => p.Requests P ∧ q.Requests P
  | withInterface i p => P i ∧ p.Requests P
  | poll drain => ∀ i, (drain i).Requests P

/-- The condition holds where the caller's interface and all present ones that are asked for are enabled. -/
theorem fits_of_enabled {s : Setup} (hi : i < s.count) (hen : (s.interfaces i).enabled = true) {p : Op δ}
    (hp : p.Requests fun j => j < s.count → (s.interfaces j).enabled = true) {wanted : Option Nat}
    (hw : ∀ j ∈ wanted, j = i) : p.Fits s wanted (s.own i) := by
  induction p generalizing i wanted with
  | done r => trivial
  | transfer f => exact fun j hj => by rw [hw j hj]
  | both p q ihp ihq => exact ⟨ihp hi hen hp.1 hw, fun _ => ihq hi hen hp.2 hw⟩
  | withInterface j p ih =>
    refine ⟨fun hj => ?_, s.switch_own _ hi hen⟩
    rw [s.switch_own _ hj (hp.1 hj)]
    exact ih hj (hp.1 hj) hp.2 (by simp)
  | poll drain ih =>
    unfold Op.Fits
    split
    · refine ⟨fun j hj hc => ih (some j) (List.mem_range.mp hj) ?_ (hp _) (by simp), s.switch_own _ hi hen⟩
      simp_all [Setup.isConfigured]
    · exact ih none hi hen (hp _) nofun

/-- Whatever the nesting of `with_interface` and `poll` and whatever fails in it, each card is as its own
transfers left it; and each call leaves the selected card and the addresses as they were, with each transfer
made on the card and with the addresses of the interface it was made for, if and only if the condition holds.
It holds where the caller's interface is enabled and in force and all present ones asked for are enabled. -/
theorem run_restores_iff (p : Op δ) (w : Cards δ) :
    (∃ l, Ran w (p.run none w).2 l ∧ ((∀ e ∈ l, e.Right w.toSetup) ↔ p.Fits w.toSetup none w.context)) ∧
      ∀ i, w.context = w.own i → i < w.count → (w.interfaces i).enabled = true →
        (p.Requests fun j => j < w.count → (w.interfaces j).enabled = true) → p.Fits w.toSetup none w.context := by
  obtain ⟨-, l, hran, hj⟩ := run_spec p none w
  refine ⟨⟨l, hran, hj.right⟩, fun i hown hi hen hp => ?_⟩
  rw [hown]
  exact fits_of_enabled hi hen hp nofun

/-! ## Two cards -/

/-- Two cards, of which the second is enabled. -/
def twoCards (first : Bool) : Cards Nat where
  count := 2
  count_le := by decide
  interfaces j := ⟨⟨UInt32.ofNat j, 0, 0, 0⟩, first || j == 1⟩
  active := 0
  gNet := 0
  devices _ := 0
  addresses := ⟨0, 0, 0, 0⟩
  log := []

/-- The caller's card is not configured: afterwards it is selected with the address of the other one. -/
theorem twoCards_leaks :
    ((Op.withInterface 1 (.transfer (· + 1))).run none (twoCards false)).2.active = 0 ∧
    ((Op.withInterface 1 (.transfer (· + 1))).run none (twoCards false)).2.addresses.ip = 1 ∧
    (twoCards false).active = 0 ∧ (twoCards false).addresses.ip = 0 := by
  decide

end Nic
