import OnyxKernel.OnyxFs.Command
import OnyxKernel.OnyxFs.JournalReplay

/-!
# The volume without its journal

What an operation works with is the part of the volume outside the journal, the *home* blocks, and
the scratch block. `At e d b t` says that in state `t` they are `d` and `b`. On it a command is what
its name says: `load` reads `d`, `put` changes one block of `d`. The journal appears nowhere above
this module, except that a command may fail; `Stopped` is what is known then.
-/

namespace OnyxFs

open Infra Onyx StateProg Function

/-- What an operation starts with: the volume, the time, the device, and the in-place writes made
before it. -/
structure Env extends Volume where
  jiffies : UInt64
  fault : Nat → Option (Fin 8)
  before : List (Nat × Block)

def FsState.env (s : FsState) : Env where
  version := s.version
  sb := s.sb
  jiffies := s.jiffies
  fault := s.fault
  before := s.inPlace

def Env.Calm (e : Env) : Prop := ∀ n, e.fault n = none

def Home (sb : Super) (b : Nat) : Prop := sb.hasJournal = true → ¬ InJournal sb b

instance (sb : Super) (b : Nat) : Decidable (Home sb b) :=
  inferInstanceAs (Decidable (_ → _))

def homeOf (sb : Super) (d : Disk Block) : Disk Block := fun b =>
  if Home sb b then d b else Bytes.zero

def Target (sb : Super) (b : Nat) : Prop := b < 2 ^ 32 ∧ Home sb b

/-- The home blocks are `d` and the scratch block is `b`. -/
structure At (e : Env) (d : Disk Block) (b : Block) (t : FsState) : Prop where
  sb : t.sb = e.sb
  version : t.version = e.version
  jiffies : t.jiffies = e.jiffies
  fault : t.fault = e.fault
  home : homeOf e.sb t.disk = d
  buf : t.buf = b
  head : e.sb.hasJournal = true → t.head ≤ e.sb.journalSize.toNat
  targets : ∃ ws, t.inPlace = e.before ++ ws ∧ ∀ w ∈ ws, Target e.sb w.1

/-- The state after a failed command. -/
structure Stopped (e : Env) (t : FsState) : Prop where
  sb : t.sb = e.sb
  version : t.version = e.version
  jiffies : t.jiffies = e.jiffies
  fault : t.fault = e.fault
  head : e.sb.hasJournal = true → t.head ≤ e.sb.journalSize.toNat
  targets : ∃ ws, t.inPlace = e.before ++ ws ∧ ∀ w ∈ ws, Target e.sb w.1

/-- The home blocks are `d`, whatever the scratch block is. -/
def On (e : Env) (d : Disk Block) (t : FsState) : Prop := ∃ b, At e d b t

section

variable {e : Env} {d : Disk Block} {b : Block} {t : FsState}

theorem At.stopped (h : At e d b t) : Stopped e t := { h with }

theorem At.on (h : At e d b t) : On e d t := ⟨b, h⟩

def FsState.vol (s : FsState) : Volume := ⟨s.version, s.sb⟩

def FsState.home (s : FsState) : Disk Block := homeOf s.sb s.disk

/-- Every state whose head is inside the journal is the start of an operation. -/
theorem FsState.start (h : t.sb.hasJournal = true → t.head ≤ t.sb.journalSize.toNat) : On t.env t.home t :=
  ⟨t.buf, rfl, rfl, rfl, rfl, rfl, rfl, h, [], (List.append_nil _).symm, nofun⟩

theorem On.vol (h : On e d t) : t.vol = e.toVolume := by
  obtain ⟨b, h⟩ := h
  rw [FsState.vol, h.sb, h.version]

theorem On.home (h : On e d t) : t.home = d := by
  obtain ⟨b, h⟩ := h
  rw [FsState.home, h.sb, h.home]

theorem On.fault (h : On e d t) : t.fault = e.fault := by
  obtain ⟨b, h⟩ := h
  exact h.fault

theorem On.head (h : On e d t) : t.sb.hasJournal = true → t.head ≤ t.sb.journalSize.toNat := by
  obtain ⟨b, h⟩ := h
  rw [h.sb]
  exact h.head

variable {blk : Nat} {sb : Super}

theorem homeOf_of_home (h : Home sb blk) (d : Disk Block) : homeOf sb d blk = d blk := if_pos h

theorem homeOf_update (h : Home sb blk) (d : Disk Block) (x : Block) :
    homeOf sb (update d blk x) = update (homeOf sb d) blk x := by
  funext c
  by_cases hc : c = blk
  · subst hc
    rw [homeOf_of_home h, update_self, update_self]
  · simp only [homeOf, update_of_ne hc]

theorem homeOf_update_journal (h : ¬ Home sb blk) (d : Disk Block)
    (x : Block) : homeOf sb (update d blk x) = homeOf sb d := by
  funext c
  by_cases hc : c = blk
  · subst hc
    simp only [homeOf, if_neg h]
  · simp only [homeOf, update_of_ne hc]

/-! ## Rules -/

/-- Running the body `p` from `t` ends in `Q` if it returns a value and in `E` if it fails. -/
structure Meets {α : Type} (E : FsState → Prop) (p : FsProg α)
    (Q : α → FsState → Prop) (t : FsState) : Prop where
  spec : wp (exec p) Q (fun _ => E) t

/-- The body `p` ends in `Q` if it returns a value; a failure may come from the device, the journal
or the body itself. -/
abbrev Does {α : Type} (e : Env) (p : FsProg α) (Q : α → FsState → Prop) (t : FsState) : Prop :=
  Meets (Stopped e) p Q t

variable {α β : Type} {p : FsProg α} {Q Q' : α → FsState → Prop} {E E' : FsState → Prop}

theorem Meets.weaken (h : Meets E p Q t) (hE : ∀ u, E u → E' u) : Meets E' p Q t :=
  ⟨wp_mono h.spec (fun _ _ hq => hq) fun _ u he => hE u he⟩

theorem Meets.pure {a : α} (h : Q a t) : Meets E (pure a) Q t := ⟨h⟩

theorem Meets.fail {err : Errno} (h : E t) : Meets E (.fail err) Q t := ⟨h⟩

theorem Meets.bind {f : α → FsProg β} {R : β → FsState → Prop} (h : Meets E p Q t)
    (hf : ∀ a u, Q a u → Meets E (f a) R u) : Meets E (p >>= f) R t := by
  constructor
  rw [exec_bind]
  exact wp_then h.spec fun a u hu => (hf a u hu).spec

theorem Meets.mono (h : Meets E p Q t) (hq : ∀ a u, Q a u → Q' a u) : Meets E p Q' t := ⟨wp_imp h.spec hq⟩

theorem Meets.mapError (h : Meets E p Q t) (g : Errno → Errno) : Meets E (p.mapError g) Q t := by
  constructor
  rw [exec_mapError, wp_mapError]
  exact h.spec

theorem Meets.onlyIf {c : Prop} [Decidable c] {p : FsProg Unit} {Q : Unit → FsState → Prop}
    (hp : c → Meets E p Q t) (hn : ¬ c → Q () t) : Meets E (.onlyIf c p) Q t := by
  constructor
  rw [exec_onlyIf]
  exact wp_onlyIf (fun hc => (hp hc).spec) hn

theorem Meets.forUpTo {body : Nat → FsProg Unit} {n i : Nat} (I : Nat → FsState → Prop) (h0 : I i t)
    (hstep : ∀ j u, i ≤ j → j < i + n → I j u → Meets E (body j) (fun _ => I (j + 1)) u) :
    Meets E (.forUpTo n i body) (fun _ => I (i + n)) t := by
  constructor
  rw [exec_forUpTo]
  exact wp_forUpTo I n i t h0 fun j u h1 h2 hu => (hstep j u h1 h2 hu).spec

theorem Meets.findUpTo {body : Nat → FsProg (Option α)} {n i : Nat} {Q : Option α → FsState → Prop}
    (I : FsState → Prop) (h0 : I t)
    (hstep : ∀ j u, i ≤ j → j < i + n → I u →
      Meets E (body j) (fun r v => (r = none → I v) ∧ (r ≠ none → Q r v)) u)
    (hend : ∀ u, I u → Q none u) : Meets E (.findUpTo n i body) Q t := by
  constructor
  rw [exec_findUpTo]
  refine wp_findUpTo (fun _ => I) n i t h0 (fun j u h1 h2 hu => ?_) hend
  refine wp_imp (hstep j u h1 h2 hu).spec fun r v hv => ?_
  cases r with
  | some a => exact hv.2 (by simp)
  | none => exact hv.1 rfl

theorem Meets.ran (h : Meets E p Q t) : Meets E p (fun a u => (exec p).run t = (.ok a, u) ∧ Q a u) t := by
  have hspec := h.spec
  constructor
  unfold wp at hspec ⊢
  split
  · rename_i a u hr
    simp only [hr] at hspec
    exact ⟨hr, hspec⟩
  · rename_i err u hr
    simp only [hr] at hspec
    exact hspec

/-! ## Commands -/

def Faulted (e : Env) (t : FsState) : Prop := Stopped e t ∧ ¬ e.Calm

section

variable (h : At e d b t)
include h

theorem At.not_calm {n : Fin 8} (hf : t.fault t.ticks = some n) : ¬ e.Calm := by
  intro hc
  rw [h.fault, hc] at hf
  cases hf

/-- A load of any block. A block of the journal is not part of `d`, hence the contents of the
device here. -/
theorem load_any (blk : Nat) : Meets (Faulted e) (load blk) (fun _ => At e d (t.disk blk)) t := by
  constructor
  rw [exec_load]
  rcases hf : t.fault t.ticks with _ | n
  · have hrun : (readBuf blk).run t =
        (.ok (), { t with buf := t.disk blk, ticks := t.ticks + 1 }) := by simp only [readBuf, hf]
    exact wp_of_run_ok hrun { h with buf := rfl }
  · have hrun : (readBuf blk).run t = (.error .io,
        { t with buf := t.buf.blitTake (512 * n.1) (t.disk blk), ticks := t.ticks + 1 }) := by
      simp only [readBuf, hf]
    exact wp_of_run_error hrun
      ⟨{ h with }, h.not_calm hf⟩

theorem fetch_any (blk : Nat) : Meets (Faulted e) (fetch blk) (fun x u => x = t.disk blk ∧ At e d b u) t := by
  constructor
  rw [exec_fetch]
  rcases hf : t.fault t.ticks with _ | n
  · have hrun : (readLocal blk).run t = (.ok (t.disk blk), { t with ticks := t.ticks + 1 }) := by
      simp only [readLocal, hf]
    exact wp_of_run_ok hrun
      ⟨rfl, h.sb, h.version, h.jiffies, h.fault, h.home, h.buf, h.head, h.targets⟩
  · have hrun : (readLocal blk).run t = (.error .io, { t with ticks := t.ticks + 1 }) := by
      simp only [readLocal, hf]
    exact wp_of_run_error hrun
      ⟨{ h with }, h.not_calm hf⟩

theorem At.disk (hb : Home e.sb blk) : t.disk blk = d blk := by
  rw [← h.home, homeOf_of_home hb]

theorem load_spec (hb : Home e.sb blk) : Does e (load blk) (fun _ => At e d (d blk)) t := by
  rw [← h.disk hb]
  exact (load_any h blk).weaken fun _ hu => hu.1

theorem fetch_spec (hb : Home e.sb blk) : Does e (fetch blk) (fun x u => x = d blk ∧ At e d b u) t := by
  rw [← h.disk hb]
  exact (fetch_any h blk).weaken fun _ hu => hu.1

theorem getBuf_spec : Meets E getBuf (fun x t => x = b ∧ At e d b t) t := by
  constructor
  rw [exec_getBuf, wp_gets]
  exact ⟨h.buf, h⟩

theorem load_getBuf {f : Block → FsProg α} (hb : Home e.sb blk)
    (hf : ∀ u, At e d (d blk) u → Does e (f (d blk)) Q u) : Does e (load blk >>= fun _ => getBuf >>= f) Q t := by
  refine (load_spec h hb).bind fun _ u hu => (getBuf_spec hu).bind ?_
  rintro _ u ⟨rfl, hu⟩
  exact hf u hu

theorem setBuf_spec (x : Block) : Meets E (setBuf x) (fun _ => At e d x) t := by
  constructor
  rw [exec_setBuf, wp_modify]
  exact { h with buf := rfl }

theorem volume_spec : Meets E volume (fun v t => v = e.toVolume ∧ At e d b t) t := by
  constructor
  rw [exec_volume, wp_gets]
  refine ⟨?_, h⟩
  rw [h.sb, h.version]

theorem jiffies_spec : Meets E jiffies (fun x t => x = e.jiffies ∧ At e d b t) t := by
  constructor
  rw [exec_jiffies, wp_gets]
  exact ⟨h.jiffies, h⟩

end

/-! ## Programs that only read -/

def FsCmd.Reads : FsCmd → Prop
  | .put _ _ => False
  | _ => True

theorem On.stopped (h : On e d t) : Stopped e t := by
  obtain ⟨b, h⟩ := h
  exact h.stopped

/-- A program that only reads leaves the home blocks alone, whatever it reads. -/
theorem reads_spec (hp : p.Within FsCmd.Reads) (h : On e d t) : Does e p (fun _ => On e d) t := by
  refine ⟨hp.wp_run (fun _ hs => hs.stopped) (fun c hc s hs => ?_) h⟩
  have hone : exec (CmdProg.cmd c) = c.handle := CmdProg.run_one c
  obtain ⟨b, hat⟩ := hs
  rw [← hone]
  refine Meets.spec (E := Stopped e) ?_
  cases c with
  | load blk =>
    exact ((load_any hat blk).weaken fun _ hu => hu.1).mono fun _ _ hu => ⟨_, hu⟩
  | fetch blk =>
    exact ((fetch_any hat blk).weaken fun _ hu => hu.1).mono fun _ _ hu => ⟨b, hu.2⟩
  | getBuf => exact (getBuf_spec hat).mono fun _ _ hu => ⟨b, hu.2⟩
  | setBuf data => exact (setBuf_spec hat data).mono fun _ _ hu => ⟨data, hu⟩
  | volume => exact (volume_spec hat).mono fun _ _ hu => ⟨b, hu.2⟩
  | jiffies => exact (jiffies_spec hat).mono fun _ _ hu => ⟨b, hu.2⟩
  | put blk data => exact hc.elim

/-! ## Writes -/

theorem writeBlock_any (t : FsState) (blk : Nat) (x : Block) :
    wp (writeBlock blk x) (fun _ u => u = t.wrote blk x ∧ written t blk x = x) (fun _ u => u = t.wrote blk x) t := by
  rcases hf : t.fault t.ticks with _ | n
  · have hrun : (writeBlock blk x).run t = (.ok (), t.wrote blk x) := by simp only [writeBlock, hf]
    exact wp_of_run_ok hrun ⟨rfl, by simp only [written, hf]⟩
  · have hrun : (writeBlock blk x).run t = (.error .io, t.wrote blk x) := by
      simp only [writeBlock, hf]
    exact wp_of_run_error hrun rfl

theorem writeInPlace_at (h : At e d b t) (hb : Target e.sb blk) (x : Block) :
    wp (writeInPlace blk x) (fun _ => At e (update d blk x) b) (fun _ => Stopped e) t := by
  have htargets : ∀ y, ∃ ws, t.inPlace ++ [(blk, y)] = e.before ++ ws ∧
      ∀ w ∈ ws, Target e.sb w.1 := by
    intro y
    obtain ⟨ws, hws, htarget⟩ := h.targets
    refine ⟨ws ++ [(blk, y)], by rw [hws, List.append_assoc], fun w hw => ?_⟩
    rcases List.mem_append.mp hw with hw | hw
    · exact htarget w hw
    · rw [List.mem_singleton.mp hw]
      exact hb
  rcases hf : t.fault t.ticks with _ | n
  · have hrun : (writeInPlace blk x).run t =
        (.ok (), { t.wrote blk x with inPlace := t.inPlace ++ [(blk, written t blk x)] }) := by
      simp only [writeInPlace, writeBlock, hf]
    refine wp_of_run_ok hrun { h with home := ?_, targets := htargets _ }
    simp only [FsState.wrote, written, hf]
    rw [homeOf_update hb.2, h.home]
  · have hrun : (writeInPlace blk x).run t =
        (.error .io, { t.wrote blk x with inPlace := t.inPlace ++ [(blk, written t blk x)] }) := by
      simp only [writeInPlace, writeBlock, hf]
    exact wp_of_run_error hrun { h with targets := htargets _ }

theorem journalLog_at (h : At e d b t) (blk : Nat) (x : Block) :
    wp (journalLog blk x) (fun _ => At e d b) (fun _ => Stopped e) t := by
  unfold journalLog
  rw [wp_bind, wp_get]
  split
  · exact h
  split
  · exact h.stopped
  rename_i hj hroom
  rw [h.sb] at hj hroom
  have hslot : ¬ Home e.sb (t.sb.journalStart.toNat + t.head) := by
    rw [h.sb]
    intro hout
    exact hout (by simpa using hj) ⟨by omega, by omega⟩
  have hhome : ∀ y, homeOf e.sb (update t.disk (t.sb.journalStart.toNat + t.head) y) = d :=
    fun y => by rw [homeOf_update_journal hslot, h.home]
  refine wp_seq (writeBlock_any t _ _) (fun _ u hu => ?_) fun _ u hu => ?_
  · rw [wp_modify, hu.1]
    refine { h with home := hhome _, head := fun _ => ?_ }
    simp only
    omega
  · rw [hu]
    exact { h with }

theorem put_spec (h : At e d b t) (hb : Target e.sb blk) (x : Block) :
    Does e (put blk x) (fun _ => At e (update d blk x) b) t := by
  constructor
  rw [exec_put]
  exact wp_then (journalLog_at h blk x) fun _ u hu => writeInPlace_at hu hb x

theorem putBuf_spec (h : At e d b t) (hb : Target e.sb blk) (x : Block) :
    Does e (putBuf blk x) (fun _ => At e (update d blk x) x) t :=
  (setBuf_spec h x).bind fun _ _ hu => put_spec hu hb x

theorem journalCommit_at (h : At e d b t) : wp journalCommit (fun _ => At e d b) (fun _ => Stopped e) t := by
  unfold journalCommit
  rw [wp_bind, wp_get]
  split
  · exact h
  split
  · exact h
  rename_i hj _
  have hje : e.sb.hasJournal = true := by
    rw [h.sb] at hj
    simpa using hj
  have hle := h.head hje
  -- Every write of the commit goes to a slot up to the head, and the head is in the area.
  have hslot : ∀ j x u, At e d b u → j < e.sb.journalSize.toNat →
      wp (writeBlock (t.sb.journalStart.toNat + j) x) (fun _ => At e d b) (fun _ => Stopped e) u := by
    intro j x u hu hj
    have hout : ¬ Home e.sb (t.sb.journalStart.toNat + j) := by
      rw [h.sb]
      exact fun hc => hc hje ⟨by omega, by omega⟩
    refine wp_mono (writeBlock_any u _ _) (fun _ v hv => ?_) fun _ v hv => ?_
    · rw [hv.1]
      refine { hu with home := ?_ }
      simp only [FsState.wrote, homeOf_update_journal hout, hu.home]
    · rw [hv]
      exact { hu with }
  have hmark : ∀ x u, At e d b u →
      wp (onlyIf (t.head < t.sb.journalSize.toNat)
        (writeBlock (t.sb.journalStart.toNat + t.head) x)) (fun _ => At e d b)
        (fun _ => Stopped e) u := by
    intro x u hu
    refine wp_onlyIf (fun hlt => ?_) fun _ => hu
    rw [h.sb] at hlt
    exact hslot _ _ u hu hlt
  refine wp_then (hmark _ t h) fun _ u hu => ?_
  rw [wp_bind, wp_modify]
  refine wp_then (wp_forUpTo (fun _ => At e d b) _ _ _ ?_ fun j v _ hj hv => ?_) fun _ v hv => ?_
  · exact { hu with head := fun _ => Nat.zero_le _ }
  · exact hslot j _ v hv (by omega)
  · exact hmark _ v hv

theorem transaction_spec {D : α → Disk Block → Prop}
    (h : Does e p (fun a u => ∃ d, D a d ∧ On e d u) t) :
    wp (transaction p) (fun a u => ∃ d, D a d ∧ On e d u) (fun _ => Stopped e) t := by
  refine wp_then h.spec fun a u hu => ?_
  obtain ⟨d, hd, b, hu⟩ := hu
  refine wp_then (journalCommit_at hu) fun _ v hv => ?_
  exact ⟨d, hd, b, hv⟩

end

end OnyxFs
