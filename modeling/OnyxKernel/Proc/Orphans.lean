import OnyxKernel.Proc.ExitWait

/-!
# Parents of dead processes

Whole calls of `fork`, `spawn`, `exit`, `wait` and `sys_waitpid`, one after the other, made of the
sections of `Proc.Sched`. A process that has exited can be reaped as long as its parent lives; `exit`
gives the living children of a process to `init`, but not the ones that are `Exited`.
-/

namespace Sched

open Infra Proc List

/-- The process table with `G_NEXT_PID`. -/
structure Census (n : Nat) where
  table : Table n
  nextPid : Nat

/-- Calls of process `p` on hart `h`. -/
inductive Call (n : Nat)
  /-- `fork` and `spawn`; the node is what `alloc_proc` gets from the heap, or nothing if the call
  fails after it has taken a pid. -/
  | create (h : Fin n) (p : Nat) (node : Option Nat)
  | exit (h : Fin n) (p : Nat) (code : Int)
  | wait (p : Nat) (pid : UInt64) (nohang : Bool)
  /-- `sigaction` of `SIGCHLD`. -/
  | noCldwait (p : Nat) (v : Bool)
  deriving DecidableEq, Repr

def Node.living (v : Node) : Bool := v.state ≠ .free && v.state ≠ .exited

variable {n : Nat}

/-- The node of a child as `create_user` leaves it. -/
def childNode (pid parentPid : Nat) : Node :=
  { pid, parentPid, state := .creating, exitCode := 0, noCldwait := false, onRq := false, affinity := -1 }

def Table.link (t : Table n) (a : Nat) (v : Node) : Table n := { t.setNode a v with allProcs := a :: t.allProcs }

/-- `exit` from its first section to its last. -/
def Table.exit (t : Table n) (h : Fin n) (p : Nat) (code : Int) : Table n :=
  let t := t.exitPublish p
  (t.setNode p { t.node p with exitCode := code }).exitFinal h p

/-- The section of `wait`. -/
def Table.wait (t : Table n) (p : Nat) (pid : UInt64) (nohang : Bool) : Table n :=
  match t.zombie (t.node p).pid pid with
  | some a => t.unlink a
  | none =>
    if t.hasChild (t.node p).pid pid = false ∨ nohang = true then t else t.setState p .waiting

def Call.caller : Call n → Nat
  | .create _ p _ | .exit _ p _ | .wait p _ _ | .noCldwait p _ => p

def Census.call (w : Census n) : Call n → Option (Census n)
  | .create _ _ none => some { w with nextPid := (w.nextPid + 1) % 2 ^ 32 }
  | .create h p (some a) =>
    if a ∈ w.table.allProcs then none
    else some
      { table := (w.table.link a (childNode w.nextPid (w.table.node p).pid)).publishReady h w.nextPid
        nextPid := (w.nextPid + 1) % 2 ^ 32 }
  | .exit h p code =>
    (w.table.byPid (w.table.node p).pid).map fun q => { w with table := w.table.exit h q code }
  | .wait p pid nohang => some { w with table := w.table.wait p pid nohang }
  | .noCldwait p v =>
    some { w with table := w.table.setNode p { w.table.node p with noCldwait := v } }

def calls (n : Nat) : Machine (Census n) (Call n) where
  step w c :=
    if c.caller ∈ w.table.allProcs ∧ (w.table.node c.caller).living = true then w.call c else none

/-! ## Fields that the queues do not concern -/

/-- Pids, parents, states and the list are the same. -/
structure SameKin (t t' : Table n) : Prop where
  kin : ∀ q, (t'.node q).pid = (t.node q).pid ∧ (t'.node q).parentPid = (t.node q).parentPid ∧
    (t'.node q).state = (t.node q).state
  listed : t'.allProcs = t.allProcs

variable {t t' : Table n} {p q : Nat} {h : Fin n}

theorem sameKin_setNode {v : Node} (hv : v.pid = (t.node p).pid ∧ v.parentPid = (t.node p).parentPid ∧
    v.state = (t.node p).state) : SameKin t (t.setNode p v) :=
  ⟨fun q => ⟨setNode_field t p q Node.pid hv.1, setNode_field t p q Node.parentPid hv.2.1,
    setNode_field t p q Node.state hv.2.2⟩, rfl⟩

theorem Requeued.sameKin (hr : Requeued t t') : SameKin t t' :=
  ⟨fun q => ⟨hr.field Node.pid (fun _ => rfl) q, hr.field Node.parentPid (fun _ => rfl) q, hr.state q⟩,
    hr.allProcs⟩

/-! ## The invariant -/

/-- `init` lives, pids are unique and every process but `init` has a living parent. -/
structure Kinship (t : Table n) : Prop where
  init : ∃ i ∈ t.allProcs, (t.node i).pid = 1 ∧ (t.node i).parentPid = 0 ∧ (t.node i).living = true
  pids : ∀ a ∈ t.allProcs, ∀ b ∈ t.allProcs, (t.node a).pid = (t.node b).pid → a = b
  nonzero : ∀ a ∈ t.allProcs, (t.node a).pid ≠ 0
  parents : ∀ a ∈ t.allProcs, (t.node a).pid ≠ 1 → (t.node a).parentPid ≠ (t.node a).pid ∧
    ∃ b ∈ t.allProcs, (t.node b).pid = (t.node a).parentPid ∧ (t.node b).living = true
  used : ∀ a ∈ t.allProcs, (t.node a).state ≠ .free
  listed : t.allProcs.Nodup

theorem Kinship.congr (hk : Kinship t) (hlisted : t'.allProcs = t.allProcs)
    (hkin : ∀ q ∈ t.allProcs, (t'.node q).pid = (t.node q).pid ∧ (t'.node q).parentPid = (t.node q).parentPid ∧
      ((t.node q).living = true → (t'.node q).living = true) ∧
      ((t.node q).state ≠ .free → (t'.node q).state ≠ .free)) :
    Kinship t' := by
  refine ⟨?_, fun a ha b hb hab => ?_, fun a ha => ?_, fun a ha hne => ?_, fun a ha => ?_, hlisted ▸ hk.listed⟩
  · obtain ⟨i, hi, h1, h2, h3⟩ := hk.init
    obtain ⟨k1, k2, k3, -⟩ := hkin i hi
    exact ⟨i, hlisted ▸ hi, k1.trans h1, k2.trans h2, k3 h3⟩
  · rw [hlisted] at ha hb
    rw [(hkin a ha).1, (hkin b hb).1] at hab
    exact hk.pids a ha b hb hab
  · rw [hlisted] at ha
    rw [(hkin a ha).1]
    exact hk.nonzero a ha
  · rw [hlisted] at ha ⊢
    obtain ⟨k1, k2, -⟩ := hkin a ha
    rw [k1] at hne ⊢
    rw [k2]
    obtain ⟨hself, b, hb, hpid, hlive⟩ := hk.parents a ha hne
    obtain ⟨l1, -, l3, -⟩ := hkin b hb
    exact ⟨hself, b, hb, l1.trans hpid, l3 hlive⟩
  · rw [hlisted] at ha
    exact (hkin a ha).2.2.2 (hk.used a ha)

theorem SameKin.kinship (hs : SameKin t t') (hk : Kinship t) : Kinship t' := by
  refine hk.congr hs.listed fun q _ => ⟨(hs.kin q).1, (hs.kin q).2.1, fun hl => ?_, fun hf => ?_⟩
  · rw [Node.living, (hs.kin q).2.2]
    exact hl
  · rw [(hs.kin q).2.2]
    exact hf

/-! ## `exit` -/

/-- The tables inside `exit` of `p` before children get a new parent. -/
structure Ended (p : Nat) (t t' : Table n) : Prop where
  kin : ∀ q, (t'.node q).pid = (t.node q).pid ∧ (t'.node q).parentPid = (t.node q).parentPid
  others : ∀ q, q ≠ p → (t'.node q).living = (t.node q).living
  free : ∀ q, q ≠ p → ((t'.node q).state = .free ↔ (t.node q).state = .free)
  exited : (t'.node p).state = .exited
  listed : t'.allProcs = t.allProcs

theorem Ended.sameKin {t'' : Table n} (he : Ended p t t') (hs : SameKin t' t'') : Ended p t t'' := by
  refine ⟨fun q => ?_, fun q hq => ?_, fun q hq => ?_, (hs.kin p).2.2.trans he.exited, hs.listed.trans he.listed⟩
  · exact ⟨(hs.kin q).1.trans (he.kin q).1, (hs.kin q).2.1.trans (he.kin q).2⟩
  · rw [← he.others q hq, Node.living, Node.living, (hs.kin q).2.2]
  · rw [(hs.kin q).2.2]
    exact he.free q hq

theorem setState_parentPid (t : Table n) (p q : Nat) (st : ProcState) :
    ((t.setState p st).node q).parentPid = (t.node q).parentPid := by
  by_cases hq : q = p
  · subst hq
    simp [Table.setState, Table.setNode]
  · rw [setState_of_ne t p st hq]

theorem ended_setState (t : Table n) (p : Nat) : Ended p t (t.setState p .exited) :=
  ⟨fun q => ⟨setState_pid t p q _, setState_parentPid t p q _⟩,
    fun q hq => by rw [setState_of_ne t p _ hq], fun q hq => by rw [setState_of_ne t p _ hq],
    setState_self t p _, rfl⟩

theorem Ended.wakeParent (he : Ended p t t') (h : Fin n) : Ended p t (t'.wakeParent h p) := by
  unfold Table.wakeParent
  split
  · exact he
  · rename_i a _
    split
    · rename_i hwait
      have hap : p ≠ a := by
        rintro rfl
        rw [he.exited] at hwait
        cases hwait
      refine Ended.sameKin ?_ (requeued_enqueue _ h a).sameKin
      refine ⟨fun q => ?_, fun q hq => ?_, fun q hq => ?_, ?_, he.listed⟩
      · rw [setState_pid, setState_parentPid]
        exact he.kin q
      · rw [← he.others q hq]
        by_cases hqa : q = a
        · subst hqa
          rw [Node.living, Node.living, setState_self, hwait]
          rfl
        · rw [setState_of_ne t' a _ hqa]
      · rw [← he.free q hq]
        by_cases hqa : q = a
        · subst hqa
          rw [setState_self, hwait]
          exact ⟨nofun, nofun⟩
        · rw [setState_of_ne t' a _ hqa]
      · rw [setState_of_ne t' a _ hap]
        exact he.exited
    · exact he

/-- What `exit` of `p` changes: its state, and the parent of its living children. -/
structure ExitKin (p : Nat) (t t' : Table n) : Prop where
  pid : ∀ q, (t'.node q).pid = (t.node q).pid
  others : ∀ q, q ≠ p → (t'.node q).living = (t.node q).living
  free : ∀ q, q ≠ p → ((t'.node q).state = .free ↔ (t.node q).state = .free)
  exited : (t'.node p).state = .exited
  parent : ∀ q, (t'.node q).parentPid =
    if q ∈ t.allProcs ∧ (t.node q).parentPid = (t.node p).pid ∧ q ≠ p ∧ (t.node q).living = true then 1
    else (t.node q).parentPid
  listed : t'.allProcs = t.allProcs ∨ t'.allProcs = t.allProcs.erase p

theorem living_iff (v : Node) : v.living = true ↔ v.state ≠ .free ∧ v.state ≠ .exited := by
  simp [Node.living]

theorem exitKin (t : Table n) (h : Fin n) (p : Nat) (code : Int) : ExitKin p t (t.exit h p code) := by
  have h1 : Ended p t (t.exitPublish p) := (ended_setState t p).sameKin (requeued_foldl_remove p _ _).sameKin
  have h2 : Ended p t ((t.exitPublish p).setNode p { (t.exitPublish p).node p with exitCode := code }) :=
    h1.sameKin (sameKin_setNode ⟨rfl, rfl, rfl⟩)
  generalize ht2 : (t.exitPublish p).setNode p { (t.exitPublish p).node p with exitCode := code } = t2 at h2
  have h3 : Ended p t (t2.setState p .exited) := h2.sameKin (sameKin_setNode ⟨rfl, rfl, h2.exited.symm⟩)
  have h4 := h3.wakeParent h
  generalize ht4 : (t2.setState p .exited).wakeParent h p = t4 at h4
  have h5 : ExitKin p t (t4.reparent (t2.node p).pid) := by
    refine ⟨fun q => (reparent_field Node.pid (fun _ => rfl) ..).trans (h4.kin q).1, fun q hq => ?_, fun q hq => ?_,
      (reparent_state ..).trans h4.exited, fun q => ?_, .inl h4.listed⟩
    · rw [← h4.others q hq, Node.living, Node.living, reparent_state]
    · rw [reparent_state]
      exact h4.free q hq
    · have hif : (t4.reparent (t2.node p).pid).node q = if q ∈ t4.allProcs ∧
          (t4.node q).parentPid = (t2.node p).pid ∧ (t4.node q).state ≠ .free ∧
          (t4.node q).state ≠ .exited then { t4.node q with parentPid := 1 } else t4.node q := rfl
      have hcond : (q ∈ t4.allProcs ∧ (t4.node q).parentPid = (t2.node p).pid ∧
          (t4.node q).state ≠ .free ∧ (t4.node q).state ≠ .exited) ↔
          (q ∈ t.allProcs ∧ (t.node q).parentPid = (t.node p).pid ∧ q ≠ p ∧ (t.node q).living = true) := by
        rw [h4.listed, (h4.kin q).2, (h2.kin p).1, ← living_iff]
        refine and_congr_right fun _ => and_congr_right fun _ => ?_
        by_cases hq : q = p
        · subst hq
          simp [Node.living, h4.exited]
        · simp [hq, h4.others q hq]
      rw [hif]
      by_cases hc : q ∈ t.allProcs ∧ (t.node q).parentPid = (t.node p).pid ∧ q ≠ p ∧ (t.node q).living = true
      · rw [if_pos hc, if_pos (hcond.mpr hc)]
      · rw [if_neg hc, if_neg fun hn => hc (hcond.mp hn)]
        exact (h4.kin q).2
  unfold Table.exit
  simp only
  rw [ht2]
  unfold Table.exitFinal
  simp only
  rw [ht4]
  split
  · refine { h5 with listed := .inr ?_ }
    rw [Table.unlink]
    exact congrArg (List.erase · p) h4.listed
  · exact h5

section

variable (hk : Kinship t)
include hk

theorem Kinship.exit (hp : p ∈ t.allProcs) (hinit : (t.node p).pid ≠ 1)
    (hzombies : ∀ a ∈ t.allProcs, (t.node a).parentPid = (t.node p).pid → (t.node a).state ≠ .exited)
    (he : ExitKin p t t') :
    Kinship t' ∧ ∀ a ∈ t'.allProcs, (t'.node a).parentPid ≠ (t.node p).pid := by
  have hmem : ∀ a ∈ t'.allProcs, a ∈ t.allProcs := fun a ha => by
    rcases he.listed with hl | hl
    · exact hl ▸ ha
    · exact mem_of_mem_erase (hl ▸ ha)
  have hstays : ∀ a ∈ t.allProcs, a ≠ p → a ∈ t'.allProcs := fun a ha hne => by
    rcases he.listed with hl | hl
    · exact hl ▸ ha
    · exact hl ▸ (mem_erase_of_ne hne).mpr ha
  obtain ⟨i, hi, hi1, hi0, hilive⟩ := hk.init
  have hip : i ≠ p := fun hc => hinit (hc ▸ hi1)
  have hpself : (t.node p).parentPid ≠ (t.node p).pid := (hk.parents p hp hinit).1
  -- A child of the process is alive, so it goes to `init`.
  have hparent : ∀ a ∈ t.allProcs, (t.node a).parentPid = (t.node p).pid → (t'.node a).parentPid = 1 := by
    intro a ha hpa
    have hne : a ≠ p := fun hc => hpself (hc ▸ hpa)
    rw [he.parent, if_pos ⟨ha, hpa, hne, (living_iff _).mpr ⟨hk.used a ha, hzombies a ha hpa⟩⟩]
  have hsame : ∀ a, (t.node a).parentPid ≠ (t.node p).pid → (t'.node a).parentPid = (t.node a).parentPid :=
    fun a hpa => by rw [he.parent, if_neg fun hc => hpa hc.2.1]
  refine ⟨⟨?_, fun a ha b hb hab => ?_, fun a ha => ?_, fun a ha hne => ?_, fun a ha => ?_, ?_⟩, fun a ha => ?_⟩
  · refine ⟨i, hstays i hi hip, (he.pid i).trans hi1, ?_, (he.others i hip).trans hilive⟩
    rw [hsame i (by rw [hi0]; exact Ne.symm (hk.nonzero p hp)), hi0]
  · rw [he.pid, he.pid] at hab
    exact hk.pids a (hmem a ha) b (hmem b hb) hab
  · rw [he.pid]
    exact hk.nonzero a (hmem a ha)
  · rw [he.pid] at hne ⊢
    by_cases hpa : (t.node a).parentPid = (t.node p).pid
    · rw [hparent a (hmem a ha) hpa]
      exact ⟨Ne.symm hne, i, hstays i hi hip, (he.pid i).trans hi1, (he.others i hip).trans hilive⟩
    · rw [hsame a hpa]
      obtain ⟨hself, b, hb, hpid, hlive⟩ := hk.parents a (hmem a ha) hne
      have hbp : b ≠ p := fun hc => hpa (hpid.symm.trans (by rw [hc]))
      exact ⟨hself, b, hstays b hb hbp, (he.pid b).trans hpid, (he.others b hbp).trans hlive⟩
  · by_cases hap : a = p
    · rw [hap, he.exited]
      nofun
    · exact fun hf => hk.used a (hmem a ha) ((he.free a hap).mp hf)
  · rcases he.listed with hl | hl
    · exact hl ▸ hk.listed
    · exact hl ▸ hk.listed.erase p
  · by_cases hpa : (t.node a).parentPid = (t.node p).pid
    · rw [hparent a (hmem a ha) hpa]
      exact Ne.symm hinit
    · rw [hsame a hpa]
      exact hpa

/-! ## The other calls -/

theorem Kinship.unlink {z : Nat} (hz : (t.node z).state = .exited) : Kinship (t.unlink z) := by
  have hmem : ∀ a ∈ (t.unlink z).allProcs, a ∈ t.allProcs := fun a ha => mem_of_mem_erase ha
  have hstays : ∀ a ∈ t.allProcs, (t.node a).living = true → a ∈ (t.unlink z).allProcs := by
    intro a ha hlive
    refine (mem_erase_of_ne ?_).mpr ha
    rintro rfl
    exact ((living_iff _).mp hlive).2 hz
  refine ⟨?_, fun a ha b hb => hk.pids a (hmem a ha) b (hmem b hb), fun a ha => hk.nonzero a (hmem a ha),
    fun a ha hne => ?_, fun a ha => hk.used a (hmem a ha), hk.listed.erase z⟩
  · obtain ⟨i, hi, h1, h2, h3⟩ := hk.init
    exact ⟨i, hstays i hi h3, h1, h2, h3⟩
  · obtain ⟨hself, b, hb, hpid, hlive⟩ := hk.parents a (hmem a ha) hne
    exact ⟨hself, b, hstays b hb hlive, hpid, hlive⟩

theorem Kinship.setState {st : ProcState} (hf : st ≠ .free) (hx : st ≠ .exited) : Kinship (t.setState p st) := by
  refine hk.congr rfl fun q _ => ⟨setState_pid t p q st, setState_parentPid t p q st, fun hl => ?_, fun hq => ?_⟩
  · by_cases hqp : q = p
    · rw [hqp, living_iff, setState_self]
      exact ⟨hf, hx⟩
    · rwa [setState_of_ne t p st hqp]
  · by_cases hqp : q = p
    · rw [hqp, setState_self]
      exact hf
    · rwa [setState_of_ne t p st hqp]

theorem Kinship.wait (pid : UInt64) (nohang : Bool) : Kinship (t.wait p pid nohang) := by
  unfold Table.wait
  split
  · rename_i z hz
    exact hk.unlink (zombie_mem hz).2.2
  · split
    · exact hk
    · exact hk.setState nofun nofun

theorem Kinship.publishReady (h : Fin n) (pid : Nat) : Kinship (t.publishReady h pid) := by
  unfold Table.publishReady
  split
  · exact hk
  · split
    · exact (requeued_enqueue _ h _).sameKin.kinship (hk.setState nofun nofun)
    · exact hk

theorem Kinship.link {a pid : Nat} (ha : a ∉ t.allProcs) (hp : p ∈ t.allProcs)
    (hlive : (t.node p).living = true)
    (hfresh : ∀ b ∈ t.allProcs, (t.node b).pid ≠ pid ∧ (t.node b).parentPid ≠ pid) :
    Kinship (t.link a (childNode pid (t.node p).pid)) := by
  generalize hv : childNode pid (t.node p).pid = v
  have hself : (t.link a v).node a = v := Function.update_self ..
  have hold : ∀ b ∈ t.allProcs, (t.link a v).node b = t.node b := fun b hb =>
    Function.update_of_ne (fun he : b = a => ha (he ▸ hb)) _ _
  have hmem : ∀ b ∈ t.allProcs, b ∈ (t.link a v).allProcs := fun b hb => mem_cons_of_mem _ hb
  obtain ⟨i, hi, hi1, hi0, hilive⟩ := hk.init
  have hpid : v.pid = pid := by rw [← hv]; rfl
  refine ⟨⟨i, hmem i hi, ?_⟩, fun b hb c hc hbc => ?_, fun b hb => ?_, fun b hb hne => ?_, fun b hb => ?_,
    nodup_cons.mpr ⟨ha, hk.listed⟩⟩
  · rw [hold i hi]
    exact ⟨hi1, hi0, hilive⟩
  · rcases mem_cons.mp hb with rfl | hb' <;> rcases mem_cons.mp hc with rfl | hc'
    · rfl
    · rw [hself, hold c hc', hpid] at hbc
      exact absurd hbc.symm (hfresh c hc').1
    · rw [hself, hold b hb', hpid] at hbc
      exact absurd hbc (hfresh b hb').1
    · rw [hold b hb', hold c hc'] at hbc
      exact hk.pids b hb' c hc' hbc
  · rcases mem_cons.mp hb with rfl | hb'
    · rw [hself, hpid]
      intro h0
      exact (hfresh i hi).2 (hi0.trans h0.symm)
    · rw [hold b hb']
      exact hk.nonzero b hb'
  · rcases mem_cons.mp hb with rfl | hb'
    · rw [hself]
      refine ⟨?_, p, hmem p hp, ?_, ?_⟩
      · rw [← hv]
        exact (hfresh p hp).1
      · rw [hold p hp, ← hv]
        rfl
      · rw [hold p hp]
        exact hlive
    · rw [hold b hb'] at hne ⊢
      obtain ⟨hs, c, hc, hcp, hcl⟩ := hk.parents b hb' hne
      refine ⟨hs, c, hmem c hc, ?_⟩
      rw [hold c hc]
      exact ⟨hcp, hcl⟩
  · rcases mem_cons.mp hb with rfl | hb'
    · rw [hself, ← hv]
      nofun
    · rw [hold b hb']
      exact hk.used b hb'

end

/-! ## Runs -/

/-- `init` does not exit, no process exits before it has reaped its zombies, and `G_NEXT_PID` gives a
pid that no process has as its own or its parent's. -/
def reapsFirst (w : Census n) : Call n → Bool
  | .exit _ p _ =>
    (w.table.node p).pid ≠ 1 && w.table.allProcs.all fun a =>
      !((w.table.node a).parentPid = (w.table.node p).pid && (w.table.node a).state = .exited)
  | .create _ _ (some _) =>
    w.table.allProcs.all fun a => (w.table.node a).pid ≠ w.nextPid && (w.table.node a).parentPid ≠ w.nextPid
  | _ => true

variable {w u : Census n}

theorem Kinship.call_exit (hk : Kinship w.table) {code : Int} (hp : p ∈ w.table.allProcs)
    (hok : reapsFirst w (.exit h p code) = true) (hcall : w.call (.exit h p code) = some u) :
    Kinship u.table ∧ ∀ a ∈ u.table.allProcs, (u.table.node a).parentPid ≠ (w.table.node p).pid := by
  obtain ⟨q, hq, rfl⟩ := Option.map_eq_some_iff.mp hcall
  obtain ⟨hmem, hpid, -⟩ := byPid_mem hq
  obtain rfl : q = p := hk.pids q hmem p hp hpid
  simp only [reapsFirst, Bool.and_eq_true, decide_eq_true_eq, all_eq_true, Bool.not_eq_true',
    Bool.and_eq_false_iff, decide_eq_false_iff_not] at hok
  refine hk.exit hp hok.1 (fun a ha hpa => ?_) (exitKin w.table h q code)
  exact (hok.2 a ha).resolve_left (not_not.mpr hpa)

theorem Kinship.step {c : Call n} (hk : Kinship w.table) (hok : reapsFirst w c = true)
    (hstep : (calls n).step w c = some u) : Kinship u.table := by
  simp only [calls] at hstep
  split at hstep
  · rename_i hcaller
    obtain ⟨hp, hlive⟩ := hcaller
    cases c with
    | create h p node =>
      cases node with
      | none =>
        cases hstep
        exact hk
      | some a =>
        simp only [Census.call] at hstep
        split at hstep
        · cases hstep
        · rename_i ha
          cases hstep
          simp only [reapsFirst, all_eq_true, Bool.and_eq_true, decide_eq_true_eq] at hok
          exact (hk.link ha hp hlive hok).publishReady h _
    | exit h p code => exact (hk.call_exit hp hok hstep).1
    | wait p pid nohang =>
      cases hstep
      exact hk.wait pid nohang
    | noCldwait p v =>
      cases hstep
      have hs : SameKin w.table (w.table.setNode p { w.table.node p with noCldwait := v }) :=
        sameKin_setNode ⟨rfl, rfl, rfl⟩
      exact hs.kinship hk
  · cases hstep

/-- The list holds `init` alone. -/
def Boot (w : Census n) : Prop :=
  ∃ i, w.table.allProcs = [i] ∧ (w.table.node i).pid = 1 ∧ (w.table.node i).parentPid = 0 ∧
    (w.table.node i).living = true

theorem Boot.kinship (h0 : Boot w) : Kinship w.table := by
  obtain ⟨i, hall, h1, h0, hlive⟩ := h0
  have hmem : ∀ {a}, a ∈ w.table.allProcs → a = i := fun ha => by
    rw [hall] at ha
    exact mem_singleton.mp ha
  refine ⟨⟨i, hall ▸ mem_singleton_self i, h1, h0, hlive⟩,
    fun a ha b hb _ => (hmem ha).trans (hmem hb).symm, fun a ha => ?_, fun a ha hne => ?_, fun a ha => ?_, ?_⟩
  · rw [hmem ha, h1]
    nofun
  · rw [hmem ha] at hne
    exact absurd h1 hne
  · rw [hmem ha]
    exact ((living_iff _).mp hlive).1
  · rw [hall]
    exact pairwise_singleton _ i

theorem zombie_isSome {a : Nat} (ha : a ∈ t.allProcs) (hst : (t.node a).state = .exited) :
    (t.zombie (t.node a).parentPid 0).isSome = true := by
  rw [Table.zombie, find?_isSome]
  refine ⟨a, ha, ?_⟩
  have hsel : Table.selects 0 (t.node a).pid = true := rfl
  simp only [hst, hsel, and_self, decide_true]

/-- In every run in which processes reap their zombies before they exit, every zombie has a living
parent whose next `wait` reports a zombie, and after an `exit` no process has the dead one as its
parent. -/
theorem zombies_reapable {w₀ : Census n} (h0 : Boot w₀)
    (hrun : (calls n).Reach (fun v c => reapsFirst v c = true) w₀ w) :
    (∀ a ∈ w.table.allProcs, (w.table.node a).state = .exited →
      ∃ q ∈ w.table.allProcs, (w.table.node q).pid = (w.table.node a).parentPid ∧
        (w.table.node q).living = true ∧ (w.table.zombie (w.table.node q).pid 0).isSome = true) ∧
    ∀ h p code u, reapsFirst w (.exit h p code) = true →
      (calls n).step w (.exit h p code) = some u →
        ∀ a ∈ u.table.allProcs, (u.table.node a).parentPid ≠ (w.table.node p).pid := by
  have hk : Kinship w.table :=
    hrun.invariant (I := fun v => Kinship v.table) h0.kinship fun hk hok hstep => hk.step hok hstep
  constructor
  · intro a ha hst
    -- `init` lives, so that the zombie is another process.
    have hne : (w.table.node a).pid ≠ 1 := fun h1 => by
      obtain ⟨i, hi, hi1, -, hlive⟩ := hk.init
      obtain rfl := hk.pids a ha i hi (h1.trans hi1.symm)
      exact ((living_iff _).mp hlive).2 hst
    obtain ⟨-, q, hq, hpid, hlive⟩ := hk.parents a ha hne
    exact ⟨q, hq, hpid, hlive, hpid ▸ zombie_isSome ha hst⟩
  · intro h p code u hok hstep
    simp only [calls] at hstep
    split at hstep
    · rename_i hcaller
      exact (hk.call_exit hcaller.1 hok hstep).2
    · cases hstep

/-- `init` at address 1 on the only hart. -/
def bootCensus : Census 1 where
  table :=
    { node := fun a => if a = 1 then sampleNode 1 0 .running false else sampleNode 0 0 .free false
      allProcs := [1]
      rq := fun _ => []
      current := fun _ => some 1 }
  nextPid := 2

theorem bootCensus_boot : Boot bootCensus := ⟨1, rfl, rfl, rfl, rfl⟩

/-- A child of `init` reaps its own child before it exits. -/
theorem zombies_reapable_bootCensus : ∃ w,
    (calls 1).Reach (fun v c => reapsFirst v c = true) bootCensus w ∧ w.table.allProcs = [10, 1] ∧
      (w.table.node 10).state = .exited ∧
      ∃ q ∈ w.table.allProcs, (w.table.node q).pid = (w.table.node 10).parentPid ∧
        (w.table.node q).living = true := by
  refine Machine.exists_reach_imp (P := fun w => w.table.allProcs = [10, 1] ∧ (w.table.node 10).state = .exited)
    [.create 0 1 (some 10), .create 0 10 (some 20), .exit 0 20 5, .wait 10 0 false, .exit 0 10 6] (by decide) ?_
  rintro w hrun ⟨hall, hst⟩
  have hmem : 10 ∈ w.table.allProcs := by
    rw [hall]
    decide
  obtain ⟨q, hq, hpid, hlive, -⟩ := (zombies_reapable bootCensus_boot hrun).1 10 hmem hst
  exact ⟨hall, hst, q, hq, hpid, hlive⟩

/-- The child exits after the grandchild without having reaped it: the grandchild keeps a dead parent,
and once `init` has reaped that parent nobody can reap the grandchild. -/
theorem zombie_without_parent : ∃ w,
    (calls 1).Reach (fun _ c => ∀ h code, c ≠ .exit h 1 code) bootCensus w ∧ w.table.allProcs = [20, 1] ∧
      (w.table.node 20).state = .exited ∧ (w.table.node 20).parentPid = 2 ∧
      ∀ a ∈ w.table.allProcs, (w.table.node a).pid ≠ 2 := by
  obtain ⟨w, hrun, hw⟩ : ∃ w, (calls 1).Reach (fun _ c => (match c with
      | .exit _ p _ => p ≠ 1
      | _ => true) = true) bootCensus w ∧ w.table.allProcs = [20, 1] ∧ (w.table.node 20).state = .exited ∧
      (w.table.node 20).parentPid = 2 ∧ ∀ a ∈ w.table.allProcs, (w.table.node a).pid ≠ 2 :=
    Machine.exists_reach_of_play
      [.create 0 1 (some 10), .create 0 10 (some 20), .exit 0 20 5, .exit 0 10 6, .wait 1 0 false] (by decide)
  refine ⟨w, hrun.mono fun v c hok h code hc => ?_, hw⟩
  rw [hc] at hok
  cases hok

end Sched
