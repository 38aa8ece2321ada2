import OnyxKernel.Infra.Machine
import OnyxKernel.Proc.Process

/-!
# What a process hands on

A run of system calls of any processes, seen from one of them: `family` holds that process and its
descendants. The ring and the user identity of a member come from `sys_dropring`, `sys_setuid`,
`sys_setgid`, `sys_execve` and, for a new member, from `create_user` inside `sys_fork`.
-/

namespace Proc

open Infra Onyx Mm

/-! ## Calls -/

inductive Call
  | dropring (target : UInt8)
  | setuid (uid : UInt64)
  | setgid (gid : UInt64)
  | execve (x : ExecArgs)
  | fork (x : ForkArgs)

/-- The kernel after a call of process `cur`. -/
def Call.run (cur : Nat) (k : Kernel) : Call → Kernel
  | dropring target => (sysDropring cur target k).2
  | setuid uid => (sysSetuid cur uid k).2
  | setgid gid => (sysSetgid cur gid k).2
  | execve x => (sysExecve cur x k).2
  | fork x => (sysFork cur x k).2

def Call.child (cur : Nat) (k : Kernel) : Call → Option Nat
  | fork x =>
    match (sysFork cur x k).1 with
    | .ok _ => x.node
    | .error _ => none
  | _ => none

def Call.fresh (k : Kernel) : Call → Bool
  | fork x =>
    match x.node with
    | some a => !k.allProcs.contains a
    | none => true
  | _ => true

/-- The kernel, and a process with its descendants. -/
structure Watched where
  kernel : Kernel
  family : List Nat

def Watched.joined (w : Watched) (cur : Nat) (c : Call) : List Nat :=
  match c.child cur w.kernel with
  | some a => if cur ∈ w.family then a :: w.family else w.family
  | none => w.family

def calls : Machine Watched (Nat × Call) where
  step w a :=
    if w.kernel.allProcs.contains a.1 && a.2.fresh w.kernel then
      some { kernel := a.2.run a.1 w.kernel, family := w.joined a.1 a.2 }
    else none

/-- The start of a run seen from process `a`. -/
def watch (k : Kernel) (a : Nat) : Watched := { kernel := k, family := [a] }

/-! ## What each call does to ring and identity -/

/-- Ring, user and group of process `q` are the same. -/
def SameIds (k k' : Kernel) (q : Nat) : Prop :=
  (k'.proc q).ring = (k.proc q).ring ∧ (k'.proc q).uid = (k.proc q).uid ∧
    (k'.proc q).gid = (k.proc q).gid

theorem SameIds.of_eq {k k' : Kernel} {q : Nat} (h : k'.proc q = k.proc q) : SameIds k k' q := by
  rw [SameIds, h]
  exact ⟨rfl, rfl, rfl⟩

variable {k : Kernel} {cur q : Nat}

theorem proc_update_of_ne (f : Process → Process) (h : q ≠ cur) : (k.update cur f).proc q = k.proc q :=
  Function.update_of_ne h _ _

theorem proc_update_self (f : Process → Process) : (k.update cur f).proc cur = f (k.proc cur) :=
  Function.update_self _ _ _

theorem addProc_of_ne {a : Nat} (p : Process) (h : q ≠ a) : (k.addProc a p).proc q = k.proc q :=
  Function.update_of_ne h _ _

theorem addProc_self (a : Nat) (p : Process) : (k.addProc a p).proc a = p := Function.update_self _ _ _

theorem releaseOld_proc (root : Nat) (c : Option Nat) (k : Kernel) :
    (releaseOld root c k).proc = k.proc ∧ (releaseOld root c k).allProcs = k.allProcs := by
  unfold releaseOld
  split
  · exact ⟨rfl, rfl⟩
  · split
    · exact ⟨rfl, rfl⟩
    · rename_i c
      by_cases hlast : k.cell c = 1 <;> simp [decRootRefcount, Kernel.setCell, hlast]

/-- An `execve` that fails changes no process. One that succeeds changes the caller only, after the
ring check. -/
theorem sysExecve_cases (cur : Nat) (x : ExecArgs) (k : Kernel) :
    ∃ k', k'.allProcs = k.allProcs ∧ (∀ q ≠ cur, k'.proc q = k.proc q) ∧
      (((∃ e, sysExecve cur x k = (.error e, k')) ∧ k'.proc cur = k.proc cur) ∨
        ∃ r c, sysExecve cur x k = (.ok x.argc, k') ∧
          ¬ ((k.proc cur).ring = procRingUser ∧ r.ring = 1) ∧
          k'.proc cur = (k.proc cur).exec r c x) := by
  unfold sysExecve
  split
  · exact ⟨_, rfl, fun _ _ => rfl, .inl ⟨⟨_, rfl⟩, rfl⟩⟩
  · exact ⟨_, rfl, fun _ _ => rfl, .inl ⟨⟨_, rfl⟩, rfl⟩⟩
  split
  · rename_i mm _
    exact ⟨{ k with mm := mm }, rfl, fun _ _ => rfl, .inl ⟨⟨_, rfl⟩, rfl⟩⟩
  rename_i r mm _
  split
  · exact ⟨{ k with mm := ((destroyRoot r.root).run mm).2 }, rfl, fun _ _ => rfl, .inl ⟨⟨_, rfl⟩, rfl⟩⟩
  rename_i c hprep
  have hring : ¬ ((k.proc cur).ring = procRingUser ∧ r.ring = 1) := by
    intro hc
    unfold prepare at hprep
    rw [if_pos hc] at hprep
    cases hprep
  obtain ⟨hproc, hlist⟩ := releaseOld_proc (k.proc cur).rootPa (k.proc cur).rootRefcount
    (({ k with mm := mm }.setCell c 1).update cur fun p => p.exec r c x)
  refine ⟨_, hlist, fun q hq => ?_, .inr ⟨r, c, rfl, hring, ?_⟩⟩
  · rw [hproc]
    exact proc_update_of_ne _ hq
  · rw [hproc]
    exact proc_update_self _

theorem rootCounter_spec (cur : Nat) (cell : Option Nat) (k : Kernel) :
    (∀ q, SameIds k (rootCounter cur cell k).2 q) ∧
      (rootCounter cur cell k).2.allProcs = k.allProcs := by
  unfold rootCounter
  split
  · exact ⟨fun q => .of_eq rfl, rfl⟩
  · exact ⟨fun q => .of_eq rfl, rfl⟩
  refine ⟨fun q => ?_, rfl⟩
  simp only
  by_cases hq : q = cur
  · subst hq
    rw [SameIds, proc_update_self]
    exact ⟨rfl, rfl, rfl⟩
  · exact .of_eq (proc_update_of_ne _ hq)

theorem createUser_cases (n : NewUser) (node : Option Nat) (k : Kernel) :
    (∃ e, createUser n node k = (.error e, k)) ∨
      ∃ a, node = some a ∧ createUser n node k = (.ok a, k.addProc a n.process) := by
  unfold createUser
  split
  · exact .inl ⟨_, rfl⟩
  split
  · exact .inl ⟨_, rfl⟩
  split
  · exact .inl ⟨_, rfl⟩
  · exact .inr ⟨_, rfl, rfl⟩

/-- A `fork` that fails keeps every ring and identity. One that succeeds adds a process with the ring
of its parent and the identity that goes with the ring. -/
theorem sysFork_cases (cur : Nat) (x : ForkArgs) (k : Kernel) :
    ∃ k', ((∃ e, sysFork cur x k = (.error e, k')) ∧ (∀ q, SameIds k k' q) ∧
        k'.allProcs = k.allProcs) ∨
      ∃ a, sysFork cur x k = (.ok k.nextPid, k') ∧ x.node = some a ∧ k'.allProcs = a :: k.allProcs ∧
        (∀ q ≠ a, SameIds k k' q) ∧ (k'.proc a).ring = (k.proc cur).ring ∧
        (k'.proc a).uid = uidForRing (k.proc cur).ring ∧
        (k'.proc a).gid = uidForRing (k.proc cur).ring := by
  unfold sysFork
  simp only
  obtain ⟨hids, hlist⟩ := rootCounter_spec cur x.cell { k with nextPid := (k.nextPid + 1) % 2 ^ 32 }
  generalize rootCounter cur x.cell { k with nextPid := (k.nextPid + 1) % 2 ^ 32 } = rc at hids hlist
  obtain ⟨res, k₁⟩ := rc
  cases res with
  | error e => exact ⟨k₁, .inl ⟨⟨e, rfl⟩, hids, hlist⟩⟩
  | ok c =>
    simp only
    generalize hnew : NewUser.mk _ _ _ _ _ _ _ _ _ _ = new
    have hring : new.ring = (k.proc cur).ring := by
      rw [← hnew]
      exact (hids cur).1
    rcases createUser_cases new x.node (k₁.setCell c (k₁.cell c + 1)) with ⟨e, he⟩ | ⟨a, ha, he⟩
    · rw [he]
      exact ⟨_, .inl ⟨⟨e, rfl⟩, hids, hlist⟩⟩
    · rw [he]
      refine ⟨_, .inr ⟨a, rfl, ha, congrArg (a :: ·) hlist, fun q hq => ?_, ?_⟩⟩
      · have hq' := hids q
        rw [SameIds, proc_update_of_ne _ hq, addProc_of_ne _ hq]
        exact hq'
      · rw [proc_update_self, addProc_self]
        simp only [Process.inherit, NewUser.process, hring, and_self]

/-! ## The family after one call -/

def CallerAfter (p p' : Process) : Call → Prop
  | .dropring _ => p.ring ≤ p'.ring ∧ p'.uid = p.uid ∧ p'.gid = p.gid
  | .setuid _ => p'.ring = p.ring
  | .setgid _ => p'.ring = p.ring
  | .execve _ => p'.uid = p.uid ∧ p'.gid = p.gid ∧ (p'.ring = p.ring ∨
      ∃ imageRing : Nat, ¬ (p.ring = procRingUser ∧ imageRing = 1) ∧
        p'.ring = if imageRing = 1 then procRingRoot else procRingUser)
  | .fork _ => p'.ring = p.ring ∧ p'.uid = p.uid ∧ p'.gid = p.gid

theorem run_of_not_fork {c : Call} (hc : ∀ x, c ≠ .fork x) :
    (∀ q ≠ cur, (c.run cur k).proc q = k.proc q) ∧ (c.run cur k).allProcs = k.allProcs ∧
      CallerAfter (k.proc cur) ((c.run cur k).proc cur) c := by
  cases c with
  | dropring target =>
    simp only [Call.run, sysDropring, CallerAfter]
    split
    · exact ⟨fun _ _ => rfl, rfl, UInt8.le_refl _, rfl, rfl⟩
    split
    · exact ⟨fun _ _ => rfl, rfl, UInt8.le_refl _, rfl, rfl⟩
    · rename_i hlt _
      simp only [proc_update_self, and_self, and_true]
      exact ⟨fun q hq => proc_update_of_ne _ hq, rfl, UInt8.not_lt.mp hlt⟩
  | setuid id | setgid id =>
    simp only [Call.run, sysSetuid, sysSetgid, CallerAfter]
    split
    · exact ⟨fun _ _ => rfl, rfl, rfl⟩
    · simp only [proc_update_self, and_true]
      exact ⟨fun q hq => proc_update_of_ne _ hq, rfl⟩
  | execve x =>
    obtain ⟨k', hlist, hother, ⟨⟨e, he⟩, hcur⟩ | ⟨r, c, he, hring, hcur⟩⟩ := sysExecve_cases cur x k
    · rw [Call.run, he]
      refine ⟨hother, hlist, ?_⟩
      simp only [CallerAfter, hcur, true_or, and_self]
    · rw [Call.run, he]
      refine ⟨hother, hlist, ?_⟩
      simp only [CallerAfter, hcur, Process.exec, true_and]
      exact .inr ⟨r.ring, hring, rfl⟩
  | fork x => exact absurd rfl (hc x)

variable {w w' : Watched} {c : Call}

theorem calls_step (h : calls.step w (cur, c) = some w') :
    cur ∈ w.kernel.allProcs ∧ c.fresh w.kernel = true ∧ w'.kernel = c.run cur w.kernel ∧
      w'.family = w.joined cur c := by
  unfold calls at h
  simp only at h
  split at h
  · rename_i hok
    cases h
    rw [Bool.and_eq_true, List.contains_iff_mem] at hok
    exact ⟨hok.1, hok.2, rfl, rfl⟩
  · cases h

def Watched.Listed (w : Watched) : Prop := ∀ q ∈ w.family, q ∈ w.kernel.allProcs

/-- A member of the family after a call was one before and is as the call leaves it, or is the new
child of a member. -/
theorem member_cases (h : calls.step w (cur, c) = some w') (hw : w.Listed) :
    w'.Listed ∧ ∀ q ∈ w'.family,
      (q ∈ w.family ∧ (SameIds w.kernel w'.kernel q ∨
        q = cur ∧ CallerAfter (w.kernel.proc q) (w'.kernel.proc q) c)) ∨
      (cur ∈ w.family ∧ (∃ x, c = .fork x) ∧
        (w'.kernel.proc q).ring = (w.kernel.proc cur).ring ∧
        (w'.kernel.proc q).uid = uidForRing (w.kernel.proc cur).ring ∧
        (w'.kernel.proc q).gid = uidForRing (w.kernel.proc cur).ring) := by
  obtain ⟨-, hfresh, hk, hfam⟩ := calls_step h
  by_cases hc : ∃ x, c = .fork x
  · obtain ⟨x, rfl⟩ := hc
    obtain ⟨k', ⟨⟨e, he⟩, hids, hlist⟩ | ⟨a, he, ha, hlist, hids, hnew⟩⟩ := sysFork_cases cur x w.kernel
    · have hk' : w'.kernel = k' := by rw [hk, Call.run, he]
      have hfam' : w'.family = w.family := by rw [hfam, Watched.joined, Call.child, he]
      rw [Watched.Listed, hk', hfam', hlist]
      exact ⟨hw, fun q hq => .inl ⟨hq, .inl (hids q)⟩⟩
    · have hk' : w'.kernel = k' := by rw [hk, Call.run, he]
      have hfam' : w'.family = if cur ∈ w.family then a :: w.family else w.family := by
        rw [hfam, Watched.joined, Call.child, he, ha]
      have hnode : a ∉ w.kernel.allProcs := by
        simpa [Call.fresh, ha] using hfresh
      have hold : ∀ q ∈ w.family, SameIds w.kernel k' q := fun q hq =>
        hids q fun hqa => hnode (hqa ▸ hw q hq)
      rw [Watched.Listed, hk', hfam', hlist]
      split
      · rename_i hcur
        refine ⟨fun q hq => ?_, fun q hq => ?_⟩
        · rcases List.mem_cons.mp hq with rfl | hq
          · exact List.mem_cons_self
          · exact List.mem_cons_of_mem _ (hw q hq)
        · rcases List.mem_cons.mp hq with rfl | hq
          · exact .inr ⟨hcur, ⟨x, rfl⟩, hnew⟩
          · exact .inl ⟨hq, .inl (hold q hq)⟩
      · exact ⟨fun q hq => List.mem_cons_of_mem _ (hw q hq), fun q hq => .inl ⟨hq, .inl (hold q hq)⟩⟩
  · have hc' : ∀ x, c ≠ .fork x := fun x hx => hc ⟨x, hx⟩
    have hrun : (∀ q ≠ cur, (c.run cur w.kernel).proc q = w.kernel.proc q) ∧
        (c.run cur w.kernel).allProcs = w.kernel.allProcs ∧
        CallerAfter (w.kernel.proc cur) ((c.run cur w.kernel).proc cur) c := run_of_not_fork hc'
    obtain ⟨hother, hlist, hcur⟩ := hrun
    have hfam' : w'.family = w.family := by
      rw [hfam, Watched.joined]
      cases c with
      | fork x => exact absurd rfl (hc' x)
      | dropring | setuid | setgid | execve => rfl
    rw [Watched.Listed, hk, hfam', hlist]
    refine ⟨hw, fun q hq => .inl ⟨hq, ?_⟩⟩
    by_cases hqc : q = cur
    · subst hqc
      exact .inr ⟨rfl, hcur⟩
    · exact .inl (.of_eq (hother q hqc))

/-- What the caller of each call keeps and each child gets holds in the whole family. -/
theorem family_invariant {ok : Watched → Nat × Call → Prop} {P : Process → Prop} {a : Nat}
    (ha : a ∈ k.allProcs) (h : calls.Reach ok (watch k a) w) (h0 : P (k.proc a))
    (hids : ∀ {p p' : Process}, p'.ring = p.ring → p'.uid = p.uid → p'.gid = p.gid → P p → P p')
    (hcaller : ∀ {v : Watched} {cur : Nat} {c : Call} {p' : Process}, ok v (cur, c) →
      cur ∈ v.family → P (v.kernel.proc cur) → CallerAfter (v.kernel.proc cur) p' c → P p')
    (hchild : ∀ {v : Watched} {cur : Nat} {x : ForkArgs} {p' : Process}, ok v (cur, .fork x) →
      cur ∈ v.family → P (v.kernel.proc cur) → p'.ring = (v.kernel.proc cur).ring →
      p'.uid = uidForRing (v.kernel.proc cur).ring →
      p'.gid = uidForRing (v.kernel.proc cur).ring → P p') :
    ∀ q ∈ w.family, P (w.kernel.proc q) := by
  have hinv := h.invariant (I := fun v => v.Listed ∧ ∀ q ∈ v.family, P (v.kernel.proc q))
  refine (hinv ⟨?_, ?_⟩ ?_).2
  · intro q hq
    obtain rfl : q = a := by simpa [watch] using hq
    exact ha
  · intro q hq
    obtain rfl : q = a := by simpa [watch] using hq
    exact h0
  · rintro v ⟨cur, c⟩ v' ⟨hlisted, hall⟩ hok hstep
    obtain ⟨hlisted', hmem⟩ := member_cases hstep hlisted
    refine ⟨hlisted', fun q hq => ?_⟩
    rcases hmem q hq with ⟨hq, hsame | ⟨rfl, hafter⟩⟩ | ⟨hcur, ⟨x, rfl⟩, hring, huid, hgid⟩
    · exact hids hsame.1 hsame.2.1 hsame.2.2 (hall q hq)
    · exact hcaller hok hq (hall q hq) hafter
    · exact hchild hok hcur (hall cur hcur) hring huid hgid

/-! ## A kernel with one process -/

def sampleKernel (ring : UInt8) : Kernel where
  mm := Onx.smallMemory
  allProcs := [0]
  proc := fun _ =>
    { NewUser.process
        { entry := Onx.userBase, ustack := Onx.userTop - 16, rootPa := 0x80300, pid := 2
          parentPid := 1, heapBrk := Onx.userHeapBase, ring := ring, argc := 0, argvSp := 0
          refcount := 0 } with
      state := .running }
  nextPid := 3
  cell := fun _ => 2

/-- An `execve` of the small image. -/
def execSmall (flags : Nat) : ExecArgs where
  file := .ok (Onx.smallImage flags (pteR ||| pteX))
  refcount := some 1
  argc := 0
  argvSp := Onx.userTop - 64

/-! ## User and group -/

def noSetid (w : Watched) (a : Nat × Call) : Bool :=
  !w.family.contains a.1 ||
    match a.2 with
    | .setuid _ => false
    | .setgid _ => false
    | _ => true

/-- A member that forks has the identity that `create_user` gives to its ring. -/
def forksAsRing (w : Watched) (a : Nat × Call) : Bool :=
  !w.family.contains a.1 ||
    match a.2 with
    | .fork _ =>
      (w.kernel.proc a.1).uid = uidForRing (w.kernel.proc a.1).ring &&
        (w.kernel.proc a.1).gid = uidForRing (w.kernel.proc a.1).ring
    | _ => true

/-- Every process of the family has the user and the group of the one it descends from, in every run
without `sys_setuid` and `sys_setgid` in which members fork only with the identity of their ring. -/
theorem identity_inherited (k : Kernel) (a : Nat) (ha : a ∈ k.allProcs) (w : Watched)
    (h : calls.Reach (fun v x => noSetid v x = true ∧ forksAsRing v x = true) (watch k a) w) :
    ∀ q ∈ w.family, (w.kernel.proc q).uid = (k.proc a).uid ∧ (w.kernel.proc q).gid = (k.proc a).gid := by
  refine family_invariant ha h (P := fun p => p.uid = (k.proc a).uid ∧ p.gid = (k.proc a).gid) ⟨rfl, rfl⟩ ?_ ?_ ?_
  · intro p p' _ huid hgid hp
    rw [huid, hgid]
    exact hp
  · rintro v cur c p' ⟨hset, -⟩ hcur hold hafter
    cases c with
    | setuid | setgid => simp [noSetid, hcur] at hset
    | dropring | fork =>
      rw [hafter.2.1, hafter.2.2]
      exact hold
    | execve =>
      rw [hafter.1, hafter.2.1]
      exact hold
  · rintro v cur x p' ⟨-, hfork⟩ hcur hold - huid hgid
    simp only [forksAsRing, List.contains_iff_mem.mpr hcur, Bool.not_true, Bool.false_or,
      Bool.and_eq_true, decide_eq_true_eq] at hfork
    rw [huid, hgid]
    exact ⟨hfork.1.symm.trans hold.1, hfork.2.symm.trans hold.2⟩

theorem identity_inherited_sampleKernel :
    ∃ w, calls.Reach (fun v x => noSetid v x = true ∧ forksAsRing v x = true)
        (watch (sampleKernel 2) 0) w ∧ w.family = [1, 0] ∧
      ∀ q ∈ w.family, (w.kernel.proc q).uid = 1000 ∧ (w.kernel.proc q).gid = 1000 := by
  refine Machine.exists_reach_imp (P := fun w => w.family = [1, 0])
    [(0, .fork ⟨none, some 1⟩), (1, .dropring 3)] (by decide) ?_
  rintro w h hw
  exact ⟨hw, identity_inherited (sampleKernel 2) 0 (by decide) w h⟩

def rootAs500 : Kernel := (sysSetgid 0 500 (sysSetuid 0 500 (sampleKernel 1)).2).2

/-- The child of a root process with another identity is user 0. -/
theorem identity_lost_by_fork :
    (rootAs500.proc 0).uid = 500 ∧ (rootAs500.proc 0).gid = 500 ∧
    ∃ w, calls.Reach (fun v x => noSetid v x = true) (watch rootAs500 0) w ∧
      1 ∈ w.family ∧ (w.kernel.proc 1).uid = 0 ∧ (w.kernel.proc 1).gid = 0 := by
  exact ⟨by decide, by decide, Machine.exists_reach_of_play [(0, .fork ⟨none, some 1⟩)] (by decide)⟩

/-! ## Rings -/

/-- A member that calls `execve` is in a ring that the check of `PreparedExec` knows. -/
def execsInKnownRing (w : Watched) (a : Nat × Call) : Bool :=
  !w.family.contains a.1 ||
    match a.2 with
    | .execve _ => (w.kernel.proc a.1).ring ≤ procRingUser
    | _ => true

theorem ring_le_exec {ring : UInt8} {imageRing : Nat} (hring : ring ≤ procRingUser)
    (hcheck : ¬ (ring = procRingUser ∧ imageRing = 1)) :
    ring ≤ if imageRing = 1 then procRingRoot else procRingUser := by
  split
  · rename_i himage
    have hne : ring ≠ procRingUser := fun he => hcheck ⟨he, himage⟩
    have hne' : ring.toNat ≠ 2 := fun he => hne (UInt8.toNat_inj.mp he)
    have hle : ring.toNat ≤ 2 := UInt8.le_iff_toNat_le.mp hring
    refine UInt8.le_iff_toNat_le.mpr ?_
    show ring.toNat ≤ 1
    omega
  · exact hring

/-- No process of the family gets a smaller ring number than the process it descends from, in every
run in which members call `execve` only in the rings 0 to 2. -/
theorem ring_never_raised (k : Kernel) (a : Nat) (ha : a ∈ k.allProcs) (w : Watched)
    (h : calls.Reach (fun v x => execsInKnownRing v x = true) (watch k a) w) :
    ∀ q ∈ w.family, (k.proc a).ring ≤ (w.kernel.proc q).ring := by
  refine family_invariant ha h (P := fun p => (k.proc a).ring ≤ p.ring) (UInt8.le_refl _) ?_ ?_ ?_
  · intro p p' hring _ _ hp
    rw [hring]
    exact hp
  · intro v cur c p' hexec hcur hold hafter
    cases c with
    | dropring => exact UInt8.le_trans hold hafter.1
    | setuid | setgid =>
      rw [show p'.ring = _ from hafter]
      exact hold
    | fork =>
      rw [hafter.1]
      exact hold
    | execve =>
      obtain ⟨-, -, hsame | ⟨imageRing, hcheck, hnew⟩⟩ := hafter
      · rw [hsame]
        exact hold
      · simp only [execsInKnownRing, List.contains_iff_mem.mpr hcur, Bool.not_true, Bool.false_or,
          decide_eq_true_eq] at hexec
        rw [hnew]
        exact UInt8.le_trans hold (ring_le_exec hexec hcheck)
  · intro v cur x p' _ _ hold hring _ _
    rw [hring]
    exact hold

theorem ring_never_raised_sampleKernel :
    ∃ w, calls.Reach (fun v x => execsInKnownRing v x = true) (watch (sampleKernel 1) 0) w ∧
      (w.kernel.proc 0).rootPa = 0x80400 ∧ ∀ q ∈ w.family, 1 ≤ (w.kernel.proc q).ring := by
  refine Machine.exists_reach_imp (P := fun w => (w.kernel.proc 0).rootPa = 0x80400)
    [(0, .execve (execSmall Onx.onxFlagsRing1)), (0, .fork ⟨none, some 1⟩), (1, .dropring 2)] (by decide +kernel) ?_
  rintro w h hw
  exact ⟨hw, ring_never_raised (sampleKernel 1) 0 (by decide) w h⟩

/-- A process of ring 2 drops to ring 3 and becomes a root process by `execve`. -/
theorem ring_raised_by_exec :
    ((sampleKernel 2).proc 0).ring = procRingUser ∧
    ∃ w, calls.Reach (fun _ _ => True) (watch (sampleKernel 2) 0) w ∧
      0 ∈ w.family ∧ (w.kernel.proc 0).ring = procRingRoot := by
  exact ⟨rfl, Machine.exists_reach_of_play
    [(0, .dropring 3), (0, .execve (execSmall Onx.onxFlagsRing1))] (by decide +kernel)⟩

end Proc
