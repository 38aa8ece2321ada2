import OnyxKernel.Infra.Locks

/-!
# The order of the process-list lock and the run-queue locks

The lock operations of `exit`, `publish_ready`, `signal_send`, `wait`, `steal` and `sched_yield`, in
the order of the code; where the code branches on data, either branch may be taken.

`exit` takes all queue locks and then the list lock. `publish_ready`, and `exit` itself when it wakes
the parent, take the list lock and then a queue lock. These two kinds of sections are marked; each
respects an order of its own, and the orders are opposite.
-/

namespace LockOrder

open Infra Infra.Locks List

inductive Lock (n : Nat)
  | procList
  | rq (h : Fin n)
  deriving DecidableEq, Repr

inductive Region
  | outside
  /-- `exit`, under all queue locks. -/
  | allQueues
  /-- `publish_ready` and the last section of `exit`. -/
  | underList
  deriving DecidableEq, Repr

variable {n : Nat}

abbrev Code (n : Nat) : Type := Prog (Lock n) Region

/-! ## The functions -/

def byPid (k : Code n) : Code n := .lock .procList (.unlock .procList k)

def lockAll (k : Code n) : List (Fin n) → Code n
  | [] => k
  | h :: l => .lock (.rq h) (lockAll k l)

def unlockAll (k : Code n) : List (Fin n) → Code n
  | [] => k
  | h :: l => .unlock (.rq h) (unlockAll k l)

/-- The section that may put a process on the queue of hart `h` under the list lock. -/
def underList (h : Fin n) (k : Code n) : Code n :=
  let leave := .unlock .procList (.mark .outside k)
  .mark .underList (.lock .procList (.either (.lock (.rq h) (.unlock (.rq h) leave)) leave))

/-- The section of `exit` under all queue locks. -/
def allQueues (k : Code n) : Code n :=
  .mark .allQueues (lockAll
    (.lock .procList (.unlock .procList (unlockAll (.mark .outside k) (finRange n))))
    (finRange n))

def exit (h : Fin n) : Code n := byPid (.either .ret (allQueues (underList h .ret)))

def publishReady (h : Fin n) : Code n := underList h .ret

def signalSend (h : Fin n) : Code n := byPid (.either .ret (.lock (.rq h) (.unlock (.rq h) .ret)))

/-- `steal` over the victims; it goes on with `found` or with `none`. -/
def steal (found none : Code n) : List (Fin n) → Code n
  | [] => none
  | v :: l => .tryLock (.rq v) (.unlock (.rq v) (.either found (steal found none l))) (steal found none l)

/-- The other harts, in the order in which `steal` looks at them. -/
def victims (h : Fin n) : List (Fin n) :=
  (range' 1 (n - 1)).map fun i =>
    ⟨(h.val + i) % n, Nat.mod_lt _ (Nat.lt_of_le_of_lt (Nat.zero_le _) h.isLt)⟩

/-- The last section of `sched_yield`. -/
def settle (h : Fin n) : Code n := .lock (.rq h) (.unlock (.rq h) .ret)

/-- `sched_yield` once it knows the next process, or that there is none. -/
def switch (h : Fin n) : Code n :=
  .unlock (.rq h) (.either .ret (steal (.either .ret (settle h)) (settle h) (victims h)))

/-- The process may be pinned to any other hart, whose lock is tried while the own one is held. -/
def migrate (h : Fin n) : List (Fin n) → Code n
  | [] => switch h
  | v :: l => .either (.tryLock (.rq v) (.unlock (.rq v) (switch h)) (switch h)) (migrate h l)

def schedYield (h : Fin n) : Code n := .lock (.rq h) (migrate h (victims h))

/-- `wait`, up to the point where it starts over. -/
def wait (h : Fin n) : Code n := .lock .procList (.unlock .procList (.either .ret (schedYield h)))

inductive Fun
  | exit | publishReady | signalSend | wait | steal | schedYield
  deriving DecidableEq, Repr

def body (h : Fin n) : Fun → Code n
  | .exit => exit h
  | .publishReady => publishReady h
  | .signalSend => signalSend h
  | .wait => wait h
  | .steal => steal .ret .ret (victims h)
  | .schedYield => schedYield h

def harts (n : Nat) : Machine (World (Fin n) (Lock n) Region) (Act (Fin n) Fun) := machine body

/-! ## Each function respects the orders -/

/-- In `allQueues` the queue locks come first, by hart, and the list lock last; in `underList` the
list lock comes first. Outside no lock is taken above another. -/
def rank : Region → Lock n → Nat
  | .outside, _ => 0
  | .allQueues, .rq h => h.val
  | .allQueues, .procList => n
  | .underList, .procList => 0
  | .underList, .rq h => h.val + 1

def Proper (k : Code n) : Prop := WellNested rank .outside .outside [] k

theorem proper_ret : Proper (.ret : Code n) := ⟨rfl, rfl⟩

theorem proper_byPid {k : Code n} (hk : Proper k) : Proper (byPid k) := by
  refine ⟨nofun, mem_singleton_self _, ?_⟩
  exact hk

theorem proper_underList (h : Fin n) {k : Code n} (hk : Proper k) : Proper (underList h k) := by
  have hleave : WellNested rank .outside .underList [.procList] (.unlock .procList (.mark .outside k)) := by
    refine ⟨mem_singleton_self _, ?_⟩
    exact hk
  refine ⟨nofun, ⟨fun l hl => ?_, mem_cons_self, ?_⟩, hleave⟩
  · rw [mem_singleton.mp hl]
    exact Nat.succ_pos _
  · simpa using hleave

theorem wellNested_lockAll {k : Code n} {held : List (Lock n)} : ∀ {l : List (Fin n)},
    l.Pairwise (· < ·) → (∀ x ∈ held, ∀ h ∈ l, rank .allQueues x < h.val) →
    WellNested rank .outside .allQueues ((l.map Lock.rq).reverse ++ held) k →
    WellNested rank .outside .allQueues held (lockAll k l)
  | [], _, _, hk => hk
  | h :: l, hl, hheld, hk => by
    obtain ⟨hfirst, hrest⟩ := pairwise_cons.mp hl
    refine ⟨fun x hx => hheld x hx h mem_cons_self, wellNested_lockAll hrest (fun x hx h' hh' => ?_) ?_⟩
    · rcases mem_cons.mp hx with rfl | hx
      · exact hfirst h' hh'
      · exact hheld x hx h' (mem_cons_of_mem _ hh')
    · simpa using hk

theorem wellNested_unlockAll {k : Code n} : ∀ {l : List (Fin n)} {held : List (Lock n)},
    held.Perm (l.map Lock.rq) → WellNested rank .outside .allQueues [] k →
    WellNested rank .outside .allQueues held (unlockAll k l)
  | [], held, hp, hk => by
    rw [perm_nil.mp hp]
    exact hk
  | h :: l, held, hp, hk => by
    refine ⟨hp.mem_iff.mpr mem_cons_self, wellNested_unlockAll ?_ hk⟩
    simpa using hp.erase (Lock.rq h)

theorem proper_allQueues {k : Code n} (hk : Proper k) : Proper (allQueues k) := by
  refine wellNested_lockAll (pairwise_lt_finRange n) nofun ?_
  refine ⟨fun x hx => ?_, mem_cons_self, ?_⟩
  · rw [append_nil, mem_reverse] at hx
    obtain ⟨h, -, rfl⟩ := mem_map.mp hx
    exact h.isLt
  · rw [erase_cons_head, append_nil]
    exact wellNested_unlockAll (reverse_perm _) hk

theorem proper_exit (h : Fin n) : Proper (exit h) :=
  proper_byPid ⟨proper_ret, proper_allQueues (proper_underList h proper_ret)⟩

theorem proper_lockOne (h : Fin n) {k : Code n} (hk : Proper k) : Proper (.lock (.rq h) (.unlock (.rq h) k)) := by
  refine ⟨nofun, mem_singleton_self _, ?_⟩
  rw [erase_cons_head]
  exact hk

theorem proper_steal {found none : Code n} (hf : Proper found) (hn : Proper none) :
    ∀ l : List (Fin n), Proper (steal found none l)
  | [] => hn
  | v :: l => by
    have ih := proper_steal hf hn l
    refine ⟨⟨mem_singleton_self _, ?_⟩, ih⟩
    rw [erase_cons_head]
    exact ⟨hf, ih⟩

theorem wellNested_switch (h : Fin n) : WellNested rank .outside .outside [.rq h] (switch h) := by
  refine ⟨mem_singleton_self _, ?_⟩
  rw [erase_cons_head]
  have hsettle : Proper (settle h) := proper_lockOne h proper_ret
  have hfound : Proper (.either .ret (settle h)) := ⟨proper_ret, hsettle⟩
  exact ⟨proper_ret, proper_steal hfound hsettle _⟩

theorem wellNested_migrate (h : Fin n) : ∀ l : List (Fin n), WellNested rank .outside .outside [.rq h] (migrate h l)
  | [] => wellNested_switch h
  | v :: l => by
    refine ⟨⟨⟨mem_cons_self, ?_⟩, wellNested_switch h⟩, wellNested_migrate h l⟩
    rw [erase_cons_head]
    exact wellNested_switch h

theorem proper_schedYield (h : Fin n) : Proper (schedYield h) := ⟨nofun, wellNested_migrate h _⟩

theorem proper_body (h : Fin n) : ∀ f, Proper (body h f)
  | .exit => proper_exit h
  | .publishReady => proper_underList h proper_ret
  | .signalSend => proper_byPid ⟨proper_ret, proper_lockOne h proper_ret⟩
  | .wait => proper_byPid ⟨proper_ret, proper_schedYield h⟩
  | .steal => proper_steal proper_ret proper_ret _
  | .schedYield => proper_schedYield h

/-! ## Runs -/

/-- A hart enters the section of `exit` under all queue locks only while no other hart is in
`publish_ready` or the last section of `exit`, and one of these only while no other hart is in the
former. -/
def sectionsApart (w : World (Fin n) (Lock n) Region) : Act (Fin n) Fun → Bool
  | .next i _ =>
    match (w.party i).prog with
    | .mark .allQueues _ => decide (∀ j, j ≠ i → (w.party j).region ≠ .underList)
    | .mark .underList _ => decide (∀ j, j ≠ i → (w.party j).region ≠ .allQueues)
    | _ => true
  | _ => true

def Apart (w : World (Fin n) (Lock n) Region) : Prop :=
  ∀ i j, (w.party i).region = .allQueues → (w.party j).region ≠ .underList

variable {w u : World (Fin n) (Lock n) Region}

theorem Apart.congr (ha : Apart w) (hr : ∀ i, (u.party i).region = (w.party i).region) : Apart u := by
  intro i j hi
  rw [hr] at hi ⊢
  exact ha i j hi

theorem region_set (w : World (Fin n) (Lock n) Region) (i : Fin n) (p : Party (Lock n) Region)
    (hp : p.region = (w.party i).region) (j : Fin n) :
    (Function.update w.party i p j).region = (w.party j).region := by
  by_cases hj : j = i
  · rw [hj, Function.update_self, hp]
  · rw [Function.update_of_ne hj]

theorem Apart.mark (ha : Apart w) {i : Fin n} {p : Party (Lock n) Region}
    (hall : p.region = .allQueues → ∀ j, j ≠ i → (w.party j).region ≠ .underList)
    (hunder : p.region = .underList → ∀ j, j ≠ i → (w.party j).region ≠ .allQueues) :
    Apart (w.set i p) := by
  intro j j' hj hj'
  have hparty : ∀ x, (w.set i p).party x = if x = i then p else w.party x := fun x =>
    Function.update_apply ..
  rw [hparty] at hj hj'
  split_ifs at hj hj' with h1 h2 h2
  · rw [hj] at hj'
    cases hj'
  · exact hall hj j' h2 hj'
  · exact hunder hj' j h1 hj
  · exact ha j j' hj hj'

theorem Apart.step {a : Act (Fin n) Fun} (ha : Apart w) (hok : sectionsApart w a = true)
    (hstep : (harts n).step w a = some u) : Apart u := by
  cases a with
  | call i f =>
    simp only [harts, machine] at hstep
    split at hstep
    · cases hstep
      exact ha.congr (region_set w i _ rfl)
    · cases hstep
  | next i left =>
    simp only [harts, machine, World.next] at hstep
    cases hprog : (w.party i).prog with rw [hprog] at hstep
    | ret => cases hstep
    | mark m k =>
      cases hstep
      simp only [sectionsApart, hprog] at hok
      refine ha.mark (fun hm => ?_) fun hm => ?_
      · cases hm
        simpa using hok
      · cases hm
        simpa using hok
    | lock l k =>
      simp only at hstep
      split at hstep
      · cases hstep
        exact ha.congr (region_set w i _ rfl)
      · cases hstep
    | tryLock l yes no =>
      simp only at hstep
      split at hstep <;> cases hstep <;> exact ha.congr (region_set w i _ rfl)
    | unlock l k | either a b =>
      cases hstep
      exact ha.congr (region_set w i _ rfl)

/-- In every run in which the two kinds of sections of different harts do not overlap, no harts wait
for each other in a circle. -/
theorem no_circular_wait
    (hrun : (harts n).Reach (fun v a => sectionsApart v a = true) (idle .outside) w)
    (s : Finset (Fin n)) : ¬w.CircularWait s := by
  obtain ⟨hs, ha⟩ : Sound rank .outside w ∧ Apart w :=
    hrun.invariant (I := fun v => Sound rank .outside v ∧ Apart v) ⟨sound_idle, nofun⟩
      fun h hok hstep => ⟨h.1.step proper_body hstep, h.2.step hok hstep⟩
  intro hc
  -- A hart that waits is in a section of one of the two kinds.
  have hin : ∀ i ∈ s, (w.party i).region = .allQueues ∨ (w.party i).region = .underList := by
    intro i hi
    obtain ⟨l, hw, -⟩ := hc.2 i hi
    obtain ⟨l', hl'⟩ := exists_mem_of_ne_nil _ hw.1
    have hlt := hs.rank_lt hw hl'
    cases hr : (w.party i).region with
    | outside =>
      rw [hr] at hlt
      cases hlt
    | allQueues => exact .inl rfl
    | underList => exact .inr rfl
  by_cases hall : ∃ i, (w.party i).region = .allQueues
  · obtain ⟨i, hi⟩ := hall
    exact hs.not_circularWait .allQueues (fun j hj => (hin j hj).resolve_right (ha i j hi)) hc
  · refine hs.not_circularWait .underList (fun j hj => (hin j hj).resolve_left fun hj' => ?_) hc
    exact hall ⟨j, hj'⟩

/-- A hart spins on a lock that another one owns; both facts can be tested. -/
def spinsOn (w : World (Fin n) (Lock n) Region) (i : Fin n) (l : Lock n) (j : Fin n) : Bool :=
  !(w.party i).held.isEmpty && (w.party i).prog.wanted = some l && w.owner l = some j

theorem waits_of_spinsOn {i j : Fin n} {l : Lock n} (h : spinsOn w i l j = true) :
    w.waits i l ∧ w.owner l = some j := by
  simp only [spinsOn, Bool.and_eq_true, Bool.not_eq_true', isEmpty_eq_false_iff, decide_eq_true_eq] at h
  exact ⟨⟨h.1.1, h.1.2⟩, h.2⟩

/-- Hart 1 waits in `publish_ready` for its queue, from which hart 0 is stealing. -/
theorem no_circular_wait_steal : ∃ w,
    (harts 2).Reach (fun v a => sectionsApart v a = true) (idle .outside) w ∧
      w.waits 1 (.rq 1) ∧ w.owner (.rq 1) = some 0 ∧ ¬w.CircularWait {0, 1} := by
  refine Machine.exists_reach_imp (P := fun w => spinsOn w 1 (.rq 1) 0 = true)
    [.call 0 .steal, .next 0 true, .call 1 .publishReady, .next 1 true, .next 1 true, .next 1 true] (by decide) ?_
  rintro w hrun hw
  obtain ⟨hwait, howner⟩ := waits_of_spinsOn hw
  exact ⟨hwait, howner, no_circular_wait hrun {0, 1}⟩

/-- Hart 0 is in `exit` and has all queue locks; hart 1 has the list lock in `publish_ready`. -/
theorem exit_and_publish_deadlock : ∃ w : World (Fin 2) (Lock 2) Region,
    (harts 2).Reach Machine.always (idle .outside) w ∧ w.CircularWait {0, 1} := by
  obtain ⟨w, hrun, hw0, hw1⟩ : ∃ w, (harts 2).Reach Machine.always (idle .outside) w ∧
      spinsOn w 0 .procList 1 = true ∧ spinsOn w 1 (.rq 1) 0 = true := Machine.exists_reach_of_play
    [.call 0 .exit, .next 0 true, .next 0 true, .next 0 false, .next 0 true, .next 0 true, .next 0 true,
      .call 1 .publishReady, .next 1 true, .next 1 true, .next 1 true] (by decide)
  obtain ⟨hw0, ho0⟩ := waits_of_spinsOn hw0
  obtain ⟨hw1, ho1⟩ := waits_of_spinsOn hw1
  refine ⟨w, hrun, ⟨0, by decide⟩, fun i hi => ?_⟩
  rcases Finset.mem_insert.mp hi with rfl | hi
  · exact ⟨_, hw0, 1, by decide, ho0⟩
  · obtain rfl := Finset.mem_singleton.mp hi
    exact ⟨_, hw1, 0, by decide, ho1⟩

end LockOrder
