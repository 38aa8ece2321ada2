import Mathlib.Algebra.Order.BigOperators.Group.List
import Mathlib.Algebra.Order.Ring.Nat
import Mathlib.Data.List.InsertIdx
import Mathlib.Data.List.Nodup
import Mathlib.Logic.Function.Basic
import Mathlib.Tactic.SplitIfs
import OnyxKernel.Infra.Machine

/-!
# The reference counter of a shared root

`fork` children share the page-table root of their parent. `root_refcount` points to a cell that
counts the sharers; `sys_fork`, `sys_execve` and `exit` change it with one atomic operation each, at
different times and on different harts. Here each call is cut into the parts between these
operations.

A null `root_refcount` means that the root is not shared; `sys_fork` makes the cell on first use.
-/

namespace RootCount

open Infra Function List

/-! ## States -/

/-- Where a process is in a call that concerns its root. -/
inductive Phase
  | idle
  /-- In `sys_fork`, after the increment for the child. -/
  | forking
  /-- In `sys_execve`, after the switch to the new root; the old root and its counter. -/
  | switched (oldRoot : Nat) (oldRefcount : Option Nat)
  /-- In `sys_execve`, having dropped the last reference to the old root. -/
  | releasing (oldRoot : Nat) (oldRefcount : Option Nat)
  /-- In `exit`, having dropped a reference that was not the last; `root_pa` is still set. -/
  | dropped
  /-- In `exit`, having dropped the last reference. -/
  | dying
  | gone
  deriving DecidableEq, Repr

structure Sharer where
  rootPa : Nat
  refcount : Option Nat
  phase : Phase
  deriving DecidableEq, Repr

structure Roots where
  procs : List Sharer
  /-- The counters on the heap; `none` is memory that is not allocated. -/
  cell : Nat → Option Nat
  /-- The roots that exist. -/
  alive : Nat → Bool
  /-- The cell that was made for a root; no code reads this. -/
  counterOf : Nat → Option Nat

def Sharer.claims (p : Sharer) : List (Nat × Option Nat) :=
  match p.phase with
  | .idle => [(p.rootPa, p.refcount)]
  | .forking => [(p.rootPa, p.refcount), (p.rootPa, p.refcount)]
  | .switched r c => [(p.rootPa, p.refcount), (r, c)]
  | .releasing _ _ => [(p.rootPa, p.refcount)]
  | .dropped => []
  | .dying => []
  | .gone => []

def Sharer.duty (p : Sharer) : Option (Nat × Option Nat) :=
  match p.phase with
  | .releasing r c => some (r, c)
  | .dying => some (p.rootPa, p.refcount)
  | _ => none

def Sharer.refs (r : Nat) (p : Sharer) : Nat := p.claims.countP (·.1 == r)

def Roots.total (w : Roots) (r : Nat) : Nat := (w.procs.map (Sharer.refs r)).sum

def Sharer.dutyTo (r : Nat) (p : Sharer) : Nat := if p.duty.map Prod.fst = some r then 1 else 0

open Sharer

def Roots.duties (w : Roots) (r : Nat) : Nat := (w.procs.map (dutyTo r)).sum

/-! ## Steps -/

/-- The steps of process `i`. -/
inductive Act
  /-- `sys_fork` up to the increment; `c` is what the heap gives if a cell is needed. -/
  | forkTake (i c : Nat)
  /-- `create_user` links the child. -/
  | forkDone (i : Nat)
  /-- `create_user` fails and `sys_fork` undoes the increment. -/
  | forkFail (i : Nat)
  /-- `sys_execve` from the new root `r` with its counter `c` to the switch. -/
  | execSwitch (i r c : Nat)
  /-- `sys_execve` drops the old root. -/
  | execDrop (i : Nat)
  /-- `exit` drops the root. -/
  | exitDrop (i : Nat)
  /-- The last owner frees the cell and destroys the root. -/
  | destroy (i : Nat)
  /-- `exit` clears `root_pa`. -/
  | clear (i : Nat)
  deriving DecidableEq, Repr

def Roots.setProc (w : Roots) (i : Nat) (p : Sharer) : Roots := { w with procs := w.procs.set i p }

def Roots.setCell (w : Roots) (c : Nat) (v : Option Nat) : Roots := { w with cell := update w.cell c v }

/-- `dec_root_refcount`: the last reference, and the new value. -/
def Roots.dec (w : Roots) (c : Nat) : Bool × Roots :=
  ((w.cell c).getD 0 = 1, w.setCell c (some ((w.cell c).getD 0 - 1)))

/-- A reference dropped by process `i`, which goes on as `last` or as `more`. -/
def Roots.drop (w : Roots) (i : Nat) (refcount : Option Nat) (last more : Sharer) : Roots :=
  match refcount with
  | none => w.setProc i last
  | some c => (w.dec c).2.setProc i (if (w.dec c).1 then last else more)

def Roots.release (w : Roots) (root : Nat) (refcount : Option Nat) : Roots :=
  let w := match refcount with
    | none => w
    | some c => w.setCell c none
  { w with alive := update w.alive root false }

/-- One step of process `i`, whose state is `p`. -/
def stepAt (w : Roots) (p : Sharer) : Act → Option Roots
  | .forkTake i c =>
    if p.phase ≠ .idle then none
    else match p.refcount with
      | some c => some ((w.setCell c (some ((w.cell c).getD 0 + 1))).setProc i { p with phase := .forking })
      | none =>
        -- A new cell holds 1, and the increment follows.
        if w.cell c ≠ none then none
        else some
          (({ w with counterOf := update w.counterOf p.rootPa (some c) }.setCell c (some 2)).setProc i
            { p with refcount := some c, phase := .forking })
  | .forkDone i =>
    if p.phase ≠ .forking then none
    else
      let w := w.setProc i { p with phase := .idle }
      some { w with procs := w.procs ++ [{ p with phase := .idle }] }
  | .forkFail i =>
    if p.phase ≠ .forking then none
    else match p.refcount with
      | none => none
      | some c => some ((w.dec c).2.setProc i { p with phase := .idle })
  | .execSwitch i r c =>
    if p.phase ≠ .idle ∨ w.alive r = true ∨ r = 0 ∨ w.cell c ≠ none then none
    else
      let w := { w with
        alive := update w.alive r true
        counterOf := update w.counterOf r (some c) }
      some ((w.setCell c (some 1)).setProc i
        { rootPa := r, refcount := some c, phase := .switched p.rootPa p.refcount })
  | .execDrop i =>
    match p.phase with
    | .switched r c =>
      some (w.drop i c { p with phase := .releasing r c } { p with phase := .idle })
    | _ => none
  | .exitDrop i =>
    if p.phase ≠ .idle then none
    else some (w.drop i p.refcount { p with phase := .dying } { p with phase := .dropped })
  | .destroy i =>
    match p.phase with
    | .releasing r c => some ((w.release r c).setProc i { p with phase := .idle })
    | .dying =>
      some ((w.release p.rootPa p.refcount).setProc i { rootPa := 0, refcount := none, phase := .gone })
    | _ => none
  | .clear i =>
    if p.phase ≠ .dropped then none
    else some (w.setProc i { rootPa := 0, refcount := none, phase := .gone })

def Act.index : Act → Nat
  | .forkTake i _ | .forkDone i | .forkFail i | .execSwitch i _ _ | .execDrop i | .exitDrop i
  | .destroy i | .clear i => i

def sharing : Machine Roots Act where
  step w a := (w.procs[a.index]?).bind fun p => stepAt w p a

/-! ## The invariant -/

/-- Every existing root has references, all through the cell made for it, whose value is their
number; or it has none left and one process that has to destroy it. -/
structure Counted (w : Roots) : Prop where
  alive : ∀ r, w.alive r = true →
    0 < w.total r ∧ w.duties r = 0 ∨ w.total r = 0 ∧ w.duties r = 1
  dead : ∀ r, w.alive r = false → w.total r = 0 ∧ w.duties r = 0
  claim : ∀ p ∈ w.procs, ∀ x ∈ p.claims, w.counterOf x.1 = x.2
  duty : ∀ p ∈ w.procs, ∀ x, p.duty = some x → w.counterOf x.1 = x.2
  cell : ∀ r c, w.alive r = true → w.counterOf r = some c → w.cell c = some (w.total r)
  sole : ∀ r, w.alive r = true → w.counterOf r = none → w.total r + w.duties r = 1
  apart : ∀ r r' c, w.alive r = true → w.alive r' = true → w.counterOf r = some c →
    w.counterOf r' = some c → r = r'
  owned : ∀ c n, w.cell c = some n → ∃ r, w.alive r = true ∧ w.counterOf r = some c

variable {a : Act} {c : Nat} {l : List Sharer} {u : Roots} {x : Nat × Option Nat} {f : Sharer → Nat}

theorem le_sum {p : Sharer} (h : p ∈ l) : f p ≤ (l.map f).sum := le_sum_of_mem (mem_map_of_mem h)

theorem add_sum_eraseIdx {p : Sharer} {i : Nat} (h : l[i]? = some p) :
    f p + ((l.eraseIdx i).map f).sum = (l.map f).sum := by
  obtain ⟨hi, rfl⟩ := List.getElem?_eq_some_iff.mp h
  have hsum := CommMonoid.add_sum_eraseIdx (l := l.map f) (i := i) (by rwa [length_map])
  rwa [getElem_map, eraseIdx_map] at hsum

theorem sum_set {p p' : Sharer} {i : Nat} (h : l[i]? = some p) :
    ((l.set i p').map f).sum + f p = (l.map f).sum + f p' := by
  obtain ⟨hi, -⟩ := List.getElem?_eq_some_iff.mp h
  rw [← add_sum_eraseIdx h, ← add_sum_eraseIdx (getElem?_set_self hi), eraseIdx_set_eq]
  omega

theorem add_le_sum {p q : Sharer} {i j : Nat} (hij : i ≠ j) (hp : l[i]? = some p)
    (hq : l[j]? = some q) : f p + f q ≤ (l.map f).sum := by
  rw [← add_sum_eraseIdx hp]
  exact Nat.add_le_add_left (le_sum (mem_eraseIdx_iff_getElem?.mpr ⟨j, hij.symm, hq⟩)) _

theorem getElem?_set_cases {q q' : Sharer} {i j : Nat} (h : (l.set i q')[j]? = some q) :
    j = i ∧ q = q' ∨ i ≠ j ∧ l[j]? = some q := by
  rw [getElem?_set] at h
  split_ifs at h with hij
  · exact .inl ⟨hij.symm, (Option.some.inj h).symm⟩
  · exact .inr ⟨hij, h⟩

variable {w : Roots} {i : Nat} {p p' : Sharer}

theorem counts_of_set {w' : Roots} (hp : w.procs[i]? = some p) (hset : w'.procs = w.procs.set i p') (r : Nat) :
    w'.total r + p.refs r = w.total r + p'.refs r ∧
      w'.duties r + p.dutyTo r = w.duties r + p'.dutyTo r := by
  rw [Roots.total, Roots.duties, hset]
  exact ⟨sum_set hp, sum_set hp⟩

theorem counts_setProc (hp : w.procs[i]? = some p) (q : Sharer) (r : Nat) :
    (w.setProc i q).total r + p.refs r = w.total r + q.refs r ∧
      (w.setProc i q).duties r + p.dutyTo r = w.duties r + q.dutyTo r :=
  counts_of_set hp rfl r

theorem mem_setProc {q : Sharer} (h : q ∈ (w.setProc i p').procs) : q ∈ w.procs ∨ q = p' := mem_or_eq_of_mem_set h

theorem dutyTo_of_none (h : p.duty = none) (r : Nat) : p.dutyTo r = 0 := by
  rw [dutyTo, h]
  rfl

theorem dutyTo_of_some (h : p.duty = some x) (r : Nat) : p.dutyTo r = if x.1 = r then 1 else 0 := by
  rw [dutyTo, h]
  simp

theorem refs_pos (h : x ∈ p.claims) : 0 < p.refs x.1 := countP_pos_iff.mpr ⟨x, h, by simp⟩

section

variable (h : Counted w)
include h

theorem Counted.alive_of_claim (hp : p ∈ w.procs)
    (hx : x ∈ p.claims) : w.alive x.1 = true ∧ 0 < w.total x.1 ∧ w.duties x.1 = 0 := by
  have hle : p.refs x.1 ≤ w.total x.1 := le_sum hp
  have hpos := refs_pos hx
  cases hal : w.alive x.1 with
  | false => have := (h.dead _ hal).1; omega
  | true =>
    rcases h.alive _ hal with hc | hc
    · exact ⟨rfl, hc⟩
    · omega

theorem Counted.alive_of_duty (hp : p ∈ w.procs)
    (hx : p.duty = some x) : w.alive x.1 = true ∧ w.total x.1 = 0 ∧ w.duties x.1 = 1 := by
  have hle : p.dutyTo x.1 ≤ w.duties x.1 := le_sum hp
  rw [dutyTo_of_some hx, if_pos rfl] at hle
  cases hal : w.alive x.1 with
  | false => have := (h.dead _ hal).2; omega
  | true =>
    rcases h.alive _ hal with hc | hc
    · omega
    · exact ⟨rfl, hc⟩

/-! ## Changes that concern one root -/

/-- The part of the invariant about one root. -/
structure RootOk (w : Roots) (r : Nat) : Prop where
  alive : w.alive r = true → 0 < w.total r ∧ w.duties r = 0 ∨ w.total r = 0 ∧ w.duties r = 1
  dead : w.alive r = false → w.total r = 0 ∧ w.duties r = 0
  cell : ∀ c, w.alive r = true → w.counterOf r = some c → w.cell c = some (w.total r)
  sole : w.alive r = true → w.counterOf r = none → w.total r + w.duties r = 1

/-- The pointers of the processes are the cells made for their roots. -/
structure Pointers (w : Roots) : Prop where
  claim : ∀ p ∈ w.procs, ∀ x ∈ p.claims, w.counterOf x.1 = x.2
  duty : ∀ p ∈ w.procs, ∀ x, p.duty = some x → w.counterOf x.1 = x.2

theorem Counted.rootOk (r : Nat) : RootOk w r := ⟨h.alive r, h.dead r, h.cell r, h.sole r⟩

omit h in
theorem RootOk.congr {w' : Roots} {r : Nat} (h : RootOk w r)
    (hcounts : w'.total r = w.total r ∧ w'.duties r = w.duties r)
    (hheap : w'.alive r = w.alive r ∧ w'.counterOf r = w.counterOf r)
    (hcell : ∀ c, w.alive r = true → w.counterOf r = some c → w'.cell c = w.cell c) : RootOk w' r := by
  obtain ⟨⟨ht, hd⟩, ha, hk⟩ := And.intro hcounts hheap
  refine ⟨?_, ?_, fun c hr hc => ?_, ?_⟩
  · rw [ha, ht, hd]
    exact h.alive
  · rw [ha, ht, hd]
    exact h.dead
  · rw [ha] at hr
    rw [hk] at hc
    rw [ht, hcell c hr hc]
    exact h.cell c hr hc
  · rw [ha, hk, ht, hd]
    exact h.sole

theorem Counted.change {w' : Roots} (r : Nat)
    (hcounts : ∀ r' ≠ r, w'.total r' = w.total r' ∧ w'.duties r' = w.duties r')
    (hheap : ∀ r' ≠ r, w'.alive r' = w.alive r' ∧ w'.counterOf r' = w.counterOf r')
    (hcells : ∀ r' c, r' ≠ r → w.alive r' = true → w.counterOf r' = some c → w'.cell c = w.cell c)
    (hat : RootOk w' r) (hptr : Pointers w')
    (hapart : ∀ r' c, r' ≠ r → w.alive r' = true → w'.alive r = true →
      w'.counterOf r = some c → w.counterOf r' ≠ some c)
    (howned : ∀ c n, w'.cell c = some n → ∃ r, w'.alive r = true ∧ w'.counterOf r = some c) :
    Counted w' := by
  have hok : ∀ r', RootOk w' r' := fun r' => by
    by_cases he : r' = r
    · exact he ▸ hat
    · exact (h.rootOk r').congr (hcounts r' he) (hheap r' he) fun c => hcells r' c he
  refine ⟨fun r' => (hok r').alive, fun r' => (hok r').dead, hptr.claim, hptr.duty,
    fun r' => (hok r').cell, fun r' => (hok r').sole, fun r₁ r₂ c h₁ h₂ hc₁ hc₂ => ?_, howned⟩
  by_cases he₁ : r₁ = r <;> by_cases he₂ : r₂ = r
  · rw [he₁, he₂]
  · obtain ⟨ha, hk⟩ := hheap r₂ he₂
    subst he₁
    exact absurd (hk ▸ hc₂) (hapart r₂ c he₂ (ha ▸ h₂) h₁ hc₁)
  · obtain ⟨ha, hk⟩ := hheap r₁ he₁
    subst he₂
    exact absurd (hk ▸ hc₁) (hapart r₁ c he₁ (ha ▸ h₁) h₂ hc₂)
  · obtain ⟨ha₁, hk₁⟩ := hheap r₁ he₁
    obtain ⟨ha₂, hk₂⟩ := hheap r₂ he₂
    exact h.apart r₁ r₂ c (ha₁ ▸ h₁) (ha₂ ▸ h₂) (hk₁ ▸ hc₁) (hk₂ ▸ hc₂)

theorem Counted.cell_ne {r r' c' : Nat} (hr : w.alive r = true)
    (hc : w.counterOf r = some c) (hr' : w.alive r' = true) (hc' : w.counterOf r' = some c')
    (hne : r' ≠ r) : c' ≠ c := fun he => hne (h.apart r' r c hr' hr (he ▸ hc') hc)

theorem Counted.pointers_set (hp : w.procs[i]? = some p) (hclaims : ∀ y ∈ p'.claims, y ∈ p.claims)
    (hduty : ∀ y, p'.duty = some y → y ∈ p.claims) : Pointers (w.setProc i p') := by
  have hmem : p ∈ w.procs := mem_of_getElem? hp
  refine ⟨fun q hq y hy => ?_, fun q hq y hy => ?_⟩
  · rcases mem_setProc hq with hq | rfl
    · exact h.claim q hq y hy
    · exact h.claim p hmem y (hclaims y hy)
  · rcases mem_setProc hq with hq | rfl
    · exact h.duty q hq y hy
    · exact h.claim p hmem y (hduty y hy)

theorem Counted.steady
    (hcounts : ∀ r, { w with procs := l }.total r = w.total r ∧ { w with procs := l }.duties r = w.duties r)
    (hptr : Pointers { w with procs := l }) : Counted { w with procs := l } :=
  h.change 0 (fun r _ => hcounts r) (fun _ _ => ⟨rfl, rfl⟩) (fun _ _ _ _ _ => rfl)
    ((h.rootOk 0).congr (hcounts 0) ⟨rfl, rfl⟩ fun _ _ _ => rfl) hptr
    (fun r c hne hr h0 hc hc' => hne (h.apart r 0 c hr h0 hc' hc)) h.owned

end

section Changes

variable {x : Nat × Option Nat} {c : Nat} {r : Nat}

theorem RootOk.of_counter (hal : w.alive r = true) (hc : w.counterOf r = some c)
    (hcell : w.cell c = some (w.total r))
    (hcount : 0 < w.total r ∧ w.duties r = 0 ∨ w.total r = 0 ∧ w.duties r = 1) : RootOk w r where
  alive _ := hcount
  dead := by simp [hal]
  cell c' _ hc' := by rwa [← Option.some.inj (hc.symm.trans hc')]
  sole := by simp [hc]

theorem counts_others {w' : Roots} (hp : w.procs[i]? = some p)
    (hset : w'.procs = w.procs.set i p')
    (hrefs : ∀ r' ≠ r, p'.refs r' = p.refs r' ∧ p'.dutyTo r' = p.dutyTo r') :
    ∀ r' ≠ r, w'.total r' = w.total r' ∧ w'.duties r' = w.duties r' := by
  intro r' hne
  obtain ⟨ht, hd⟩ := counts_of_set hp hset r'
  obtain ⟨hr, hdr⟩ := hrefs r' hne
  exact ⟨by omega, by omega⟩

section

variable (h : Counted w) (hp : w.procs[i]? = some p)
include h hp

/-- The cell of a root is set to the new number of references. -/
theorem Counted.recount {r n : Nat} (hal : w.alive r = true) (hc : w.counterOf r = some c)
    (hrefs : ∀ r' ≠ r, p'.refs r' = p.refs r' ∧ p'.dutyTo r' = p.dutyTo r') (hptr : Pointers (w.setProc i p'))
    (hn : (w.setProc i p').total r = n)
    (hcount : 0 < n ∧ (w.setProc i p').duties r = 0 ∨ n = 0 ∧ (w.setProc i p').duties r = 1) :
    Counted ((w.setCell c (some n)).setProc i p') := by
  subst hn
  refine h.change r (counts_others hp rfl hrefs) (fun _ _ => ⟨rfl, rfl⟩)
    (fun r' c' hne hr hc' => update_of_ne (h.cell_ne hal hc hr hc' hne) _ _)
    (.of_counter hal hc (update_self ..) hcount) ⟨hptr.claim, hptr.duty⟩
    (fun r' c' hne hr _ hc' hrc => hne (h.apart r' r c' hr hal hrc hc')) fun c' n hn => ?_
  by_cases he : c' = c
  · subst he
    exact ⟨r, hal, hc⟩
  · exact h.owned c' n ((update_of_ne he _ _).symm.trans hn)

theorem Counted.drop {last more : Sharer} (hx : x ∈ p.claims) (hclaims : ∀ y ∈ last.claims, y ∈ p.claims)
    (hrefs : ∀ r, p.refs r = last.refs r + if x.1 = r then 1 else 0) (hmore : more.claims = last.claims)
    (hduty : p.duty = none) (hlast : last.duty = some x) (hnot : more.duty = none) :
    Counted (w.drop i x.2 last more) := by
  have hmem : p ∈ w.procs := mem_of_getElem? hp
  obtain ⟨hal, hpos, hnone⟩ := h.alive_of_claim hmem hx
  have hcounter : w.counterOf x.1 = x.2 := h.claim p hmem x hx
  -- Whichever way the process goes on, it has one claim less.
  have hgo : ∀ q : Sharer, q.claims = last.claims → (∀ y, q.duty = some y → y = x) →
      (w.setProc i q).total x.1 + 1 = w.total x.1 ∧ (w.setProc i q).duties x.1 = q.dutyTo x.1 ∧
      Pointers (w.setProc i q) ∧ ∀ r ≠ x.1, q.refs r = p.refs r ∧ q.dutyTo r = p.dutyTo r := by
    intro q hq hd
    obtain ⟨ht, hdt⟩ := counts_setProc hp q x.1
    have hqr : ∀ r, q.refs r = last.refs r := fun r => by rw [refs, refs, hq]
    rw [hrefs, hqr, if_pos rfl] at ht
    rw [dutyTo_of_none hduty, hnone, Nat.zero_add] at hdt
    refine ⟨Nat.add_right_cancel (m := last.refs x.1) (by omega), hdt,
      h.pointers_set hp (fun y hy => hclaims y (hq ▸ hy)) fun y hy => hd y hy ▸ hx, fun r hne => ⟨?_, ?_⟩⟩
    · simp [hqr, hrefs, hne.symm]
    · rw [dutyTo_of_none hduty, dutyTo, if_neg]
      rintro hr
      obtain ⟨y, hy, rfl⟩ := Option.map_eq_some_iff.mp hr
      exact hne (hd y hy ▸ rfl)
  obtain ⟨ht, hd, hptr, hother⟩ := hgo last rfl fun y hy => Option.some.inj (hy.symm.trans hlast)
  rw [dutyTo_of_some hlast, if_pos rfl] at hd
  unfold Roots.drop
  cases hc : x.2 with
  | none =>
    rw [hc] at hcounter
    have hsole := h.sole x.1 hal hcounter
    dsimp only
    refine h.change x.1 (counts_others hp rfl hother) (fun _ _ => ⟨rfl, rfl⟩) (fun _ _ _ _ _ => rfl) ?_ hptr
      (fun r c' hne hr _ hc' hrc => hne (h.apart r x.1 c' hr hal hrc hc')) h.owned
    exact ⟨fun _ => .inr ⟨by omega, hd⟩, by simp [Roots.setProc, hal],
      by simp [Roots.setProc, hcounter], fun _ _ => by omega⟩
  | some c =>
    rw [hc] at hcounter
    simp only [Roots.dec, h.cell _ c hal hcounter, Option.getD_some, decide_eq_true_eq]
    split
    · exact h.recount hp hal hcounter hother hptr (by omega) (.inr ⟨by omega, hd⟩)
    · obtain ⟨ht, hd, hptr, hother⟩ := hgo more hmore (by rw [hnot]; nofun)
      rw [dutyTo_of_none hnot] at hd
      exact h.recount hp hal hcounter hother hptr (by omega) (.inl ⟨by omega, hd⟩)

end

theorem mem_setProc_index {q : Sharer} (h : q ∈ (w.setProc i p').procs) :
    q = p' ∨ ∃ j, i ≠ j ∧ w.procs[j]? = some q := by
  obtain ⟨j, hj⟩ := mem_iff_getElem?.mp h
  exact (getElem?_set_cases hj).imp And.right fun hq => ⟨j, hq⟩

theorem Counted.ne_fresh (h : Counted w) (hfresh : w.cell c = none) {r c' : Nat}
    (hr : w.alive r = true) (hc : w.counterOf r = some c') : c' ≠ c := fun he => by
  have hcell := h.cell r c' hr hc
  rw [he, hfresh] at hcell
  cases hcell

section

variable (h : Counted w) (hp : w.procs[i]? = some p)
include h hp

/-- A root that no other process has gets a new cell. -/
theorem Counted.fresh (hfresh : w.cell c = none) {r n : Nat} (hold : w.alive r = true → w.counterOf r = none)
    (hrefs : ∀ r' ≠ r, p'.refs r' = p.refs r') (hduty : p.duty = none) (hduty' : p'.duty = none)
    (hnone : w.duties r = 0) (hn : (w.setProc i p').total r = n) (hpos : 0 < n)
    (hclaims : ∀ q ∈ (w.setProc i p').procs, ∀ y ∈ q.claims, update w.counterOf r (some c) y.1 = y.2) :
    Counted ((({ w with
      alive := update w.alive r true
      counterOf := update w.counterOf r (some c) } : Roots).setCell c (some n)).setProc i p') := by
  subst hn
  have hself := update_self r (some c) w.counterOf
  have hto : ∀ r, p'.dutyTo r = p.dutyTo r := fun r => by rw [dutyTo_of_none hduty, dutyTo_of_none hduty']
  obtain ⟨-, hd⟩ := counts_setProc hp p' r
  refine h.change r (counts_others hp rfl fun r' hne => ⟨hrefs r' hne, hto r'⟩)
    (fun r' hne => ⟨update_of_ne hne _ _, update_of_ne hne _ _⟩)
    (fun r' c' _ hr hc' => update_of_ne (h.ne_fresh hfresh hr hc') _ _)
    (.of_counter (update_self ..) hself (update_self ..) (.inl ⟨hpos, ?_⟩))
    ⟨hclaims, fun q hq y hy => ?_⟩ (fun r' c' _ hr _ hc' hrc => ?_) fun c' n hn => ?_
  · exact Nat.add_right_cancel (hd.trans (by rw [hto, hnone]))
  · rcases mem_setProc hq with hq | rfl
    · have hne : y.1 ≠ r := fun he => by
        have hone := (h.alive_of_duty hq hy).2.2
        rw [he] at hone
        omega
      exact (update_of_ne hne _ _).trans (h.duty q hq y hy)
    · rw [hduty'] at hy
      cases hy
  · obtain rfl : c = c' := Option.some.inj (hself.symm.trans hc')
    exact h.ne_fresh hfresh hr hrc rfl
  · by_cases he : c' = c
    · subst he
      exact ⟨r, update_self _ _ _, hself⟩
    · obtain ⟨r', hr, hrc⟩ := h.owned c' n ((update_of_ne he _ _).symm.trans hn)
      have hne : r' ≠ r := fun hre => by
        rw [hre, hold (hre ▸ hr)] at hrc
        cases hrc
      exact ⟨r', (update_of_ne hne _ _).trans hr, (update_of_ne hne _ _).trans hrc⟩

end

variable {root : Nat} {rc : Option Nat}

theorem Counted.found (h : Counted w) (hp : w.procs[i]? = some ⟨root, none, .idle⟩) (hfresh : w.cell c = none) :
    Counted (({ w with counterOf := update w.counterOf root (some c) }.setCell c (some 2)).setProc i
      ⟨root, some c, .forking⟩) := by
  have hmem := mem_of_getElem? hp
  obtain ⟨hal, hpos, hnone⟩ := h.alive_of_claim hmem (mem_singleton_self _)
  have hcounter : w.counterOf root = none := h.claim _ hmem (root, none) (mem_singleton_self _)
  have hsole := h.sole root hal hcounter
  simp only at hal hpos hnone
  have hrefs : ∀ r, refs r ⟨root, none, .idle⟩ = if root = r then 1 else 0 := fun r => by
    simp [refs, claims, countP_cons]
  have hrefs' : ∀ r, refs r ⟨root, some c, .forking⟩ = if root = r then 2 else 0 := fun r => by
    simp only [refs, claims, countP_cons, countP_nil, beq_iff_eq]
    split <;> rfl
  have hset := (counts_setProc hp ⟨root, some c, .forking⟩ root).1
  rw [hrefs, hrefs', if_pos rfl, if_pos rfl] at hset
  have htwo : (w.setProc i ⟨root, some c, .forking⟩).total root = 2 := by omega
  have hnew :=
    h.fresh hp hfresh (fun _ => hcounter) (fun r hne => ?_) rfl rfl hnone htwo Nat.two_pos fun q hq y hy => ?_
  · rwa [update_eq_self_iff.mpr hal.symm] at hnew
  · rw [hrefs, hrefs', if_neg hne.symm, if_neg hne.symm]
  · rcases mem_setProc_index hq with rfl | ⟨j, hij, hq⟩
    · obtain rfl : y = (root, some c) := by simpa [claims] using hy
      exact update_self _ _ _
    · -- No other process has a claim on the root.
      have hne : y.1 ≠ root := fun he => by
        have hle : _ + q.refs root ≤ w.total root := add_le_sum hij hp hq
        have hq1 := refs_pos hy
        rw [hrefs, if_pos rfl] at hle
        rw [he] at hq1
        omega
      exact (update_of_ne hne _ _).trans (h.claim q (mem_of_getElem? hq) y hy)

section

variable (h : Counted w)
include h

theorem Counted.enter (hp : w.procs[i]? = some ⟨root, rc, .idle⟩) {r : Nat} (hdead : w.alive r = false)
    (hfresh : w.cell c = none) : Counted ((({ w with
      alive := update w.alive r true
      counterOf := update w.counterOf r (some c) } : Roots).setCell c (some 1)).setProc i
        ⟨r, some c, .switched root rc⟩) := by
  obtain ⟨hzero, hnone⟩ := h.dead r hdead
  have hrefs : ∀ r', refs r' ⟨r, some c, .switched root rc⟩ =
      refs r' ⟨root, rc, .idle⟩ + if r = r' then 1 else 0 := fun r' => by
    simp only [refs, claims, countP_cons, countP_nil, beq_iff_eq, Nat.zero_add]
  have hset := (counts_setProc hp ⟨r, some c, .switched root rc⟩ r).1
  rw [hrefs, if_pos rfl] at hset
  have hkeep : ∀ q ∈ w.procs, ∀ y ∈ q.claims, update w.counterOf r (some c) y.1 = y.2 :=
    fun q hq y hy => by
      have hne : y.1 ≠ r := fun he => by
        have hpos := (h.alive_of_claim hq hy).2.1
        rw [he] at hpos
        omega
      exact (update_of_ne hne _ _).trans (h.claim q hq y hy)
  refine h.fresh hp hfresh (by simp [hdead]) (fun r' hne => ?_) rfl rfl hnone
    (Nat.add_right_cancel (m := refs r ⟨root, rc, .idle⟩) (by omega)) Nat.one_pos fun q hq y hy => ?_
  · rw [hrefs, if_neg hne.symm, Nat.add_zero]
  · rcases mem_setProc hq with hq | rfl
    · exact hkeep q hq y hy
    · rcases mem_cons.mp hy with rfl | hy
      · exact update_self _ _ _
      · exact hkeep _ (mem_of_getElem? hp) y hy

omit h in
theorem release_fields (w : Roots) (r : Nat) (c : Option Nat) :
    (w.release r c).procs = w.procs ∧ (w.release r c).counterOf = w.counterOf ∧
      (w.release r c).alive = update w.alive r false := by
  cases c <;> exact ⟨rfl, rfl, rfl⟩

omit h in
theorem release_cell (w : Roots) (r : Nat) (c : Option Nat) (c' : Nat) :
    (w.release r c).cell c' = if c = some c' then none else w.cell c' := by
  unfold Roots.release
  cases c with
  | none => rfl
  | some c => simp [Roots.setCell, update_apply, eq_comm]

theorem Counted.destroy (hp : w.procs[i]? = some p) (hx : p.duty = some x)
    (hclaims : p'.claims = p.claims) (hduty' : p'.duty = none) : Counted ((w.release x.1 x.2).setProc i p') := by
  have hmem : p ∈ w.procs := mem_of_getElem? hp
  obtain ⟨hal, hzero, hone⟩ := h.alive_of_duty hmem hx
  have hcounter : w.counterOf x.1 = x.2 := h.duty p hmem x hx
  have hrefs : ∀ r, p'.refs r = p.refs r := fun r => by rw [refs, refs, hclaims]
  obtain ⟨hprocs, hcounters, halive⟩ := release_fields w x.1 x.2
  have hset : ((w.release x.1 x.2).setProc i p').procs = (w.setProc i p').procs := congrArg (·.set i p') hprocs
  have hptr : Pointers (w.setProc i p') := h.pointers_set hp (fun y hy => hclaims ▸ hy) (by rw [hduty']; nofun)
  obtain ⟨ht, hd⟩ := counts_of_set hp hset x.1
  rw [hrefs] at ht
  rw [dutyTo_of_some hx, dutyTo_of_none hduty', if_pos rfl, hone] at hd
  have hfalse : (w.release x.1 x.2).alive x.1 = false := by rw [halive, update_self]
  have hkept : ∀ r ≠ x.1, (w.release x.1 x.2).alive r = w.alive r := fun r hne => by rw [halive, update_of_ne hne]
  refine h.change x.1 (counts_others hp hset fun r hne => ⟨hrefs r, ?_⟩)
    (fun r hne => ⟨hkept r hne, congrFun hcounters r⟩) (fun r c' hne hr hc' => ?_) ?_
    ⟨fun q hq y hy => ?_, fun q hq y hy => ?_⟩
    (fun r c' hne hr hxal _ => ?_) fun c' n hn => ?_
  · rw [dutyTo_of_some hx, dutyTo_of_none hduty', if_neg hne.symm]
  · exact (release_cell w x.1 _ _).trans (if_neg fun hc => h.cell_ne hal (hcounter.trans hc) hr hc' hne rfl)
  · refine ⟨fun hr => ?_, fun _ => ⟨(Nat.add_right_cancel ht).trans hzero, Nat.add_right_cancel hd⟩,
      fun c' hr => ?_, fun hr => ?_⟩ <;> cases hfalse.symm.trans hr
  · exact (congrFun hcounters y.1).trans (hptr.claim q (hset ▸ hq) y hy)
  · exact (congrFun hcounters y.1).trans (hptr.duty q (hset ▸ hq) y hy)
  · cases hfalse.symm.trans hxal
  · -- What stays allocated belongs to another root.
    have hn : (w.release x.1 x.2).cell c' = some n := hn
    rw [release_cell] at hn
    split_ifs at hn with hxc
    obtain ⟨r, hr, hrc⟩ := h.owned c' n hn
    have hne : r ≠ x.1 := fun he => hxc (hcounter.symm.trans (he ▸ hrc))
    exact ⟨r, (hkept r hne).trans hr, (congrFun hcounters r).trans hrc⟩

/-- `create_user` succeeds: the reference taken for the child becomes the child's own. -/
theorem Counted.forkDone (hp : w.procs[i]? = some ⟨root, rc, .forking⟩) :
    Counted { w with procs := w.procs.set i ⟨root, rc, .idle⟩ ++ [⟨root, rc, .idle⟩] } := by
  have hmem := mem_of_getElem? hp
  have hptr : Pointers (w.setProc i ⟨root, rc, .idle⟩) := h.pointers_set hp (fun y hy => mem_cons_of_mem _ hy) nofun
  refine h.steady (fun r => ⟨?_, ?_⟩) ⟨fun q hq y hy => ?_, fun q hq y hy => ?_⟩
  · have hset := (counts_setProc hp ⟨root, rc, .idle⟩ r).1
    have hrefs : Sharer.refs r ⟨root, rc, .forking⟩ =
        Sharer.refs r ⟨root, rc, .idle⟩ + Sharer.refs r ⟨root, rc, .idle⟩ :=
      @countP_append _ _ [_] [_]
    have happ :
        (Roots.mk (w.procs.set i ⟨root, rc, .idle⟩ ++ [⟨root, rc, .idle⟩]) w.cell w.alive w.counterOf).total r =
        (w.setProc i ⟨root, rc, .idle⟩).total r + Sharer.refs r ⟨root, rc, .idle⟩ := by
      simp [Roots.total, Roots.setProc]
    omega
  · have hset := (counts_setProc hp ⟨root, rc, .idle⟩ r).2
    rw [dutyTo_of_none rfl, dutyTo_of_none rfl, Nat.add_zero, Nat.add_zero] at hset
    rw [← hset]
    simp [Roots.duties, Roots.setProc, Sharer.dutyTo, Sharer.duty]
  · rcases mem_append.mp hq with hq | hq
    · exact hptr.claim q hq y hy
    · obtain rfl := mem_singleton.mp hq
      exact h.claim _ hmem y (mem_cons_of_mem _ hy)
  · rcases mem_append.mp hq with hq | hq
    · exact hptr.duty q hq y hy
    · obtain rfl := mem_singleton.mp hq
      cases hy

/-- `create_user` fails: the reference taken for the child is dropped again. It is never the last,
since the caller keeps its own, so that `sys_fork` may ignore what `dec_root_refcount` says. -/
theorem Counted.forkFail (hp : w.procs[i]? = some ⟨root, some c, .forking⟩) :
    Counted ((w.dec c).2.setProc i ⟨root, some c, .idle⟩) := by
  have hmem := mem_of_getElem? hp
  have hx : (root, some c) ∈ claims ⟨root, some c, .forking⟩ := mem_cons_self
  have hle : refs root ⟨root, some c, .forking⟩ ≤ w.total root := le_sum hmem
  have htwo : refs root ⟨root, some c, .forking⟩ = 2 := by simp [refs, claims]
  have hcell := h.cell root c (h.alive_of_claim hmem hx).1 (h.claim _ hmem _ hx)
  have hnot : (w.dec c).1 = false := by
    rw [Roots.dec, hcell]
    simp only [Option.getD_some, decide_eq_false_iff_not]
    omega
  -- The branch not taken may be any process with the same claims that has to destroy the root.
  have hdrop : Counted (w.drop i (some c) ⟨root, some c, .releasing root (some c)⟩ ⟨root, some c, .idle⟩) := by
    refine h.drop (x := (root, some c)) hp hx (fun y hy => mem_cons_of_mem _ hy) (fun r => ?_) rfl rfl rfl rfl
    simp only [refs, claims, countP_cons, countP_nil, beq_iff_eq, Nat.zero_add]
  simpa only [Roots.drop, hnot, Bool.false_eq_true, if_false] using hdrop

theorem Counted.exitDrop (hp : w.procs[i]? = some ⟨root, rc, .idle⟩) :
    Counted (w.drop i rc ⟨root, rc, .dying⟩ ⟨root, rc, .dropped⟩) := by
  refine h.drop (x := (root, rc)) hp (mem_singleton_self _) nofun (fun r => ?_) rfl rfl rfl rfl
  simp [refs, claims, countP_cons]

theorem Counted.execDrop {r : Nat} {c : Option Nat} (hp : w.procs[i]? = some ⟨root, rc, .switched r c⟩) :
    Counted (w.drop i c ⟨root, rc, .releasing r c⟩ ⟨root, rc, .idle⟩) := by
  refine h.drop (x := (r, c)) hp (mem_cons_of_mem _ (mem_singleton_self _)) (fun y hy => ?_)
    (fun r' => ?_) rfl rfl rfl rfl
  · exact mem_cons.mpr (.inl (mem_singleton.mp hy))
  · simp only [refs, claims, countP_cons, countP_nil, beq_iff_eq]
    omega

theorem Counted.forkTake (hp : w.procs[i]? = some ⟨root, some c, .idle⟩) :
    Counted ((w.setCell c (some ((w.cell c).getD 0 + 1))).setProc i ⟨root, some c, .forking⟩) := by
  have hmem := mem_of_getElem? hp
  obtain ⟨hal, -, hnone⟩ : w.alive root = true ∧ _ ∧ w.duties root = 0 :=
    h.alive_of_claim hmem (mem_singleton_self _)
  have hcounter : w.counterOf root = some c := h.claim _ hmem (root, some c) (mem_singleton_self _)
  have hrefs : ∀ r, refs r ⟨root, some c, .forking⟩ =
      refs r ⟨root, some c, .idle⟩ + if root = r then 1 else 0 :=
    fun r => by simp only [refs, claims, countP_cons, countP_nil, beq_iff_eq, Nat.zero_add]
  obtain ⟨ht, hd⟩ := counts_setProc hp ⟨root, some c, .forking⟩ root
  rw [hrefs, if_pos rfl] at ht
  rw [h.cell _ c hal hcounter, Option.getD_some]
  refine h.recount hp hal hcounter (fun r hne => ⟨?_, rfl⟩) (h.pointers_set hp (fun y hy => ?_) nofun) ?_
    (.inl ⟨Nat.succ_pos _, hd.trans hnone⟩)
  · rw [hrefs, if_neg hne.symm, Nat.add_zero]
  · simpa [claims] using hy
  · exact Nat.add_right_cancel (m := refs root ⟨root, some c, .idle⟩) (by omega)

end

end Changes

/-! ## What the counter counts -/

/-- `exit` has dropped the reference of the process to its root. -/
def Sharer.hasDropped (p : Sharer) : Bool :=
  match p.phase with
  | .dropped | .dying | .gone => true
  | _ => false

/-- The processes whose `root_pa` is `r` and which have not yet dropped it. -/
def Roots.holders (w : Roots) (r : Nat) : Nat := w.procs.countP fun p => !p.hasDropped && p.rootPa == r

/-- A reference to `r` taken for a child that is not yet linked, or not yet dropped by an exec that
has already switched away. -/
def Sharer.handsOver (r : Nat) (p : Sharer) : Bool :=
  match p.phase with
  | .forking => p.rootPa == r
  | .switched old _ => old == r
  | _ => false

def Roots.handOvers (w : Roots) (r : Nat) : Nat := w.procs.countP (handsOver r)

theorem refs_eq (r : Nat) (p : Sharer) :
    p.refs r = (if (!p.hasDropped && p.rootPa == r) = true then 1 else 0) +
      if p.handsOver r = true then 1 else 0 := by
  obtain ⟨root, refcount, phase⟩ := p
  cases phase <;>
    simp [refs, claims, hasDropped, handsOver, countP_cons, Nat.add_comm]

theorem total_eq (w : Roots) (r : Nat) : w.total r = w.holders r + w.handOvers r := by
  obtain ⟨procs, _, _, _⟩ := w
  unfold Roots.total Roots.holders Roots.handOvers
  induction procs with
  | nil => rfl
  | cons p l ih =>
    have hp := refs_eq r p
    simp only [map_cons, sum_cons, countP_cons] at ih ⊢
    omega

/-- No root is at 0, which `exit` leaves in `root_pa`. -/
structure Placed (w : Roots) : Prop where
  zero : w.alive 0 = false
  gone : ∀ p ∈ w.procs, p.phase = .gone → p.rootPa = 0

/-- What a step other than `destroy` can do, to the process `p` that takes it and to the heap. -/
structure Moves (w : Roots) (a : Act) (u : Roots) (p p' : Sharer) : Prop where
  procs : u.procs = w.procs.set a.index p' ∨
    p'.duty = none ∧ u.procs = w.procs.set a.index p' ++ [p']
  alive : ∀ r, w.alive r = true → u.alive r = true
  zero : w.alive 0 = false → u.alive 0 = false
  cell : ∀ c, w.cell c ≠ none → u.cell c ≠ none
  gone : p'.phase = .gone → p'.rootPa = 0
  duty : ∀ x, p'.duty = some x → x ∈ p.claims ∧
    (a = .execDrop a.index ∨ a = .exitDrop a.index) ∧ ∀ c, x.2 = some c → (w.cell c).getD 0 = 1

theorem update_ne_none {f : Nat → Option Nat} {c' n : Nat} (h : f c' ≠ none) : update f c (some n) c' ≠ none := by
  by_cases he : c' = c
  · subst he
    rw [update_self]
    nofun
  · rwa [update_of_ne he]

theorem moves_drop {last more : Sharer} (hx : x ∈ p.claims)
    (ha : a = .execDrop a.index ∨ a = .exitDrop a.index) (hlast : last.duty = some x)
    (hlive : last.phase ≠ .gone) (hmore : more.duty = none) (hnot : more.phase ≠ .gone) :
    ∃ p', Moves w a (w.drop a.index x.2 last more) p p' := by
  have hdec : ∀ (c c' : Nat) (q : Sharer), w.cell c' ≠ none →
      ((w.dec c).2.setProc a.index q).cell c' ≠ none := fun c c' q h => update_ne_none h
  unfold Roots.drop
  cases hc : x.2 with
  | none =>
    refine ⟨last, .inl rfl, fun _ => id, id, fun _ => id, fun h => absurd h hlive, fun y hy => ?_⟩
    obtain rfl := Option.some.inj (hlast.symm.trans hy)
    refine ⟨hx, ha, fun c hc' => ?_⟩
    rw [hc] at hc'
    cases hc'
  | some c =>
    simp only
    split
    · rename_i hone
      refine ⟨last, .inl rfl, fun _ => id, id, fun c' => hdec c c' last, fun h => absurd h hlive, fun y hy => ?_⟩
      obtain rfl := Option.some.inj (hlast.symm.trans hy)
      refine ⟨hx, ha, fun c' hc' => ?_⟩
      obtain rfl : c = c' := Option.some.inj (hc.symm.trans hc')
      exact of_decide_eq_true hone
    · refine ⟨more, .inl rfl, fun _ => id, id, fun c' => hdec c c' more, fun h => absurd h hnot, fun y hy => ?_⟩
      rw [hmore] at hy
      cases hy

/-- Every step keeps the invariant. -/
theorem Counted.step_moves (h : Counted w) (hstep : sharing.step w a = some u) :
    Counted u ∧ ((∃ i p x p', a = .destroy i ∧ w.procs[i]? = some p ∧ p.duty = some x ∧
        u = (w.release x.1 x.2).setProc i p' ∧ p'.duty = none ∧ (p'.phase = .gone → p'.rootPa = 0)) ∨
      (∀ i, a ≠ .destroy i) ∧ ∃ p p', w.procs[a.index]? = some p ∧ Moves w a u p p') := by
  obtain ⟨⟨root, rc, phase⟩, hp, hat⟩ := Option.bind_eq_some_iff.mp hstep
  cases a with simp only [stepAt] at hat
  | forkTake i k =>
    cases rc with simp only at hat
    | some c =>
      split_ifs at hat with hphase
      cases not_not.mp hphase
      cases hat
      exact ⟨h.forkTake hp, .inr
        ⟨nofun, _, _, hp, .inl rfl, fun _ => id, id, fun _ => update_ne_none, nofun, nofun⟩⟩
    | none =>
      split_ifs at hat with hphase hfresh
      cases not_not.mp hphase
      cases hat
      exact ⟨h.found hp (not_not.mp hfresh),
        .inr ⟨nofun, _, _, hp, .inl rfl, fun _ => id, id, fun _ => update_ne_none, nofun, nofun⟩⟩
  | forkDone i =>
    split_ifs at hat with hphase
    cases not_not.mp hphase
    cases hat
    exact ⟨h.forkDone hp, .inr
      ⟨nofun, _, _, hp, .inr ⟨rfl, rfl⟩, fun _ => id, id, fun _ => id, nofun, nofun⟩⟩
  | forkFail i =>
    split_ifs at hat with hphase
    cases not_not.mp hphase
    cases rc with
    | none => cases hat
    | some c =>
      cases hat
      exact ⟨h.forkFail hp, .inr
        ⟨nofun, _, _, hp, .inl rfl, fun _ => id, id, fun _ => update_ne_none, nofun, nofun⟩⟩
  | execSwitch i r c =>
    split_ifs at hat with hguard
    cases hat
    simp only [not_or, not_not, Bool.not_eq_true] at hguard
    obtain ⟨rfl, hdead, hne, hfresh⟩ := hguard
    refine ⟨h.enter hp hdead hfresh, .inr ⟨nofun, _, _, hp, .inl rfl, fun r' hr => ?_, fun hzero => ?_,
      fun _ => update_ne_none, nofun, nofun⟩⟩
    · by_cases he : r' = r
      · subst he
        exact update_self _ _ _
      · exact (update_of_ne he _ _).trans hr
    · exact (update_of_ne (Ne.symm hne) _ _).trans hzero
  | execDrop i =>
    split at hat
    · rename_i r c
      cases hat
      have hmoves :
          ∃ p', Moves w (.execDrop i) (w.drop i c ⟨root, rc, .releasing r c⟩ ⟨root, rc, .idle⟩) _ p' :=
        moves_drop (a := .execDrop i) (x := (r, c)) (p := ⟨root, rc, .switched r c⟩)
          (mem_cons_of_mem _ (mem_singleton_self _)) (.inl rfl) rfl nofun rfl nofun
      exact ⟨h.execDrop hp, .inr ⟨nofun, _, hmoves.imp fun _ hm => ⟨hp, hm⟩⟩⟩
    · cases hat
  | exitDrop i =>
    split_ifs at hat with hphase
    cases not_not.mp hphase
    cases hat
    have hmoves : ∃ p', Moves w (.exitDrop i) (w.drop i rc ⟨root, rc, .dying⟩ ⟨root, rc, .dropped⟩) _ p' :=
      moves_drop (a := .exitDrop i) (x := (root, rc)) (p := ⟨root, rc, .idle⟩)
        (mem_singleton_self _) (.inr rfl) rfl nofun rfl nofun
    exact ⟨h.exitDrop hp, .inr ⟨nofun, _, hmoves.imp fun _ hm => ⟨hp, hm⟩⟩⟩
  | destroy i =>
    split at hat
    · rename_i r c
      cases hat
      exact ⟨h.destroy (x := (r, c)) hp rfl rfl rfl, .inl ⟨i, _, (r, c), _, rfl, hp, rfl, rfl, rfl, nofun⟩⟩
    · cases hat
      exact ⟨h.destroy (x := (root, rc)) hp rfl rfl rfl,
        .inl ⟨i, _, (root, rc), _, rfl, hp, rfl, rfl, rfl, fun _ => rfl⟩⟩
    · cases hat
  | clear i =>
    split_ifs at hat with hphase
    cases not_not.mp hphase
    cases hat
    exact ⟨h.steady (counts_setProc hp _) (h.pointers_set hp nofun nofun),
      .inr ⟨nofun, _, _, hp, .inl rfl, fun _ => id, id, fun _ => id, fun _ => rfl, nofun⟩⟩

theorem Placed.step (h : Placed w) (hcount : Counted w) (hstep : sharing.step w a = some u) : Placed u := by
  rcases (hcount.step_moves hstep).2 with ⟨i, p, x, p', rfl, -, -, rfl, -, hgone⟩ | ⟨-, p, p', -, hm⟩
  · obtain ⟨hprocs, -, halive⟩ := release_fields w x.1 x.2
    refine ⟨?_, fun q hq hphase => ?_⟩
    · show (w.release x.1 x.2).alive 0 = false
      rw [halive, update_apply]
      split
      · rfl
      · exact h.zero
    · rcases mem_setProc hq with hq | rfl
      · exact h.gone q (hprocs ▸ hq) hphase
      · exact hgone hphase
  · refine ⟨hm.zero h.zero, fun q hq hphase => ?_⟩
    have hq : q ∈ w.procs ∨ q = p' := by
      rcases hm.procs with hprocs | ⟨-, hprocs⟩
      · exact mem_or_eq_of_mem_set (hprocs ▸ hq)
      · rcases mem_append.mp (hprocs ▸ hq) with hq | hq
        · exact mem_or_eq_of_mem_set hq
        · exact .inr (mem_singleton.mp hq)
    rcases hq with hq | rfl
    · exact h.gone q hq hphase
    · exact hm.gone hphase

/-! ## The end of a root -/

/-- What process `i` finds and leaves when it destroys root `r` with counter `c`. -/
structure Destroys (w u : Roots) (i r : Nat) (c : Option Nat) : Prop where
  owner : ∃ p, w.procs[i]? = some p ∧ p.duty = some (r, c)
  before : w.alive r = true
  unused : w.holders r + w.handOvers r = 0
  counter : ∀ c', c = some c' → w.cell c' = some 0
  others : ∀ j q, j ≠ i → w.procs[j]? = some q → q.rootPa ≠ r ∧ ∀ c', q.duty ≠ some (r, c')
  after : u.alive r = false
  freed : ∀ c', c = some c' → u.cell c' = none

/-- When process `i` destroys a root, no other process stands in `exit` between its decrement, which
was not the last, and the line that clears its `root_pa`. -/
def noneLeft (w : Roots) : Act → Bool
  | .destroy i =>
    match (w.procs[i]?).bind duty with
    | some x => (w.procs.eraseIdx i).all fun q => !(q.phase == .dropped && q.rootPa == x.1)
    | none => true
  | _ => true

theorem claim_of_not_hasDropped (h : p.hasDropped = false) : (p.rootPa, p.refcount) ∈ p.claims := by
  obtain ⟨root, refcount, phase⟩ := p
  cases phase <;> simp_all [claims, hasDropped]

theorem destroys_of_duty (h : Counted w) (hz : Placed w) (hok : noneLeft w (.destroy i) = true)
    (hp : w.procs[i]? = some p) (hx : p.duty = some x) :
    Destroys w ((w.release x.1 x.2).setProc i p') i x.1 x.2 := by
  obtain ⟨hal, hzero, hone⟩ := h.alive_of_duty (mem_of_getElem? hp) hx
  obtain ⟨-, -, halive⟩ := release_fields w x.1 x.2
  have hdropped : ∀ q ∈ w.procs.eraseIdx i, q.phase = .dropped → q.rootPa ≠ x.1 := by
    intro q hq hphase he
    simp only [noneLeft, hp, Option.bind_some, hx, all_eq_true] at hok
    simpa [hphase, he] using hok q hq
  have hduty : ∀ j q, j ≠ i → w.procs[j]? = some q → ∀ c', q.duty ≠ some (x.1, c') := by
    intro j q hj hq c' hd
    have hle : q.dutyTo x.1 + p.dutyTo x.1 ≤ w.duties x.1 := add_le_sum hj hq hp
    rw [dutyTo_of_some hd, dutyTo_of_some hx, if_pos rfl] at hle
    omega
  refine ⟨⟨p, hp, hx⟩, hal, ?_, fun c' hc' => ?_, fun j q hj hq => ⟨fun he => ?_, hduty j q hj hq⟩, ?_,
    fun c' hc' => (release_cell w x.1 _ _).trans (if_pos hc')⟩
  · rw [← total_eq]
    exact hzero
  · rw [h.cell x.1 c' hal ((h.duty p (mem_of_getElem? hp) x hx).trans hc'), hzero]
  · -- Any phase in which the other process still had the root contradicts the counts.
    have hqm : q ∈ w.procs := mem_of_getElem? hq
    cases hd : q.hasDropped with
    | false =>
      have hpos := (h.alive_of_claim hqm (claim_of_not_hasDropped hd)).2.1
      simp only [he] at hpos
      omega
    | true =>
      cases hphase : q.phase with
      | dropped =>
        exact hdropped q (mem_eraseIdx_iff_getElem?.mpr ⟨j, hj, hq⟩) hphase he
      | dying =>
        refine hduty j q hj hq q.refcount ?_
        rw [duty, hphase, he]
      | gone =>
        have hz0 := hz.zero
        rw [← hz.gone q hqm hphase, he, hal] at hz0
        cases hz0
      | _ =>
        rw [hasDropped, hphase] at hd
        cases hd
  · show (w.release x.1 x.2).alive x.1 = false
    rw [halive, update_self]

/-- Processes as `create_user` makes them: each has a root of its own and, if it has a counter, one
of its own that holds 1. -/
structure Unshared (w : Roots) : Prop where
  idle : ∀ p ∈ w.procs, p.phase = .idle
  roots : (w.procs.map rootPa).Nodup
  alive : ∀ r, w.alive r = true ↔ r ∈ w.procs.map rootPa
  zero : 0 ∉ w.procs.map rootPa
  counterOf : ∀ p ∈ w.procs, w.counterOf p.rootPa = p.refcount
  one : ∀ p ∈ w.procs, ∀ c, p.refcount = some c → w.cell c = some 1
  apart : ∀ p ∈ w.procs, ∀ q ∈ w.procs, ∀ c, p.refcount = some c → q.refcount = some c → p = q
  owned : ∀ c n, w.cell c = some n → ∃ p ∈ w.procs, p.refcount = some c

theorem total_idle (r : Nat) : ∀ {l : List Sharer}, (∀ p ∈ l, p.phase = .idle) →
    (l.map (refs r)).sum = (l.map rootPa).count r
  | [], _ => rfl
  | p :: l, h => by
    have hp : p.refs r = if p.rootPa = r then 1 else 0 := by
      rw [refs, claims, h p mem_cons_self]
      simp only [countP_cons, countP_nil, beq_iff_eq, Nat.zero_add]
    rw [map_cons, sum_cons, total_idle r fun q hq => h q (mem_cons_of_mem _ hq), hp, map_cons, count_cons, Nat.add_comm]
    simp only [beq_iff_eq]

theorem duties_idle (r : Nat) (h : ∀ p ∈ l, p.phase = .idle) : (l.map (dutyTo r)).sum = 0 := by
  refine sum_eq_zero fun n hn => ?_
  obtain ⟨p, hp, rfl⟩ := mem_map.mp hn
  exact dutyTo_of_none (by rw [duty, h p hp]) r

theorem Unshared.counted (h : Unshared w) : Counted w := by
  have htotal : ∀ r, w.total r = (w.procs.map rootPa).count r := fun r => total_idle r h.idle
  have hduties : ∀ r, w.duties r = 0 := fun r => duties_idle r h.idle
  have hone : ∀ r, w.alive r = true → w.total r = 1 := fun r hr => by
    rw [htotal]
    exact count_eq_one_of_mem h.roots ((h.alive r).mp hr)
  have howner : ∀ r c, w.alive r = true → w.counterOf r = some c →
      ∃ p ∈ w.procs, p.rootPa = r ∧ p.refcount = some c := fun r c hr hc => by
    obtain ⟨p, hp, rfl⟩ := mem_map.mp ((h.alive r).mp hr)
    exact ⟨p, hp, rfl, (h.counterOf p hp).symm.trans hc⟩
  refine ⟨fun r hr => ?_, fun r hr => ?_, fun p hp x hx => ?_, fun p hp x hx => ?_, fun r c hr hc => ?_,
    fun r hr _ => ?_, fun r r' c hr hr' hc hc' => ?_, fun c n hc => ?_⟩
  · have := hone r hr
    have := hduties r
    omega
  · refine ⟨?_, hduties r⟩
    rw [htotal]
    refine count_eq_zero_of_not_mem fun hm => ?_
    rw [(h.alive r).mpr hm] at hr
    cases hr
  · rw [claims, h.idle p hp] at hx
    obtain rfl := mem_singleton.mp hx
    exact h.counterOf p hp
  · rw [duty, h.idle p hp] at hx
    cases hx
  · obtain ⟨p, hp, -, hpc⟩ := howner r c hr hc
    rw [hone r hr]
    exact h.one p hp c hpc
  · rw [hone r hr, hduties]
  · obtain ⟨p, hp, rfl, hpc⟩ := howner r c hr hc
    obtain ⟨q, hq, rfl, hqc⟩ := howner r' c hr' hc'
    rw [h.apart p hp q hq c hpc hqc]
  · obtain ⟨p, hp, hpc⟩ := h.owned c n hc
    exact ⟨p.rootPa, (h.alive _).mpr (mem_map_of_mem hp), (h.counterOf p hp).trans hpc⟩

theorem Unshared.placed (h : Unshared w) : Placed w := by
  refine ⟨?_, fun p hp hphase => ?_⟩
  · rw [← Bool.not_eq_true]
    exact fun hz => h.zero ((h.alive 0).mp hz)
  · rw [h.idle p hp] at hphase
    cases hphase

/-- What holds in a state for the counters of all roots. -/
structure Agrees (w : Roots) : Prop where
  /-- A root somebody has exists, and its cell holds the number of references to it; without a cell
  there is one reference. -/
  counter : ∀ p ∈ w.procs, ∀ x ∈ p.claims, w.alive x.1 = true ∧
    (∀ c, x.2 = some c → w.cell c = some (w.holders x.1 + w.handOvers x.1)) ∧
    (x.2 = none → w.holders x.1 + w.handOvers x.1 = 1)
  /-- A root nobody has any more is still to be destroyed, by one process. -/
  pending : ∀ r, w.alive r = true → w.holders r + w.handOvers r = 0 → w.duties r = 1

/-- What a step does to roots and cells. -/
structure EndsRoots (w : Roots) (a : Act) (u : Roots) : Prop where
  destroys : ∀ i, a = .destroy i → ∃ r c, Destroys w u i r c
  roots : ∀ r, w.alive r = true → u.alive r = false → ∃ i c, a = .destroy i ∧ Destroys w u i r c
  cells : ∀ c n, w.cell c = some n → u.cell c = none →
    ∃ i r, a = .destroy i ∧ Destroys w u i r (some c)
  /-- Who has to destroy a root is the process whose decrement reached zero. -/
  last : ∀ i p' x, u.procs[i]? = some p' → p'.duty = some x → ∃ p, w.procs[i]? = some p ∧
    (p.duty = some x ∨ x ∈ p.claims ∧ (a = .execDrop i ∨ a = .exitDrop i) ∧
      ∀ c, x.2 = some c → w.cell c = some 1)

theorem Counted.agrees (h : Counted w) : Agrees w := by
  refine ⟨fun p hp x hx => ?_, fun r hr hzero => ?_⟩
  · obtain ⟨hal, -, hnone⟩ := h.alive_of_claim hp hx
    have hcounter := h.claim p hp x hx
    rw [← total_eq]
    refine ⟨hal, fun c hc => h.cell _ c hal (hcounter.trans hc), fun hc => ?_⟩
    have := h.sole _ hal (hcounter.trans hc)
    omega
  · rw [← total_eq] at hzero
    rcases h.alive r hr with hc | hc
    · omega
    · exact hc.2

theorem Counted.endsRoots (h : Counted w) (hz : Placed w)
    (hok : noneLeft w a = true) (hstep : sharing.step w a = some u) : EndsRoots w a u := by
  rcases (h.step_moves hstep).2 with ⟨i, p, ⟨r, c⟩, p', rfl, hp, hx, rfl, hnone, -⟩ | ⟨hnot, p, p', hp, hm⟩
  · have hd : Destroys w ((w.release r c).setProc i p') i r c := destroys_of_duty h hz hok hp hx
    obtain ⟨hprocs, -, halive⟩ := release_fields w r c
    refine ⟨fun j hj => ?_, fun r' hr hr' => ?_, fun c' n hc hc' => ?_, fun j q y hq hy => ?_⟩
    · cases hj
      exact ⟨r, c, hd⟩
    · by_cases he : r' = r
      · subst he
        exact ⟨i, c, rfl, hd⟩
      · rw [Roots.setProc, halive, update_of_ne he, hr] at hr'
        cases hr'
    · by_cases he : c = some c'
      · subst he
        exact ⟨i, r, rfl, hd⟩
      · rw [Roots.setProc, release_cell, if_neg he, hc] at hc'
        cases hc'
    · rw [Roots.setProc, hprocs] at hq
      rcases getElem?_set_cases hq with ⟨rfl, rfl⟩ | ⟨-, hq⟩
      · rw [hnone] at hy
        cases hy
      · exact ⟨q, hq, .inl hy⟩
  · refine ⟨fun j hj => absurd hj (hnot j), fun r hr hr' => ?_, fun c n hc hc' => ?_, fun j q x hq hx => ?_⟩
    · rw [hm.alive r hr] at hr'
      cases hr'
    · refine absurd hc' (hm.cell c ?_)
      rw [hc]
      nofun
    · have hwas : j = a.index ∧ q = p' ∨ a.index ≠ j ∧ w.procs[j]? = some q := by
        rcases hm.procs with hprocs | ⟨hnone, hprocs⟩
        · exact getElem?_set_cases (hprocs ▸ hq)
        · rw [hprocs, getElem?_append] at hq
          split at hq
          · exact getElem?_set_cases hq
          · obtain rfl := mem_singleton.mp (mem_of_getElem? hq)
            rw [hnone] at hx
            cases hx
      rcases hwas with ⟨rfl, rfl⟩ | ⟨-, hq⟩
      · obtain ⟨hclaim, ha, hcell⟩ := hm.duty x hx
        refine ⟨p, hp, .inr ⟨hclaim, ha, fun c hc => ?_⟩⟩
        have hpm := mem_of_getElem? hp
        have hal := (h.alive_of_claim hpm hclaim).1
        have hval := h.cell _ c hal ((h.claim p hpm x hclaim).trans hc)
        have hone := hcell c hc
        rw [hval, Option.getD_some] at hone
        rw [hval, hone]
      · exact ⟨q, hq, .inl hx⟩

/-- In every run in which no root is destroyed under a process that still has it in `root_pa`, the
cells agree with the references in every state, and every root is destroyed, and its cell freed, by
the one process whose decrement reached zero, when no process has it any more. -/
theorem shared_root_released_once {w₀ w : Roots} (h0 : Unshared w₀)
    (hrun : sharing.Reach (fun v a => noneLeft v a = true) w₀ w) :
    Agrees w ∧ ∀ a u, noneLeft w a = true → sharing.step w a = some u → EndsRoots w a u := by
  have hinv : Counted w ∧ Placed w :=
    hrun.invariant (I := fun v => Counted v ∧ Placed v) ⟨h0.counted, h0.placed⟩
      fun h _ hstep => ⟨(h.1.step_moves hstep).1, h.2.step h.1 hstep⟩
  exact ⟨hinv.1.agrees, fun a u hok hstep => hinv.1.endsRoots hinv.2 hok hstep⟩

def oneProcess : Roots where
  procs := [{ rootPa := 9, refcount := some 2, phase := .idle }]
  cell c := if c = 2 then some 1 else none
  alive r := r == 9
  counterOf r := if r = 9 then some 2 else none

theorem oneProcess_unshared : Unshared oneProcess := by
  have hmem : ∀ {p}, p ∈ oneProcess.procs → p = { rootPa := 9, refcount := some 2, phase := .idle } :=
    mem_singleton.mp
  refine ⟨fun p hp => ?_, by decide, fun r => by simp [oneProcess], by decide, fun p hp => ?_,
    fun p hp c hc => ?_, fun p hp q hq c _ _ => (hmem hp).trans (hmem hq).symm, fun c n hc => ?_⟩
  · rw [hmem hp]
  · rw [hmem hp]
    rfl
  · rw [hmem hp] at hc
    cases hc
    rfl
  · have hc : (if c = 2 then some 1 else none) = some n := hc
    split at hc
    · subst_vars
      exact ⟨_, mem_singleton_self _, rfl⟩
    · cases hc

/-- A fork, an exec of the child and the exit of the parent, each to its end. -/
theorem shared_root_released_once_oneProcess : ∃ w,
    sharing.Reach (fun v a => noneLeft v a = true) oneProcess w ∧ w.alive 9 = false ∧
      w.alive 12 = true ∧ Agrees w := by
  refine Machine.exists_reach_imp (P := fun w => w.alive 9 = false ∧ w.alive 12 = true)
    [.forkTake 0 3, .forkDone 0, .execSwitch 1 12 4, .execDrop 1, .exitDrop 0, .destroy 0] (by decide) ?_
  rintro w hrun ⟨h9, h12⟩
  exact ⟨h9, h12, (shared_root_released_once oneProcess_unshared hrun).1⟩

/-- Two processes share a root. One has dropped it in `exit` and not yet cleared `root_pa` when the
other drops the last reference and destroys the root. -/
theorem root_destroyed_under_sharer : ∃ w u,
    sharing.Reach Machine.always oneProcess w ∧ sharing.step w (.destroy 1) = some u ∧
      (w.procs[0]?).map rootPa = some 9 ∧ w.alive 9 = true ∧ u.alive 9 = false ∧
      (u.procs[0]?).map rootPa = some 9 := by
  obtain ⟨w, hrun, hroot, hal, hnext⟩ : ∃ w, sharing.Reach Machine.always oneProcess w ∧
      (w.procs[0]?).map rootPa = some 9 ∧ w.alive 9 = true ∧
      ((sharing.step w (.destroy 1)).any fun u =>
        u.alive 9 = false ∧ (u.procs[0]?).map rootPa = some 9) = true :=
    Machine.exists_reach_of_play [.forkTake 0 3, .forkDone 0, .exitDrop 0, .exitDrop 1] (by decide)
  obtain ⟨u, hu, hend⟩ := Option.any_eq_true .. |>.mp hnext
  obtain ⟨hend, hroot'⟩ := of_decide_eq_true hend
  exact ⟨w, u, hrun, hu, hroot, hal, hend, hroot'⟩

end RootCount
