import OnyxKernel.Proc.Placement

/-!
# What `wait` reports and when a node is freed

`exit` publishes `Exited` in its first section and stores the exit code and leaves the processor
later. `wait` and `sys_waitpid` look only at the state. If they meet no child that is still current
on a hart, a status they report is the code given to `exit`, and no node is freed too early.
-/

namespace Sched

open Infra Proc Function List

variable {n : Nat} {L : List Nat} {t t' : Table n} {p q : Nat} {h : Fin n}

/-! ## Exited processes -/

/-- A section of hart `h` that ends no process, revives none and stores no exit code. -/
structure Fair (h : Fin n) (t t' : Table n) : Prop where
  exited : ∀ q, (t'.node q).state = .exited ↔ (t.node q).state = .exited
  code : ∀ q, (t'.node q).exitCode = (t.node q).exitCode
  current : ∀ q, (t'.node q).state = .exited → t'.current h = some q → t.current h = some q

theorem Fair.refl (h : Fin n) (t : Table n) : Fair h t t := ⟨fun _ => Iff.rfl, fun _ => rfl, fun _ _ => id⟩

theorem Fair.trans {t'' : Table n} (h1 : Fair h t t') (h2 : Fair h t' t'') : Fair h t t'' :=
  ⟨fun q => (h2.exited q).trans (h1.exited q), fun q => (h2.code q).trans (h1.code q),
    fun q hq hc => h1.current q ((h2.exited q).mp hq) (h2.current q hq hc)⟩

theorem setState_exitCode (t : Table n) (p q : Nat) (st : ProcState) :
    ((t.setState p st).node q).exitCode = (t.node q).exitCode :=
  setNode_field t p q Node.exitCode rfl

theorem fair_setState (h : Fin n) {st : ProcState} (hp : (t.node p).state ≠ .exited) (hst : st ≠ .exited) :
    Fair h t (t.setState p st) := by
  refine ⟨fun q => ?_, fun q => setState_exitCode t p q st, fun _ _ => id⟩
  by_cases hq : q = p
  · subst hq
    rw [setState_self]
    exact ⟨fun hc => absurd hc hst, fun hc => absurd hc hp⟩
  · rw [setState_of_ne t p st hq]

theorem Requeued.fair (hr : Requeued t t') (h : Fin n) : Fair h t t' :=
  ⟨fun q => by rw [hr.state], hr.field Node.exitCode fun _ => rfl, fun _ _ hc => hr.current ▸ hc⟩

theorem fair_across (h : Fin n) (t : Table n) : Across h (fun p => (t.node p).state ≠ .exited)
    (fun t' => Fair h t t' ∧ ∀ h' q, q ∈ t'.rq h' → (t.node q).state ≠ .exited) where
  ready hp hf := ⟨hf.1.trans (fair_setState h (mt (hf.1.exited _).mp hp) nofun), hf.2⟩
  running hp hf := ⟨hf.1.trans (fair_setState h (mt (hf.1.exited _).mp hp) nofun), hf.2⟩
  setCurrent hc hf := ⟨⟨hf.1.exited, hf.1.code, fun q hq hcur =>
    absurd ((hf.1.exited q).mp hq) (hc q ((setCurrent_self ..).symm.trans hcur))⟩, hf.2⟩
  enqueue h' hp hf := ⟨hf.1.trans ((requeued_enqueue ..).fair h), fun h'' q hq =>
    (mem_enqueue hq).elim (hf.2 h'' q) fun he => he ▸ hp⟩
  dequeue hd hf := ⟨⟨hf.1.trans ((requeued_dequeue hd).fair h), fun h'' q hq =>
    hf.2 h'' q ((mem_dequeue hd).1 h'' q hq)⟩, fun p hp => hf.2 _ p ((mem_dequeue hd).2 p hp)⟩
  found hf hp he := by simp [(hf.1.exited _).mpr he] at hp
  reparent _ hf := ⟨hf.1.trans ⟨fun q => by rw [reparent_state], reparent_field Node.exitCode (fun _ => rfl) _ _,
    fun _ _ => id⟩, hf.2⟩
  unlink _ hf := ⟨hf.1.trans ⟨fun _ => Iff.rfl, fun _ => rfl, fun _ _ => id⟩, hf.2⟩

theorem run_running (t : Table n) (h : Fin n) (p : Nat) :
    ∀ q, (t.run h p).current h = some q → ((t.run h p).node q).state = .running := by
  intro q hq
  obtain rfl := Option.some.inj ((setCurrent_self (t.setState p .running) h (some p)).symm.trans hq)
  exact setState_self t p .running

theorem yieldFirst_running (t : Table n) (h : Fin n) (remote : Bool) : (t.yieldFirst h remote).1 = true →
    ∀ q, (t.yieldFirst h remote).2.current h = some q → ((t.yieldFirst h remote).2.node q).state = .running := by
  unfold Table.yieldFirst
  simp only
  split
  · nofun
  · rename_i p t2 hd
    generalize t2.enqueue _ p = t3
    split_ifs with hnot hself
    · nofun
    · rintro - q hq
      obtain rfl := Option.some.inj (hself.symm.trans hq)
      exact setState_self ..
    · exact fun _ => run_running t2 h p
    · split
      · nofun
      · exact fun _ => run_running _ h _

theorem settle_live (t : Table n) (h : Fin n) :
    ∀ q, (t.settle h).current h = some q → ((t.settle h).node q).state ≠ .exited := by
  unfold Table.settle
  split
  · exact fun q hq => by simp [run_running _ h _ q hq]
  · rename_i t2 hd
    cases hc : t2.current h with
    | none => simp [hc]
    | some p =>
      simp only
      split
      · exact fun q hq => nomatch (setCurrent_self t2 h none).symm.trans hq
      · intro q hq
        obtain rfl := Option.some.inj (hc.symm.trans hq)
        simp [setState_self]
      · rename_i hne _
        intro q hq
        exact Option.some.inj (hc.symm.trans hq) ▸ hne

/-! ## The invariant -/

def Pc.alive : Pc → Bool
  | .run | .sigFound .. | .wake _ | .link _ | .exitFound .. | .reap _ => true
  | _ => false

/-- A hart that is here is neither in `exit` nor about to free a child. -/
def Pc.plain : Pc → Bool
  | .exitFound .. | .exitPublished .. | .exitCoded _ | .exitFree _ | .reap _ => false
  | _ => true

/-- An exit code is missing only while `exit` is about to store it, and every child reported has
left its hart for good. -/
structure Told (w : Harts n) : Prop where
  live : ∀ h p, (w.pc h).alive = true → w.table.current h = some p → (w.table.node p).state ≠ .exited
  found : ∀ h p c, w.pc h = .exitFound p c → w.exits p = some c
  published : ∀ h p c, w.pc h = .exitPublished p c → w.exits p = some c ∧ (w.table.node p).state = .exited
  coded : ∀ h p, w.pc h = .exitCoded p → (w.table.node p).state = .exited
  noFree : ∀ h p, w.pc h ≠ .exitFree p
  ended : ∀ p, (w.table.node p).state = .exited →
    ∃ c, w.exits p = some c ∧ ((w.table.node p).exitCode = c ∨ ∃ h, w.pc h = .exitPublished p c)
  reported : ∀ x ∈ w.reports, (w.table.node x.1).state = .exited ∧ w.exits x.1 = some x.2 ∧
    x.1 ∉ w.table.allProcs ∧ ∀ h, w.table.current h ≠ some x.1
  once : (w.reports.map Prod.fst).Nodup
  listed : w.table.allProcs.Nodup
  reaping : ∀ h p, w.pc h = .reap p → p ∈ w.reports.map Prod.fst

variable {w u : Harts n} {pc : Pc} {h' : Fin n} {code : Int}

theorem go_pc (w : Harts n) (h h' : Fin n) (pc : Pc) (t : Table n) :
    (w.go h pc t).pc h' = if h' = h then pc else w.pc h' :=
  update_apply ..

/-- What is true of where a hart is after a step of `h`. -/
theorem go_cases {P : Pc → Prop} (hp : P (update w.pc h pc h')) : h' = h ∧ P pc ∨ h' ≠ h ∧ P (w.pc h') := by
  by_cases he : h' = h
  · rw [he, update_self] at hp
    exact .inl ⟨he, hp⟩
  · rw [update_of_ne he] at hp
    exact .inr ⟨he, hp⟩

theorem pc_of_go {pc' : Pc} (hp : update w.pc h pc h' = pc') (hne : pc' ≠ pc) : w.pc h' = pc' :=
  (go_cases (P := (· = pc')) hp).elim (fun hp => absurd hp.2.symm hne) And.right

theorem go_of_pc {pc' : Pc} (hp : w.pc h' = pc') (hne : w.pc h ≠ pc') : update w.pc h pc h' = pc' :=
  (update_of_ne (fun he : h' = h => hne (he ▸ hp)) _ _).trans hp

theorem Told.reported_go (ht : Told w) (hk : Keeps h w.table t) (hf : Fair h w.table t) :
    ∀ x ∈ w.reports, (t.node x.1).state = .exited ∧ w.exits x.1 = some x.2 ∧ x.1 ∉ t.allProcs ∧
      ∀ h, t.current h ≠ some x.1 := by
  intro x hx
  obtain ⟨hst, hex, hnot, hcur⟩ := ht.reported x hx
  have hst' := (hf.exited x.1).mpr hst
  refine ⟨hst', hex, fun hm => hnot (hk.listed.subset hm), fun h' hc => ?_⟩
  by_cases he : h' = h
  · subst he
    exact hcur h' (hf.current x.1 hst' hc)
  · rw [hk.others h' he] at hc
    exact hcur h' hc

theorem Told.go (ht : Told w) (hk : Keeps h w.table t) (hf : Fair h w.table t)
    (hold : ∀ p c, w.pc h ≠ .exitPublished p c) (hplain : pc.plain = true)
    (hlive : pc.alive = true → ∀ p, t.current h = some p → (t.node p).state ≠ .exited) :
    Told (w.go h pc t) := by
  -- Only the other harts can be in `exit` or `wait` afterwards.
  have hother : ∀ h' pc', (w.go h pc t).pc h' = pc' → pc'.plain = false → w.pc h' = pc' := by
    intro h' pc' hp hnot
    rw [go_pc] at hp
    split_ifs at hp
    · rw [hp, hnot] at hplain
      cases hplain
    · exact hp
  refine ⟨fun h' p hal hc => ?_, fun h' p c hp => ht.found h' p c (hother h' _ hp rfl),
    fun h' p c hp => ?_, fun h' p hp => (hf.exited p).mpr (ht.coded h' p (hother h' _ hp rfl)),
    fun h' p hp => ht.noFree h' p (hother h' _ hp rfl), fun p hp => ?_, ht.reported_go hk hf, ht.once,
    hk.listed.nodup ht.listed, fun h' p hp => ht.reaping h' p (hother h' _ hp rfl)⟩
  · rw [go_pc] at hal
    split_ifs at hal with he
    · subst he
      exact hlive hal p hc
    · intro hex
      refine ht.live h' p hal ?_ ((hf.exited p).mp hex)
      exact (hk.others h' he).symm.trans hc
  · obtain ⟨hex, hst⟩ := ht.published h' p c (hother h' _ hp rfl)
    exact ⟨hex, (hf.exited p).mpr hst⟩
  · obtain ⟨c, hex, hcode⟩ := ht.ended p ((hf.exited p).mp hp)
    refine ⟨c, hex, ?_⟩
    rcases hcode with hcode | ⟨h', hp'⟩
    · exact .inl ((hf.code p).trans hcode)
    · refine .inr ⟨h', ?_⟩
      rw [go_pc, if_neg]
      · exact hp'
      · rintro rfl
        exact hold p c hp'

/-! ## Runs -/

/-- A child that `wait` reports is no hart's current process, and `exit` of a process whose parent has
set `SA_NOCLDWAIT` does not happen. -/
def reapsSettled (w : Harts n) (a : Act n) : Bool :=
  match w.pc a.hart, a with
  | .run, .wait h pid _ =>
    (w.table.current h).all fun p => (w.table.zombie (w.table.node p).pid pid).all fun z =>
      decide (∀ h', w.table.current h' ≠ some z)
  | .exitCoded p, .exitFinal _ => !w.table.autoReap p
  | _, _ => true

theorem Orderly.current_inj (ho : Orderly L w) {h h' : Fin n} (hc : w.table.current h = some p)
    (hc' : w.table.current h' = some p) : h = h' := by
  obtain ⟨place, hl⟩ := ho.located
  rw [hl.current] at hc hc'
  exact Place.cur.inj (hc.symm.trans hc')

theorem Orderly.fair (ho : Orderly L w) (h : Fin n) :
    Fair h w.table w.table ∧ ∀ h' q, q ∈ w.table.rq h' → (w.table.node q).state ≠ .exited := by
  obtain ⟨place, hl⟩ := ho.located
  refine ⟨.refl .., fun h' q hq => ?_⟩
  rw [hl.ready q ⟨h', .inl ((hl.queue h' q).mp hq)⟩]
  nofun

theorem Told.report (ht : Told w) (ho : Orderly L w) {a : Nat} (hpc : w.pc h = .run)
    (hmem : a ∈ w.table.allProcs) (hst : (w.table.node a).state = .exited)
    (hleft : ∀ h', w.table.current h' ≠ some a) : Told { w.go h (.reap a) (w.table.unlink a) with
      reports := w.reports ++ [(a, (w.table.node a).exitCode)] } := by
  have hfirst : a ∉ w.reports.map Prod.fst := by
    intro hm
    obtain ⟨x, hx, rfl⟩ := mem_map.mp hm
    exact (ht.reported x hx).2.2.1 hmem
  have hcode : w.exits a = some (w.table.node a).exitCode := by
    obtain ⟨c, hex, hc | ⟨h', hp⟩⟩ := ht.ended a hst
    · rw [hex, hc]
    · exact absurd (ho.own h' a (by rw [hp]; rfl)) (hleft h')
  refine ⟨fun h' p hal hc => ?_, fun h' p c hp => ht.found h' p c (pc_of_go hp nofun),
    fun h' p c hp => ht.published h' p c (pc_of_go hp nofun),
    fun h' p hp => ht.coded h' p (pc_of_go hp nofun), fun h' p hp => ht.noFree h' p (pc_of_go hp nofun),
    fun p hp => ?_, fun x hx => ?_, ?_, ht.listed.erase a, fun h' p hp => ?_⟩
  · rcases go_cases (P := (·.alive = true)) hal with ⟨rfl, -⟩ | ⟨-, hal⟩
    · exact ht.live h' p (by rw [hpc]; rfl) hc
    · exact ht.live h' p hal hc
  · obtain ⟨c, hex, hc | ⟨h', hp'⟩⟩ := ht.ended p hp
    · exact ⟨c, hex, .inl hc⟩
    · exact ⟨c, hex, .inr ⟨h', go_of_pc hp' (by rw [hpc]; nofun)⟩⟩
  · rcases mem_append.mp hx with hx | hx
    · obtain ⟨h1, h2, h3, h4⟩ := ht.reported x hx
      exact ⟨h1, h2, fun hm => h3 (mem_of_mem_erase hm), h4⟩
    · obtain rfl := mem_singleton.mp hx
      exact ⟨hst, hcode, ht.listed.not_mem_erase, hleft⟩
  · rw [map_append, nodup_append]
    refine ⟨ht.once, pairwise_singleton _ _, fun b hb c hc hbc => ?_⟩
    rw [map_singleton, mem_singleton] at hc
    have hba : b = a := hbc.trans hc
    exact hfirst (hba ▸ hb)
  · rw [map_append, mem_append]
    rcases go_cases (P := (· = .reap p)) hp with ⟨-, hp⟩ | ⟨-, hp⟩
    · cases hp
      exact .inr (mem_singleton_self _)
    · exact .inl (ht.reaping h' p hp)

theorem Told.exitFind (ht : Told w) (ho : Orderly L w) (hpc : w.pc h = .run)
    (hcur : w.table.current h = some p) :
    Told { w.go h (.exitFound p code) w.table with exits := update w.exits p (some code) } := by
  have hlive : (w.table.node p).state ≠ .exited := ht.live h p (by rw [hpc]; rfl) hcur
  have hexits : ∀ q, (w.table.node q).state = .exited → update w.exits p (some code) q = w.exits q :=
    fun q hq => update_of_ne (fun he : q = p => hlive (he ▸ hq)) _ _
  refine ⟨fun h' q hal hc => ?_, fun h' q c hp => ?_, fun h' q c hp => ?_,
    fun h' q hp => ht.coded h' q (pc_of_go hp nofun), fun h' q hp => ht.noFree h' q (pc_of_go hp nofun),
    fun q hq => ?_, fun x hx => ?_, ht.once, ht.listed, fun h' q hp => ht.reaping h' q (pc_of_go hp nofun)⟩
  · rcases go_cases (P := (·.alive = true)) hal with ⟨rfl, -⟩ | ⟨-, hal⟩
    · obtain rfl := Option.some.inj (hcur.symm.trans hc)
      exact hlive
    · exact ht.live h' q hal hc
  · rcases go_cases (P := (· = .exitFound q c)) hp with ⟨-, hp⟩ | ⟨he, hp'⟩
    · cases hp
      exact update_self ..
    · have hq : q ≠ p := by
        rintro rfl
        exact he (ho.current_inj (ho.own h' q (by rw [hp']; rfl)) hcur)
      exact (update_of_ne hq _ _).trans (ht.found h' q c hp')
  · obtain ⟨hex, hst⟩ := ht.published h' q c (pc_of_go hp nofun)
    exact ⟨(hexits q hst).trans hex, hst⟩
  · obtain ⟨c, hex, hc | ⟨h', hp'⟩⟩ := ht.ended q hq
    · exact ⟨c, (hexits q hq).trans hex, .inl hc⟩
    · exact ⟨c, (hexits q hq).trans hex, .inr ⟨h', go_of_pc hp' (by rw [hpc]; nofun)⟩⟩
  · obtain ⟨h1, h2, h3, h4⟩ := ht.reported x hx
    exact ⟨h1, (hexits x.1 h1).trans h2, h3, h4⟩

theorem Told.exitPublish (ht : Told w) (ho : Orderly L w) (hpc : w.pc h = .exitFound p code)
    (hcur : w.table.current h = some p) :
    Told (w.go h (.exitPublished p code) (w.table.setState p .exited)) := by
  have hexits := ht.found h p code hpc
  have hst : ∀ q, ((w.table.setState p .exited).node q).state = .exited ↔
      q = p ∨ (w.table.node q).state = .exited := fun q => by
    by_cases hq : q = p
    · subst hq
      simp [setState_self]
    · simp [setState_of_ne w.table p .exited hq, hq]
  refine ⟨fun h' q hal hc => ?_, fun h' q c hp => ht.found h' q c (pc_of_go hp nofun), fun h' q c hp => ?_,
    fun h' q hp => (hst q).mpr (.inr (ht.coded h' q (pc_of_go hp nofun))),
    fun h' q hp => ht.noFree h' q (pc_of_go hp nofun), fun q hq => ?_, fun x hx => ?_, ht.once, ht.listed,
    fun h' q hp => ht.reaping h' q (pc_of_go hp nofun)⟩
  · rcases go_cases (P := (·.alive = true)) hal with ⟨-, hal⟩ | ⟨he, hal⟩
    · cases hal
    · intro hex
      rcases (hst q).mp hex with rfl | hex
      · exact he (ho.current_inj hc hcur)
      · exact ht.live h' q hal hc hex
  · rcases go_cases (P := (· = .exitPublished q c)) hp with ⟨-, hp⟩ | ⟨-, hp⟩
    · cases hp
      exact ⟨hexits, (hst p).mpr (.inl rfl)⟩
    · obtain ⟨hex, hq⟩ := ht.published h' q c hp
      exact ⟨hex, (hst q).mpr (.inr hq)⟩
  · by_cases hqp : q = p
    · subst hqp
      exact ⟨code, hexits, .inr ⟨h, update_self ..⟩⟩
    · obtain ⟨c, hex, hc | ⟨h', hp'⟩⟩ := ht.ended q (((hst q).mp hq).resolve_left hqp)
      · exact ⟨c, hex, .inl ((setState_exitCode ..).trans hc)⟩
      · exact ⟨c, hex, .inr ⟨h', go_of_pc hp' (by rw [hpc]; nofun)⟩⟩
  · obtain ⟨h1, h2, h3, h4⟩ := ht.reported x hx
    exact ⟨(hst x.1).mpr (.inr h1), h2, h3, h4⟩

theorem Told.exitCode (ht : Told w) (hpc : w.pc h = .exitPublished p code) :
    Told (w.go h (.exitCoded p) (w.table.setNode p { w.table.node p with exitCode := code })) := by
  obtain ⟨hexits, hpst⟩ := ht.published h p code hpc
  generalize ht' : w.table.setNode p { w.table.node p with exitCode := code } = t
  have hne : ∀ q, q ≠ p → t.node q = w.table.node q := fun q hq => by
    rw [← ht']
    exact update_of_ne hq _ _
  have hself : t.node p = { w.table.node p with exitCode := code } := by
    rw [← ht']
    exact update_self ..
  have hst : ∀ q, (t.node q).state = (w.table.node q).state := fun q => by
    rw [← ht']
    exact setNode_field _ p q Node.state rfl
  have hcur : t.current = w.table.current := by rw [← ht']; rfl
  have hall : t.allProcs = w.table.allProcs := by rw [← ht']; rfl
  refine ⟨fun h' q hal hc => ?_, fun h' q c hp => ht.found h' q c (pc_of_go hp nofun), fun h' q c hp => ?_,
    fun h' q hp => ?_, fun h' q hp => ht.noFree h' q (pc_of_go hp nofun), fun q hq => ?_, fun x hx => ?_,
    ht.once, hall ▸ ht.listed, fun h' q hp => ht.reaping h' q (pc_of_go hp nofun)⟩
  · rcases go_cases (P := (·.alive = true)) hal with ⟨-, hal⟩ | ⟨-, hal⟩
    · cases hal
    · rw [show (w.go h (.exitCoded p) t).table.node q = t.node q from rfl, hst]
      exact ht.live h' q hal (hcur ▸ hc)
  · obtain ⟨hex, hq⟩ := ht.published h' q c (pc_of_go hp nofun)
    exact ⟨hex, (hst q).trans hq⟩
  · refine (hst q).trans ?_
    rcases go_cases (P := (· = .exitCoded q)) hp with ⟨-, hp⟩ | ⟨-, hp⟩
    · cases hp
      exact hpst
    · exact ht.coded h' q hp
  · by_cases hqp : q = p
    · subst hqp
      exact ⟨code, hexits, .inl (by rw [show (w.go h (.exitCoded q) t).table.node q = t.node q from rfl, hself])⟩
    · obtain ⟨c, hex, hc | ⟨h', hp'⟩⟩ := ht.ended q ((hst q).symm.trans hq)
      · exact ⟨c, hex, .inl ((congrArg Node.exitCode (hne q hqp)).trans hc)⟩
      · exact ⟨c, hex, .inr ⟨h', go_of_pc hp' (by rw [hpc]; rintro ⟨⟩; exact hqp rfl)⟩⟩
  · obtain ⟨h1, h2, h3, h4⟩ := ht.reported x hx
    exact ⟨(hst x.1).trans h1, h2, hall ▸ h3, hcur ▸ h4⟩

theorem Told.step {a : Act n} (ht : Told w) (ho : Orderly L w) (hwake : wakesParked w a = true)
    (hreap : reapsSettled w a = true) (hstep : (harts n).step w a = some u) : Told u := by
  -- The process of a hart outside `exit` and `sched_yield` is alive, and stays so.
  have hlive : ∀ {h : Fin n} {pc t}, w.pc h = pc → pc.alive = true → Fair h w.table t →
      t.current = w.table.current → ∀ p, t.current h = some p → (t.node p).state ≠ .exited :=
    fun {h pc t} hpc hal hf hcur p hc hex =>
      ht.live h p (by rw [hpc]; exact hal) (hcur ▸ hc) ((hf.exited p).mp hex)
  have hold : ∀ {h : Fin n} {pc}, w.pc h = pc → pc.plain = true → ∀ p c, w.pc h ≠ .exitPublished p c := by
    intro h pc hpc hplain p c hp
    rw [← hpc, hp] at hplain
    cases hplain
  have hacross {h : Fin n} := fair_across h w.table
  cases step_inv hstep with
  | trap hpc | skipped hpc | dropStolen hpc =>
    exact ht.go (Keeps.refl ..) (.refl ..) (hold hpc rfl) rfl (by simp [Pc.alive])
  | @reported h p a pid nohang hpc hcur hz =>
    obtain ⟨hmem, -, hst⟩ := zombie_mem hz
    refine ht.report ho hpc hmem hst ?_
    simpa only [reapsSettled, Act.hart, hpc, hcur, Option.all_some, hz, decide_eq_true_eq] using hreap
  | nothing hpc => exact ht
  | @waiting h p pid nohang hpc hcur =>
    have hp := ht.live h p (by rw [hpc]; rfl) hcur
    exact ht.go (keeps_setState ..) (fair_setState h hp (by simp)) (hold hpc rfl) rfl (by simp [Pc.alive])
  | @stop h p hpc hcur =>
    have hp := ht.live h p (by rw [hpc]; rfl) hcur
    have hf : Fair h w.table (w.table.setState p .stopped) := fair_setState h hp (by simp)
    exact ht.go (keeps_setState ..) hf (hold hpc rfl) rfl fun _ => hlive hpc rfl hf rfl
  | sigFind hpc hb =>
    exact ht.go (Keeps.refl ..) (.refl ..) (hold hpc rfl) rfl fun _ => hlive hpc rfl (.refl ..) rfl
  | @exitFind h c p code hpc hcur hb =>
    obtain ⟨hmem, hpid, -⟩ := byPid_mem hb
    obtain ⟨place, hl⟩ := ho.located
    have hcL : c ∈ L := hl.known c (by simp [(hl.current h c).mp hcur])
    obtain rfl : p = c := ho.pids p (ho.listed p hmem) c hcL hpid
    exact ht.exitFind ho hpc hcur
  | @publish h pid hpc =>
    have hf := (hacross.publishReady (ho.fair h) pid).1
    exact ht.go ((keeps_across ..).publishReady (.refl ..) ..) hf (hold hpc rfl) rfl fun _ =>
      hlive hpc rfl hf (publishReady_current ..)
  | @yielded h remote hpc =>
    have hf := (hacross.yieldFirst (ho.fair h) remote).1
    refine ht.go ((keeps_across ..).yieldFirst (.refl ..) ..) hf (hold hpc rfl) ?_ fun hal p hc => ?_
    · split <;> rfl
    · split at hal
      · rename_i htrue
        simp [yieldFirst_running _ _ _ htrue p hc]
      · cases hal
  | @tried h i hpc =>
    have hf := (hacross.stealFrom (ho.fair h) (Harts.victim h i)).1
    refine ht.go ((keeps_across ..).stealFrom (.refl ..) ..) hf (hold hpc rfl) ?_ fun hal => ?_
    · cases (w.table.stealFrom h (Harts.victim h i)).1 <;> rfl
    · cases hx : (w.table.stealFrom h (Harts.victim h i)).1 <;> rw [hx] at hal <;> cases hal
  | @runStolen h p hpc hready =>
    refine ht.go ((keeps_across ..).run (.refl ..) trivial) (hacross.run (ho.fair h) (by simp [hready])).1
      (hold hpc rfl) rfl fun _ q hq => ?_
    simp [run_running w.table h p q hq]
  | @settle h i hpc =>
    exact ht.go ((keeps_across ..).settle (.refl ..)) (hacross.settle (ho.fair h)).1 (hold hpc rfl) rfl fun _ =>
      settle_live w.table h
  | @free h p copied hpc =>
    refine ht.go (Keeps.refl ..) (.refl ..) (fun q c hp => ?_) rfl fun _ =>
      hlive hpc rfl (.refl ..) rfl
    rw [hpc] at hp
    cases hp
  | @sigRead h p signal hpc =>
    refine ht.go (Keeps.refl ..) (.refl ..) (hold hpc rfl) ?_ fun _ =>
      hlive hpc rfl (.refl ..) rfl
    split <;> rfl
  | @sigStore h p hpc =>
    have hw : w.wakes (.sigStore h) = some p := by
      simp only [Harts.wakes, Act.hart, hpc]
    have hf : Fair h w.table (w.table.setState p .ready) := fair_setState h (parked_of_wakes hwake hw).2.1 (by simp)
    exact ht.go (keeps_setState ..) hf (hold hpc rfl) rfl fun _ => hlive hpc rfl hf rfl
  | @sigLink h p hpc =>
    have hr := requeued_enqueue w.table h p
    exact ht.go (hr.keeps h) (hr.fair h) (hold hpc rfl) rfl fun _ => hlive hpc rfl (hr.fair h) hr.current
  | @exitPublish h p code hpc =>
    obtain ⟨place, hl⟩ := ho.located
    have hcur : w.table.current h = some p := ho.own h p (by rw [hpc]; rfl)
    rw [hl.exitPublish_eq hcur]
    exact ht.exitPublish ho hpc hcur
  | exitCode hpc => exact ht.exitCode hpc
  | @exitFinal h p hpc =>
    have hauto : w.table.autoReap p = false := by
      simpa only [reapsSettled, Act.hart, hpc, Bool.not_eq_true'] using hreap
    rw [hauto]
    have hsame : w.table.setState p .exited = w.table := by
      rw [Table.setState, Table.setNode, ← ht.coded h p hpc, update_eq_self]
    refine ht.go (keeps_exitFinal ..) (hacross.exitFinal (by rw [hsame]; exact ho.fair h) fun a ha => ?_).1
      (fun q c hp => ?_) rfl (by simp [Pc.alive])
    · have hwait := (Option.filter_eq_some_iff.mp ha).2
      simp_all
    · rw [hpc] at hp
      cases hp
  | @exitFree h p hpc => exact absurd hpc (ht.noFree h p)

def Harts.frees (w : Harts n) (a : Act n) : Option Nat :=
  match w.pc a.hart, a with
  | .reap p, .free _ copied => if copied = true then some p else none
  | .exitFree p, .exitFree _ => some p
  | _, _ => none

/-- No call is under way, and the zombies there are hold the codes given to `exit`. -/
structure StartTold (w : Harts n) : Prop where
  start : Start w
  codes : ∀ p, (w.table.node p).state = .exited → w.exits p = some (w.table.node p).exitCode
  reports : w.reports = []
  listed : w.table.allProcs.Nodup

theorem StartTold.told (h0 : StartTold w) : Told w := by
  have hpc := h0.start.pc
  refine ⟨fun h p _ hc => ?_, fun h p c hp => ?_, fun h p c hp => ?_, fun h p hp => ?_, fun h p hp => ?_,
    fun p hp => ⟨_, h0.codes p hp, .inl rfl⟩, fun x hx => ?_, ?_, h0.listed, fun h p hp => ?_⟩
  · rw [(h0.start.running h p hc).2.1]
    nofun
  · cases (hpc h).symm.trans hp
  · cases (hpc h).symm.trans hp
  · cases (hpc h).symm.trans hp
  · cases (hpc h).symm.trans hp
  · rw [h0.reports] at hx
    cases hx
  · rw [h0.reports]
    exact nodup_nil
  · cases (hpc h).symm.trans hp

/-- In every run in which only parked processes are woken and only children that have left their hart
are reported, a reported status is the code given to `exit`, no child is reported twice, and no node
is freed while it is current or `exit` works on it. -/
theorem exit_wait_protocol {w₀ : Harts n} (h0 : StartTold w₀)
    (hrun : (harts n).Reach (fun v a => wakesParked v a = true ∧ reapsSettled v a = true) w₀ w) :
    (∀ x ∈ w.reports, w.exits x.1 = some x.2) ∧ (w.reports.map Prod.fst).Nodup ∧
      ∀ a p, w.frees a = some p →
        (∀ h, w.table.current h ≠ some p) ∧ ∀ h, (w.pc h).exiting ≠ some p := by
  obtain ⟨ho, ht⟩ : Orderly w₀.table.allProcs w ∧ Told w :=
    hrun.invariant (I := fun v => Orderly w₀.table.allProcs v ∧ Told v) ⟨h0.start.orderly, h0.told⟩
      fun h hok hstep => ⟨h.1.step hok.1 hstep, h.2.step h.1 hok.1 hok.2 hstep⟩
  refine ⟨fun x hx => (ht.reported x hx).2.1, ht.once, fun a p hp => ?_⟩
  have hgone : ∀ h, w.table.current h ≠ some p := by
    unfold Harts.frees at hp
    split at hp
    · rename_i q h copied hpc
      split at hp
      · cases hp
        obtain ⟨x, hx, rfl⟩ := mem_map.mp (ht.reaping _ _ hpc)
        exact (ht.reported x hx).2.2.2
      · cases hp
    · rename_i q h hpc
      exact absurd hpc (ht.noFree _ q)
    · cases hp
  exact ⟨hgone, fun h hx => hgone h (ho.own h p hx)⟩

theorem twoHarts_startTold (busy : Bool) : StartTold (twoHarts busy) := by
  refine ⟨twoHarts_start busy, fun p hp => ?_, rfl, ?_⟩
  · match p with
    | 0 | 1 | 2 | 3 | _ + 4 => cases busy <;> cases hp
  · show [3, 2, 1].Nodup
    decide

/-- The parent is parked, the child exits with code 7 and leaves its hart, and the parent reaps it. -/
theorem exit_wait_protocol_twoHarts : ∃ w,
    (harts 2).Reach (fun v a => wakesParked v a = true ∧ reapsSettled v a = true) (twoHarts true) w ∧
      w.reports = [(2, 7)] ∧ (∀ x ∈ w.reports, w.exits x.1 = some x.2) ∧
      w.frees (.free 1 true) = some 2 := by
  refine Machine.exists_reach_imp (P := fun w => w.reports = [(2, 7)] ∧ w.frees (.free 1 true) = some 2)
    ([.wait 0 0 false, .yieldFirst 0 false] ++ exitActs 1 7 ++ [.yieldFirst 1 false, .wait 1 0 false]) (by decide) ?_
  rintro w hrun ⟨hrep, hfree⟩
  exact ⟨hrep, (exit_wait_protocol (twoHarts_startTold true) hrun).1, hfree⟩

/-- `twoHarts` with a parent that has set `SA_NOCLDWAIT`. -/
def twoHartsNoCldwait : Harts 2 :=
  { twoHarts false with
    table := (twoHarts false).table.setNode 1 { (twoHarts false).table.node 1 with noCldwait := true } }

/-- The parent waits right after its child has published `Exited`: it reports 0 where the child exits
with 7, and frees the node that the child is still current with and `exit` works on. With
`SA_NOCLDWAIT` set, `exit` itself frees the node while it is current. -/
theorem child_reaped_in_exit :
    (∃ w, (harts 2).Reach Machine.always (twoHarts false) w ∧ w.reports = [(2, 0)] ∧
      w.exits 2 = some 7 ∧ w.frees (.free 0 true) = some 2 ∧ w.table.current 1 = some 2 ∧
      (w.pc 1).exiting = some 2) ∧
    ∃ w, (harts 2).Reach Machine.always twoHartsNoCldwait w ∧
      w.frees (.exitFree 1) = some 2 ∧ w.table.current 1 = some 2 := by
  constructor
  · exact Machine.exists_reach_of_play [.exitFind 1 7, .exitPublish 1, .wait 0 0 false] (by decide)
  · exact Machine.exists_reach_of_play (exitActs 1 7) (by decide)

end Sched
