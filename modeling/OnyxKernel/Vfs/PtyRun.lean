import OnyxKernel.Vfs.Pty

/-!
# Sessions of pseudo-terminals

What keeps the uses of a pair apart over a run: which descriptors are masters of a pair, what each session has
sent and got, and the steps after which this is still in order.
-/

namespace Vfs

open Onyx Infra Function FdTable Option

/-! ## Masters -/

def masterAt (t : FdTable) (slot : Fin 16) : Option (Fin 4) :=
  if (t slot).used = true ∧ (t slot).fs = .devfs then ptymInoIdx (t slot).ino else none

def slaveAt (t : FdTable) (slot : Fin 16) : Option (Fin 4) :=
  if (t slot).used = true ∧ (t slot).fs = .devfs then ptysNode (t slot).ino else none

section

variable {t : FdTable} {slot slot' : Fin 16}

theorem masterAt_update_ne (h : slot ≠ slot') (fd : VfsFd) : masterAt (update t slot' fd) slot = masterAt t slot := by
  simp [masterAt, h]

theorem masterAt_update_self (fd : VfsFd) : masterAt (update t slot fd) slot =
      if fd.used = true ∧ fd.fs = .devfs then ptymInoIdx fd.ino else none := by
  simp [masterAt]

theorem masterAt_fdClear {i : Fin 4} (h : masterAt (t.fdClear slot) slot' = some i) :
    slot' ≠ slot ∧ masterAt t slot' = some i := by
  have hne : slot' ≠ slot := by
    rintro rfl
    simp [fdClear, masterAt_update_self] at h
  rw [fdClear, masterAt_update_ne hne] at h
  exact ⟨hne, h⟩

theorem ptymInoIdx_master (i : Fin 4) : ptymInoIdx (ptymBase + i.val) = some i := by
  simp [ptymInoIdx]

theorem ptymInoIdx_slave (i : Fin 4) : ptymInoIdx (ptysBase + i.val) = none := by
  unfold ptymInoIdx ptymBase ptysBase
  exact dif_neg (by omega)

end

namespace Sessions

variable (s : Sessions)

/-- An open descriptor of a process; a slot that an open has only taken does not count. -/
def HasMaster (pid : Nat) (slot : Fin 16) (i : Fin 4) : Prop :=
  ∃ t, s.procs pid = some t ∧ (s.pc pid).opening ≠ some slot ∧ masterAt t slot = some i

def Alive (i : Fin 4) (n : Nat) : Prop := (s.ptys i).used = true ∧ s.session i = n

/-- The session of the slave descriptor that a step reads or writes through. -/
def onSlave : Act → Option (Fin 4 × Nat)
  | .start pid token _ =>
    (s.procs pid).bind fun t =>
      match t.fdCheck token with
      | .ok slot => (slaveAt t slot).map fun i => (i, s.tag pid slot)
      | .error _ => none
  | .proceed pid =>
    match s.pc pid with
    | .stream c => if c.side = .slave then some (c.pair, c.session) else none
    | _ => none
  | _ => none

/-- No master is closed while there is another one of its pair; slaves are read and written only as long as
their session lasts, a call that it ends under excepted as long as nobody takes the pair; and a pair found free
is still free when it is claimed. -/
def Orderly : Act → Prop
  | .close pid token => ∀ t slot i, s.procs pid = some t →
      t.fdCheck token = .ok slot → masterAt t slot = some i →
      ∀ pid' slot', s.HasMaster pid' slot' i → pid' = pid ∧ slot' = slot
  | .start pid token work => ∀ i n, s.onSlave (.start pid token work) = some (i, n) → s.Alive i n
  | .proceed pid =>
    (∀ slot k, s.pc pid = .claim slot k → (s.ptys k).used = false) ∧
      ∀ i n, s.onSlave (.proceed pid) = some (i, n) → s.session i = n ∨ (s.ptys i).used = false
  | _ => True

/-- Masters belong to the session of their pair, also those that a call works on. -/
structure Held : Prop where
  masters : ∀ {pid slot i}, s.HasMaster pid slot i → s.Alive i (s.tag pid slot)
  streams : ∀ {pid c}, s.pc pid = .stream c → c.side = .master →
    s.HasMaster pid c.slot c.pair ∧ c.session = s.tag pid c.slot

/-- What a session got is what it was sent, up to what is still in the ring. -/
structure Matched : Prop where
  early : ∀ {i n d}, s.session i < n → s.sent i n d = [] ∧ s.got i n d = []
  past : ∀ i n d, s.got i n d <+: s.sent i n d
  room : ∀ {i} d, (s.ptys i).used = true → ((s.ptys i).ring d).used.toNat ≤ ptyBufCap
  now : ∀ {i} d, (s.ptys i).used = true →
    s.got i (s.session i) d ++ ((s.ptys i).ring d).pending = s.sent i (s.session i) d

end Sessions

/-! ## The rings -/

namespace PtyRing

variable {r : PtyRing}

theorem pop_pending (len : Nat) :
    (r.pop len).1 ++ (r.pop len).2.pending = r.pending ∧ (r.pop len).2.used.toNat ≤ r.used.toNat := by
  have h := @Ipc.pendingOf_read ptyBufCap r.buf r.head r.tail (by decide) _ (Nat.min_le_right len r.used.toNat)
  have hused : (r.pop len).2.used.toNat = r.used.toNat - min len r.used.toNat := h.2
  refine ⟨h.1, ?_⟩
  rw [hused]
  exact Nat.sub_le _ _

theorem push_pending (hroom : r.used.toNat ≤ ptyBufCap) (src : List UInt8) :
    (r.push src).2.pending = r.pending ++ (r.push src).1 ∧ (r.push src).2.used.toNat ≤ ptyBufCap := by
  have hfree : (Ipc.ringFree ptyBufCap r.head r.tail).toNat = ptyBufCap - r.used.toNat := by
    have hle : Ipc.ringUsed r.head r.tail ≤ UInt32.ofNat ptyBufCap := UInt32.le_iff_toNat_le.mpr hroom
    rw [Ipc.ringFree, UInt32.toNat_sub_of_le _ _ hle, used]
    rfl
  have hlen : (Ipc.fitting ptyBufCap r.head r.tail src).length ≤ ptyBufCap - r.used.toNat := by
    rw [← hfree, Ipc.fitting]
    exact List.length_take_le _ _
  have hsum : (Ipc.ringUsed r.head r.tail).toNat + (Ipc.fitting ptyBufCap r.head r.tail src).length ≤
      ptyBufCap := by
    unfold used at hlen hroom
    omega
  obtain ⟨hpending, hused⟩ := @Ipc.pendingOf_write ptyBufCap r.buf r.head r.tail (by decide) (by decide) _ hsum
  simp only [push, pending, used]
  exact ⟨hpending, hused ▸ hsum⟩

end PtyRing

namespace Pty

variable {p : Pty}

@[simp]
theorem setRing_used (r : PtyRing) (d : Side) : (p.setRing r d).used = p.used := by
  cases d <;> rfl

theorem ring_setRing (r : PtyRing) (d d' : Side) : (p.setRing r d).ring d' = if d' = d then r else p.ring d' := by
  cases d <;> cases d' <;> rfl

theorem sideRead_used (hu : p.used = true) (side : Side) (len : Nat) :
    ∃ bytes r, p.sideRead side len = (.moved bytes, p.setRing r side.other) ∧
      bytes ++ r.pending = (p.ring side.other).pending ∧ r.used.toNat ≤ (p.ring side.other).used.toNat := by
  unfold sideRead
  rw [if_neg (by simp [hu])]
  split
  · refine ⟨[], p.ring side.other, ?_, rfl, le_rfl⟩
    cases side <;> rfl
  · exact ⟨_, _, rfl, PtyRing.pop_pending len⟩

theorem sideWrite_used (hu : p.used = true) (side : Side) (data : List UInt8)
    (hroom : (p.ring side).used.toNat ≤ ptyBufCap) :
    ∃ bytes r, p.sideWrite side data = (.moved bytes, p.setRing r side) ∧
      r.pending = (p.ring side).pending ++ bytes ∧ r.used.toNat ≤ ptyBufCap := by
  unfold sideWrite
  rw [if_neg (by simp [hu])]
  split
  · refine ⟨[], p.ring side, ?_, (List.append_nil _).symm, hroom⟩
    cases side <;> rfl
  · exact ⟨_, _, rfl, PtyRing.push_pending hroom data⟩

end Pty

/-! ## What was sent and got -/

namespace Sessions

variable {s s' : Sessions} {t t' : FdTable}

/-- The part of `Matched` about one pair. -/
def MatchedAt (s : Sessions) (i : Fin 4) : Prop :=
  (∀ n d, s.session i < n → s.sent i n d = [] ∧ s.got i n d = []) ∧ (∀ n d, s.got i n d <+: s.sent i n d) ∧
    ∀ d, (s.ptys i).used = true → ((s.ptys i).ring d).used.toNat ≤ ptyBufCap ∧
      s.got i (s.session i) d ++ ((s.ptys i).ring d).pending = s.sent i (s.session i) d

theorem matched_iff : s.Matched ↔ ∀ i, s.MatchedAt i :=
  ⟨fun h i => ⟨fun _ _ => h.early, h.past i, fun d hu => ⟨h.room d hu, h.now d hu⟩⟩,
    fun h => ⟨(h _).1 _ _, fun i => (h i).2.1, fun d hu => ((h _).2.2 d hu).1, fun d hu => ((h _).2.2 d hu).2⟩⟩

theorem Matched.congr (h : s.Matched) (hptys : s'.ptys = s.ptys) (hsession : s'.session = s.session)
    (hsent : s'.sent = s.sent) (hgot : s'.got = s.got) : s'.Matched := by
  refine matched_iff.mpr fun i => ?_
  rw [MatchedAt, hptys, hsession, hsent, hgot]
  exact matched_iff.mp h i

theorem Matched.change (h : s.Matched) {i : Fin 4} (hother : ∀ j, j ≠ i → s'.ptys j = s.ptys j ∧
    s'.session j = s.session j ∧ s'.sent j = s.sent j ∧ s'.got j = s.got j) (hat : s'.MatchedAt i) :
    s'.Matched := by
  refine matched_iff.mpr fun j => ?_
  by_cases hji : j = i
  · exact hji ▸ hat
  · obtain ⟨hptys, hsession, hsent, hgot⟩ := hother j hji
    rw [MatchedAt, hptys, hsession, hsent, hgot]
    exact matched_iff.mp h j

theorem Matched.free (h : s.Matched) (i : Fin 4) : (s.setPty i { s.ptys i with used := false }).Matched := by
  refine h.change (fun j hji => ⟨update_of_ne hji .., rfl, rfl, rfl⟩)
    ⟨fun _ _ => h.early, h.past i, fun d hu => ?_⟩
  simp [setPty] at hu

theorem Matched.claim (h : s.Matched) (k : Fin 4) (hptys : s'.ptys = update s.ptys k .claimed)
    (hsession : s'.session = update s.session k (s.session k + 1))
    (hsent : s'.sent = s.sent) (hgot : s'.got = s.got) : s'.Matched := by
  have hcap : PtyRing.new.used.toNat ≤ ptyBufCap := by decide
  refine h.change (i := k) (fun j hj => ?_) ?_
  · rw [hptys, hsession, hsent, hgot, update_of_ne hj, update_of_ne hj]
    exact ⟨rfl, rfl, rfl, rfl⟩
  · rw [MatchedAt, hptys, hsession, hsent, hgot, update_self, update_self]
    refine ⟨fun n d hn => h.early (Nat.lt_of_succ_lt hn), h.past k, fun d _ => ?_⟩
    have hlogs := h.early (d := d) (Nat.lt_succ_self (s.session k))
    rw [hlogs.1, hlogs.2]
    cases d <;> exact ⟨hcap, rfl⟩

theorem Matched.moved (h : s.Matched) {i : Fin 4} {d : Side} {r : PtyRing}
    (hptys : s'.ptys = update s.ptys i ((s.ptys i).setRing r d)) (hsession : s'.session = s.session)
    (hroom : r.used.toNat ≤ ptyBufCap)
    (hnow : s'.got i (s.session i) d ++ r.pending = s'.sent i (s.session i) d)
    (hrest : ∀ j n e, ¬ (j = i ∧ n = s.session i ∧ e = d) →
      s'.sent j n e = s.sent j n e ∧ s'.got j n e = s.got j n e) :
    s'.Matched := by
  refine h.change (i := i) (fun j hj => ?_) ⟨fun n e hn => ?_, fun n e => ?_, fun e hu => ?_⟩
  · have hlogs := fun n e => hrest j n e fun hat => hj hat.1
    exact ⟨by rw [hptys, update_of_ne hj], by rw [hsession], funext₂ fun n e => (hlogs n e).1,
      funext₂ fun n e => (hlogs n e).2⟩
  · rw [hsession] at hn
    obtain ⟨hsent, hgot⟩ := hrest i n e fun hat => hn.ne' hat.2.1
    rw [hsent, hgot]
    exact h.early hn
  · by_cases hat : n = s.session i ∧ e = d
    · obtain ⟨rfl, rfl⟩ := hat
      exact ⟨_, hnow⟩
    · obtain ⟨hsent, hgot⟩ := hrest i n e fun hall => hat hall.2
      rw [hsent, hgot]
      exact h.past i n e
  · rw [hptys, update_self] at hu ⊢
    rw [Pty.setRing_used] at hu
    rw [hsession, Pty.ring_setRing]
    by_cases he : e = d
    · subst he
      rw [if_pos rfl]
      exact ⟨hroom, hnow⟩
    · obtain ⟨hsent, hgot⟩ := hrest i (s.session i) e fun hall => he hall.2.2
      rw [if_neg he, hsent, hgot]
      exact ⟨h.room e hu, h.now e hu⟩

/-! ## Who holds a master -/

/-- Every master of the new state stands for one of the old state, of the same session. -/
theorem Held.transfer (h : s.Held) (hkeep : ∀ i n, s.Alive i n → s'.Alive i n)
    (hmasters : ∀ pid slot i, s'.HasMaster pid slot i →
      ∃ pid' slot', s.HasMaster pid' slot' i ∧ s'.tag pid slot = s.tag pid' slot')
    (hstreams : ∀ pid c, s'.pc pid = .stream c → c.side = .master →
      s'.HasMaster pid c.slot c.pair ∧ c.session = s'.tag pid c.slot) : s'.Held := by
  refine ⟨?_, fun hpc hside => hstreams _ _ hpc hside⟩
  intro pid slot i hm
  obtain ⟨pid', slot', hold, htag⟩ := hmasters pid slot i hm
  rw [htag]
  exact hkeep i _ (h.masters hold)

/-- Only one process changes. -/
structure Only (s s' : Sessions) (pid : Nat) (t t' : FdTable) : Prop where
  before : s.procs pid = some t
  procs : s'.procs = update s.procs pid (some t')
  pc : ∀ p, p ≠ pid → s'.pc p = s.pc p
  tag : ∀ p, p ≠ pid → s'.tag p = s.tag p

theorem Only.after {pid : Nat} (h : Only s s' pid t t') : s'.procs pid = some t' := by
  rw [h.procs, update_self]

theorem Only.hasMaster_iff {pid p : Nat} (h : Only s s' pid t t') (hp : p ≠ pid) (slot : Fin 16)
    (i : Fin 4) : s'.HasMaster p slot i ↔ s.HasMaster p slot i := by
  unfold HasMaster
  rw [h.procs, update_of_ne hp, h.pc p hp]

/-- A step of one process keeps the masters in order if it ends no session of another process, if the masters of
the process are of lasting sessions, and if the call that it is in works on a descriptor that it has. -/
theorem Held.change {pid : Nat} (h : s.Held) (ho : Only s s' pid t t')
    (hothers : ∀ p slot i, p ≠ pid → s.HasMaster p slot i → s'.Alive i (s.tag p slot))
    (hmasters : ∀ slot i, (s'.pc pid).opening ≠ some slot →
      masterAt t' slot = some i → s'.Alive i (s'.tag pid slot))
    (hstream : ∀ c, s'.pc pid = .stream c → c.side = .master →
      masterAt t' c.slot = some c.pair ∧ c.session = s'.tag pid c.slot) : s'.Held := by
  refine ⟨?_, ?_⟩
  · intro p slot i hm
    by_cases hp : p = pid
    · subst hp
      obtain ⟨u, hu, hopen, hat⟩ := hm
      obtain rfl : t' = u := some.inj (ho.after.symm.trans hu)
      exact hmasters slot i hopen hat
    · rw [ho.tag p hp]
      exact hothers p slot i hp ((ho.hasMaster_iff hp slot i).mp hm)
  · intro p c hpc hside
    by_cases hp : p = pid
    · subst hp
      obtain ⟨hat, htag⟩ := hstream c hpc hside
      exact ⟨⟨t', ho.after, by rw [hpc]; nofun, hat⟩, htag⟩
    · rw [ho.pc p hp] at hpc
      obtain ⟨hm, htag⟩ := h.streams hpc hside
      exact ⟨(ho.hasMaster_iff hp _ _).mpr hm, by rw [ho.tag p hp]; exact htag⟩

/-- No session ends, and the process has no master that it did not have before. -/
theorem Held.only {pid : Nat} (h : s.Held) (ho : Only s s' pid t t') (hkeep : ∀ i n, s.Alive i n → s'.Alive i n)
    (hmasters : ∀ slot i, (s'.pc pid).opening ≠ some slot → masterAt t' slot = some i →
      ∃ slot', (s.pc pid).opening ≠ some slot' ∧ masterAt t slot' = some i ∧ s'.tag pid slot = s.tag pid slot')
    (hstream : ∀ c, s'.pc pid = .stream c → c.side = .master →
      masterAt t' c.slot = some c.pair ∧ c.session = s'.tag pid c.slot) : s'.Held := by
  refine h.change ho (fun p slot i _ hm => hkeep i _ (h.masters hm)) (fun slot i hopen hat => ?_) hstream
  obtain ⟨slot', hopen', hat', htag⟩ := hmasters slot i hopen hat
  rw [htag]
  exact hkeep i _ (h.masters ⟨t, ho.before, hopen', hat'⟩)

/-! ## The steps -/

section

variable {pid : Nat} {t : FdTable}

theorem idle_eq_some (h : s.idle pid = some t) : s.pc pid = .idle ∧ s.procs pid = some t := by
  unfold idle at h
  split at h
  · exact ⟨‹_›, h⟩
  · cases h

theorem idle_map_eq_some {f : FdTable → Reply × Sessions} {reply : Reply}
    (h : (s.idle pid).map f = some (reply, s')) :
    ∃ t, s.pc pid = .idle ∧ s.procs pid = some t ∧ (f t).2 = s' := by
  obtain ⟨t, ht, heq⟩ := map_eq_some_iff.mp h
  obtain ⟨hpc, ht⟩ := idle_eq_some ht
  exact ⟨t, hpc, ht, congrArg Prod.snd heq⟩

theorem not_stream (hpc : s.pc pid = .idle) (c : Stream) : s.pc pid ≠ .stream c := by
  rw [hpc]
  nofun

@[simp]
theorem goto_pc_self (s : Sessions) (pid : Nat) (pc : Pc) : (s.goto pid pc).pc pid = pc := update_self ..

theorem Only.goto (ht : s.procs pid = some t) (pc : Pc) : Only s (s.goto pid pc) pid t t where
  before := ht
  procs := (update_eq_self_iff.mpr ht.symm).symm
  pc := fun _ hp => update_of_ne hp ..
  tag := fun _ _ => rfl

theorem Only.setTable (ht : s.procs pid = some t) (t' : FdTable) : Only s (s.setTable pid t') pid t t' where
  before := ht
  procs := rfl
  pc := fun _ _ => rfl
  tag := fun _ _ => rfl

variable {c : Stream} {reply : Reply} {t' : FdTable} {token : UInt64}

theorem Only.thenGoto (h : Only s s' pid t t') (pc : Pc) : Only s (s'.goto pid pc) pid t t' where
  before := h.before
  procs := h.procs
  pc := fun p hp => (update_of_ne hp ..).trans (h.pc p hp)
  tag := h.tag

theorem Only.thenTag (h : Only s s' pid t t') (slot : Fin 16) (n : Nat) : Only s (s'.setTag pid slot n) pid t t' where
  before := h.before
  procs := h.procs
  pc := h.pc
  tag := fun p hp => (update_of_ne hp ..).trans (h.tag p hp)

theorem Held.goto (h : s.Held) (ht : s.procs pid = some t) {pc : Pc}
    (hopening : pc.opening = (s.pc pid).opening)
    (hstream : ∀ c, pc = .stream c → c.side = .master →
      masterAt t c.slot = some c.pair ∧ c.session = s.tag pid c.slot) :
    (s.goto pid pc).Held := by
  refine h.only (Only.goto ht pc) (fun _ _ => id) ?_ ?_
  · intro slot i hopen hat
    rw [goto_pc_self, hopening] at hopen
    exact ⟨slot, hopen, hat, rfl⟩
  · intro c hc hside
    rw [goto_pc_self] at hc
    exact hstream c hc hside

section

variable (h : s.Held) (hpc : s.pc pid = .idle) (ht : s.procs pid = some t)
include h hpc ht

theorem Held.setTable
    (hat : ∀ slot i, masterAt t' slot = some i → masterAt t slot = some i) : (s.setTable pid t').Held := by
  refine h.only (Only.setTable ht t') (fun _ _ => id) ?_ ?_
  · intro slot i _ hi
    exact ⟨slot, by rw [hpc]; nofun, hat slot i hi, rfl⟩
  · exact fun c hc => absurd hc (not_stream hpc c)

theorem Held.openMaster (perms : UInt32) : (s.openMaster pid t perms).2.Held := by
  unfold Sessions.openMaster
  rcases halloc : t.allocFd .process perms with ⟨e | slot, t'⟩
  · obtain rfl := allocFd_error halloc
    exact h.setTable hpc ht fun _ _ hi => hi
  · obtain ⟨-, rfl⟩ := allocFd_ok halloc
    refine h.only ((Only.setTable ht _).thenGoto _) (fun _ _ => id) ?_ ?_
    · intro slot' i hopen hat
      -- the slot that was taken may still have the fields of an old master
      have hne : slot' ≠ slot := by
        rintro rfl
        exact hopen (by rw [goto_pc_self]; rfl)
      rw [masterAt_update_ne hne] at hat
      exact ⟨slot', by rw [hpc]; nofun, hat, rfl⟩
    · intro c hc
      rw [goto_pc_self] at hc
      cases hc

theorem Held.openSlave (perms : UInt32) (k : Fin 4) : (s.openSlave pid t perms k).2.Held := by
  unfold Sessions.openSlave
  rcases halloc : t.allocFd .process perms with ⟨e | slot, t'⟩
  · obtain rfl := allocFd_error halloc
    exact h.setTable hpc ht fun _ _ hi => hi
  · obtain ⟨-, rfl⟩ := allocFd_ok halloc
    simp only
    split
    · refine h.only ((Only.setTable ht _).thenTag slot _) (fun _ _ => id) ?_ ?_
      · intro slot' i _ hat
        have hne : slot' ≠ slot := by
          rintro rfl
          simp [fdSet, masterAt_update_self, ptymInoIdx_slave] at hat
        rw [fdSet, masterAt_update_ne hne, masterAt_update_ne hne] at hat
        refine ⟨slot', by simp [hpc, Pc.opening], hat, ?_⟩
        simp [setTag, Sessions.setTable, hne]
      · exact fun c hc => absurd hc (not_stream hpc c)
    · refine h.setTable hpc ht fun slot' i hat => ?_
      obtain ⟨hne, hat⟩ := masterAt_fdClear hat
      rwa [masterAt_update_ne hne] at hat

theorem Held.dup (token : UInt64) : (s.dup pid t token).2.Held := by
  unfold Sessions.dup
  rcases hdup : t.dup .process token with ⟨e | new, t'⟩
  · obtain rfl := dup_error hdup
    cases t'.fdCheck token <;> exact h.setTable hpc ht fun _ _ hi => hi
  · obtain ⟨old, fd, hold, -, rfl, hused, hfs, hino⟩ := dup_ok hdup
    simp only [hold]
    refine h.only ((Only.setTable ht _).thenTag _ _) (fun _ _ => id) ?_ ?_
    · intro slot i _ hat
      by_cases hslot : slot = fdTokenIdx new
      · subst hslot
        -- the duplicate of a master is one of the same session
        rw [masterAt_update_self, hused, hfs, hino] at hat
        refine ⟨old, by rw [hpc]; nofun, ?_, by simp [setTag]⟩
        rw [masterAt, fdCheck_ok hold]
        exact hat
      · rw [masterAt_update_ne hslot] at hat
        exact ⟨slot, by rw [hpc]; nofun, hat, by simp [setTag, Sessions.setTable, hslot]⟩
    · exact fun c hc => absurd hc (not_stream hpc c)

theorem Held.fork {child : Nat} (hnew : s.procs child = none) : (s.fork pid child t).2.Held := by
  have hchild : (s.fork pid child t).2.procs child = some t := update_self ..
  have hidle : (s.fork pid child t).2.pc child = .idle := update_self ..
  refine h.transfer (fun _ _ => id) ?_ ?_
  · intro p slot i hm
    by_cases hp : p = child
    · subst hp
      obtain ⟨u, hu, -, hat⟩ := hm
      obtain rfl : t = u := some.inj (hchild.symm.trans hu)
      exact ⟨pid, slot, ⟨t, ht, by rw [hpc]; nofun, hat⟩, by simp [Sessions.fork]⟩
    · refine ⟨p, slot, ?_, by simp [Sessions.fork, hp]⟩
      simpa [HasMaster, Sessions.fork, Sessions.setTable, Sessions.goto, hp] using hm
  · intro p c hc hside
    by_cases hp : p = child
    · subst hp
      rw [hidle] at hc
      cases hc
    · have hold : s.pc p = .stream c := by
        simpa [Sessions.fork, Sessions.goto, Sessions.setTable, hp] using hc
      obtain ⟨hm, htag⟩ := h.streams hold hside
      refine ⟨?_, by simpa [Sessions.fork, hp] using htag⟩
      simpa [HasMaster, Sessions.fork, Sessions.setTable, Sessions.goto, hp] using hm

omit h hpc ht in
theorem classify_master {ino : Nat} {i : Fin 4} (h : s.classify ino = some (i, .master)) : ptymInoIdx ino = some i := by
  unfold classify ptyClassify at h
  split at h
  · rename_i j hj
    simp only [some.injEq, Prod.mk.injEq, and_true] at h
    rw [hj, h]
  · simp at h

omit h hpc ht in
/-- The first part of a call changes nothing but the point where the process is. -/
theorem start_cases {work : Work}
    (h : s.start pid t token work = some (reply, s')) :
    s' = s ∨ ∃ c, s' = s.goto pid (.stream c) ∧
      (c.side = .master → masterAt t c.slot = some c.pair ∧ c.session = s.tag pid c.slot) := by
  unfold Sessions.start at h
  split at h
  · exact .inl (congrArg Prod.snd (some.inj h)).symm
  · rename_i slot hslot
    by_cases hfs : (t slot).fs = .devfs
    swap
    · simp [hfs] at h
    rw [if_neg (not_not.mpr hfs)] at h
    split at h
    · rename_i pair side hclass
      split_ifs at h
      · exact .inl (congrArg Prod.snd (some.inj h)).symm
      · refine .inr ⟨_, (congrArg Prod.snd (some.inj h)).symm, fun hside => ⟨?_, rfl⟩⟩
        obtain rfl : side = .master := hside
        rw [masterAt, fdCheck_ok hslot, if_pos ⟨rfl, hfs⟩]
        exact classify_master hclass
    · split_ifs at h
      all_goals exact .inl (congrArg Prod.snd (some.inj h)).symm

theorem Held.start {work : Work} (hstart : s.start pid t token work = some (reply, s')) : s'.Held := by
  obtain rfl | ⟨c, rfl, hc⟩ := start_cases hstart
  · exact h
  · refine h.goto ht (by rw [hpc]; rfl) ?_
    intro c' hc' hside
    obtain rfl : c = c' := Pc.stream.inj hc'
    exact hc hside

theorem Held.close (hone : s.Orderly (.close pid token)) : (s.close pid t token).2.Held := by
  unfold Sessions.close
  rcases hclose : t.close token with ⟨e | fd, t'⟩
  · exact h
  · obtain ⟨slot, hslot, rfl, rfl⟩ := close_ok hclose
    simp only
    split
    · -- a master: the other ones are of other pairs
      rename_i i hi
      have hat : masterAt t slot = some i := by
        rw [masterAt, fdCheck_ok hslot]
        simpa using hi
      have hone := hone t slot i ht hslot hat
      have hkeep : ∀ p slot' j, s.HasMaster p slot' j → j ≠ i →
          ((s.setTable pid (t.fdClear slot)).setPty i { s.ptys i with used := false }).Alive j (s.tag p slot') := by
        intro p slot' j hold hji
        obtain ⟨hu, hn⟩ := h.masters hold
        refine ⟨?_, hn⟩
        simpa [setPty, Sessions.setTable, hji] using hu
      refine h.change ⟨ht, rfl, fun _ _ => rfl, fun _ _ => rfl⟩
        (fun p slot' j hp hold => ?_) (fun slot' j _ hat' => ?_) ?_
      · refine hkeep p slot' j hold ?_
        rintro rfl
        exact hp (hone p slot' hold).1
      · obtain ⟨hne, hat'⟩ := masterAt_fdClear hat'
        have hold : s.HasMaster pid slot' j := ⟨t, ht, by rw [hpc]; nofun, hat'⟩
        refine hkeep pid slot' j hold ?_
        rintro rfl
        exact hne (hone pid slot' hold).2
      · exact fun c hc => absurd hc (not_stream hpc c)
    · exact h.setTable hpc ht fun _ _ hat => (masterAt_fdClear hat).2

end

theorem Held.claim (h : s.Held) {slot : Fin 16} {k : Fin 4} (hpc : s.pc pid = .claim slot k)
    (ht : s.procs pid = some t) (hfree : (s.ptys k).used = false) : (s.claim pid t slot k).2.Held := by
  have hother : ∀ p slot' j, s.HasMaster p slot' j → j ≠ k := by
    rintro p slot' j hm rfl
    rw [(h.masters hm).1] at hfree
    cases hfree
  have honly : Only s (s.claim pid t slot k).2 pid t
      (t.fdSet slot (ptymBase + k.val) (2 ^ 32 - 1) .devfs 0 mntRoot) :=
    { before := ht
      procs := rfl
      pc := fun _ hp => update_of_ne hp ..
      tag := fun _ hp => update_of_ne hp .. }
  have hnow : (s.claim pid t slot k).2.pc pid = .idle := update_self ..
  -- what was there keeps its session
  have hkeep : ∀ p slot' j, s.HasMaster p slot' j →
      (s.claim pid t slot k).2.Alive j (s.tag p slot') := by
    intro p slot' j hm
    have hj := hother p slot' j hm
    obtain ⟨hu, hn⟩ := h.masters hm
    exact ⟨by simpa [Sessions.claim, setPty, Sessions.setTable, setTag, Sessions.goto, hj] using hu,
      by simpa [Sessions.claim, setPty, Sessions.setTable, setTag, Sessions.goto, hj] using hn⟩
  refine h.change honly (fun p slot' j _ => hkeep p slot' j) (fun slot' j _ hat => ?_) fun c hc => ?_
  · by_cases hs : slot' = slot
    · subst hs
      simp only [fdSet, masterAt_update_self, ptymInoIdx_master] at hat
      split_ifs at hat
      obtain rfl : k = j := some.inj hat
      simp [Sessions.claim, Alive, setPty, Sessions.setTable, setTag, Sessions.goto, Pty.claimed]
    · rw [fdSet, masterAt_update_ne hs] at hat
      have hold : s.HasMaster pid slot' j := by
        refine ⟨t, ht, ?_, hat⟩
        rw [hpc]
        exact fun heq => hs (some.inj heq).symm
      have htag : (s.claim pid t slot k).2.tag pid slot' = s.tag pid slot' := by
        simp [Sessions.claim, setPty, Sessions.setTable, setTag, Sessions.goto, hs]
      rw [htag]
      exact hkeep pid slot' j hold
  · rw [hnow] at hc
    cases hc

theorem pass_free (h : (s.ptys c.pair).used = false) : s.pass pid c = (.fails .pipe, s.goto pid .idle) := by
  unfold pass
  cases c.work with
  | read len => simp [Pty.sideRead, h]
  | write data => simp [Pty.sideWrite, h]

/-- What a pass leaves: it goes on, it has ended without a byte, or it has moved bytes of its session. -/
theorem pass_cases (pid : Nat) (hm : s.Matched) (hused : (s.ptys c.pair).used = true)
    (hlive : s.session c.pair = c.session) :
    (s.pass pid c).2 = s ∨ (s.pass pid c).2 = s.goto pid .idle ∨
    ∃ d r sent got, (s.pass pid c).2 =
        { (s.setPty c.pair ((s.ptys c.pair).setRing r d)).goto pid .idle with sent, got } ∧
      r.used.toNat ≤ ptyBufCap ∧ got c.pair c.session d ++ r.pending = sent c.pair c.session d ∧
      ∀ j n e, ¬ (j = c.pair ∧ n = c.session ∧ e = d) →
        sent j n e = s.sent j n e ∧ got j n e = s.got j n e := by
  have hretry : (s.retry pid c).2 = s ∨ (s.retry pid c).2 = s.goto pid .idle := by
    unfold retry
    split
    · exact .inr rfl
    · exact .inl rfl
  unfold pass
  cases c.work with
  | read len =>
    obtain ⟨bytes, r, hread, hpending, hroom⟩ := Pty.sideRead_used hused c.side len
    simp only [hread]
    cases bytes with
    | nil => exact hretry.elim .inl fun h => .inr (.inl h)
    | cons b rest =>
      refine .inr (.inr ⟨_, r, s.sent, _, rfl, Nat.le_trans hroom (hm.room _ hused), ?_, ?_⟩)
      · have hnow := hm.now c.side.other hused
        rw [hlive] at hnow
        simp only [record, and_self, if_true]
        rw [List.append_assoc, hpending, hnow]
      · intro j n e hne
        exact ⟨rfl, if_neg hne⟩
  | write data =>
    obtain ⟨bytes, r, hwrite, hpending, hroom⟩ := Pty.sideWrite_used hused c.side data (hm.room c.side hused)
    simp only [hwrite]
    cases bytes with
    | nil => exact hretry.elim .inl fun h => .inr (.inl h)
    | cons b rest =>
      refine .inr (.inr ⟨_, r, _, s.got, rfl, hroom, ?_, ?_⟩)
      · have hnow := hm.now c.side hused
        rw [hlive] at hnow
        simp only [record, and_self, if_true]
        rw [hpending, ← List.append_assoc, hnow]
      · intro j n e hne
        exact ⟨if_neg hne, rfl⟩

/-- Masters, and what was sent and got. -/
structure Sound (s : Sessions) : Prop where
  held : s.Held
  matched : s.Matched

theorem Sound.goto (h : s.Sound) (ht : s.procs pid = some t) {pc : Pc}
    (hopening : pc.opening = (s.pc pid).opening) (hstream : ∀ c, pc ≠ .stream c) : (s.goto pid pc).Sound :=
  ⟨h.held.goto ht hopening fun c hc => absurd hc (hstream c), h.matched.congr rfl rfl rfl rfl⟩

theorem Sound.pass (h : s.Sound) (hpc : s.pc pid = .stream c) (ht : s.procs pid = some t)
    (hlive : (s.ptys c.pair).used = true → s.session c.pair = c.session) : (s.pass pid c).2.Sound := by
  have hgoto : (s.goto pid .idle).Sound := h.goto ht (by rw [hpc]; rfl) nofun
  cases hused : (s.ptys c.pair).used with
  | false =>
    rw [pass_free hused]
    exact hgoto
  | true =>
    have hsession := hlive hused
    obtain heq | heq | ⟨d, r, sent, got, heq, hroom, hnow, hrest⟩ := pass_cases pid h.matched hused hsession
    · rw [heq]
      exact h
    · rw [heq]
      exact hgoto
    · rw [heq]
      refine ⟨hgoto.held.transfer (fun i n hi => ⟨?_, hi.2⟩)
        (fun p slot i hm => ⟨p, slot, hm, rfl⟩) fun p c hc hside =>
        hgoto.held.streams hc hside, h.matched.moved rfl rfl hroom ?_ ?_⟩
      · have hu : (s.ptys i).used = true := hi.1
        by_cases hi : i = c.pair
        · subst hi
          simpa [setPty, Sessions.goto] using hu
        · simpa [setPty, Sessions.goto, hi] using hu
      · rw [hsession]
        exact hnow
      · rw [hsession]
        exact hrest

theorem Sound.proceed (h : s.Sound) (hok : s.Orderly (.proceed pid))
    (hstep : s.proceed pid = some (reply, s')) : s'.Sound := by
  unfold Sessions.proceed at hstep
  split at hstep
  · -- `alloc` looks at the next pair, or has looked at all
    rename_i t slot k ht hpc
    split_ifs at hstep
    · cases hstep
      exact h.goto ht (by rw [hpc]; rfl) nofun
    · cases hstep
      exact h.goto ht (by rw [hpc]; rfl) nofun
    · cases hstep
      refine ⟨?_, h.matched.congr rfl rfl rfl rfl⟩
      refine h.held.only ((Only.setTable ht _).thenGoto _) (fun _ _ => id) ?_ ?_
      · intro slot' i _ hat
        obtain ⟨hne, hat⟩ := masterAt_fdClear hat
        refine ⟨slot', ?_, hat, rfl⟩
        rw [hpc]
        exact fun heq => hne (some.inj heq).symm
      · intro c hc
        rw [goto_pc_self] at hc
        cases hc
  · rename_i t slot k ht hpc
    cases hstep
    exact ⟨h.held.claim hpc ht (hok.1 slot k hpc), h.matched.claim k rfl rfl rfl rfl⟩
  · rename_i t c ht hpc
    obtain rfl := congrArg Prod.snd (some.inj hstep)
    refine h.pass hpc ht fun hused => ?_
    cases hside : c.side with
    | master =>
      obtain ⟨hm, htag⟩ := h.held.streams hpc hside
      rw [htag]
      exact (h.held.masters hm).2
    | slave =>
      refine (hok.2 c.pair c.session (by simp [onSlave, hpc, hside])).resolve_right ?_
      rw [hused]
      nofun
  · cases hstep

theorem Sound.step (h : s.Sound) {a : Act} (hok : s.Orderly a) (hstep : sessions.step s a = some s') : s'.Sound := by
  obtain ⟨⟨reply, u⟩, hrun, rfl⟩ := map_eq_some_iff.mp hstep
  cases a with
  | openMaster pid perms =>
    obtain ⟨t, hpc, ht, rfl⟩ := idle_map_eq_some hrun
    refine ⟨h.held.openMaster hpc ht perms, ?_⟩
    unfold Sessions.openMaster
    split <;> exact h.matched.congr rfl rfl rfl rfl
  | openSlave pid perms i =>
    obtain ⟨t, hpc, ht, rfl⟩ := idle_map_eq_some hrun
    refine ⟨h.held.openSlave hpc ht perms i, ?_⟩
    unfold Sessions.openSlave
    split
    · exact h.matched.congr rfl rfl rfl rfl
    · split <;> exact h.matched.congr rfl rfl rfl rfl
  | dup pid token =>
    obtain ⟨t, hpc, ht, rfl⟩ := idle_map_eq_some hrun
    refine ⟨h.held.dup hpc ht token, ?_⟩
    unfold Sessions.dup
    split <;> exact h.matched.congr rfl rfl rfl rfl
  | fork parent child =>
    simp only [run] at hrun
    split_ifs at hrun with hnew
    obtain ⟨t, hpc, ht, rfl⟩ := idle_map_eq_some hrun
    exact ⟨h.held.fork hpc ht (by simpa using hnew), h.matched.congr rfl rfl rfl rfl⟩
  | start pid token work =>
    obtain ⟨t, ht, hstart⟩ := bind_eq_some_iff.mp hrun
    obtain ⟨hpc, ht⟩ := idle_eq_some ht
    refine ⟨h.held.start hpc ht hstart, ?_⟩
    obtain rfl | ⟨c, rfl, -⟩ := start_cases hstart
    · exact h.matched
    · exact h.matched.congr rfl rfl rfl rfl
  | close pid token =>
    obtain ⟨t, hpc, ht, rfl⟩ := idle_map_eq_some hrun
    refine ⟨h.held.close hpc ht hok, ?_⟩
    unfold Sessions.close
    split
    · exact h.matched
    · simp only
      split
      · exact (h.matched.congr rfl rfl rfl rfl : (s.setTable pid _).Matched).free _
      · exact h.matched.congr rfl rfl rfl rfl
  | proceed pid => exact h.proceed hok hrun
  | abort pid =>
    simp only [run] at hrun
    split at hrun
    · rename_i t c ht hpc
      cases hrun
      exact h.goto ht (by rw [hpc]; rfl) nofun
    · cases hrun

end

/-! ## Runs -/

/-- No pair is in use, and nobody is within a call or has a descriptor of a pair. -/
structure Quiet (s : Sessions) : Prop where
  ptys : ∀ i, (s.ptys i).used = false
  pc : ∀ pid, s.pc pid = .idle
  masters : ∀ pid slot i, ¬ s.HasMaster pid slot i
  sent : ∀ i n d, s.sent i n d = []
  got : ∀ i n d, s.got i n d = []

theorem Quiet.sound (h : Quiet s) : s.Sound := by
  refine ⟨⟨fun hm => absurd hm (h.masters _ _ _), ?_⟩,
    ⟨fun _ => ⟨h.sent _ _ _, h.got _ _ _⟩, ?_, ?_, ?_⟩⟩
  · intro pid c hc
    rw [h.pc] at hc
    cases hc
  · intro i n d
    rw [h.got]
    exact List.nil_prefix
  · intro i d hi
    rw [h.ptys] at hi
    cases hi
  · intro i d hi
    rw [h.ptys] at hi
    cases hi

/-- In every orderly run, a pair is in use for the session of each of its masters; what is read in a session was
written in it, in order, and what was written and not read is in the ring as long as the session lasts; and a
step through a slave descriptor whose session has ended fails with `Pipe`. -/
theorem sessions_separate {s₀ s : Sessions} (h₀ : Quiet s₀)
    (hrun : sessions.Reach (fun v a => v.Orderly a) s₀ s) :
    (∀ pid slot i, s.HasMaster pid slot i → s.Alive i (s.tag pid slot)) ∧
    (∀ i n d, s.got i n d <+: s.sent i n d) ∧
    (∀ i n d, s.Alive i n → s.got i n d ++ ((s.ptys i).ring d).pending = s.sent i n d) ∧
    ∀ a i n, s.Orderly a → s.onSlave a = some (i, n) → ¬ s.Alive i n →
      ∀ reply u, s.run a = some (reply, u) → reply = .fails .pipe := by
  have hsound : s.Sound := hrun.invariant (I := Sound) h₀.sound fun hv hok hstep => hv.step hok hstep
  refine ⟨fun pid slot i hm => hsound.held.masters hm, hsound.matched.past, ?_, ?_⟩
  · rintro i n d ⟨hused, rfl⟩
    exact hsound.matched.now d hused
  · intro a i n hok hslave hended reply u hstep
    cases a with
    | start pid token work => exact absurd (hok i n hslave) hended
    | proceed pid =>
      -- the pair is free, since the session neither lasts nor was followed by another
      have hfree : (s.ptys i).used = false := by
        rcases hok.2 i n hslave with hn | hfree
        · rw [← Bool.not_eq_true]
          exact fun hused => hended ⟨hused, hn⟩
        · exact hfree
      simp only [onSlave] at hslave
      split at hslave
      · rename_i c hpc
        split_ifs at hslave
        simp only [run, Sessions.proceed, hpc] at hstep
        split at hstep <;> simp_all [pass_free]
      · cases hslave
    | _ => simp [onSlave] at hslave

/-! ### Three processes

Processes 1 and 3 are there from the start. -/

def boot : Sessions where
  ptys := fun _ => ⟨false, .new, .new⟩
  procs := fun pid => if pid = 1 ∨ pid = 3 then some .fresh else none
  pc := fun _ => .idle
  session := fun _ => 0
  tag := fun _ _ => 0
  sent := fun _ _ _ => []
  got := fun _ _ _ => []

theorem boot_quiet : Quiet boot where
  ptys := fun _ => rfl
  pc := fun _ => rfl
  masters := by
    rintro pid slot i ⟨t, ht, -, hat⟩
    simp only [boot, ite_none_right_eq_some, some.injEq] at ht
    obtain ⟨-, rfl⟩ := ht
    simp [masterAt, fresh, VfsFd.default] at hat
  sent := fun _ _ _ => rfl
  got := fun _ _ _ => rfl

/-- A test for orderly steps, none of them a `close`. -/
def orderlyStep (s : Sessions) : Act → Bool
  | .close _ _ => false
  | .start pid token work =>
    (s.onSlave (.start pid token work)).all fun x => (s.ptys x.1).used && s.session x.1 == x.2
  | .proceed pid =>
    (match s.pc pid with
      | .claim _ k => !(s.ptys k).used
      | _ => true) &&
    (s.onSlave (.proceed pid)).all fun x => s.session x.1 == x.2 || !(s.ptys x.1).used
  | _ => true

theorem orderly_of_test {a : Act} (h : s.orderlyStep a = true) : s.Orderly a := by
  cases a with
  | close pid token => cases h
  | start pid token work =>
    intro i n hslave
    simpa [orderlyStep, hslave, Alive] using h
  | proceed pid =>
    simp only [orderlyStep, Bool.and_eq_true] at h
    refine ⟨?_, ?_⟩
    · intro slot k hpc
      simpa [hpc] using h.1
    · intro i n hslave
      simpa [hslave] using h.2
  | _ => trivial

/-- Process 1 opens `/dev/ptmx` and the slave, and writes a byte to itself. -/
theorem sessions_separate_echo :
    ∃ s, sessions.Reach (fun v a => v.Orderly a) boot s ∧ s.HasMaster 1 3 0 ∧ s.Alive 0 (s.tag 1 3) ∧
      s.got 0 1 .master = [7] ∧ s.got 0 1 .master <+: s.sent 0 1 .master := by
  obtain ⟨s, hrun, hpc, hprocs, hgot⟩ : ∃ s, sessions.Reach (fun v a => orderlyStep v a = true) boot s ∧
      s.pc 1 = .idle ∧ (s.procs 1).any (fun t => masterAt t 3 = some 0) = true ∧ s.got 0 1 .master = [7] :=
    Machine.exists_reach_of_play
      [.openMaster 1 7, .proceed 1, .proceed 1, .openSlave 1 7 0, .start 1 (fdToken 3 1) (.write [7]), .proceed 1,
        .start 1 (fdToken 4 1) (.read 1), .proceed 1] (by decide +kernel)
  obtain ⟨t, ht, hat⟩ := any_eq_true .. |>.mp hprocs
  have horderly := hrun.mono fun v a h => orderly_of_test (s := v) h
  have hmaster : s.HasMaster 1 3 0 := ⟨t, ht, by rw [hpc]; nofun, of_decide_eq_true hat⟩
  obtain ⟨hmasters, hpast, -⟩ := sessions_separate boot_quiet horderly
  exact ⟨s, horderly, hmaster, hmasters 1 3 0 hmaster, hgot, hpast 0 1 .master⟩

/-- A child closes its copy of the master of process 1, process 3 gets the pair, and reads what process 1 writes. -/
theorem byte_read_in_foreign_session :
    ∃ s, sessions.Reach Machine.always boot s ∧ s.HasMaster 1 3 0 ∧ ¬ s.Alive 0 (s.tag 1 3) ∧
      s.sent 0 1 .master = [7] ∧ s.sent 0 2 .master = [] ∧ s.got 0 2 .master = [7] := by
  refine Machine.exists_reach_imp (P := fun s => s.pc 1 = .idle ∧
    (s.procs 1).any (fun t => masterAt t 3 = some 0) = true ∧
      s.session 0 ≠ s.tag 1 3 ∧ s.sent 0 1 .master = [7] ∧
    s.sent 0 2 .master = [] ∧ s.got 0 2 .master = [7])
    [.openMaster 1 7, .proceed 1, .proceed 1, .fork 1 2, .close 2 (fdToken 3 1), .openMaster 3 7, .proceed 3,
      .proceed 3, .openSlave 3 7 0, .start 1 (fdToken 3 1) (.write [7]), .proceed 1,
      .start 3 (fdToken 4 1) (.read 1), .proceed 3] (by decide +kernel) ?_
  rintro s hrun ⟨hpc, hprocs, hsession, hbytes⟩
  obtain ⟨t, ht, hat⟩ := any_eq_true .. |>.mp hprocs
  exact ⟨⟨t, ht, by rw [hpc]; nofun, of_decide_eq_true hat⟩, fun halive => hsession halive.2, hbytes⟩

end Sessions

end Vfs
