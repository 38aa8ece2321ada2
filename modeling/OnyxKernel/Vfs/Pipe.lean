import OnyxKernel.Ipc.DataPath
import OnyxKernel.Vfs.ReadWrite

/-!
# Pipes

A pipe is an unnamed channel with two descriptors, one for each direction. Both have size 0 and the read end
cannot be written, so its size stays 0 and `read` returns nothing before it looks at the channel. The channel
lets its owner in and nobody else, so a child that inherits the write end cannot send.
-/

namespace Vfs

open Onyx Infra Function FdTable

/-! ## Runs -/

/-- `ipc::create`. -/
def createChannel (chans : Nat → Ipc.Channel) (pid : Nat) : Except Errno Nat × (Nat → Ipc.Channel) :=
  match (List.range Ipc.chanMax).find? fun i => !(chans i).used with
  | none => (.error .noMem, chans)
  | some i => (.ok i, update chans i { Ipc.Channel.zeroed with ownerPid := pid, used := true })

/-- `create_pipe` of a process: the channel is made once both slots are there. -/
def Shared.createPipe (sh : Shared) (pid : Nat) (t : FdTable) : Except Errno (UInt64 × UInt64) × Shared × FdTable :=
  let (made, chans) := createChannel sh.chans pid
  match t.createPipe .process made with
  | (.error e, t) => (.error e, sh, t)
  | (.ok ends, t) => (.ok ends, { sh with chans }, t)

/-- A pipe in use: the processes that have its ends, what was written and what was read. -/
structure Pipe where
  shared : Shared
  tables : Nat → Option FdTable
  chan : Nat
  written : List UInt8
  got : List UInt8

inductive Use
  | write (pid : Nat) (data : List UInt8)
  | read (pid len : Nat)
  | fork (parent child : Nat)

namespace Pipe

variable (s : Pipe)

/-- The pipe as `create_pipe` leaves it. -/
def opened (sh : Shared) (pid : Nat) (t : FdTable) (r : UInt64) : Pipe where
  shared := sh
  tables := fun p => if p = pid then some t else none
  chan := (t (fdTokenIdx r)).ino - 2
  written := []
  got := []

def pending : List UInt8 := (s.shared.chans s.chan).pending

def accepted (data : List UInt8) : Except Errno Nat → List UInt8
  | .ok n => data.take n
  | .error _ => []

/-- A call of one of the processes on its end; `fork` hands both descriptors on. -/
def step (other : Backends) (r w : UInt64) : Use → Option Pipe
  | .write pid data =>
    (s.tables pid).map fun t =>
      let (result, shared, t) := s.shared.write other pid t w data
      { s with
        shared
        tables := update s.tables pid (some t)
        written := s.written ++ accepted data result }
  | .read pid len =>
    (s.tables pid).map fun t =>
      let (result, shared, t) := s.shared.read other pid t r len
      { s with
        shared
        tables := update s.tables pid (some t)
        got := s.got ++ (result.toOption.getD []) }
  | .fork parent child =>
    match s.tables parent, s.tables child with
    | some t, none => some { s with tables := update s.tables child (some t) }
    | _, _ => none

end Pipe

def pipes (other : Backends) (r w : UInt64) : Machine Pipe Use := ⟨fun s => s.step other r w⟩

/-! ## The descriptors of a pipe -/

namespace FdTable

variable {t t' : FdTable} {i : Fin 16} {perm : UInt32}

theorem fdCheckPerm_congr {token : UInt64}
    (h : ∀ i, (t' i).used = (t i).used ∧ (t' i).perms = (t i).perms ∧ (t' i).epoch = (t i).epoch) :
    t'.fdCheckPerm token perm = t.fdCheckPerm token perm := by
  simp only [fdCheckPerm, fdCheck, h]

theorem fdCheckPerm_fdSet {token : UInt64} (ino size : Nat) (fs : Fs) (pos mnt : Nat) :
    (t.fdSet i ino size fs pos mnt).fdCheckPerm token perm = t.fdCheckPerm token perm := by
  refine fdCheckPerm_congr fun j => ?_
  by_cases hj : j = i
  · subst hj
    simp [fdSet]
  · simp [fdSet, hj]

theorem fdCheckPerm_tokenOf (hused : (t i).used = true) (hperm : (t i).perms &&& perm ≠ 0) :
    t.fdCheckPerm (t.tokenOf i) perm = .ok i := by
  rw [fdCheckPerm, fdCheck_tokenOf hused]
  simp [hperm]

end FdTable

/-- A table with both ends of a pipe; `n` bounds how far the write end has moved. -/
structure Ends (r w : UInt64) (ri wi : Fin 16) (id n : Nat) (t : FdTable) : Prop where
  apart : ri ≠ wi
  reads : t.fdCheckPerm r permRead = .ok ri
  small : (t ri).size = 0
  writes : t.fdCheckPerm w permWrite = .ok wi
  ipc : (t wi).fs = .ipc
  ino : (t wi).ino = id + 2
  pos : (t wi).pos ≤ n

section

variable {r w : UInt64} {ri wi : Fin 16} {id n : Nat} {t : FdTable} {sh : Shared}

theorem Ends.mono (h : Ends r w ri wi id n t) {m : Nat} (hm : n ≤ m) : Ends r w ri wi id m t :=
  { h with pos := Nat.le_trans h.pos hm }

theorem Ends.moved (h : Ends r w ri wi id n t) {m : Nat} (pos size : Nat) (hm : pos ≤ m) :
    Ends r w ri wi id m (update t wi { t wi with pos, size }) := by
  have hcheck : ∀ token perm, fdCheckPerm (update t wi { t wi with pos, size }) token perm =
      t.fdCheckPerm token perm := by
    intro token perm
    refine fdCheckPerm_congr fun j => ?_
    by_cases hj : j = wi
    · subst hj
      simp
    · simp [hj]
  refine ⟨h.apart, ?_, ?_, ?_, ?_, ?_, ?_⟩
  · rw [hcheck]
    exact h.reads
  · simpa [h.apart] using h.small
  · rw [hcheck]
    exact h.writes
  · simpa using h.ipc
  · simpa using h.ino
  · simpa using hm

theorem Ends.read_eq (h : Ends r w ri wi id n t) (other : Backends) (pid len : Nat) :
    sh.read other pid t r len = (.ok [], sh, t) := by
  simp [Shared.read, h.reads, h.small]

theorem createPipe_ends {chan : Except Errno Nat} {t' : FdTable}
    (h : t.createPipe .process chan = (.ok (r, w), t')) :
    ∃ id ri wi, chan = .ok id ∧ ri = fdTokenIdx r ∧ (t' ri).ino = id + 2 ∧ Ends r w ri wi id 0 t' := by
  unfold createPipe at h
  rcases hr : t.allocFd .process permRead with ⟨_ | ri, t1⟩
  · simp [hr] at h
  rcases hw : t1.allocFd .process permWrite with ⟨_ | wi, t2⟩
  · simp [hr, hw] at h
  cases chan with
  | error e => simp [hr, hw] at h
  | ok id =>
    simp only [hr, hw, Prod.mk.injEq, Except.ok.injEq] at h
    obtain ⟨⟨rfl, rfl⟩, rfl⟩ := h
    obtain ⟨-, rfl⟩ := allocFd_ok hr
    obtain ⟨hfree, rfl⟩ := allocFd_ok hw
    have hne : ri ≠ wi := by
      rintro rfl
      simp at hfree
    refine ⟨id, ri, wi, rfl, ?_, ?_, hne, ?_, ?_, ?_, ?_, ?_, ?_⟩
    · rw [tokenOf, fdTokenIdx_fdToken]
    · simp [fdSet, hne]
    · rw [fdCheckPerm_fdSet, fdCheckPerm_fdSet]
      exact fdCheckPerm_tokenOf (by simp [hne]) (by simp [hne, permRead])
    · simp [fdSet, hne]
    · rw [fdCheckPerm_fdSet, fdCheckPerm_fdSet]
      exact fdCheckPerm_tokenOf (by simp) (by simp [permWrite])
    · simp [fdSet]
    · simp [fdSet]
    · simp [fdSet]

theorem Ends.write_cases (h : Ends r w ri wi id n t) (other : Backends) (pid : Nat) (data : List UInt8)
    (hring : Ipc.RingOk (sh.chans id).head (sh.chans id).tail)
    (hn : n = (sh.chans id).pending.length) :
    (∃ e sh', sh.write other pid t w data = (.error e, sh', t) ∧ sh'.chans id = sh.chans id) ∨
    ∃ sh' t', sh.write other pid t w data = (.ok data.length, sh', t') ∧
      (sh'.chans id).pending = (sh.chans id).pending ++ data ∧
      Ipc.RingOk (sh'.chans id).head (sh'.chans id).tail ∧ Ends r w ri wi id (n + data.length) t' := by
  have hnode : ¬ id + 2 < 2 := by omega
  by_cases hin : Ipc.chanMax ≤ id
  · refine .inl ⟨.inval, sh, ?_, rfl⟩
    simp [Shared.write, h.writes, Shared.writeTo, h.ipc, ipcfsWrite, h.ino, hnode, hin]
  rcases hsend : (sh.chans id).send pid data with ⟨answer, ch⟩
  cases answer with
  | fails e =>
    obtain ⟨bytes, hbytes⟩ | rfl := Ipc.Channel.send_kept hsend
    · cases hbytes
    · refine .inl ⟨e, { sh with chans := update sh.chans id (sh.chans id) }, ?_, by simp⟩
      simp [Shared.write, h.writes, Shared.writeTo, h.ipc, ipcfsWrite, h.ino, hnode, hin, hsend]
  | blocks =>
    obtain ⟨bytes, hbytes⟩ | rfl := Ipc.Channel.send_kept hsend
    · cases hbytes
    · refine .inl ⟨.busy, { sh with chans := update sh.chans id (sh.chans id) }, ?_, by simp⟩
      simp [Shared.write, h.writes, Shared.writeTo, h.ipc, ipcfsWrite, h.ino, hnode, hin, hsend]
  | moved bytes =>
    obtain ⟨rfl, hpending⟩ := Ipc.Channel.send_pending hring hsend
    obtain ⟨buf, tail, rfl, hok, -⟩ := Ipc.Channel.send_moved hring hsend
    -- the ring is small, so that the position stays far from the end of `u32`
    have hlen := congrArg List.length hpending
    rw [Ipc.Channel.length_pending, List.length_append, ← hn] at hlen
    have hcap : n + bytes.length ≤ Ipc.chanBufSize := hlen ▸ hok
    have hpos := h.pos
    have hfits : (t wi).pos + bytes.length < 4294967296 := by
      unfold Ipc.chanBufSize at hcap
      omega
    refine .inr ⟨{ sh with chans := update sh.chans id { sh.chans id with buf, tail } },
      update t wi { t wi with
        pos := (t wi).pos + bytes.length
        size := max (t wi).size ((t wi).pos + bytes.length) }, ?_, ?_, ?_, ?_⟩
    · simp [Shared.write, h.writes, Shared.writeTo, h.ipc,
        ipcfsWrite, h.ino, hnode, hin, hsend, Nat.not_le_of_lt hfits]
    · simpa using hpending
    · simpa using hok
    · exact (h.moved _ _ (Nat.add_le_add_right h.pos _))

/-! ## What a run keeps -/

theorem some_of_update {P : FdTable → Prop} {tables : Nat → Option FdTable} {pid : Nat}
    (hall : ∀ {p t}, tables p = some t → P t) (ht : P t) :
    ∀ {p u}, update tables pid (some t) p = some u → P u := by
  intro p u hu
  by_cases hp : p = pid
  · subst hp
    rw [update_self] at hu
    exact Option.some.inj hu ▸ ht
  · rw [update_of_ne hp] at hu
    exact hall hu

/-- In every run all that was written stays in the ring, and nothing is read. -/
structure Filling (r w : UInt64) (ri wi : Fin 16) (s : Pipe) : Prop where
  ring : Ipc.RingOk (s.shared.chans s.chan).head (s.shared.chans s.chan).tail
  kept : s.pending = s.written
  unread : s.got = []
  ends : ∀ {pid t}, s.tables pid = some t → Ends r w ri wi s.chan s.written.length t

theorem Filling.step {other : Backends} {s u : Pipe} {a : Use} (h : Filling r w ri wi s)
    (hstep : s.step other r w a = some u) : Filling r w ri wi u := by
  cases a with
  | write pid data =>
    simp only [Pipe.step, Option.map_eq_some_iff] at hstep
    obtain ⟨t, ht, rfl⟩ := hstep
    have hends := h.ends ht
    obtain ⟨e, sh', hwrite, hchan⟩ | ⟨sh', t', hwrite, hpending, hring, hends'⟩ :=
      hends.write_cases other pid data h.ring (congrArg List.length h.kept).symm
    · simp only [hwrite, Pipe.accepted, List.append_nil]
      refine ⟨?_, ?_, h.unread, ?_⟩
      · simpa only [hchan] using h.ring
      · simpa only [Pipe.pending, hchan] using h.kept
      · exact some_of_update h.ends hends
    · simp only [hwrite, Pipe.accepted, List.take_length]
      refine ⟨hring, ?_, h.unread, ?_⟩
      · rw [← h.kept]
        exact hpending
      · rw [List.length_append]
        exact some_of_update (fun ht' => (h.ends ht').mono (Nat.le_add_right _ _)) hends'
  | read pid len =>
    simp only [Pipe.step, Option.map_eq_some_iff] at hstep
    obtain ⟨t, ht, rfl⟩ := hstep
    rw [(h.ends ht).read_eq]
    have htables : update s.tables pid (some t) = s.tables := by rw [← ht, update_eq_self]
    simp only [htables, Except.toOption, Option.getD_some, List.append_nil]
    exact h
  | fork parent child =>
    simp only [Pipe.step] at hstep
    split at hstep
    · rename_i t ht _
      obtain rfl := Option.some.inj hstep
      exact ⟨h.ring, h.kept, h.unread, some_of_update h.ends (h.ends ht)⟩
    · cases hstep

theorem Filling.opened {sh' : Shared} {t' : FdTable} {pid : Nat}
    (h : sh.createPipe pid t = (.ok (r, w), sh', t')) :
    ∃ ri wi, Filling r w ri wi (Pipe.opened sh' pid t' r) := by
  unfold Shared.createPipe at h
  rcases hmade : createChannel sh.chans pid with ⟨made, chans⟩
  rcases hpipe : t.createPipe .process made with ⟨_ | ends, t1⟩
  · simp [hmade, hpipe] at h
  · simp only [hmade, hpipe, Prod.mk.injEq, Except.ok.injEq] at h
    obtain ⟨rfl, rfl, rfl⟩ := h
    obtain ⟨id, ri, wi, rfl, rfl, hino, hends⟩ := createPipe_ends hpipe
    have hchan : chans id = { Ipc.Channel.zeroed with ownerPid := pid, used := true } := by
      unfold createChannel at hmade
      split at hmade
      · simp at hmade
      · simp only [Prod.mk.injEq, Except.ok.injEq] at hmade
        obtain ⟨rfl, rfl⟩ := hmade
        simp
    have hid : (Pipe.opened { sh with chans } pid t1 r).chan = id := by
      simp [Pipe.opened, hino]
    refine ⟨fdTokenIdx r, wi, ?_, ?_, rfl, ?_⟩
    · rw [hid]
      simp [Pipe.opened, hchan, Ipc.RingOk, Ipc.ringUsed, Ipc.Channel.zeroed]
    · rw [Pipe.pending, hid]
      simp [Pipe.opened, hchan, Ipc.Channel.pending, Ipc.ringUsed, Ipc.Channel.zeroed, Ipc.readLoop]
    · intro pid' t' ht'
      rw [hid]
      simp only [Pipe.opened] at ht'
      split at ht'
      · exact Option.some.inj ht' ▸ hends
      · cases ht'

end

/-! ## Coherence -/

/-- The next `read` of a process on the read end returns bytes of the pipe, and none only if there is none. -/
def Pipe.Delivers (s : Pipe) (other : Backends) (r : UInt64) (pid len : Nat) : Prop :=
  ∀ t bytes, s.tables pid = some t → (s.shared.read other pid t r len).1 = .ok bytes →
    bytes <+: s.pending ∧ (bytes = [] → s.pending = [])

/-- In every run on a pipe, what was read and what is pending is what was written, and the next `read`, by the
process that made the pipe or by a child, is right if and only if nothing is pending.

In every state of an OnyxFS file, so also after a `write` through another descriptor, `read` at a position inside
the file returns the bytes that the file has now if and only if the size in the descriptor covers those that
were asked for and the file has a block at each of them. -/
theorem descriptors_coherent (other : Backends) :
    (∀ (sh sh' : Shared) (pid : Nat) (t t' : FdTable) (r w : UInt64) (s : Pipe),
      sh.createPipe pid t = (.ok (r, w), sh', t') →
      (pipes other r w).Reach Machine.always (Pipe.opened sh' pid t' r) s →
        s.got ++ s.pending = s.written ∧
        ∀ reader len, (s.tables reader).isSome → (s.Delivers other r reader len ↔ s.pending = [])) ∧
    ∀ (sh : Shared) (t : FdTable) (token : UInt64) (idx : Fin 16) (pid len : Nat), Readable sh t token idx →
      (t idx).pos < sh.currentSize (t idx) →
      let n := min len (sh.currentSize (t idx) - (t idx).pos)
      ((sh.read other pid t token len).1 = .ok (sh.currentBytes (t idx) n) ↔
        n ≤ (t idx).size - (t idx).pos ∧ ∀ i < n, sh.mapped (t idx) ((t idx).pos + i)) := by
  constructor
  · intro sh sh' pid t t' r w s hmade hrun
    obtain ⟨ri, wi, hstart⟩ := Filling.opened hmade
    have hfill : Filling r w ri wi s := hrun.invariant (I := Filling r w ri wi) hstart fun hv _ hstep => hv.step hstep
    refine ⟨by rw [hfill.unread, hfill.kept, List.nil_append], ?_⟩
    intro reader len hhas
    obtain ⟨u, hu⟩ := Option.isSome_iff_exists.mp hhas
    constructor
    · intro hright
      exact (hright u [] hu (by rw [(hfill.ends hu).read_eq])).2 rfl
    · intro hnone v bytes hv hbytes
      rw [(hfill.ends hv).read_eq] at hbytes
      obtain rfl : [] = bytes := Except.ok.inj hbytes
      exact ⟨List.nil_prefix, fun _ => hnone⟩
  · intro sh t token idx pid len hread _
    exact hread.read_current_iff other pid len

/-! ### A process with a pipe and a file opened twice -/

def Backends.none : Backends := ⟨fun _ _ _ _ => .error .noSys, fun _ _ _ => .error .noSys⟩

/-- Slots 3 and 4 have the file `/f` of 4096 bytes open and stand at its end. -/
def openedTwice : FdTable := fun i =>
  if i = 3 ∨ i = 4 then
    { VfsFd.default with
      ino := 2, size := 4096, pos := 4096, fs := .onyx, used := true, perms := 7, epoch := 1 }
  else .default

def quietChannels : Shared where
  files := (oneFile 0o100644 0 0).files
  chans := fun _ => .zeroed

/-- The channels and the table after `create_pipe`. -/
def withPipe : Shared × FdTable := (quietChannels.createPipe 1 .fresh).2

theorem createPipe_quiet :
    quietChannels.createPipe 1 .fresh = (.ok (fdToken 3 1, fdToken 4 1), withPipe.1, withPipe.2) :=
  Prod.ext (by decide +kernel) rfl

def newPipe : Pipe := Pipe.opened withPipe.1 1 withPipe.2 (fdToken 3 1)

theorem newPipe_written :
    ∃ s, (pipes Backends.none (fdToken 3 1) (fdToken 4 1)).Reach Machine.always newPipe s ∧
      s.pending = [7] ∧ (s.tables 1).isSome ∧
      (s.tables 1).any (fun t => (s.shared.read Backends.none 1 t (fdToken 3 1) 10).1 = .ok []) :=
  Machine.exists_reach_of_play [.write 1 [7]] (by decide +kernel)

/-- The volume and the table after a byte was written at the end of the file, through slot 3. -/
def appended : Shared × FdTable := (quietChannels.write Backends.none 1 openedTwice (fdToken 3 1) [9]).2

theorem appended_readable : Readable appended.1 appended.2 (fdToken 4 1) 4 where
  checked := by decide +kernel
  onyx := by decide +kernel
  calm := fun _ => rfl
  known := by decide +kernel

/-- A byte is in the pipe and `read` returns nothing; a byte was added to the file and `read` through the other
descriptor returns nothing. -/
theorem read_misses_bytes :
    quietChannels.createPipe 1 .fresh = (.ok (fdToken 3 1, fdToken 4 1), withPipe.1, withPipe.2) ∧
    (∃ s, (pipes Backends.none (fdToken 3 1) (fdToken 4 1)).Reach Machine.always newPipe s ∧
      s.pending = [7] ∧ ¬ s.Delivers Backends.none (fdToken 3 1) 1 10) ∧
    (quietChannels.write Backends.none 1 openedTwice (fdToken 3 1) [9]).1 = .ok 1 ∧
    Readable appended.1 appended.2 (fdToken 4 1) 4 ∧
    (appended.2 4).pos < appended.1.currentSize (appended.2 4) ∧
    (appended.1.read Backends.none 1 appended.2 (fdToken 4 1) 1).1 = .ok [] ∧
    appended.1.currentBytes (appended.2 4) 1 = [9] := by
  refine ⟨createPipe_quiet, ?_, by decide +kernel, appended_readable, by decide +kernel, by decide +kernel,
    by decide +kernel⟩
  obtain ⟨s, hrun, hpending, -, hread⟩ := newPipe_written
  obtain ⟨t, ht, hnone⟩ := Option.any_eq_true .. |>.mp hread
  refine ⟨s, hrun, hpending, fun hright => ?_⟩
  have hempty := (hright t [] ht (of_decide_eq_true hnone)).2 rfl
  rw [hpending] at hempty
  cases hempty

/-- The pipe while it is empty, and the file from its start. -/
theorem descriptors_coherent_new :
    newPipe.Delivers Backends.none (fdToken 3 1) 1 10 ∧
    (quietChannels.read Backends.none 1 (openedTwice.fdUpdatePos 3 0) (fdToken 3 1) 1).1 =
      .ok (quietChannels.currentBytes (openedTwice.fdUpdatePos 3 0 3) 1) := by
  have hcoherent := descriptors_coherent Backends.none
  constructor
  · exact ((hcoherent.1 _ _ 1 _ _ _ _ newPipe createPipe_quiet .refl).2 1 10 (by decide +kernel)).mpr
      (by decide +kernel)
  · refine (hcoherent.2 quietChannels (openedTwice.fdUpdatePos 3 0) (fdToken 3 1) 3 1 1
      ⟨by decide +kernel, by decide +kernel, fun _ => rfl, by decide +kernel⟩ (by decide +kernel)).mpr ⟨?_, ?_⟩
    · decide +kernel
    · intro i hi
      obtain rfl : i = 0 := Nat.lt_one_iff.mp (Nat.lt_of_lt_of_le hi (Nat.min_le_left _ _))
      unfold Shared.mapped
      decide +kernel

end Vfs
