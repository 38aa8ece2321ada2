import OnyxKernel.Ipc.ByteRing

/-!
# The bytes that go through a channel

`send` and `recv` calls on one channel, one after the other as under its lock, by any processes. The ring
starts at any values of its two counters, so that a run may take them over the end of `u32`. What a blocked
caller does to the wait lists is in `Ipc.Wakeup`; it touches no byte.
-/

namespace Ipc

open Onyx

/-! ## One call -/

namespace Channel

/-- The bytes that `recv` would hand out next. -/
def pending (ch : Channel) : List UInt8 := (readLoop chanBufSize ch.buf ch.head (ringUsed ch.head ch.tail).toNat).1

variable {ch ch' : Channel} {pid : Nat} {src : List UInt8} {answer : Answer}

theorem length_pending (ch : Channel) : ch.pending.length = (ringUsed ch.head ch.tail).toNat :=
  length_pendingOf (by decide)

theorem send_pending {bytes : List UInt8} (hr : RingOk ch.head ch.tail) (h : ch.send pid src = (.moved bytes, ch')) :
    bytes = src ∧ ch'.pending = ch.pending ++ src := by
  unfold send at h
  split_ifs at h with hu hp hf <;> simp only [Prod.mk.injEq, reduceCtorEq, false_and, Answer.moved.injEq] at h
  obtain ⟨rfl, rfl⟩ := h
  have hfit : fitting chanBufSize ch.head ch.tail src = src := List.take_of_length_le (Nat.le_of_not_lt hf)
  have hroom := Nat.le_of_not_lt hf
  rw [ringFree_toNat hr] at hroom
  have hle : (ringUsed ch.head ch.tail).toNat ≤ chanBufSize := hr
  have hsum : (ringUsed ch.head ch.tail).toNat + src.length ≤ chanBufSize := by omega
  refine ⟨hfit, ?_⟩
  rw [hfit]
  exact (pendingOf_write (by decide) (by decide) hsum).1

theorem send_kept (h : ch.send pid src = (answer, ch')) : (∃ bytes, answer = .moved bytes) ∨ ch' = ch := by
  unfold send at h
  split_ifs at h <;> obtain ⟨rfl, rfl⟩ := Prod.mk.inj h
  · exact .inr rfl
  · exact .inr rfl
  · exact .inr rfl
  · exact .inl ⟨_, rfl⟩

/-- What a caller that may send is answered. -/
theorem send_answer (hr : RingOk ch.head ch.tail) (hu : ch.used = true) (hc : ch.closed = false)
    (hp : ch.pidAllowed pid = true) (src : List UInt8) :
    (ch.send pid src).1 = if chanBufSize - ch.pending.length < src.length then .blocks else .moved src := by
  rw [length_pending, ← ringFree_toNat hr]
  unfold send
  simp only [hu, hc, hp, Bool.not_true, Bool.or_self, Bool.false_eq_true, if_false]
  split
  · rfl
  · rename_i hfits
    exact congrArg Answer.moved (List.take_of_length_le (Nat.le_of_not_lt hfits))

def Answer.bytes : Answer → List UInt8
  | .moved bytes => bytes
  | _ => []

theorem recv_pending (hr : RingOk ch.head ch.tail) (pid len : Nat) :
    (ch.recv pid len).1.bytes ++ (ch.recv pid len).2.pending = ch.pending ∧
      RingOk (ch.recv pid len).2.head (ch.recv pid len).2.tail := by
  unfold recv
  split_ifs
  · exact ⟨rfl, hr⟩
  · exact ⟨rfl, hr⟩
  · exact ⟨rfl, hr⟩
  · obtain ⟨hpend, hused⟩ := pendingOf_read (by decide : chanBufSize ∣ 2 ^ 32)
      (Nat.min_le_right len (ringUsed ch.head ch.tail).toNat)
    exact ⟨hpend, (Nat.le_of_eq hused).trans ((Nat.sub_le _ _).trans hr)⟩

/-- What `send` returns in the end: a caller that has waited for room stored nothing and is told `Busy`. -/
def Answer.sendResult : Answer → Except Errno Nat
  | .fails e => .error e
  | .blocks => .error .busy
  | .moved bytes => .ok bytes.length

end Channel

/-! ## Runs -/

inductive DataCall
  | send (pid : Nat) (src : List UInt8)
  | recv (pid len : Nat)

/-- A channel, with the bytes that `send` has taken and those that `recv` has returned. -/
structure Traffic where
  ch : Channel
  sent : List UInt8
  received : List UInt8

def Traffic.after (w : Traffic) : DataCall → Traffic
  | .send pid src =>
    { w with ch := (w.ch.send pid src).2, sent := w.sent ++ (w.ch.send pid src).1.bytes }
  | .recv pid len =>
    { w with ch := (w.ch.recv pid len).2, received := w.received ++ (w.ch.recv pid len).1.bytes }

/-- The bytes that went in are the bytes that came out and those that are still there. -/
def Traffic.Balanced (before : List UInt8) (w : Traffic) : Prop :=
  RingOk w.ch.head w.ch.tail ∧ before ++ w.sent = w.received ++ w.ch.pending

variable {ch : Channel} {w : Traffic} {before : List UInt8}

theorem Traffic.Balanced.after (h : w.Balanced before) (c : DataCall) : (w.after c).Balanced before := by
  obtain ⟨hr, heq⟩ := h
  cases c with
  | send pid src =>
    simp only [Traffic.after]
    rcases hs : w.ch.send pid src with ⟨answer, ch'⟩
    cases answer with
    | moved bytes =>
      obtain ⟨rfl, hpend⟩ := Channel.send_pending hr hs
      obtain ⟨buf, tail, rfl, hr', -⟩ := Channel.send_moved hr hs
      exact ⟨hr', by simp only [Channel.Answer.bytes, hpend, ← List.append_assoc, heq]⟩
    | fails | blocks =>
      obtain ⟨bytes, hb⟩ | rfl := Channel.send_kept hs
      · cases hb
      · exact ⟨hr, by simpa [Channel.Answer.bytes] using heq⟩
  | recv pid len =>
    obtain ⟨hpend, hr'⟩ := Channel.recv_pending hr pid len
    refine ⟨hr', ?_⟩
    simp only [Traffic.after]
    rw [List.append_assoc, hpend, heq]

/-- After any calls on a channel that held `ch.pending` before, the bytes taken by `send` are those returned
by `recv`, in order, and what the ring holds; and a `send` that is allowed stores all bytes or, exactly if
fewer than their number of the 4096 are free, none. -/
theorem channel_carries_bytes (hr : RingOk ch.head ch.tail) (calls : List DataCall) :
    let w := calls.foldl Traffic.after ⟨ch, [], []⟩
    ch.pending ++ w.sent = w.received ++ w.ch.pending ∧
      ∀ pid src, w.ch.used = true → w.ch.closed = false → w.ch.pidAllowed pid = true →
        let (answer, ch') := w.ch.send pid src
        if chanBufSize - w.ch.pending.length < src.length then answer.sendResult = .error .busy ∧ ch' = w.ch
        else answer.sendResult = .ok src.length ∧ ch'.pending = w.ch.pending ++ src := by
  have hrun : ∀ (calls : List DataCall) (w : Traffic), w.Balanced ch.pending →
      (calls.foldl Traffic.after w).Balanced ch.pending := by
    intro calls
    induction calls with
    | nil => exact fun _ h => h
    | cons c calls ih => exact fun w h => ih _ (h.after c)
  obtain ⟨hok, heq⟩ := hrun calls ⟨ch, [], []⟩ ⟨hr, by simp⟩
  refine ⟨heq, fun pid src hu hc hp => ?_⟩
  have hanswer := Channel.send_answer hok hu hc hp src
  rcases hs : (calls.foldl Traffic.after ⟨ch, [], []⟩).ch.send pid src with ⟨answer, ch'⟩
  rw [hs] at hanswer
  simp only at hanswer ⊢
  split at hanswer
  · subst hanswer
    rw [if_pos ‹_›]
    exact ⟨rfl, (Channel.send_kept hs).resolve_left nofun⟩
  · subst hanswer
    rw [if_neg ‹_›]
    exact ⟨rfl, (Channel.send_pending hok hs).2⟩

/-- The counters start one short of the end of `u32`. -/
theorem channel_carries_bytes_wrap :
    let ch := { Channel.zeroed with used := true, ownerPid := 1, head := 0xFFFFFFFF, tail := 0xFFFFFFFF }
    let w := [DataCall.send 1 [7, 8, 9], .recv 1 2, .send 1 [4]].foldl Traffic.after ⟨ch, [], []⟩
    ch.pending ++ w.sent = w.received ++ w.ch.pending ∧ w.ch.tail = 3 ∧ w.received = [7, 8] := by
  refine ⟨(channel_carries_bytes ?_ _).1, by decide, by decide⟩
  unfold RingOk
  decide

end Ipc
