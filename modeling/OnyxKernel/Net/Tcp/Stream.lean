import OnyxKernel.Net.Tcp.Sequence

/-!
# The byte stream of the peer

A connection that is open locally, between the segments of a peer and an application that reads. The
segments may come in any order and any number of times, overlap and be cut; all that is asked of them is
that a byte stands for the byte of the stream with its number and a FIN for the end of the stream.

A state of the machine is a connection together with all bytes that `tcp_recv` has returned, whether it
has reported the end, and the segments that the last step sent.
-/

namespace Tcp

open Infra Net List

/-! ## Connections that are open

What the calls keep of the receiving side: the ring is not overfull, and the FIN of the peer was not
taken in the states before `closeWait`.
-/

structure TcpConn.Receiving (c : TcpConn) : Prop where
  room : c.recvLen ≤ bufSize
  noFin : c.state = .synSent ∨ c.state = .synReceived ∨ c.state = .established → c.peerFin = false

variable {c : TcpConn} {first : UInt32} {stream : List UInt8}

section

variable (h : c.Receiving)
include h

theorem TcpConn.Receiving.congr {c' : TcpConn} (hlen : c'.recvLen = c.recvLen)
    (hstate : c'.state = c.state) (hfin : c'.peerFin = c.peerFin) : c'.Receiving := by
  refine ⟨hlen ▸ h.room, ?_⟩
  rw [hstate, hfin]
  exact h.noFin

theorem TcpConn.Receiving.past {c' : TcpConn} (hlen : c'.recvLen ≤ c.recvLen)
    (hstate : c'.state = .closing ∨ c'.state = .timeWait ∨ c'.state = .failed ∨ c'.state = .closeWait) :
    c'.Receiving := by
  refine ⟨hlen.trans h.room, ?_⟩
  rcases hstate with hs | hs | hs | hs <;> simp [hs]

theorem TcpConn.Receiving.drainAcked (ackNo : UInt32) : (drainAcked c ackNo).Receiving := by
  obtain ⟨hstate, hlen, -, -, hfin, -⟩ := drainAcked_fields c ackNo
  exact h.congr hlen hstate hfin

theorem TcpConn.Receiving.acceptPayload (seq : UInt32)
    (payload : List UInt8) : (acceptPayload c seq payload).Receiving := by
  unfold Tcp.acceptPayload
  split
  · refine ⟨?_, h.noFin⟩
    have := h.room
    dsimp only
    omega
  · exact h

theorem TcpConn.Receiving.transitionOpen
    (hs : c.state = .established ∨ c.state = .timeWait ∨ c.state = .closeWait)
    (seq ackNo : UInt32) (flags : UInt8) (payload : List UInt8) (now : UInt64) :
    (transitionOpen c seq ackNo flags payload now).1.Receiving := by
  have hpayload := (h.drainAcked ackNo).acceptPayload seq payload
  have hstate : (Tcp.acceptPayload (Tcp.drainAcked c ackNo) seq payload).state = c.state :=
    acceptPayload_send _ seq payload (·.state = c.state) fun _ _ _ => drainAcked_state c ackNo
  unfold Tcp.transitionOpen
  dsimp only
  split
  · refine hpayload.past ?_ ?_
    · exact Nat.le_refl _
    · rcases hs with hs | hs | hs <;> simp [Tcp.acceptFin, hstate, hs]
  · exact hpayload

theorem TcpConn.Receiving.tcpTransition (seq ackNo : UInt32)
    (flags : UInt8) (payload : List UInt8) (now : UInt64) :
    (tcpTransition c seq ackNo flags payload now).1.Receiving := by
  unfold Tcp.tcpTransition
  cases hs : c.state with
  | synSent =>
    dsimp only
    split
    · exact ⟨h.room, fun _ => h.noFin (.inl hs)⟩
    · exact h
  | synReceived =>
    dsimp only
    split
    · apply TcpConn.Receiving.transitionOpen
      · exact ⟨h.room, fun _ => h.noFin (.inr (.inl hs))⟩
      · exact .inl rfl
    · exact h
  | established => exact h.transitionOpen (.inl hs) seq ackNo flags payload now
  | timeWait => exact h.transitionOpen (.inr (.inl hs)) seq ackNo flags payload now
  | closeWait => exact h.transitionOpen (.inr (.inr hs)) seq ackNo flags payload now
  | closing =>
    have hdrained := h.drainAcked ackNo
    dsimp only
    split
    · split
      · exact hdrained.past (Nat.le_refl _) (.inr (.inl rfl))
      · exact hdrained
    · exact h
  | failed => exact h

end

theorem kept_receiving : Kept TcpConn.Receiving where
  opening _ _ _ _ _ := ⟨Nat.zero_le _, fun _ => rfl⟩
  passive _ _ _ _ _ _ := ⟨Nat.zero_le _, fun _ => rfl⟩
  handle {c} g now h := by
    unfold handleSegment
    split
    · exact h.past (Nat.le_refl _) (.inr (.inr (.inl rfl)))
    · have hwindow : TcpConn.Receiving { c with peerWindow := g.window } := h.congr rfl rfl rfl
      exact hwindow.tcpTransition ..
  send {c c' data now out n} h hok := by
    unfold tcpSendInner at hok
    split at hok
    · cases hok
    · cases hok
      exact h.congr rfl rfl rfl
  recv {c c' size out bytes} h hok := by
    obtain ⟨head, n, rfl⟩ := tcpRecvInner_eq hok
    exact ⟨(Nat.sub_le _ _).trans h.room, h.noFin⟩
  close {c c' now} h hok := by
    unfold tcpCloseInner at hok
    split at hok
    · cases hok
      exact h.past (Nat.zero_le _) (.inl rfl)
    · cases hok
  detach h := h.congr rfl rfl rfl

theorem TcpConn.Receiving.retry (h : c.Receiving) (now : UInt64) : (retry c now).1.Receiving := by
  rcases retry_cases c now with heq | heq | ⟨action, -, -, -, heq⟩
  · rwa [heq]
  · rw [heq]
    exact h.past (Nat.le_refl _) (.inr (.inr (.inl rfl)))
  · rw [heq]
    exact h.congr rfl rfl rfl

theorem receiving_of_reach {t : Tables} (h : machine.Reach Machine.always .boot t) : t.All TcpConn.Receiving := by
  refine h.invariant (fun _ _ hc => nomatch hc) ?_
  intro v a w hv _ hstep
  cases hstep
  exact hv.step kept_receiving a fun now _ _ _ _ hc => hc.retry now

/-! ## Segments of a stream -/

/-- The segment agrees with a stream whose first byte has the number `first`. -/
structure Incoming.Consistent (g : Incoming) (stream : List UInt8) (first : UInt32) : Prop where
  noRst : g.flags &&& rst = 0
  bytes : ∀ j b, g.payload[j]? = some b →
    ∃ p, stream[p]? = some b ∧ g.seq + UInt32.ofNat j = first + UInt32.ofNat p
  fin : g.flags &&& Tcp.fin ≠ 0 →
    g.seq + UInt32.ofNat g.payload.length = first + UInt32.ofNat stream.length

instance (g : Incoming) (stream : List UInt8) (first : UInt32) : Decidable (g.Consistent stream first) :=
  decidable_of_iff
    (g.flags &&& rst = 0 ∧
      (∀ j, j < g.payload.length → ∃ p, p < stream.length ∧
        stream[p]? = g.payload[j]? ∧ g.seq + UInt32.ofNat j = first + UInt32.ofNat p) ∧
      (g.flags &&& Tcp.fin ≠ 0 →
        g.seq + UInt32.ofNat g.payload.length = first + UInt32.ofNat stream.length))
    ⟨fun ⟨hrst, hbytes, hfin⟩ => ⟨hrst, fun j b hb => by
        obtain ⟨p, -, hp, hnum⟩ := hbytes j (List.getElem?_eq_some_iff.mp hb).1
        exact ⟨p, hp.trans hb, hnum⟩, hfin⟩,
      fun ⟨hrst, hbytes, hfin⟩ => ⟨hrst, fun j hj => by
        obtain ⟨p, hp, hnum⟩ := hbytes j _ (getElem?_eq_getElem hj)
        exact ⟨p, (List.getElem?_eq_some_iff.mp hp).1, hp.trans (List.getElem?_eq_getElem hj).symm, hnum⟩,
        hfin⟩⟩

theorem position_inj {i j : Nat} (hi : i < 2 ^ 32) (hj : j < 2 ^ 32)
    (h : first + UInt32.ofNat i = first + UInt32.ofNat j) : i = j := by
  have hofNat : UInt32.ofNat i = UInt32.ofNat j := by simpa using h
  have htoNat := congrArg UInt32.toNat hofNat
  rwa [toNat_ofNat_lt hi, toNat_ofNat_lt hj] at htoNat

/-- A payload that begins at position `n` continues the stream from there. -/
theorem Incoming.Consistent.continues {g : Incoming}
    (h : g.Consistent stream first) (hlen : stream.length < 2 ^ 32 - 1) {n : Nat}
    (hn : n ≤ stream.length) (hseq : g.seq = first + UInt32.ofNat n) :
    ∀ j b, g.payload[j]? = some b → stream[n + j]? = some b := by
  intro j
  induction j with
  | zero =>
    intro b hb
    obtain ⟨p, hp, hnum⟩ := h.bytes 0 b hb
    have hp' : p < stream.length := (List.getElem?_eq_some_iff.mp hp).1
    have hnum : first + UInt32.ofNat n = first + UInt32.ofNat p := by
      rw [← hseq, ← hnum]
      simp
    rwa [Nat.add_zero, position_inj (by omega) (by omega) hnum]
  | succ j ih =>
    intro b hb
    -- the byte before it is in the payload too, and the positions of the two follow each other
    obtain ⟨a, ha⟩ : ∃ a, g.payload[j]? = some a := by
      have hj := (List.getElem?_eq_some_iff.mp hb).1
      exact ⟨_, List.getElem?_eq_getElem (by omega)⟩
    obtain ⟨p, hp, hnum⟩ := h.bytes (j + 1) b hb
    have hp' : p < stream.length := (List.getElem?_eq_some_iff.mp hp).1
    have hbefore : n + j < stream.length := (List.getElem?_eq_some_iff.mp (ih a ha)).1
    rw [hseq, UInt32.add_assoc, ← UInt32.ofNat_add] at hnum
    rwa [position_inj (by omega) (by omega) hnum]

theorem Incoming.Consistent.take_payload {g : Incoming}
    (h : g.Consistent stream first) (hlen : stream.length < 2 ^ 32 - 1) {n : Nat}
    (hn : n ≤ stream.length) (hseq : g.seq = first + UInt32.ofNat n) {m : Nat}
    (hm : m ≤ g.payload.length) :
    stream.take n ++ g.payload.take m = stream.take (n + m) ∧ n + m ≤ stream.length := by
  have hcont := h.continues hlen hn hseq
  have hend : n + m ≤ stream.length := by
    rcases Nat.eq_zero_or_pos m with rfl | hpos
    · simpa using hn
    · have hlast := hcont (m - 1) _ (getElem?_eq_getElem (by omega))
      have := (List.getElem?_eq_some_iff.mp hlast).1
      omega
  refine ⟨?_, hend⟩
  rw [take_add]
  congr 1
  apply ext_getElem?
  intro j
  by_cases hj : j < m
  · rw [getElem?_take_of_lt hj, getElem?_take_of_lt hj, getElem?_drop,
      getElem?_eq_getElem (by omega), hcont j _ (getElem?_eq_getElem (by omega))]
  · rw [getElem?_take_eq_none (by omega), getElem?_take_eq_none (by omega)]

/-! ## Reading -/

/-- A connection and what has been read from it. -/
structure Reader where
  conn : TcpConn
  /-- the bytes that `tcp_recv` has returned, one call after the other -/
  delivered : List UInt8
  /-- a call with room for a byte has returned none -/
  eof : Bool
  /-- the segments sent by the last step -/
  out : List Segment

inductive Event
  | segment (g : Incoming) (now : UInt64)
  | recv (size : Nat)
  deriving DecidableEq, Repr

namespace Reader

def step (r : Reader) : Event → Reader
  | .segment g now =>
    { r with conn := (handleSegment r.conn g now).1, out := (handleSegment r.conn g now).2 }
  | .recv size =>
    match tcpRecvInner r.conn size with
    | .error _ => { r with out := [] }
    | .ok (c, out, bytes) =>
      { conn := c
        delivered := r.delivered ++ bytes
        eof := r.eof || (0 < size && bytes = [])
        out }

def machine : Machine Reader Event where
  step r e := some (r.step e)

def start (c : TcpConn) : Reader := ⟨c, [], false, []⟩

end Reader

def Event.Consistent (stream : List UInt8) (first : UInt32) : Event → Prop
  | .segment g _ => g.Consistent stream first
  | .recv _ => True

instance (stream : List UInt8) (first : UInt32) : (e : Event) → Decidable (e.Consistent stream first)
  | .segment g _ => inferInstanceAs (Decidable (g.Consistent stream first))
  | .recv _ => isTrue trivial

def TcpConn.held (c : TcpConn) : List UInt8 := Ring.held bufSize c.recvBuf c.recvHead c.recvLen

def Reader.received (r : Reader) : Nat := r.delivered.length + r.conn.recvLen

/-- Where a reader is in the stream. -/
structure Reader.Follows (stream : List UInt8) (first : UInt32) (r : Reader) : Prop where
  room : r.conn.recvLen ≤ bufSize
  within : r.received ≤ stream.length
  bytes : r.delivered ++ r.conn.held = stream.take r.received
  state : r.conn.state = .established ∧ r.conn.peerFin = false ∨
    r.conn.state = .closeWait ∧ r.conn.peerFin = true
  next : r.conn.rcvNxt = first + UInt32.ofNat (r.received + if r.conn.peerFin then 1 else 0)
  whole : r.conn.peerFin = true → r.received = stream.length
  eof : r.eof = true → r.delivered = stream

/-- The segments just sent tell the peer what is free and what comes next. -/
def Reader.Advertises (r : Reader) : Prop :=
  ∀ g ∈ r.out, g.window.toNat = bufSize - r.conn.recvLen ∧ g.ack = r.conn.rcvNxt

theorem window_sendTcpSeg (c : TcpConn) (flags : UInt8) (data : List UInt8) :
    (sendTcpSeg c flags data).window.toNat = bufSize - c.recvLen := by
  show (UInt16.ofNat (bufSize - c.recvLen)).toNat = _
  rw [UInt16.toNat_ofNat']
  exact Nat.mod_eq_of_lt (Nat.lt_of_le_of_lt (Nat.sub_le _ _) (by decide))

namespace Reader

variable {stream : List UInt8} {first : UInt32} {r : Reader}

section

variable (h : r.Follows stream first)
include h

theorem Follows.congr {c : TcpConn} {out : List Segment} (hbuf : c.recvBuf = r.conn.recvBuf)
    (hlen : c.recvLen = r.conn.recvLen) (hhead : c.recvHead = r.conn.recvHead)
    (hnext : c.rcvNxt = r.conn.rcvNxt) (hfin : c.peerFin = r.conn.peerFin)
    (hstate : c.state = r.conn.state) : Follows stream first { r with conn := c, out := out } := by
  have hheld : c.held = r.conn.held := by rw [TcpConn.held, TcpConn.held, hbuf, hlen, hhead]
  have hreceived : received { r with conn := c, out := out } = r.received := by
    simp only [received, hlen]
  refine ⟨hlen ▸ h.room, hreceived ▸ h.within, ?_, ?_, ?_, ?_, h.eof⟩
  · rw [hreceived, ← h.bytes]
    show r.delivered ++ c.held = _
    rw [hheld]
  · show c.state = _ ∧ c.peerFin = _ ∨ c.state = _ ∧ c.peerFin = _
    rw [hstate, hfin]
    exact h.state
  · rw [hreceived]
    show c.rcvNxt = first + UInt32.ofNat (r.received + if c.peerFin then 1 else 0)
    rw [hnext, hfin]
    exact h.next
  · rw [hreceived]
    show c.peerFin = true → _
    rw [hfin]
    exact h.whole

theorem Follows.next_of_noFin (hfin : r.conn.peerFin = false) : r.conn.rcvNxt = first + UInt32.ofNat r.received := by
  simpa [hfin] using h.next

section

variable (hlen : stream.length < 2 ^ 32 - 1) {g : Incoming} (hg : g.Consistent stream first)
include hlen hg

theorem Follows.noFin_of_payload (hseq : g.seq = r.conn.rcvNxt)
    (hpayload : g.payload ≠ []) : r.conn.peerFin = false := by
  by_contra hfin
  rw [Bool.not_eq_false] at hfin
  obtain ⟨b, hb⟩ : ∃ b, g.payload[0]? = some b := ⟨_, getElem?_eq_getElem (length_pos_of_ne_nil hpayload)⟩
  obtain ⟨p, hp, hnum⟩ := hg.bytes 0 b hb
  have hp' : p < stream.length := (List.getElem?_eq_some_iff.mp hp).1
  have hnext := h.next
  rw [if_pos hfin, h.whole hfin, ← hseq] at hnext
  have hnum : first + UInt32.ofNat (stream.length + 1) = first + UInt32.ofNat p := by
    rw [← hnext, ← hnum]
    simp
  have := position_inj (by omega) (by omega) hnum
  omega

theorem Follows.acceptPayload : Follows stream first { r with conn := acceptPayload r.conn g.seq g.payload } := by
  unfold Tcp.acceptPayload
  split
  · rename_i hnew
    have hfin := h.noFin_of_payload hlen hg hnew.1 hnew.2
    have hnext := h.next_of_noFin hfin
    generalize hm : min g.payload.length (bufSize - r.conn.recvLen) = m
    have hroom := h.room
    have htake := hg.take_payload hlen h.within (hnew.1.trans hnext) (m := m) (by omega)
    have hstored : (g.payload.take m).length = m := by
      rw [length_take]
      omega
    have hreceived : r.delivered.length + (r.conn.recvLen + m) = r.received + m := by
      rw [received]
      omega
    -- the ring holds what it held, followed by the bytes taken
    have hheld : Ring.held bufSize
        (Ring.store bufSize r.conn.recvBuf ((r.conn.recvHead + r.conn.recvLen) % bufSize) (g.payload.take m))
        r.conn.recvHead (r.conn.recvLen + m) = r.conn.held ++ g.payload.take m := by
      have hstore := Ring.held_store r.conn.recvBuf r.conn.recvHead (g.payload.take m)
        (show r.conn.recvLen + (g.payload.take m).length ≤ bufSize by omega)
      rw [Ring.store_mod]
      rwa [hstored] at hstore
    refine ⟨by dsimp only; omega, ?_, ?_, h.state, ?_, ?_, h.eof⟩
    · show r.delivered.length + (r.conn.recvLen + m) ≤ _
      rw [hreceived]
      exact htake.2
    · show r.delivered ++ Ring.held _ _ _ _ = stream.take (r.delivered.length + (r.conn.recvLen + m))
      rw [hheld, ← append_assoc, h.bytes, hreceived, htake.1]
    · show r.conn.rcvNxt + UInt32.ofNat m =
        first + UInt32.ofNat (r.delivered.length + (r.conn.recvLen + m) + if r.conn.peerFin then 1 else 0)
      rw [hfin, hreceived, hnext, UInt32.add_assoc, ← UInt32.ofNat_add]
      rfl
    · show r.conn.peerFin = true → _
      simp [hfin]
  · exact h

theorem Follows.acceptFin (hlands : finLands r.conn g.seq g.flags g.payload)
    (now : UInt64) : Follows stream first { r with conn := acceptFin r.conn now } := by
  have hend := (hg.fin hlands.1).symm.trans hlands.2
  have hwithin := h.within
  rw [h.next] at hend
  have hpos := position_inj (by omega) (by split <;> omega) hend
  -- the FIN was not taken before, or its number would have been passed
  have hfin : r.conn.peerFin = false := by
    by_contra hfin
    rw [Bool.not_eq_false] at hfin
    rw [if_pos hfin, h.whole hfin] at hpos
    omega
  have hall : r.received = stream.length := by simpa [hfin] using hpos.symm
  have hstate : r.conn.state = .established := by
    rcases h.state with hs | hs
    · exact hs.1
    · rw [hfin] at hs
      exact absurd hs.2 (by decide)
  refine ⟨h.room, hwithin, h.bytes, .inr ⟨?_, rfl⟩, ?_, fun _ => hall, h.eof⟩
  · simp [Tcp.acceptFin, hstate]
  · show r.conn.rcvNxt + 1 = first + UInt32.ofNat (r.received + 1)
    rw [h.next_of_noFin hfin, UInt32.ofNat_add, ← UInt32.add_assoc]
    rfl

theorem Follows.segment (now : UInt64) : Follows stream first (r.step (.segment g now)) := by
  have hopen : tcpTransition { r.conn with peerWindow := g.window } g.seq g.ack g.flags g.payload now =
      transitionOpen { r.conn with peerWindow := g.window } g.seq g.ack g.flags g.payload now := by
    unfold tcpTransition
    rcases h.state with ⟨hs, -⟩ | ⟨hs, -⟩ <;> simp only [hs]
  obtain ⟨hstate, hrecv, -, -, hfin, hnext, -, hbuf, hhead⟩ :=
    drainAcked_fields { r.conn with peerWindow := g.window } g.ack
  have hacked : Follows stream first
      { r with
        conn := drainAcked { r.conn with peerWindow := g.window } g.ack
        out := (handleSegment r.conn g now).2 } :=
    h.congr hbuf hrecv hhead hnext hfin hstate
  have hpayload := hacked.acceptPayload hlen hg
  show Follows stream first { r with conn := (handleSegment r.conn g now).1, out := _ }
  rw [handleSegment_fst r.conn hg.noRst, hopen]
  unfold transitionOpen
  dsimp only
  split
  · rename_i hlands
    exact hpayload.acceptFin hlen hg hlands now
  · exact hpayload

end

theorem Follows.recv (size : Nat) : Follows stream first (r.step (.recv size)) := by
  have hstate : r.conn.state ≠ .failed := by rcases h.state with ⟨hs, -⟩ | ⟨hs, -⟩ <;> simp [hs]
  unfold step tcpRecvInner readReceived
  dsimp only
  rw [if_neg hstate]
  by_cases hempty : r.conn.recvLen = 0
  · rw [if_pos hempty]
    cases hfin : r.conn.peerFin with
    | false => exact h.congr rfl rfl rfl rfl rfl rfl
    | true =>
      -- the end of the file: nothing is held, and all of the stream was received
      have hall : r.delivered = stream := by
        have hbytes := h.bytes
        rwa [h.whole hfin, take_length, TcpConn.held, hempty, Ring.held_zero, append_nil] at hbytes
      have hsame : Follows stream first { r with delivered := r.delivered ++ [] } := by
        rw [append_nil]
        exact h
      exact { hsame with room := h.room, state := h.state, eof := fun _ => (append_nil _).trans hall }
  · rw [if_neg hempty]
    dsimp only
    generalize hn : min size r.conn.recvLen = n
    have hle : n ≤ r.conn.recvLen := by omega
    have hreturned : (Ring.held bufSize r.conn.recvBuf r.conn.recvHead n).length = n := Ring.length_held ..
    have hreceived : (r.delivered ++ Ring.held bufSize r.conn.recvBuf r.conn.recvHead n).length +
        (r.conn.recvLen - n) = r.received := by
      rw [length_append, hreturned, received]
      omega
    have hheld : Ring.held bufSize r.conn.recvBuf r.conn.recvHead n ++
        Ring.held bufSize r.conn.recvBuf ((r.conn.recvHead + n) % bufSize) (r.conn.recvLen - n) =
          r.conn.held := by
      rw [Ring.held_mod, Ring.held_drop _ _ hle, Ring.held_take _ _ hle, take_append_drop]
      rfl
    refine ⟨(Nat.sub_le _ _).trans h.room, ?_, ?_, h.state, ?_, ?_, ?_⟩
    · rw [received, hreceived]
      exact h.within
    · show (r.delivered ++ _) ++ Ring.held _ _ _ _ = _
      rw [received, hreceived, append_assoc, hheld, h.bytes]
    · rw [received, hreceived]
      exact h.next
    · rw [received, hreceived]
      exact h.whole
    · intro heof
      simp only [Bool.or_eq_true, Bool.and_eq_true, decide_eq_true_eq] at heof
      rcases heof with heof | ⟨hsize, hnone⟩
      · -- at the end nothing would be held
        have hwithin := h.within
        rw [received, h.eof heof] at hwithin
        omega
      · rw [hnone, length_nil] at hreturned
        omega

end

theorem follows_start {c : TcpConn} (h : c.Receiving) (hs : c.state = .established)
    (hheld : c.held <+: stream) : Follows stream (c.rcvNxt - UInt32.ofNat c.recvLen) (start c) := by
  have hfin := h.noFin (.inr (.inr hs))
  have hreceived : received (start c) = c.held.length := by simp [received, start, TcpConn.held]
  refine ⟨h.room, hreceived ▸ hheld.length_le, ?_, .inl ⟨hs, hfin⟩, ?_, ?_, nofun⟩
  · rw [hreceived]
    exact prefix_iff_eq_take.mp hheld
  · have hback : c.rcvNxt - UInt32.ofNat c.recvLen + UInt32.ofNat c.recvLen = c.rcvNxt := by grind
    simp [received, start, hfin]
  · simp [start, hfin]

theorem advertises_step (r : Reader) (e : Event) (hstate : r.conn.state ≠ .synReceived) : (r.step e).Advertises := by
  intro g hg
  cases e with
  | segment i now =>
    change g ∈ (handleSegment r.conn i now).2 at hg
    show _ = bufSize - (handleSegment r.conn i now).1.recvLen ∧ _ = (handleSegment r.conn i now).1.rcvNxt
    unfold handleSegment at hg ⊢
    split at hg
    · cases hg
    · rename_i hrst
      rw [if_neg hrst]
      unfold receive at hg ⊢
      generalize tcpTransition { r.conn with peerWindow := i.window } i.seq i.ack i.flags i.payload now =
        result at hg ⊢
      dsimp only at hg ⊢
      rw [if_neg (fun h => hstate h.1), nil_append] at hg
      simp only [commanded, mem_filterMap] at hg
      obtain ⟨command, -, hcommand⟩ := hg
      cases command with
      | nothing => cases hcommand
      | segAck =>
        cases hcommand
        exact ⟨window_sendTcpSeg .., rfl⟩
  | recv size =>
    unfold step tcpRecvInner at hg ⊢
    dsimp only at hg ⊢
    cases hread : readReceived r.conn size with
    | error e =>
      rw [hread] at hg
      cases hg
    | ok result =>
      rw [hread] at hg
      dsimp only at hg ⊢
      split at hg
      · obtain rfl := mem_singleton.mp hg
        exact ⟨window_sendTcpSeg .., rfl⟩
      · cases hg

end Reader

/-- An established connection delivers the stream of its peer: what `tcp_recv` has returned is an initial
part of it, `rcv_nxt` is the number behind the bytes returned or held, and the FIN once it was taken, the
segments sent tell the free space, and the end is reported only after all of the stream was returned. -/
theorem stream_delivered {t : Tables} (ht : machine.Reach Machine.always .boot t) {i : Fin 8} {c : TcpConn}
    (hc : t.conns i = some c) (hs : c.state = .established) {stream : List UInt8}
    (hlen : stream.length < 2 ^ 32 - 1) (hheld : c.held <+: stream) {r : Reader}
    (hrun : Reader.machine.Reach
      (fun _ e => e.Consistent stream (c.rcvNxt - UInt32.ofNat c.recvLen)) (.start c) r) :
    r.delivered <+: stream ∧
      r.delivered ++ r.conn.held <+: stream ∧
      r.conn.rcvNxt = c.rcvNxt - UInt32.ofNat c.recvLen +
        UInt32.ofNat (r.delivered.length + r.conn.recvLen + if r.conn.peerFin then 1 else 0) ∧
      (∀ g ∈ r.out, g.window.toNat = bufSize - r.conn.recvLen ∧ g.ack = r.conn.rcvNxt) ∧
      (r.eof = true → r.delivered = stream) := by
  have hstart := Reader.follows_start (receiving_of_reach ht i c hc) hs hheld
  have hinv : r.Follows stream (c.rcvNxt - UInt32.ofNat c.recvLen) ∧ r.Advertises := by
    refine hrun.invariant
      (I := fun r => r.Follows stream (c.rcvNxt - UInt32.ofNat c.recvLen) ∧ r.Advertises) ?_ ?_
    · exact ⟨hstart, nofun⟩
    · intro v e w hv hok hstep
      cases hstep
      have hstate : v.conn.state ≠ .synReceived := by
        rcases hv.1.state with ⟨hvs, -⟩ | ⟨hvs, -⟩ <;> simp [hvs]
      refine ⟨?_, Reader.advertises_step v e hstate⟩
      cases e with
      | segment g now => exact hv.1.segment hlen hok now
      | recv size => exact hv.1.recv size
  obtain ⟨hfollows, hadv⟩ := hinv
  have hpart : r.delivered ++ r.conn.held <+: stream := by
    rw [hfollows.bytes]
    exact take_prefix _ _
  exact ⟨(prefix_append _ _).trans hpart, hpart, hfollows.next, hadv, hfollows.eof⟩

/-- Three bytes, the last two before the first, then the first two, a byte read, the end with the FIN
twice, and reads until the end is reported. -/
theorem stream_delivered_reordered :
    ∃ t c r, machine.Reach Machine.always .boot t ∧ t.conns 0 = some c ∧ c.state = .established ∧
      Reader.machine.Reach
        (fun _ e => e.Consistent [10, 20, 30] (c.rcvNxt - UInt32.ofNat c.recvLen)) (.start c) r ∧
      r.eof = true ∧
      (r.delivered <+: [10, 20, 30] ∧
        r.delivered ++ r.conn.held <+: [10, 20, 30] ∧
        r.conn.rcvNxt = c.rcvNxt - UInt32.ofNat c.recvLen +
          UInt32.ofNat (r.delivered.length + r.conn.recvLen + if r.conn.peerFin then 1 else 0) ∧
        (∀ g ∈ r.out, g.window.toNat = bufSize - r.conn.recvLen ∧ g.ack = r.conn.rcvNxt) ∧
        (r.eof = true → r.delivered = [10, 20, 30])) := by
  let segments : List Event :=
    [.segment (fromPeer 5002 40002 0x10 [20, 30]) 0, .segment (fromPeer 5001 40002 0x10 [10, 20]) 0,
      .recv 1, .segment (fromPeer 5003 40002 0x11 [30]) 0, .segment (fromPeer 5003 40002 0x11 [30]) 0,
      .recv 9, .recv 1]
  obtain ⟨t, ht, htest⟩ : ∃ t, machine.Reach Machine.always .boot t ∧
      ((t.conns 0).any fun c => c.state = .established && c.recvLen = 0 && c.rcvNxt = 5001 &&
        (Reader.machine.play (fun _ e => e.Consistent [10, 20, 30] 5001) (.start c) segments).any (·.eof)) = true :=
    Machine.exists_reach_of_play
      [.connect (some 0) 7 80 0, .segment (fromPeer 5000 40002 0x12 []) 10] (by decide +kernel)
  simp only [Option.any_eq_true, Bool.and_eq_true, decide_eq_true_eq] at htest
  obtain ⟨c, hc, ⟨⟨hs, hempty⟩, hnext⟩, r, hplay, heof⟩ := htest
  have hfirst : c.rcvNxt - UInt32.ofNat c.recvLen = 5001 := by rw [hempty, hnext]; rfl
  have hrun : Reader.machine.Reach
      (fun _ e => e.Consistent [10, 20, 30] (c.rcvNxt - UInt32.ofNat c.recvLen)) (.start c) r := by
    rw [hfirst]
    exact Machine.reach_of_play (fun _ _ h => of_decide_eq_true h) hplay
  have hheld : c.held <+: [10, 20, 30] := by
    rw [TcpConn.held, hempty, Ring.held_zero]
    exact nil_prefix
  exact ⟨t, c, r, ht, hc, hs, hrun, heof, stream_delivered ht hc hs (by decide) hheld hrun⟩

end Tcp
