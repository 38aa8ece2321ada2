import OnyxKernel.Net.Tcp.Table

/-!
# Steps of the TCP module

One action for every call on the tables, with the times at which the clock is read and the segments that
arrive as arguments. Sending the SYN of a waiting `tcp_connect` again changes no table and is no action.

What holds of every connection is kept by an action when it holds of the connections that an action can
put into a slot: the two fresh ones, and those that a call makes out of the one that was there.
-/

namespace Tcp

open Infra Net

inductive Action
  | connect (route : Option Nat) (dstIp : Ip) (port : UInt16) (now : UInt64)
  | connectFail (cid : Fin 8)
  | segment (g : Incoming) (now : UInt64)
  | send (cid : Nat) (data : List UInt8) (now : UInt64)
  | recv (cid : Nat) (size : Nat)
  | close (cid : Nat) (now : UInt64)
  | listen (port : UInt16)
  | accept (index : Nat)
  | closeListener (index : Nat)
  /-- a `tick` while another one sends, or the first half of one -/
  | sweep (now : UInt64)
  | tick (now : UInt64)
  | clearInterface (index : Nat)
  deriving DecidableEq, Repr

namespace Tables

def step (t : Tables) : Action → Tables
  | .connect route dstIp port now => (t.tcpConnectStart route dstIp port now).2
  | .connectFail cid => t.tcpConnectFail cid
  | .segment g now => (t.handleTcp g now).1
  | .send cid data now => (t.tcpSend cid data now).2
  | .recv cid size => (t.tcpRecv cid size).2
  | .close cid now => (t.tcpClose cid now).2
  | .listen port => (t.listen port).2
  | .accept index => (t.accept index).2
  | .closeListener index => (t.closeListener index).2
  | .sweep now => t.sweepTimewait now
  | .tick now => ((t.sweepTimewait now).retryTick now).1
  | .clearInterface index => t.clearInterface index

end Tables

def machine : Machine Tables Action where
  step t a := some (t.step a)

/-! ## What holds of every connection -/

namespace Tables

def All (P : TcpConn → Prop) (t : Tables) : Prop := ∀ i c, t.conns i = some c → P c

variable {P : TcpConn → Prop} {t : Tables}

theorem All.setConn (h : t.All P) {cid : Fin 8} {o : Option TcpConn} (ho : ∀ c, o = some c → P c) :
    (t.setConn cid o).All P := by
  intro i c hc
  by_cases hi : i = cid
  · subst hi
    exact ho c (by simpa [Tables.setConn] using hc)
  · exact h i c (by simpa [Tables.setConn, hi] using hc)

theorem All.set_none (h : t.All P) (cid : Fin 8) : (t.setConn cid none).All P := h.setConn fun _ hc => nomatch hc

theorem All.setConn_some (h : t.All P) {cid : Fin 8} {c : TcpConn} (hc : P c) : (t.setConn cid (some c)).All P :=
  h.setConn fun _ he => Option.some.inj he ▸ hc

theorem All.of_conns {t' : Tables} (h : t.All P) (he : t'.conns = t.conns) : t'.All P := by
  intro i c hc
  rw [he] at hc
  exact h i c hc

theorem All.filter (h : t.All P) (keep : TcpConn → Bool) {t' : Tables}
    (he : t'.conns = fun i => (t.conns i).filter keep) : t'.All P := by
  intro i c hc
  rw [he] at hc
  exact h i c (Option.eq_some_of_filter_eq_some hc)

theorem All.sweep (h : t.All P) (now : UInt64) : (t.sweepTimewait now).All P := h.filter _ rfl

theorem All.established (h : t.All P) (cid : Fin 8) (parent : Option Nat) : (t.established cid parent).All P := by
  unfold Tables.established
  split
  · exact h.set_none cid
  · split
    · exact h.set_none cid
    · split
      · exact h.of_conns rfl
      · exact h.set_none cid

end Tables

theorem retry_cases (c : TcpConn) (now : UInt64) : (retry c now).1 = c ∨
    (retry c now).1 = { c with state := .failed, twDeadlineUs := now + timewaitUs } ∨
    ∃ action, unacknowledged c = some action ∧ retryUs ≤ now - c.lastTxUs ∧ c.retries < maxRetries ∧
      (retry c now).1 =
        { c with
          retries := c.retries + 1, lastTxUs := now, sndNxt := action.sequence,
          sent := c.sent ++ numbered action.sequence (c.sendBuf.take action.length) } := by
  unfold retry plan
  cases unacknowledged c with
  | none => exact .inl rfl
  | some action =>
    dsimp only
    by_cases hearly : now - c.lastTxUs < retryUs
    · rw [if_pos hearly]
      exact .inl rfl
    · rw [if_neg hearly]
      by_cases hmax : maxRetries ≤ c.retries
      · rw [if_pos hmax]
        exact .inr (.inl rfl)
      · rw [if_neg hmax]
        exact .inr (.inr ⟨action, rfl, UInt64.not_lt.mp hearly, Nat.not_le.mp hmax, rfl⟩)

theorem tcpRecvInner_eq {c c' : TcpConn} {size : Nat} {out : List Segment} {bytes : List UInt8}
    (hok : tcpRecvInner c size = .ok (c', out, bytes)) :
    ∃ head n, c' = { c with recvHead := head, recvLen := c.recvLen - n } := by
  unfold tcpRecvInner readReceived at hok
  split at hok
  · cases hok
  rename_i hread
  cases hok
  split at hread
  · cases hread
  split at hread
  · split at hread <;> cases hread
    exact ⟨c.recvHead, 0, rfl⟩
  · cases hread
    exact ⟨_, _, rfl⟩

/-- Every connection that a call puts into a slot has the property, if the one it started from had it.
The retransmission of `tick` is not among the calls. -/
structure Kept (P : TcpConn → Prop) : Prop where
  opening : ∀ iface srcPort dstIp dstPort now, P (opening iface srcPort dstIp dstPort now)
  passive : ∀ owner holder parent port g now, P (passive owner holder parent port g now)
  handle : ∀ {c} g now, P c → P (handleSegment c g now).1
  send : ∀ {c c' data now out n}, P c → tcpSendInner c data now = .ok (c', out, n) → P c'
  recv : ∀ {c c' size out bytes}, P c → tcpRecvInner c size = .ok (c', out, bytes) → P c'
  close : ∀ {c c' now}, P c → (tcpCloseInner c now).1 = some c' → P c'
  detach : ∀ {c}, P c → P { c with listener := none }

namespace Tables

variable {P : TcpConn → Prop} {t : Tables}

section

variable (h : t.All P)
include h

section

variable (hP : Kept P)
include hP

theorem All.connectStart (route : Option Nat) (dstIp : Ip) (port : UInt16)
    (now : UInt64) : (t.tcpConnectStart route dstIp port now).2.All P := by
  unfold tcpConnectStart
  split
  · exact h
  · have hport : t.allocLocalPort.2.All P := h.of_conns rfl
    cases route with
    | none => exact hport
    | some iface => exact hport.setConn_some (hP.opening ..)

theorem All.incomingSyn (g : Incoming) (now : UInt64) : (t.incomingSyn g now).1.All P := by
  unfold Tables.incomingSyn
  split
  · exact h
  · split
    · exact h
    · split
      · exact h
      · have hport : t.allocLocalPort.2.All P := h.of_conns rfl
        exact hport.setConn_some (hP.passive ..)

theorem All.deliver {cid : Fin 8} {c : TcpConn} (hc : P c) (g : Incoming)
    (now : UInt64) : (t.deliver cid c g now).1.All P := by
  have hset : (t.setConn cid (some (handleSegment c g now).1)).All P := h.setConn_some (hP.handle g now hc)
  unfold Tables.deliver
  dsimp only
  split
  · exact hset.established cid _
  · exact hset

theorem All.handleTcp (g : Incoming) (now : UInt64) : (t.handleTcp g now).1.All P := by
  have hswept := h.sweep now
  unfold Tables.handleTcp
  dsimp only
  split
  · split
    · rename_i c hc
      exact hswept.deliver hP (hswept _ c hc) g now
    · exact hswept
  · split
    · exact hswept.incomingSyn hP g now
    · exact hswept

theorem All.send (cid : Nat) (data : List UInt8) (now : UInt64) : (t.tcpSend cid data now).2.All P := by
  unfold tcpSend
  split
  · exact h
  · split
    · exact h
    · rename_i c hc
      split
      · exact h
      · rename_i c' out n hok
        exact h.setConn_some (hP.send (h _ c hc) hok)

theorem All.recv (cid size : Nat) : (t.tcpRecv cid size).2.All P := by
  unfold tcpRecv
  split
  · exact h
  · split
    · exact h
    · rename_i c hc
      split
      · exact h
      · rename_i c' out bytes hok
        exact h.setConn_some (hP.recv (h _ c hc) hok)

theorem All.close (cid : Nat) (now : UInt64) : (t.tcpClose cid now).2.All P := by
  unfold tcpClose
  split
  · exact h
  · split
    · exact h
    · rename_i c hc
      exact h.setConn fun c' hc' => hP.close (h _ c hc) hc'

end

theorem All.listen (port : UInt16) : (t.listen port).2.All P := by
  unfold Tables.listen
  split
  · exact h
  · split
    · exact h
    · split
      · exact h
      · exact h.of_conns rfl

theorem All.accept (hP : Kept P) (index : Nat) : (t.accept index).2.All P := by
  unfold Tables.accept
  split
  · exact h
  · rename_i i _
    split
    · exact h
    · rename_i l _
      split
      · exact h
      · rename_i cid rest _
        have hset : (t.setListener i (some { l with queue := rest })).All P := h.of_conns rfl
        split
        · exact hset
        · rename_i c hc
          exact hset.setConn_some (hP.detach (h _ c (Option.eq_some_of_filter_eq_some hc)))

theorem All.closeListener (index : Nat) : (t.closeListener index).2.All P := by
  unfold Tables.closeListener
  split
  · exact h
  · split
    · exact h
    · exact h.filter _ rfl

theorem All.retryTick {now : UInt64}
    (hretry : ∀ i c, t.conns i = some c → P c → P (retry c now).1) : (t.retryTick now).1.All P := by
  intro i c hc
  obtain ⟨c₀, hc₀, rfl⟩ := Option.map_eq_some_iff.mp hc
  exact hretry i c₀ hc₀ (h i c₀ hc₀)

theorem All.step (hP : Kept P) (a : Action)
    (hretry : ∀ now i c, a = .tick now → t.conns i = some c → P c → P (retry c now).1) :
    (t.step a).All P := by
  cases a with
  | connect route dstIp port now => exact h.connectStart hP route dstIp port now
  | connectFail cid => exact h.set_none cid
  | segment g now => exact h.handleTcp hP g now
  | send cid data now => exact h.send hP cid data now
  | recv cid size => exact h.recv hP cid size
  | close cid now => exact h.close hP cid now
  | listen port => exact h.listen port
  | accept index => exact h.accept hP index
  | closeListener index => exact h.closeListener index
  | sweep now => exact h.sweep now
  | tick now =>
    apply (h.sweep now).retryTick
    intro i c hc
    exact hretry now i c rfl (Option.eq_some_of_filter_eq_some hc)
  | clearInterface index => exact h.filter _ rfl

end

/-! ## What stays in a slot -/

variable {i j : Fin 8} {c : TcpConn}

theorem setConn_of_ne (o : Option TcpConn) (hj : i ≠ j) : (t.setConn j o).conns i = t.conns i :=
  Function.update_of_ne hj _ _

theorem setConn_self (o : Option TcpConn) : (t.setConn i o).conns i = o := Function.update_self _ _ _

theorem allocConn_ne (hc : t.conns i = some c) (hj : t.allocConn = some j) : i ≠ j := by
  rintro rfl
  have hnone := List.find?_some hj
  rw [hc] at hnone
  cases hnone

theorem incomingSyn_conns (hc : t.conns i = some c) (g : Incoming) (now : UInt64) :
    (t.incomingSyn g now).1.conns i = t.conns i := by
  unfold incomingSyn
  split
  · rfl
  split
  · rfl
  split
  · rfl
  · rename_i j hj
    exact setConn_of_ne _ (allocConn_ne hc hj)

theorem established_of_ne (hj : i ≠ j) (parent : Option Nat) : (t.established j parent).conns i = t.conns i := by
  unfold established
  split
  · exact setConn_of_ne _ hj
  split
  · exact setConn_of_ne _ hj
  split
  · rfl
  · exact setConn_of_ne _ hj

theorem deliver_of_ne (hj : i ≠ j) (d : TcpConn) (g : Incoming) (now : UInt64) :
    (t.deliver j d g now).1.conns i = t.conns i := by
  unfold deliver
  dsimp only
  split
  · rw [established_of_ne hj, setConn_of_ne _ hj]
  · exact setConn_of_ne _ hj

end Tables

end Tcp
