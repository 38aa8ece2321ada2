import OnyxKernel.Net.Tcp.Sequence

/-!
# Closed connections leave the table

After `tcp_close` a connection is in one of three states. In `closing` what was not acknowledged is sent again, a
bounded number of times; in `timeWait` and `failed` it waits for a deadline. `TcpConn.left` counts the events that
are left until the slot is free, and `TcpConn.since` says when the last one was: an action that is not such an event
leaves both as they are, and a poll more than five seconds later is one.

What a peer can do against it is to put off the deadline, or to send data that no one will read
(`TcpConn.prolongedBy`). `tcpClose_releases` is about every run without these segments.
-/

namespace Tcp

open Infra Net TcpConn Nat Option

/-! ## What is left -/

/-- `TIMEWAIT_US`, as a number. -/
def linger : Nat := 5000000

theorem toNat_timewaitUs : timewaitUs.toNat = linger := rfl

/-- The events that are left before the slot of a closed connection is free. -/
def TcpConn.left (c : TcpConn) : Nat :=
  match c.state with
  | .closing => 6 * c.sendLen + (maxRetries - c.retries) + 4
  | .timeWait => if c.peerFin then 2 else 3
  | _ => 1

def TcpConn.since (c : TcpConn) : Nat :=
  match c.state with
  | .closing => c.lastTxUs.toNat
  | _ => c.twDeadlineUs.toNat - linger

/-- A connection after `tcp_close`, at a time before or equal to `now`. -/
structure TcpConn.Lingers (now : Nat) (c : TcpConn) : Prop where
  state : c.state = .closing ∨ c.state = .timeWait ∨ c.state = .failed
  retries : c.retries ≤ maxRetries
  empty : c.state ≠ .failed → c.recvLen = 0
  deadline : c.state ≠ .closing → linger ≤ c.twDeadlineUs.toNat
  since : c.since ≤ now

def TcpConn.Nears (c c' : TcpConn) : Prop := c'.left < c.left ∨ c'.left = c.left ∧ c'.since = c.since

/-- The segment puts off the deadline of the connection, or brings data that no one reads. -/
def TcpConn.prolongedBy (c : TcpConn) (g : Incoming) : Prop :=
  if g.flags &&& rst ≠ 0 then c.state = .failed
  else c.state = .timeWait ∧
    (g.seq = c.rcvNxt ∧ g.payload ≠ [] ∨ finLands c g.seq g.flags g.payload ∧ c.peerFin = true)

instance (c : TcpConn) (g : Incoming) : Decidable (c.prolongedBy g) := by
  unfold prolongedBy
  infer_instance

section

variable {c c' : TcpConn} {last : Nat} {now : UInt64}

theorem add_timewaitUs (h : now.toNat + linger < 2 ^ 64) : (now + timewaitUs).toNat = now.toNat + linger := by
  rw [UInt64.toNat_add, toNat_timewaitUs, mod_eq_of_lt h]

theorem TcpConn.Lingers.congr {last' : Nat} (h : c.Lingers last) (hlast : last ≤ last') (hstate : c'.state = c.state)
    (hretries : c'.retries = c.retries) (hsend : c'.sendLen = c.sendLen) (hrecv : c'.recvLen ≤ c.recvLen)
    (hfin : c'.peerFin = c.peerFin) (htx : c'.lastTxUs = c.lastTxUs) (hdeadline : c'.twDeadlineUs = c.twDeadlineUs) :
    c'.Lingers last' ∧ c.Nears c' := by
  have hsince : c'.since = c.since := by
    unfold TcpConn.since
    rw [hstate, htx, hdeadline]
  have hleft : c'.left = c.left := by
    unfold left
    rw [hstate, hretries, hsend, hfin]
  refine ⟨⟨by rw [hstate]; exact h.state, by rw [hretries]; exact h.retries, fun hs => ?_, fun hs => ?_, ?_⟩,
    .inr ⟨hleft, hsince⟩⟩
  · have := h.empty (hstate ▸ hs)
    omega
  · rw [hdeadline]
    exact h.deadline (hstate ▸ hs)
  · rw [hsince]
    exact h.since.trans hlast

theorem TcpConn.left_closing (h : c.state = .closing) : c.left = 6 * c.sendLen + (maxRetries - c.retries) + 4 := by
  unfold left
  rw [h]

theorem TcpConn.left_timeWait (h : c.state = .timeWait) : c.left = if c.peerFin then 2 else 3 := by
  unfold left
  rw [h]

theorem TcpConn.left_failed (h : c.state = .failed) : c.left = 1 := by
  unfold left
  rw [h]

theorem TcpConn.left_timeWait_le (h : c.state = .timeWait) : 2 ≤ c.left ∧ c.left ≤ 3 := by
  rw [left_timeWait h]
  split <;> omega

theorem TcpConn.since_waiting (h : c.state ≠ .closing) : c.since = c.twDeadlineUs.toNat - linger := by
  unfold since
  split
  · rename_i hs
    exact absurd hs h
  · rfl

theorem TcpConn.lingers_of_wait (hnow : now.toNat + linger < 2 ^ 64)
    (hdeadline : c'.twDeadlineUs = now + timewaitUs) (hstate : c'.state = .timeWait ∨ c'.state = .failed)
    (hretries : c'.retries ≤ maxRetries) (hempty : c'.state ≠ .failed → c'.recvLen = 0) :
    c'.Lingers now.toNat := by
  have hne : c'.state ≠ .closing := by
    rcases hstate with hs | hs <;> rw [hs] <;> decide
  refine ⟨.inr hstate, hretries, hempty, fun _ => ?_, ?_⟩
  · rw [hdeadline, add_timewaitUs hnow]
    omega
  · rw [since_waiting hne, hdeadline, add_timewaitUs hnow]
    omega

/-! ## Segments -/

/-- An acknowledgement in `closing` is ignored, or takes something off the buffer, or is the last one. -/
theorem drainAcked_closing (hs : c.state = .closing) (ackNo : UInt32) :
    drainAcked c ackNo = c ∨
      (drainAcked c ackNo).retries = 0 ∧
        ((drainAcked c ackNo).left < c.left ∨ ackNo = c.sndNxt) := by
  rcases drainAcked_cases c ackNo with he | ⟨k, -, ⟨hpos, -⟩, hreach, he⟩
  · exact .inl he
  · have hstate := (drainAcked_state c ackNo).trans hs
    refine .inr ⟨by rw [he], hreach.imp (fun hle => ?_) And.right⟩
    have hdrop : (drainAcked c ackNo).sendBuf.length < c.sendLen := by
      rw [he, List.length_drop]
      show c.sendLen - _ < c.sendLen
      omega
    rw [left_closing hs, left_closing hstate]
    show 6 * (drainAcked c ackNo).sendBuf.length + _ + 4 < _
    unfold maxRetries
    omega

theorem drainAcked_retries (hr : c.retries ≤ maxRetries) (ackNo : UInt32) :
    (drainAcked c ackNo).retries ≤ maxRetries := by
  rcases drainAcked_cases c ackNo with he | ⟨k, -, -, -, he⟩
  · rwa [he]
  · rw [he]
    exact zero_le _

section

variable (h : c.Lingers last) (hlast : last ≤ now.toNat) (hnow : now.toNat + linger < 2 ^ 64)
include h hlast hnow

theorem TcpConn.Lingers.transition_closing (hs : c.state = .closing) (seq ackNo : UInt32) (flags : UInt8)
    (payload : List UInt8) : (tcpTransition c seq ackNo flags payload now).1.Lingers now.toNat ∧
      c.Nears (tcpTransition c seq ackNo flags payload now).1 := by
  have hsame : c.Lingers now.toNat ∧ c.Nears c := h.congr hlast rfl rfl rfl (le_refl _) rfl rfl rfl
  obtain ⟨hstate, hrecv, htx, -, -, -, hnxt, -⟩ := drainAcked_fields c ackNo
  have hempty : c.recvLen = 0 := h.empty (by rw [hs]; decide)
  unfold tcpTransition
  rw [hs]
  dsimp only
  split
  · split
    · -- the FIN is acknowledged
      refine ⟨lingers_of_wait hnow rfl (.inl rfl) (drainAcked_retries h.retries ackNo) fun _ => ?_, .inl ?_⟩
      · exact hrecv.trans hempty
      · refine lt_of_le_of_lt (left_timeWait_le rfl).2 ?_
        rw [left_closing hs]
        omega
    · rename_i hne
      rcases drainAcked_closing hs ackNo with he | ⟨hr, hless | hlast'⟩
      · rw [he]
        exact hsame
      · refine ⟨⟨.inl (hstate.trans hs), (le_of_eq hr).trans (zero_le _),
          fun _ => hrecv.trans hempty, fun hc => ?_, ?_⟩, .inl hless⟩
        · exact absurd (hstate.trans hs) hc
        · have hsince : (drainAcked c ackNo).since = c.since := by
            unfold TcpConn.since
            rw [hstate, hs, htx]
          rw [hsince]
          exact h.since.trans hlast
      · rw [hnxt] at hne
        exact absurd hlast' hne
  · exact hsame

theorem TcpConn.Lingers.transition_timeWait (hs : c.state = .timeWait) {seq ackNo : UInt32} {flags : UInt8}
    {payload : List UInt8} (hpayload : ¬ (seq = c.rcvNxt ∧ payload ≠ []))
    (hfin : ¬ (finLands c seq flags payload ∧ c.peerFin = true)) :
    (tcpTransition c seq ackNo flags payload now).1.Lingers now.toNat ∧
      c.Nears (tcpTransition c seq ackNo flags payload now).1 := by
  obtain ⟨hstate, hrecv, htx, hdeadline, hpeer, hrcv, -⟩ := drainAcked_fields c ackNo
  have hempty : c.recvLen = 0 := h.empty (by rw [hs]; decide)
  have haccept : acceptPayload (drainAcked c ackNo) seq payload = drainAcked c ackNo := by
    unfold acceptPayload
    rw [hrcv, if_neg hpayload]
  have hleft : (drainAcked c ackNo).left = c.left := by
    rw [left_timeWait hs, left_timeWait (hstate.trans hs), hpeer]
  have hsince : (drainAcked c ackNo).since = c.since := by
    unfold TcpConn.since
    rw [hstate, hs, hdeadline]
  have hretries := drainAcked_retries h.retries ackNo
  unfold tcpTransition transitionOpen
  rw [hs]
  dsimp only
  rw [haccept]
  split
  · rename_i hlands
    -- the first FIN of the peer
    have hnone : c.peerFin = false := by
      by_contra hc
      refine hfin ⟨?_, by simpa using hc⟩
      unfold finLands at hlands ⊢
      rwa [hrcv] at hlands
    have htime : (drainAcked c ackNo).state = .timeWait := hstate.trans hs
    have hnew : (acceptFin (drainAcked c ackNo) now).state = .timeWait := by
      unfold acceptFin
      rw [htime]
      rfl
    refine ⟨lingers_of_wait hnow ?_ (.inl hnew) hretries fun _ => hrecv.trans hempty, .inl ?_⟩
    · unfold acceptFin
      dsimp only
      rw [if_pos htime]
    · have hpeer' : (acceptFin (drainAcked c ackNo) now).peerFin = true := rfl
      rw [left_timeWait hnew, left_timeWait hs, hnone, hpeer']
      decide
  · refine ⟨⟨.inr (.inl (hstate.trans hs)), hretries, fun _ => hrecv.trans hempty, fun _ => ?_, ?_⟩,
      .inr ⟨hleft, hsince⟩⟩
    · rw [hdeadline]
      exact h.deadline (by rw [hs]; decide)
    · rw [hsince]
      exact h.since.trans hlast

theorem TcpConn.Lingers.handleSegment {g : Incoming} (hg : ¬ c.prolongedBy g) :
    (handleSegment c g now).1.Lingers now.toNat ∧ c.Nears (handleSegment c g now).1 := by
  unfold Tcp.handleSegment
  unfold prolongedBy at hg
  split
  · rename_i hrst
    rw [if_pos hrst] at hg
    refine ⟨lingers_of_wait hnow rfl (.inr rfl) h.retries fun hc => absurd rfl hc, .inl ?_⟩
    rw [left_failed rfl]
    rcases h.state with hs | hs | hs
    · rw [left_closing hs]
      omega
    · have := left_timeWait_le hs
      omega
    · exact absurd hs hg
  · rename_i hrst
    rw [if_neg hrst] at hg
    -- the window of the peer does not matter
    have hd : Lingers last { c with peerWindow := g.window } := { h with }
    show (tcpTransition { c with peerWindow := g.window } g.seq g.ack g.flags g.payload now).1.Lingers now.toNat ∧
      c.Nears (tcpTransition { c with peerWindow := g.window } g.seq g.ack g.flags g.payload now).1
    rcases h.state with hs | hs | hs
    · exact hd.transition_closing hlast hnow hs _ _ _ _
    · have hno : ¬ (g.seq = c.rcvNxt ∧ g.payload ≠ []) := fun hc => hg ⟨hs, .inl hc⟩
      have hfin : ¬ (finLands c g.seq g.flags g.payload ∧ c.peerFin = true) := fun hc => hg ⟨hs, .inr hc⟩
      exact hd.transition_timeWait hlast hnow hs hno hfin
    · have hsame : tcpTransition { c with peerWindow := g.window } g.seq g.ack g.flags g.payload now =
          ({ c with peerWindow := g.window }, .nothing, .nothing) := by
        unfold tcpTransition
        simp only [hs]
      rw [hsame]
      exact h.congr hlast rfl rfl rfl (le_refl _) rfl rfl rfl

end

/-! ## Polls -/

theorem TcpConn.left_retried (hs : c.state = .closing) (hlt : c.retries < maxRetries) (hs' : c'.state = .closing)
    (hretries : c'.retries = c.retries + 1) (hlen : c'.sendLen = c.sendLen) : c'.left < c.left := by
  rw [left_closing hs, left_closing hs', hretries, hlen]
  omega

theorem retry_waiting (h : c.Lingers last) (hs : c.state ≠ .closing) : (retry c now).1 = c := by
  have hnone : unacknowledged c = none := by
    unfold unacknowledged
    rcases h.state with hs' | hs' | hs'
    · exact absurd hs' hs
    · rw [hs']
    · rw [hs']
  unfold retry plan
  rw [hnone]

theorem TcpConn.Lingers.retry (h : c.Lingers last) (hlast : last ≤ now.toNat) (hnow : now.toNat + linger < 2 ^ 64) :
    (retry c now).1.Lingers now.toNat ∧ c.Nears (retry c now).1 := by
  have hsame : c.Lingers now.toNat ∧ c.Nears c := h.congr hlast rfl rfl rfl (le_refl _) rfl rfl rfl
  by_cases hs : c.state = .closing
  · rcases retry_cases c now with he | he | ⟨action, -, -, hlt, he⟩
    · rw [he]
      exact hsame
    · rw [he]
      refine ⟨lingers_of_wait hnow rfl (.inr rfl) h.retries fun hc => absurd rfl hc, .inl ?_⟩
      rw [left_failed rfl, left_closing hs]
      omega
    · rw [he]
      refine ⟨⟨.inl hs, hlt, fun hc => h.empty hc, fun hc => absurd hs hc, ?_⟩, .inl ?_⟩
      · unfold TcpConn.since
        simp only [hs]
        exact le_refl _
      · exact left_retried hs hlt hs rfl rfl
  · rw [retry_waiting h hs]
    exact hsame

theorem TcpConn.Lingers.poll (h : c.Lingers last) (hlate : c.since + linger ≤ now.toNat) :
    c.expired now = true ∨ (Tcp.retry c now).1.left < c.left := by
  by_cases hs : c.state = .closing
  · refine .inr ?_
    have hsince : c.since = c.lastTxUs.toNat := by
      unfold TcpConn.since
      rw [hs]
    have hdue : ¬ now - c.lastTxUs < retryUs := by
      rw [UInt64.lt_iff_toNat_lt, UInt64.toNat_sub_of_le _ _ (UInt64.le_iff_toNat_le.mpr (by omega))]
      show ¬ now.toNat - c.lastTxUs.toNat < 1000000
      unfold linger at hlate
      omega
    obtain ⟨action, haction⟩ : ∃ action, unacknowledged c = some action := by
      unfold unacknowledged
      rw [hs]
      dsimp only
      split <;> exact ⟨_, rfl⟩
    unfold Tcp.retry plan
    rw [haction]
    dsimp only
    rw [if_neg hdue]
    split
    · rename_i hplan
      split at hplan
      · obtain rfl := (Prod.mk.inj hplan).1
        rw [left_failed rfl, left_closing hs]
        omega
      · cases (Prod.mk.inj hplan).2
    · rename_i hplan
      split at hplan
      · cases (Prod.mk.inj hplan).2
      · rename_i hlt
        obtain rfl := (Prod.mk.inj hplan).1
        exact left_retried hs (not_le.mp hlt) hs rfl rfl
  · refine .inl ?_
    have hdeadline := h.deadline hs
    rw [since_waiting hs] at hlate
    have hle : c.twDeadlineUs ≤ now := UInt64.le_iff_toNat_le.mpr (by omega)
    have hne : c.twDeadlineUs ≠ 0 := by
      intro hz
      rw [hz] at hdeadline
      exact absurd hdeadline (by decide)
    unfold expired
    rcases h.state with hs' | hs' | hs'
    · exact absurd hs' hs
    · simp [hs', h.empty (by rw [hs']; decide), hle, hne]
    · simp [hs', hle, hne]

end

/-! ## The slot of the connection -/

/-- The time of an action, which is `last` if it does not look at the clock. -/
def Action.timeFrom (last : Nat) : Action → Nat
  | .connect _ _ _ now => now.toNat
  | .segment _ now => now.toNat
  | .send _ _ now => now.toNat
  | .close _ now => now.toNat
  | .sweep now => now.toNat
  | .tick now => now.toNat
  | _ => last

namespace Tables

/-- The action frees the slot; a segment may put another connection into it at once. -/
def frees (t : Tables) (i : Fin 8) (a : Action) : Prop :=
  (t.step a).conns i = none ∨ ∃ g now, a = .segment g now ∧ (t.sweepTimewait now).conns i = none

/-- The action is a segment that prolongs the connection in the slot. -/
def prolonged (t : Tables) (i : Fin 8) : Action → Bool
  | .segment g now =>
    (t.sweepTimewait now).connOf g = some i && ((t.sweepTimewait now).conns i).any fun c => c.prolongedBy g
  | _ => false

def Follows (t : Tables) (i : Fin 8) (c : TcpConn) (last : Nat) : Prop :=
  ∃ c', t.conns i = some c' ∧ c'.Lingers last ∧ c.Nears c'

variable {t t' : Tables} {i j : Fin 8} {c : TcpConn} {last last' : Nat}

theorem follows_of_eq (hc : t.conns i = some c) (h : c.Lingers last) (hlast : last ≤ last')
    (he : t'.conns i = t.conns i) : t'.Follows i c last' := by
  obtain ⟨hl, hn⟩ := h.congr hlast rfl rfl rfl (le_refl _) rfl rfl rfl
  exact ⟨c, he.trans hc, hl, hn⟩

theorem follows_of_filter (hc : t.conns i = some c) (h : c.Lingers last)
    (hlast : last ≤ last') {keep : TcpConn → Bool}
    (he : t'.conns i = (t.conns i).filter keep) : t'.conns i = none ∨ t'.Follows i c last' := by
  rw [hc] at he
  by_cases hk : keep c = true
  · refine .inr (follows_of_eq hc h hlast ?_)
    rw [he, hc, filter_some, if_pos hk]
  · refine .inl ?_
    rw [he, filter_some, if_neg hk]

theorem connect_follows (hc : t.conns i = some c) (route : Option Nat) (dstIp : Ip) (port : UInt16) (now : UInt64) :
    (t.tcpConnectStart route dstIp port now).2.conns i = t.conns i := by
  unfold tcpConnectStart
  split
  · rfl
  · rename_i j hj
    dsimp only
    split
    · rfl
    · exact setConn_of_ne _ (allocConn_ne hc hj)

theorem deliver_lingers (h : c.Lingers last) (g : Incoming) (now : UInt64) :
    (t.deliver i c g now).1.conns i = some (handleSegment c g now).1 := by
  have hno : completes c (handleSegment c g now).1 = false := by
    unfold completes
    rcases h.state with hs | hs | hs <;> rw [hs] <;> rfl
  unfold deliver
  dsimp only
  rw [hno]
  exact setConn_self _

section

variable (hc : t.conns i = some c)
include hc

section

variable (h : c.Lingers last)
include h

theorem segment_follows {g : Incoming} {now : UInt64}
    (hlast : last ≤ now.toNat) (hnow : now.toNat + linger < 2 ^ 64) (ha : t.prolonged i (.segment g now) = false) :
    t.frees i (.segment g now) ∨ (t.step (.segment g now)).Follows i c now.toNat := by
  by_cases hgone : (t.sweepTimewait now).conns i = none
  · exact .inl (.inr ⟨g, now, rfl, hgone⟩)
  have hsweep : (t.sweepTimewait now).conns i = some c := by
    have he : (t.sweepTimewait now).conns i = (t.conns i).filter fun c => !c.expired now := rfl
    rw [hc, filter_some] at he
    split at he
    · exact he
    · exact absurd he hgone
  refine .inr ?_
  show (t.handleTcp g now).1.Follows i c now.toNat
  unfold handleTcp
  dsimp only
  cases hconn : (t.sweepTimewait now).connOf g with
  | none =>
    dsimp only
    split
    · exact follows_of_eq hsweep h hlast (incomingSyn_conns hsweep g now)
    · exact follows_of_eq hsweep h hlast rfl
  | some j =>
    dsimp only
    by_cases hj : i = j
    · subst hj
      rw [hsweep]
      have hg : ¬ c.prolongedBy g := by
        intro hg
        simp [prolonged, hconn, hsweep, hg] at ha
      obtain ⟨hl, hn⟩ := h.handleSegment hlast hnow hg
      exact ⟨_, deliver_lingers h g now, hl, hn⟩
    · split
      · exact follows_of_eq hsweep h hlast (deliver_of_ne hj _ g now)
      · exact follows_of_eq hsweep h hlast rfl

theorem send_follows (cid : Nat) (data : List UInt8) (now : UInt64) :
    (t.tcpSend cid data now).2.conns i = t.conns i := by
  unfold tcpSend
  split
  · rfl
  split
  · rfl
  rename_i d hd
  split
  · rfl
  rename_i hsend
  refine setConn_of_ne _ ?_
  rintro rfl
  -- nothing is taken from the application after `tcp_close`
  obtain rfl : c = d := some.inj (hc.symm.trans hd)
  unfold tcpSendInner at hsend
  rcases h.state with hs | hs | hs <;> simp [hs] at hsend

theorem recv_follows (cid size : Nat) : (t.tcpRecv cid size).2.Follows i c last := by
  have hsame : t.Follows i c last := follows_of_eq hc h (le_refl _) rfl
  unfold tcpRecv
  split
  · exact hsame
  rename_i j _
  split
  · exact hsame
  rename_i d hd
  split
  · exact hsame
  rename_i d' out bytes hrecv
  by_cases hj : i = j
  · subst hj
    obtain rfl : c = d := some.inj (hc.symm.trans hd)
    obtain ⟨head, n, rfl⟩ := tcpRecvInner_eq hrecv
    exact ⟨_, setConn_self _, h.congr (le_refl _) rfl rfl rfl (sub_le _ _) rfl rfl rfl⟩
  · exact follows_of_eq hc h (le_refl _) (setConn_of_ne _ hj)

theorem close_follows (cid : Nat) (now : UInt64) :
    (t.tcpClose cid now).2.conns i = none ∨ (t.tcpClose cid now).2.conns i = t.conns i := by
  unfold tcpClose
  split
  · exact .inr rfl
  rename_i j _
  split
  · exact .inr rfl
  rename_i d hd
  by_cases hj : i = j
  · subst hj
    obtain rfl : c = d := some.inj (hc.symm.trans hd)
    refine .inl ?_
    have hnone : (tcpCloseInner c now).1 = none := by
      unfold tcpCloseInner
      rcases h.state with hs | hs | hs <;> simp [hs]
    rw [hnone]
    exact setConn_self _
  · exact .inr (setConn_of_ne _ hj)

theorem accept_follows (index : Nat) : (t.accept index).2.conns i = t.conns i := by
  unfold accept
  split
  · rfl
  split
  · rfl
  split
  · rfl
  split
  · rfl
  · rename_i d hd
    refine setConn_of_ne _ ?_
    rintro rfl
    -- `accept` only hands out open connections
    obtain ⟨hd', hwait⟩ := filter_eq_some_iff.mp hd
    obtain rfl : c = d := some.inj (hc.symm.trans hd')
    unfold waitsAt at hwait
    rcases h.state with hs | hs | hs <;> simp [hs] at hwait

end

end

theorem listen_follows (port : UInt16) : (t.listen port).2.conns = t.conns := by
  unfold listen
  split
  · rfl
  split
  · rfl
  split
  · rfl
  · rfl

section

variable (hc : t.conns i = some c) (h : c.Lingers last)
include hc h

theorem closeListener_follows (index : Nat) :
    (t.closeListener index).2.conns i = none ∨ (t.closeListener index).2.Follows i c last := by
  have hsame : t.Follows i c last := follows_of_eq hc h (le_refl _) rfl
  unfold closeListener
  split
  · exact .inr hsame
  split
  · exact .inr hsame
  · exact follows_of_filter hc h (le_refl _) rfl

theorem tick_follows {now : UInt64} (hlast : last ≤ now.toNat)
    (hnow : now.toNat + linger < 2 ^ 64) :
    (t.step (.tick now)).conns i = none ∨
      c.expired now = false ∧ (t.step (.tick now)).conns i = some (retry c now).1 ∧
        (retry c now).1.Lingers now.toNat ∧ c.Nears (retry c now).1 := by
  have he : (t.step (.tick now)).conns i =
      ((t.conns i).filter fun c => !c.expired now).map fun c => (retry c now).1 := rfl
  rw [hc, filter_some] at he
  cases hx : c.expired now with
  | true =>
    rw [hx] at he
    exact .inl he
  | false =>
    rw [hx] at he
    exact .inr ⟨rfl, he, h.retry hlast hnow⟩

theorem step_follows {a : Action} (hlast : last ≤ a.timeFrom last)
    (hnow : a.timeFrom last + linger < 2 ^ 64) (ha : t.prolonged i a = false) :
    t.frees i a ∨ (t.step a).Follows i c (a.timeFrom last) := by
  have hfreed {u : Tables} (hu : u = t.step a) (hor : u.conns i = none ∨ u.Follows i c (a.timeFrom last)) :
      t.frees i a ∨ (t.step a).Follows i c (a.timeFrom last) := by
    subst hu
    exact hor.imp .inl id
  cases a with
  | connect route dstIp port now =>
    exact .inr (follows_of_eq hc h hlast (connect_follows hc route dstIp port now))
  | connectFail cid =>
    by_cases hi : i = cid
    · subst hi
      exact .inl (.inl (setConn_self _))
    · exact .inr (follows_of_eq hc h hlast (setConn_of_ne _ hi))
  | segment g now => exact segment_follows hc h hlast hnow ha
  | send cid data now => exact .inr (follows_of_eq hc h hlast (send_follows hc h cid data now))
  | recv cid size => exact .inr (recv_follows hc h cid size)
  | close cid now =>
    rcases close_follows hc h cid now with hnone | hsame
    · exact .inl (.inl hnone)
    · exact .inr (follows_of_eq hc h hlast hsame)
  | listen port => exact .inr (follows_of_eq hc h hlast (congrFun (listen_follows port) i))
  | accept index => exact .inr (follows_of_eq hc h hlast (accept_follows hc h index))
  | closeListener index => exact hfreed rfl (closeListener_follows hc h index)
  | sweep _ | clearInterface _ => exact hfreed rfl (follows_of_filter hc h hlast rfl)
  | tick now =>
    rcases tick_follows hc h hlast hnow with hnone | ⟨-, hsome, hl, hn⟩
    · exact .inl (.inl hnone)
    · exact .inr ⟨_, hsome, hl, hn⟩

end

/-! ## Runs -/

def after (t : Tables) (actions : List Action) : Tables := actions.foldl step t

/-- The clock does not go back, and is five seconds and more from its end. -/
def InOrder : (last : Nat) → List Action → Prop
  | _, [] => True
  | last, a :: rest =>
    last ≤ a.timeFrom last ∧ a.timeFrom last + linger < 2 ^ 64 ∧ InOrder (a.timeFrom last) rest

instance decidableInOrder : ∀ (last : Nat) (actions : List Action), Decidable (InOrder last actions)
  | _, [] => .isTrue trivial
  | last, a :: rest =>
    have := decidableInOrder (a.timeFrom last) rest
    inferInstanceAs (Decidable (_ ∧ _ ∧ _))

def Unprolonged (i : Fin 8) : Tables → List Action → Prop
  | _, [] => True
  | t, a :: rest => t.prolonged i a = false ∧ Unprolonged i (t.step a) rest

instance decidableUnprolonged (i : Fin 8) :
    ∀ (t : Tables) (actions : List Action), Decidable (Unprolonged i t actions)
  | _, [] => .isTrue trivial
  | t, a :: rest =>
    have := decidableUnprolonged i (t.step a) rest
    inferInstanceAs (Decidable (_ ∧ _))

/-- The polls, each counted if it is at least five seconds after the last one that was. -/
def polls : (last : Nat) → List Action → Nat
  | _, [] => 0
  | last, .tick now :: rest => if last + linger ≤ now.toNat then polls now.toNat rest + 1 else polls last rest
  | last, _ :: rest => polls last rest

theorem frees_of_polls : ∀ (actions : List Action) {t : Tables} {c : TcpConn} {last clock : Nat},
    t.conns i = some c → c.Lingers clock → last ≤ clock → InOrder clock actions → Unprolonged i t actions →
    c.left + (if c.since ≤ last then 0 else 1) ≤ polls last actions →
    ∃ before a rest, actions = before ++ a :: rest ∧ (t.after before).frees i a
  | [], t, c, last, clock, hc, h, hlast, horder, hfree, hpolls => by
    have hpos : 0 < c.left := by
      unfold left
      split
      · omega
      · split <;> omega
      · omega
    simp only [polls] at hpolls
    omega
  | a :: rest, t, c, last, clock, hc, h, hlast, horder, hfree, hpolls => by
    obtain ⟨hclock, hend, horder⟩ := horder
    obtain ⟨ha, hfree⟩ := hfree
    -- the run goes on with what the action has left
    have hgo {c' : TcpConn} {last' : Nat} (hc' : (t.step a).conns i = some c') (h' : c'.Lingers (a.timeFrom clock))
        (hlast' : last' ≤ a.timeFrom clock)
        (hp : c'.left + (if c'.since ≤ last' then 0 else 1) ≤ polls last' rest) :
        ∃ before b rest', a :: rest = before ++ b :: rest' ∧ (t.after before).frees i b := by
      obtain ⟨before, b, rest', heq, hb⟩ := frees_of_polls rest hc' h' hlast' horder hfree hp
      exact ⟨a :: before, b, rest', by rw [heq]; rfl, hb⟩
    have hnear {c' : TcpConn} (hn : c.Nears c') :
        c'.left + (if c'.since ≤ last then 0 else 1) ≤ c.left + (if c.since ≤ last then 0 else 1) := by
      rcases hn with hless | ⟨hleft, hsince⟩
      · split <;> split <;> omega
      · rw [hleft, hsince]
    rcases step_follows hc h hclock hend ha with hf | ⟨c', hc', h', hn⟩
    · exact ⟨[], a, rest, rfl, hf⟩
    · have hnocount (hp : polls last (a :: rest) = polls last rest) :
          ∃ before b rest', a :: rest = before ++ b :: rest' ∧ (t.after before).frees i b := by
        rw [hp] at hpolls
        exact hgo hc' h' (hlast.trans hclock) ((hnear hn).trans hpolls)
      cases a with
      | tick now =>
        by_cases hlate : last + linger ≤ now.toNat
        · -- the poll counts, so it is an event unless one has come since the last that counted
          rw [polls, if_pos hlate] at hpolls
          have hsince' : c'.since ≤ now.toNat := h'.since
          refine hgo hc' h' (le_refl _) ?_
          show c'.left + (if c'.since ≤ now.toNat then 0 else 1) ≤ polls now.toNat rest
          rw [if_pos hsince']
          by_cases hs : c.since ≤ last
          · rw [if_pos hs] at hpolls
            rcases tick_follows hc h hclock hend with hnone | ⟨hx, hsome, -, -⟩
            · rw [hnone] at hc'
              cases hc'
            · obtain rfl : (retry c now).1 = c' := some.inj (hsome.symm.trans hc')
              have hevent : c.expired now = true ∨ (retry c now).1.left < c.left := h.poll (by omega)
              rcases hevent with hexp | hless
              · rw [hx] at hexp
                cases hexp
              · omega
          · rw [if_neg hs] at hpolls
            rcases hn with hless | ⟨hleft, -⟩ <;> omega
        · exact hnocount (by rw [polls, if_neg hlate])
      | connect | connectFail | segment | send | recv | close | listen | accept | closeListener | sweep
      | clearInterface => exact hnocount rfl

/-- After `tcp_close` the slot is free at once or is freed by one of the actions that follow, if none of these prolongs
the connection and polls go on: nine of them, five seconds apart, and six for every byte that waits to be sent. -/
theorem tcpClose_releases {cid : Nat} {now : UInt64} {actions : List Action} (hslot : slot cid = some i)
    (hc : t.conns i = some c) (horder : InOrder now.toNat actions)
    (hfree : Unprolonged i (t.tcpClose cid now).2 actions)
    (hpolls : 6 * c.sendLen + 9 ≤ polls now.toNat actions) :
    (t.tcpClose cid now).2.conns i = none ∨
      ∃ before a rest, actions = before ++ a :: rest ∧ ((t.tcpClose cid now).2.after before).frees i a := by
  have hclose : (t.tcpClose cid now).2.conns i = (tcpCloseInner c now).1 := by
    unfold tcpClose
    rw [hslot]
    dsimp only
    rw [hc]
    exact setConn_self _
  by_cases hopen : c.state = .established ∨ c.state = .closeWait
  · refine .inr ?_
    unfold tcpCloseInner at hclose
    rw [if_pos hopen] at hclose
    refine frees_of_polls actions hclose ⟨.inl rfl, zero_le _, fun _ => rfl, fun hs => absurd rfl hs, le_refl _⟩
      (le_refl _) horder hfree ?_
    show 6 * c.sendLen + (maxRetries - 0) + 4 + (if now.toNat ≤ now.toNat then 0 else 1) ≤
      polls now.toNat actions
    rw [if_pos (le_refl _)]
    unfold maxRetries
    omega
  · refine .inl ?_
    rw [hclose, tcpCloseInner, if_neg hopen]

/-! ## One connection -/

def oneOpen : Tables := boot.after [.connect (some 0) 7 80 0, .segment (fromPeer 5000 40002 0x12 []) 10]

/-- The peer is silent: the slot is free before the ninth poll. -/
theorem tcpClose_releases_silent :
    (oneOpen.tcpClose 0 20).2.conns 0 = none ∨
      ∃ before a rest, (List.range 9).map (fun k => Action.tick (5000020 * UInt64.ofNat (k + 1))) =
        before ++ a :: rest ∧ ((oneOpen.tcpClose 0 20).2.after before).frees 0 a := by
  obtain ⟨c, hc, hlen⟩ : ∃ c, oneOpen.conns 0 = some c ∧ c.sendLen = 0 := by
    have hopen : ((oneOpen.conns 0).any fun c => c.sendLen = 0) = true := by decide +kernel
    simpa only [any_eq_true, decide_eq_true_eq] using hopen
  refine tcpClose_releases rfl hc (by decide +kernel) (by decide +kernel) ?_
  rw [hlen]
  decide +kernel

/-- Data in `timeWait` stays, as no one reads it, and the deadline does not count. -/
theorem pinned (hs : c.state = .timeWait) (hlen : c.recvLen ≠ 0) : ∀ (times : List UInt64) {t : Tables},
    t.conns i = some c → (t.after (times.map Action.tick)).conns i = some c
  | [], _, hc => hc
  | now :: rest, t, hc => by
    have hx : c.expired now = false := by
      simp [expired, hs, hlen]
    have hretry : (retry c now).1 = c := by
      simp [retry, plan, unacknowledged, hs]
    have hstep : (t.step (.tick now)).conns i = some c := by
      show (((t.conns i).filter fun c => !c.expired now).map fun c => (retry c now).1) = some c
      rw [hc, filter_some, hx]
      exact congrArg some hretry
    exact pinned hs hlen rest hstep

/-- The peer acknowledges the FIN and sends a byte. The slot is never free again, at whatever times the polls are. -/
theorem tcpClose_pinned :
    machine.Reach Machine.always boot oneOpen ∧ ((oneOpen.conns 0).any fun c => c.state = .established) = true ∧
    ∀ times : List UInt64,
      (((oneOpen.tcpClose 0 20).2.after [.segment (fromPeer 5001 40003 0x10 []) 30,
        .segment (fromPeer 5001 40003 0x10 [1]) 40]).after (times.map Action.tick)).conns 0 ≠ none := by
  have hopened : machine.Reach Machine.always boot (boot.step (.connect (some 0) 7 80 0)) :=
    Machine.Reach.refl.step trivial rfl
  have hanswered : machine.Reach Machine.always boot oneOpen :=
    hopened.step (a := .segment (fromPeer 5000 40002 0x12 []) 10) trivial rfl
  refine ⟨hanswered, by decide +kernel, fun times => ?_⟩
  have htest : ((((oneOpen.tcpClose 0 20).2.after [.segment (fromPeer 5001 40003 0x10 []) 30,
      .segment (fromPeer 5001 40003 0x10 [1]) 40]).conns 0).any fun c => c.state = .timeWait && c.recvLen ≠ 0) =
        true := by
    decide +kernel
  simp only [any_eq_true, Bool.and_eq_true, decide_eq_true_eq] at htest
  obtain ⟨c, hc, hs, hlen⟩ := htest
  rw [pinned hs hlen times hc]
  simp

end Tables

end Tcp
