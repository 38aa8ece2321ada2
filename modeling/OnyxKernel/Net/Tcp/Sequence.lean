import OnyxKernel.Net.Tcp.Step

/-!
# Sequence numbers of what is sent

What `snd_una`, `snd_nxt` and the unacknowledged bytes have to do with each other. A `tick` that sends
something again stores the number it sends from as `snd_nxt`, and no call puts the old number back. So
the relation holds in the runs in which a `tick` finds nothing to send again, and every other `tick`
breaks it.
-/

namespace Tcp

open Infra Net List

/-! ## Numbers -/

theorem toNat_ofNat_lt {n : Nat} (h : n < 2 ^ 32) : (UInt32.ofNat n).toNat = n := by
  rw [UInt32.toNat_ofNat']
  exact Nat.mod_eq_of_lt h

theorem length_numbered (seq : UInt32) (bytes : List UInt8) : (numbered seq bytes).length = bytes.length := by
  induction bytes generalizing seq with
  | nil => rfl
  | cons b rest ih => simp [numbered, ih]

theorem numbered_snd (seq : UInt32) (bytes : List UInt8) : (numbered seq bytes).map Prod.snd = bytes := by
  induction bytes generalizing seq with
  | nil => rfl
  | cons b rest ih => simp [numbered, ih]

theorem numbered_append (seq : UInt32) (first second : List UInt8) :
    numbered seq (first ++ second) = numbered seq first ++ numbered (seq + UInt32.ofNat first.length) second := by
  induction first generalizing seq with
  | nil => simp [numbered]
  | cons b rest ih =>
    rw [cons_append, numbered, numbered, ih, cons_append, length_cons, Nat.add_comm, UInt32.ofNat_add, UInt32.add_assoc]
    rfl

variable {bytes : List UInt8} {c c' : TcpConn} {k : Nat} {now : UInt64} {seq : UInt32} {out : List Segment}

theorem mem_numbered {p : UInt32 × UInt8}
    (h : p ∈ numbered seq bytes) : ∃ i, bytes[i]? = some p.2 ∧ p.1 = seq + UInt32.ofNat i := by
  induction bytes generalizing seq with
  | nil => cases h
  | cons b rest ih =>
    rcases mem_cons.mp h with rfl | hrest
    · exact ⟨0, by simp⟩
    · obtain ⟨i, hi, hp⟩ := ih hrest
      refine ⟨i + 1, by simpa using hi, ?_⟩
      rw [hp, Nat.add_comm, UInt32.ofNat_add, UInt32.add_assoc]
      rfl

/-- Up to one round of the sequence space, a number stands for one byte. -/
theorem numbered_inj (hlen : bytes.length ≤ 2 ^ 32)
    {p q : UInt32 × UInt8} (hp : p ∈ numbered seq bytes) (hq : q ∈ numbered seq bytes)
    (heq : p.1 = q.1) : p.2 = q.2 := by
  obtain ⟨i, hi, hpi⟩ := mem_numbered hp
  obtain ⟨j, hj, hqj⟩ := mem_numbered hq
  have hi' : i < bytes.length := (List.getElem?_eq_some_iff.mp hi).1
  have hj' : j < bytes.length := (List.getElem?_eq_some_iff.mp hj).1
  have hij : i = j := by
    rw [hpi, hqj] at heq
    have hofNat : UInt32.ofNat i = UInt32.ofNat j := by simpa using heq
    have htoNat := congrArg UInt32.toNat hofNat
    rwa [toNat_ofNat_lt (by omega), toNat_ofNat_lt (by omega)] at htoNat
  rw [hij, hj] at hi
  exact (Option.some.inj hi).symm

/-! ## The relation -/

def TcpConn.InSequence (c : TcpConn) : Prop :=
  match c.state with
  | .synSent | .synReceived => (c.sndNxt - c.sndUna).toNat = 1 ∧ c.sendLen = 0
  | .established | .closeWait => (c.sndNxt - c.sndUna).toNat = c.sendLen
  | .closing => (c.sndNxt - c.sndUna).toNat = c.sendLen + 1
  | .timeWait | .failed => True

def TcpConn.Continues (c : TcpConn) : Prop :=
  match c.state with
  | .synSent | .synReceived => c.sent = [] ∧ c.sndNxt = c.isn + 1
  | .established | .closeWait => c.sndNxt = c.isn + 1 + UInt32.ofNat c.sent.length
  | .closing | .timeWait | .failed => True

/-- What is kept of a connection. -/
structure TcpConn.Sound (c : TcpConn) : Prop where
  inSequence : c.InSequence
  continues : c.Continues
  room : c.sendLen ≤ bufSize
  numbers : c.sent = numbered (c.isn + 1) (c.sent.map Prod.snd)

theorem TcpConn.Sound.outstanding (h : c.Sound)
    (hopen : c.state = .established ∨ c.state = .closeWait) : (c.sndNxt - c.sndUna).toNat = c.sendLen := by
  have hseq := h.inSequence
  rcases hopen with hs | hs <;> simpa only [InSequence, hs] using hseq

theorem TcpConn.Sound.next (h : c.Sound) (hopen : c.state = .established ∨ c.state = .closeWait) :
    c.sndNxt = c.isn + 1 + UInt32.ofNat c.sent.length := by
  have hcont := h.continues
  rcases hopen with hs | hs <;> simpa only [Continues, hs] using hcont

theorem TcpConn.Sound.congr (h : c.Sound)
    (hstate : c'.state = c.state ∨ c.state = .established ∧ c'.state = .closeWait)
    (huna : c'.sndUna = c.sndUna) (hnxt : c'.sndNxt = c.sndNxt) (hbuf : c'.sendBuf = c.sendBuf)
    (hisn : c'.isn = c.isn) (hsent : c'.sent = c.sent) : c'.Sound := by
  obtain ⟨hseq, hcont, hroom, hnum⟩ := h
  have hlen : c'.sendLen = c.sendLen := congrArg length hbuf
  refine ⟨?_, ?_, hlen ▸ hroom, by rw [hsent, hisn]; exact hnum⟩
  · rcases hstate with hs | ⟨hs, hs'⟩
    · simpa only [InSequence, hs, huna, hnxt, hlen] using hseq
    · simp only [InSequence, hs] at hseq
      simpa only [InSequence, hs', huna, hnxt, hlen] using hseq
  · rcases hstate with hs | ⟨hs, hs'⟩
    · simpa only [Continues, hs, hnxt, hisn, hsent] using hcont
    · simp only [Continues, hs] at hcont
      simpa only [Continues, hs', hnxt, hisn, hsent] using hcont

/-! ## Acknowledgements -/

/-- An acknowledgement is ignored or takes as many bytes off the buffer as it is ahead of `snd_una`; in
`closing` it may also be that of the FIN. -/
theorem drainAcked_cases (c : TcpConn) (ackNo : UInt32) :
    drainAcked c ackNo = c ∨
      ∃ k, k = (ackNo - c.sndUna).toNat ∧ (0 < k ∧ k ≤ (c.sndNxt - c.sndUna).toNat) ∧
        (k ≤ c.sendLen ∨ c.state = .closing ∧ ackNo = c.sndNxt) ∧
        drainAcked c ackNo = { c with sendBuf := c.sendBuf.drop (min k c.sendLen), sndUna := ackNo, retries := 0 } := by
  unfold drainAcked
  dsimp only
  split
  · exact .inl rfl
  · rename_i hout
    split
    · exact .inl rfl
    · rename_i hfin
      refine .inr ⟨_, rfl, ?_, ?_, rfl⟩
      · rw [not_or, UInt32.not_lt] at hout
        refine ⟨Nat.pos_of_ne_zero fun h0 => hout.1 (UInt32.toNat_inj.mp h0), ?_⟩
        exact UInt32.le_iff_toNat_le.mp hout.2
      · by_cases hk : (ackNo - c.sndUna).toNat ≤ c.sendLen
        · exact .inl hk
        · by_contra hne
          exact hfin ⟨by omega, fun hf => hne (.inr ⟨hf.1, hf.2.1⟩)⟩

theorem drainAcked_fields (c : TcpConn) (ackNo : UInt32) :
    (drainAcked c ackNo).state = c.state ∧ (drainAcked c ackNo).recvLen = c.recvLen ∧
      (drainAcked c ackNo).lastTxUs = c.lastTxUs ∧ (drainAcked c ackNo).twDeadlineUs = c.twDeadlineUs ∧
      (drainAcked c ackNo).peerFin = c.peerFin ∧ (drainAcked c ackNo).rcvNxt = c.rcvNxt ∧
      (drainAcked c ackNo).sndNxt = c.sndNxt ∧ (drainAcked c ackNo).recvBuf = c.recvBuf ∧
      (drainAcked c ackNo).recvHead = c.recvHead := by
  rcases drainAcked_cases c ackNo with heq | ⟨_, _, _, _, heq⟩ <;> rw [heq] <;> simp

theorem drainAcked_state (c : TcpConn) (ackNo : UInt32) : (drainAcked c ackNo).state = c.state :=
  (drainAcked_fields c ackNo).1

theorem outstanding_sub {una nxt ackNo : UInt32} (hk : k = (ackNo - una).toNat)
    (hle : k ≤ (nxt - una).toNat) : (nxt - ackNo).toNat = (nxt - una).toNat - k := by
  have hsub : nxt - ackNo = (nxt - una) - (ackNo - una) := by grind
  rw [hsub, UInt32.toNat_sub_of_le _ _ (UInt32.le_iff_toNat_le.mpr (hk ▸ hle)), ← hk]

theorem TcpConn.Sound.drainAcked (h : c.Sound) {ackNo : UInt32}
    (hfin : c.state = .closing → ackNo ≠ c.sndNxt) : (drainAcked c ackNo).Sound := by
  rcases drainAcked_cases c ackNo with heq | ⟨k, hk, ⟨-, hle⟩, hreach, heq⟩
  · rwa [heq]
  · have hkl : k ≤ c.sendLen := by
      rcases hreach with hkl | ⟨hs, hn⟩
      · exact hkl
      · exact absurd hn (hfin hs)
    rw [heq, Nat.min_eq_left hkl]
    obtain ⟨hseq, hcont, hroom, hnum⟩ := h
    have hlen : sendLen { c with sendBuf := c.sendBuf.drop k, sndUna := ackNo, retries := 0 } =
        c.sendLen - k := length_drop
    refine ⟨?_, hcont, by omega, hnum⟩
    unfold InSequence at hseq ⊢
    rw [hlen, outstanding_sub hk hle]
    cases hs : c.state <;> simp only [hs] at hseq ⊢ <;> omega

theorem drainAcked_take (hk : k ≤ (c.sndNxt - c.sndUna).toNat)
    (hreach : k ≤ c.sendLen ∨ c.state = .closing ∧ c.sndUna + UInt32.ofNat k = c.sndNxt ∧ k = c.sendLen + 1) :
    (drainAcked c (c.sndUna + UInt32.ofNat k)).sndUna = c.sndUna + UInt32.ofNat k ∧
      (drainAcked c (c.sndUna + UInt32.ofNat k)).sendBuf = c.sendBuf.drop k := by
  have hsub : c.sndUna + UInt32.ofNat k - c.sndUna = UInt32.ofNat k := by grind
  have hlt : k < 2 ^ 32 := Nat.lt_of_le_of_lt hk (c.sndNxt - c.sndUna).toNat_lt
  unfold drainAcked
  dsimp only
  rw [hsub, toNat_ofNat_lt hlt]
  split
  · rename_i hnone
    -- nothing new is acknowledged, since no more than what is outstanding is
    rcases hnone with hzero | hover
    · have hk0 : k = 0 := by
        rw [← toNat_ofNat_lt hlt, hzero]
        rfl
      simp [hk0]
    · rw [UInt32.lt_iff_toNat_lt, toNat_ofNat_lt hlt] at hover
      omega
  · rw [if_neg]
    · refine ⟨rfl, ?_⟩
      show c.sendBuf.drop (min k c.sendLen) = _
      rcases hreach with hle | ⟨-, -, heq⟩
      · rw [Nat.min_eq_left hle]
      · have hlen : c.sendBuf.length = c.sendLen := rfl
        rw [drop_eq_nil_of_le (by omega), drop_eq_nil_of_le (by omega)]
    · rintro ⟨hlong, hno⟩
      rcases hreach with hle | hfin
      · omega
      · exact hno hfin

/-! ## Segments -/

theorem acceptPayload_send (c : TcpConn) (seq : UInt32) (payload : List UInt8) (P : TcpConn → Prop)
    (hP : ∀ recvBuf recvLen rcvNxt, P { c with recvBuf := recvBuf, recvLen := recvLen, rcvNxt := rcvNxt }) :
    P (acceptPayload c seq payload) := by
  unfold acceptPayload
  split
  · exact hP _ _ _
  · exact hP c.recvBuf c.recvLen c.rcvNxt

theorem TcpConn.Sound.acceptPayload (h : c.Sound) (seq : UInt32) (payload : List UInt8) :
    (acceptPayload c seq payload).Sound :=
  acceptPayload_send c seq payload _ fun _ _ _ => h.congr (.inl rfl) rfl rfl rfl rfl rfl

theorem TcpConn.Sound.acceptFin (h : c.Sound) (now : UInt64) : (acceptFin c now).Sound := by
  refine h.congr ?_ rfl rfl rfl rfl rfl
  by_cases hs : c.state = .established
  · exact .inr ⟨hs, if_pos hs⟩
  · exact .inl (if_neg hs)

theorem TcpConn.Sound.transitionOpen (h : c.Sound) (hs : c.state ≠ .closing)
    (seq ackNo : UInt32) (flags : UInt8) (payload : List UInt8) (now : UInt64) :
    (transitionOpen c seq ackNo flags payload now).1.Sound := by
  have hacked : (Tcp.drainAcked c ackNo).Sound := h.drainAcked fun hc => absurd hc hs
  have hpayload := hacked.acceptPayload seq payload
  unfold Tcp.transitionOpen
  dsimp only
  split
  · exact hpayload.acceptFin now
  · exact hpayload

theorem TcpConn.Sound.tcpTransition (h : c.Sound) (seq ackNo : UInt32) (flags : UInt8)
    (payload : List UInt8) (now : UInt64) : (tcpTransition c seq ackNo flags payload now).1.Sound := by
  obtain ⟨hseq, hcont, hroom, hnum⟩ := id h
  unfold Tcp.tcpTransition
  cases hs : c.state with
  | synSent =>
    simp only [InSequence, Continues, hs] at hseq hcont
    dsimp only
    split
    · rename_i hok
      -- the handshake is complete: the SYN is acknowledged and no data was sent yet
      refine ⟨?_, ?_, hroom, hnum⟩
      · show (ackNo - ackNo).toNat = c.sendLen
        simp [hseq.2]
      · show ackNo = c.isn + 1 + UInt32.ofNat c.sent.length
        simp [hok.2, hcont.1, hcont.2]
    · exact h
  | synReceived =>
    simp only [InSequence, Continues, hs] at hseq hcont
    dsimp only
    split
    · rename_i hok
      apply TcpConn.Sound.transitionOpen
      · refine ⟨?_, ?_, hroom, hnum⟩
        · show (c.sndNxt - ackNo).toNat = c.sendLen
          simp [hok.2.1, hseq.2]
        · show c.sndNxt = c.isn + 1 + UInt32.ofNat c.sent.length
          simp [hcont.1, hcont.2]
      · simp
    · exact h
  | established | timeWait | closeWait => exact h.transitionOpen (by simp [hs]) seq ackNo flags payload now
  | closing =>
    dsimp only
    split
    · obtain ⟨-, -, -, -, -, -, hnxt, -⟩ := drainAcked_fields c ackNo
      split
      · rename_i hfin
        rcases drainAcked_cases c ackNo with heq | ⟨k, -, -, -, heq⟩
        · rw [heq]
          exact ⟨trivial, trivial, hroom, hnum⟩
        · rw [heq]
          refine ⟨trivial, trivial, ?_, hnum⟩
          simp only [sendLen, length_drop] at hroom ⊢
          omega
      · rename_i hfin
        exact h.drainAcked fun _ he => hfin (he.trans hnxt.symm)
    · exact h
  | failed => exact h

theorem TcpConn.Sound.handleSegment (h : c.Sound) (g : Incoming) (now : UInt64) : (handleSegment c g now).1.Sound := by
  unfold Tcp.handleSegment
  split
  · exact ⟨trivial, trivial, h.room, h.numbers⟩
  · have hwindow : TcpConn.Sound { c with peerWindow := g.window } := h.congr (.inl rfl) rfl rfl rfl rfl rfl
    exact hwindow.tcpTransition ..

/-! ## Calls -/

theorem toNat_syn (isn : UInt32) : (isn + 1 - isn).toNat = 1 := by
  have hone : isn + 1 - isn = 1 := by grind
  rw [hone]
  rfl

theorem sound_opening (iface : Nat) (srcPort : UInt16) (dstIp : Ip) (dstPort : UInt16) (now : UInt64) :
    (opening iface srcPort dstIp dstPort now).Sound where
  inSequence := ⟨toNat_syn _, rfl⟩
  continues := ⟨rfl, rfl⟩
  room := Nat.zero_le _
  numbers := rfl

theorem sound_passive (owner : Nat) (holder : Life) (parent : Fin 8) (port : UInt16) (g : Incoming)
    (now : UInt64) : (passive owner holder parent port g now).Sound where
  inSequence := ⟨toNat_syn _, rfl⟩
  continues := ⟨rfl, rfl⟩
  room := Nat.zero_le _
  numbers := rfl

theorem TcpConn.Sound.tcpSendInner (h : c.Sound) {data : List UInt8}
    {n : Nat} (hok : tcpSendInner c data now = .ok (c', out, n)) : c'.Sound := by
  unfold Tcp.tcpSendInner at hok
  split at hok
  · cases hok
  · rename_i hstate
    have hopen : c.state = .established ∨ c.state = .closeWait := by
      by_contra hne
      exact hstate (not_or.mp hne)
    dsimp only at hok
    -- all that matters is that the bytes taken fit into the buffer
    generalize hn : min (min (min data.length (bufSize - c.sendLen)) maxSegment)
      (c.peerWindow.toNat - c.sendLen) = m at hok
    have hm : (data.take m).length = m := by
      rw [length_take]
      omega
    have hfits : c.sendLen + m ≤ bufSize := by
      have := h.room
      omega
    have hout := h.outstanding hopen
    have hnext := h.next hopen
    simp only [Except.ok.injEq, Prod.mk.injEq] at hok
    obtain ⟨rfl, -, -⟩ := hok
    have hlen : (c.sendBuf ++ data.take m).length = c.sendLen + m := by
      rw [length_append, hm]
      rfl
    have hsent : (c.sent ++ numbered c.sndNxt (data.take m)).length = c.sent.length + m := by
      rw [length_append, length_numbered, hm]
    have hadd : (c.sndNxt + UInt32.ofNat m - c.sndUna).toNat = (c.sndNxt - c.sndUna).toNat + m := by
      have he : c.sndNxt + UInt32.ofNat m - c.sndUna = (c.sndNxt - c.sndUna) + UInt32.ofNat m := by
        grind
      have hsmall : bufSize < 2 ^ 32 := by decide
      rw [he, UInt32.toNat_add, toNat_ofNat_lt (by omega)]
      omega
    refine ⟨?_, ?_, hlen.trans_le hfits, ?_⟩
    · rcases hopen with hs | hs <;>
      · simp only [InSequence, hs]
        rw [hadd, hout]
        exact hlen.symm
    · have : c.sndNxt + UInt32.ofNat m = c.isn + 1 + UInt32.ofNat (c.sent.length + m) := by
        rw [hnext, UInt32.ofNat_add, UInt32.add_assoc]
      rcases hopen with hs | hs <;>
      · simp only [Continues, hs]
        rw [this, hsent]
    · show c.sent ++ numbered c.sndNxt (data.take m) = numbered (c.isn + 1) _
      rw [map_append, numbered_append, ← h.numbers, numbered_snd, length_map, ← hnext]

theorem TcpConn.Sound.tcpRecvInner (h : c.Sound) {size : Nat}
    (hok : tcpRecvInner c size = .ok (c', out, bytes)) : c'.Sound := by
  obtain ⟨head, n, rfl⟩ := tcpRecvInner_eq hok
  exact h.congr (.inl rfl) rfl rfl rfl rfl rfl

theorem TcpConn.Sound.tcpCloseInner (h : c.Sound) (hok : (tcpCloseInner c now).1 = some c') : c'.Sound := by
  unfold Tcp.tcpCloseInner at hok
  split at hok
  · rename_i hopen
    cases hok
    have hroom := h.room
    refine ⟨?_, trivial, hroom, h.numbers⟩
    -- the FIN takes one number more than the data
    have hone : c.sndNxt + 1 - c.sndUna = (c.sndNxt - c.sndUna) + 1 := by grind
    have hsmall : bufSize + 1 < 2 ^ 32 := by decide
    show (c.sndNxt + 1 - c.sndUna).toNat = c.sendLen + 1
    rw [hone, UInt32.toNat_add, h.outstanding hopen]
    exact Nat.mod_eq_of_lt (Nat.lt_of_le_of_lt (Nat.succ_le_succ hroom) hsmall)
  · cases hok

theorem kept_sound : Kept TcpConn.Sound where
  opening := sound_opening
  passive := sound_passive
  handle g now h := h.handleSegment g now
  send h hok := h.tcpSendInner hok
  recv h hok := h.tcpRecvInner hok
  close h hok := h.tcpCloseInner hok
  detach h := h.congr (.inl rfl) rfl rfl rfl rfl rfl

/-! ## Retransmission -/

/-- `tick` sends something of the connection again. -/
def TcpConn.due (c : TcpConn) (now : UInt64) : Bool :=
  (unacknowledged c).isSome && retryUs ≤ now - c.lastTxUs && c.retries < maxRetries

theorem TcpConn.Sound.retry (h : c.Sound) (hdue : c.due now = false) : (retry c now).1.Sound := by
  rcases retry_cases c now with heq | heq | ⟨action, hun, hlate, hfew, -⟩
  · rwa [heq]
  · rw [heq]
    exact ⟨trivial, trivial, h.room, h.numbers⟩
  · simp [due, hun, hlate, hfew] at hdue

theorem TcpConn.Sound.retry_broken (h : c.Sound) (hdue : c.due now = true) : ¬(Tcp.retry c now).1.InSequence := by
  simp only [due, Bool.and_eq_true, decide_eq_true_eq, Option.isSome_iff_exists] at hdue
  obtain ⟨⟨⟨action, hun⟩, hlate⟩, hfew⟩ := hdue
  have hseq := h.inSequence
  have hretry : (Tcp.retry c now).1 =
      { c with
        retries := c.retries + 1, lastTxUs := now, sndNxt := action.sequence,
        sent := c.sent ++ numbered action.sequence (c.sendBuf.take action.length) } := by
    unfold Tcp.retry plan
    rw [hun]
    dsimp only
    rw [if_neg (UInt64.not_lt.mpr hlate), if_neg (Nat.not_le.mpr hfew)]
  rw [hretry]
  intro hbad
  have hzero : (c.sndUna - c.sndUna).toNat = 0 := by simp
  unfold unacknowledged at hun
  unfold InSequence at hseq hbad
  cases hs : c.state with
  | synSent | synReceived =>
    simp only [hs, Option.some.injEq] at hun hbad
    subst hun
    exact absurd (hzero.symm.trans hbad.1) (by decide)
  | established | closeWait =>
    simp only [hs] at hun hbad
    split at hun
    · rename_i hpos
      cases hun
      exact absurd (hzero.symm.trans hbad) (Nat.ne_of_lt hpos)
    · cases hun
  | closing =>
    simp only [hs] at hun hbad hseq
    split at hun
    · cases hun
      exact absurd (hzero.symm.trans hbad) (Nat.ne_of_lt (Nat.succ_pos _))
    · rename_i hempty
      cases hun
      -- only the FIN is left, and its number is the one before `snd_nxt`
      have hlen : c.sendLen = 0 := Nat.eq_zero_of_not_pos hempty
      rw [hlen] at hseq
      have hback : c.sndNxt - 1 - c.sndUna = (c.sndNxt - c.sndUna) - 1 := by grind
      have hone : c.sndNxt - c.sndUna = 1 := UInt32.toNat.inj hseq
      change (c.sndNxt - 1 - c.sndUna).toNat = c.sendLen + 1 at hbad
      rw [hback, hone, hlen] at hbad
      exact absurd hbad (by decide)
  | timeWait | failed => simp [hs] at hun

/-! ## Runs -/

/-- Every connection that a `tick` does not free has its last segment acknowledged, or sent less than a
second ago, or given up. -/
def Tables.quiet (t : Tables) : Action → Bool
  | .tick now => (finRange 8).all fun i => (t.conns i).all fun c => c.expired now || !c.due now
  | _ => true

theorem Tables.not_due {t : Tables} (h : t.quiet (.tick now) = true) {i : Fin 8}
    (hc : (t.sweepTimewait now).conns i = some c) : c.due now = false := by
  obtain ⟨hc, hlive⟩ := Option.filter_eq_some_iff.mp hc
  have hall := all_eq_true.mp h i (mem_finRange i)
  rw [hc] at hall
  simpa [show c.expired now = false by simpa using hlive] using hall

/-- The acknowledgements that a peer sends are taken: that of the SYN, of the first `k` unacknowledged
bytes, and of the FIN after all of them. -/
def TcpConn.TakesAcks (c : TcpConn) : Prop :=
  ∀ (g : Incoming) (now : UInt64) (k : Nat), g.flags &&& rst = 0 → g.ack = c.sndUna + UInt32.ofNat k →
    match c.state with
    | .synSent =>
      g.flags &&& (syn ||| ack) = syn ||| ack → k = 1 →
        (handleSegment c g now).1.state = .established ∧ (handleSegment c g now).1.sndUna = g.ack
    | .synReceived =>
      g.flags &&& ack ≠ 0 → g.seq = c.rcvNxt → k = 1 →
        completes c (handleSegment c g now).1 = true ∧ (handleSegment c g now).1.sndUna = g.ack
    | .established | .closeWait =>
      k ≤ c.sendLen →
        (handleSegment c g now).1.sndUna = g.ack ∧
          (handleSegment c g now).1.sendBuf = c.sendBuf.drop k
    | .closing =>
      g.flags &&& ack ≠ 0 →
        (k ≤ c.sendLen →
          (handleSegment c g now).1.state = .closing ∧ (handleSegment c g now).1.sndUna = g.ack ∧
            (handleSegment c g now).1.sendBuf = c.sendBuf.drop k) ∧
        (k = c.sendLen + 1 →
          (handleSegment c g now).1.state = .timeWait ∧ (handleSegment c g now).1.sndUna = g.ack ∧
            (handleSegment c g now).1.sendBuf = [])
    | .timeWait | .failed => True

def TcpConn.NoClash (c : TcpConn) : Prop := ∀ p ∈ c.sent, ∀ q ∈ c.sent, p.1 = q.1 → p.2 = q.2

theorem TcpConn.Sound.noClash (h : c.Sound) (hlen : c.sent.length ≤ 2 ^ 32) : c.NoClash := by
  intro p hp q hq heq
  rw [h.numbers] at hp hq
  exact numbered_inj (by rwa [length_map]) hp hq heq

theorem handleSegment_fst (c : TcpConn) {g : Incoming} (h : g.flags &&& rst = 0) (now : UInt64) :
    (handleSegment c g now).1 =
      (tcpTransition { c with peerWindow := g.window } g.seq g.ack g.flags g.payload now).1 := by
  unfold handleSegment
  rw [if_neg (not_not.mpr h)]
  rfl

theorem transitionOpen_send (c : TcpConn) (seq ackNo : UInt32) (flags : UInt8) (payload : List UInt8)
    (now : UInt64) :
    (transitionOpen c seq ackNo flags payload now).1.sndUna = (drainAcked c ackNo).sndUna ∧
      (transitionOpen c seq ackNo flags payload now).1.sendBuf = (drainAcked c ackNo).sendBuf ∧
      (c.state = .established →
        (transitionOpen c seq ackNo flags payload now).1.state = .established ∨
          (transitionOpen c seq ackNo flags payload now).1.state = .closeWait) := by
  have hpayload : (acceptPayload (drainAcked c ackNo) seq payload).sndUna = (drainAcked c ackNo).sndUna ∧
      (acceptPayload (drainAcked c ackNo) seq payload).sendBuf = (drainAcked c ackNo).sendBuf ∧
      (acceptPayload (drainAcked c ackNo) seq payload).state = c.state := by
    apply acceptPayload_send (P := fun c' => c'.sndUna = (drainAcked c ackNo).sndUna ∧
      c'.sendBuf = (drainAcked c ackNo).sendBuf ∧ c'.state = c.state)
    intro _ _ _
    exact ⟨rfl, rfl, drainAcked_state c ackNo⟩
  obtain ⟨huna, hbuf, hstate⟩ := hpayload
  unfold transitionOpen
  dsimp only
  split
  · refine ⟨huna, hbuf, fun hs => .inr ?_⟩
    simp [acceptFin, hstate, hs]
  · exact ⟨huna, hbuf, fun hs => .inl (hstate.trans hs)⟩

theorem TcpConn.Sound.syn_acked (h : c.Sound)
    (hs : c.state = .synSent ∨ c.state = .synReceived) : c.sndUna + UInt32.ofNat 1 = c.sndNxt := by
  have hseq := h.inSequence
  have hone : c.sndNxt - c.sndUna = 1 := by
    apply UInt32.toNat.inj
    rcases hs with hs | hs <;>
    · simp only [InSequence, hs] at hseq
      exact hseq.1
  grind

theorem TcpConn.Sound.fin_acked (h : c.Sound) (hs : c.state = .closing)
    (hk : k ≤ c.sendLen + 1) : c.sndUna + UInt32.ofNat k = c.sndNxt ↔ k = c.sendLen + 1 := by
  have hseq := h.inSequence
  simp only [InSequence, hs] at hseq
  have hlt := (c.sndNxt - c.sndUna).toNat_lt
  constructor
  · intro he
    have hsub : c.sndNxt - c.sndUna = UInt32.ofNat k := by grind
    rw [← hseq, hsub, toNat_ofNat_lt (by omega)]
  · intro he
    have hsub : c.sndNxt - c.sndUna = UInt32.ofNat k := by
      apply UInt32.toNat.inj
      rw [hseq, toNat_ofNat_lt (by omega), he]
    grind

theorem TcpConn.Sound.ack_closing (h : c.Sound) (hs : c.state = .closing) (hk : k ≤ c.sendLen + 1)
    {flags : UInt8} (hflags : flags &&& ack ≠ 0) {payload : List UInt8}
    (hc' : c' = (Tcp.tcpTransition c seq (c.sndUna + UInt32.ofNat k) flags payload now).1) :
    c'.state = (if k = c.sendLen + 1 then .timeWait else .closing) ∧
      c'.sndUna = c.sndUna + UInt32.ofNat k ∧ c'.sendBuf = c.sendBuf.drop k := by
  have hseq := h.inSequence
  simp only [InSequence, hs] at hseq
  have hfin := h.fin_acked hs hk
  obtain ⟨hstate, -, -, -, -, -, hnxt, -⟩ := drainAcked_fields c (c.sndUna + UInt32.ofNat k)
  have htake := drainAcked_take (c := c) (k := k) (by omega) (by
    by_cases he : k = c.sendLen + 1
    · exact .inr ⟨hs, hfin.mpr he, he⟩
    · exact .inl (by omega))
  subst hc'
  unfold Tcp.tcpTransition
  simp only [hs, if_pos hflags, hnxt, hfin]
  split
  · exact ⟨rfl, htake⟩
  · exact ⟨hstate.trans hs, htake⟩

theorem TcpConn.Sound.takesAcks (h : c.Sound) : c.TakesAcks := by
  intro g now k hrst hack
  rw [handleSegment_fst c hrst]
  have hd : TcpConn.Sound { c with peerWindow := g.window } := h.congr (.inl rfl) rfl rfl rfl rfl rfl
  have hseq := h.inSequence
  simp only [InSequence] at hseq
  cases hs : c.state with
  | synSent =>
    intro hflags hk
    have hnxt : g.ack = c.sndNxt := by rw [hack, hk, h.syn_acked (.inl hs)]
    simp only [Tcp.tcpTransition]
    rw [if_pos ⟨hflags, hnxt⟩]
    exact ⟨rfl, rfl⟩
  | synReceived =>
    intro hflags hg hk
    have hnxt : g.ack = c.sndNxt := by rw [hack, hk, h.syn_acked (.inr hs)]
    simp only [Tcp.tcpTransition, completes, hs]
    rw [if_pos ⟨hflags, hnxt, hg⟩]
    obtain ⟨huna, -, hopen⟩ := transitionOpen_send
      { c with peerWindow := g.window, state := .established, sndUna := g.ack, twDeadlineUs := 0 }
      g.seq g.ack g.flags g.payload now
    refine ⟨?_, ?_⟩
    · rcases hopen rfl with he | he <;> simp [he]
    · rw [huna]
      simp [Tcp.drainAcked]
  | established | closeWait =>
    simp only [hs] at hseq
    intro hk
    obtain ⟨huna, hbuf, -⟩ :=
      transitionOpen_send { c with peerWindow := g.window } g.seq g.ack g.flags g.payload now
    simp only [Tcp.tcpTransition]
    rw [hs] at huna hbuf
    rw [huna, hbuf, hack]
    exact drainAcked_take (hk.trans_eq hseq.symm) (.inl hk)
  | closing =>
    intro hflags
    rw [hs] at hd
    rw [hack]
    generalize hc' : (Tcp.tcpTransition _ _ _ _ _ _).1 = c'
    refine ⟨fun hk => ?_, fun hk => ?_⟩
    · obtain ⟨hstate, hsend⟩ := hd.ack_closing rfl (hk.trans (Nat.le_succ _)) hflags hc'.symm
      exact ⟨hstate.trans (if_neg (Nat.ne_of_lt (Nat.lt_succ_of_le hk))), hsend⟩
    · obtain ⟨hstate, huna, hbuf⟩ := hd.ack_closing rfl (Nat.le_of_eq hk) hflags hc'.symm
      refine ⟨hstate.trans (if_pos hk), huna, hbuf.trans (drop_eq_nil_of_le ?_)⟩
      rw [hk]
      exact Nat.le_succ _
  | timeWait | failed => trivial

/-- In a run in which nothing is sent again, every connection keeps its numbers in sequence, takes the
acknowledgements of its peer and sends no two bytes with one number within a round of the sequence
space. The next `tick` keeps the numbers in sequence exactly if it has nothing to send again. -/
theorem sequence_kept {t : Tables} (hrun : machine.Reach (fun v a => v.quiet a = true) .boot t) :
    (∀ i c, t.conns i = some c →
      c.InSequence ∧ c.TakesAcks ∧ (c.sent.length ≤ 2 ^ 32 → c.NoClash)) ∧
    ∀ now, (t.step (.tick now)).All TcpConn.InSequence ↔ t.quiet (.tick now) = true := by
  have hsound : t.All TcpConn.Sound := by
    refine hrun.invariant (fun _ _ hc => nomatch hc) ?_
    intro v a w hv hok hstep
    cases hstep
    -- a connection that is swept is not looked at, so the retransmissions are those of the swept table
    cases a with
    | tick now =>
      apply (hv.sweep now).retryTick
      intro i c hc hcs
      exact hcs.retry (Tables.not_due hok hc)
    | _ => exact hv.step kept_sound _ fun _ _ _ he => nomatch he
  refine ⟨fun i c hc => ?_, fun now => ⟨fun hall => ?_, fun hquiet => ?_⟩⟩
  · have hcs := hsound i c hc
    exact ⟨hcs.inSequence, hcs.takesAcks, hcs.noClash⟩
  · apply all_eq_true.mpr
    intro i _
    rw [Option.all_eq_true]
    intro c hc
    by_contra hne
    obtain ⟨hlive, hdue⟩ : c.expired now = false ∧ c.due now = true := by simpa using hne
    refine (hsound i c hc).retry_broken hdue (hall i _ ?_)
    show ((t.conns i).filter _).map _ = _
    rw [hc]
    simp [Option.filter, hlive]
  · intro i c hc
    obtain ⟨c₀, hc₀, rfl⟩ := Option.map_eq_some_iff.mp hc
    exact (((hsound.sweep now) i c₀ hc₀).retry (Tables.not_due hquiet hc₀)).inSequence

def fromPeer (seq ackNo : UInt32) (flags : UInt8) (payload : List UInt8) : Incoming where
  iface := 0
  srcIp := 7
  srcPort := 80
  dstPort := 40000
  seq := seq
  ack := ackNo
  flags := flags
  window := 2048
  payload := payload

/-- A connection is opened, sends two bytes, ticks before a second is over, gets one acknowledged and
closes. -/
theorem sequence_kept_closing :
    ∃ t, machine.Reach (fun v a => v.quiet a = true) .boot t ∧
      ((t.conns 0).any fun c => c.state = .closing && c.sendLen = 1) = true ∧
      ((∀ i c, t.conns i = some c →
        c.InSequence ∧ c.TakesAcks ∧ (c.sent.length ≤ 2 ^ 32 → c.NoClash)) ∧
      ∀ now, (t.step (.tick now)).All TcpConn.InSequence ↔ t.quiet (.tick now) = true) := by
  refine Machine.exists_reach_imp (P := fun t => ((t.conns 0).any fun c => c.state = .closing && c.sendLen = 1) = true)
    [.connect (some 0) 7 80 0, .segment (fromPeer 5000 40002 0x12 []) 10, .send 0 [1, 2] 20,
      .tick 900000, .segment (fromPeer 5001 40003 0x10 []) 900010, .close 0 900020] (by decide +kernel) ?_
  rintro t hrun htest
  exact ⟨htest, sequence_kept hrun⟩

/-- A byte is sent again after a second; then the next byte goes out with its number, and the
acknowledgement of both is ignored. -/
theorem retransmission_rewinds :
    ∃ t, machine.Reach Machine.always .boot t ∧ ∃ c, t.conns 0 = some c ∧
      ¬c.InSequence ∧ ¬c.TakesAcks ∧ ¬c.NoClash := by
  obtain ⟨t, hrun, htest⟩ : ∃ t, machine.Reach Machine.always .boot t ∧ ((t.conns 0).any fun c =>
      c.state = .established && (c.sndNxt - c.sndUna).toNat = 1 && c.sendLen = 2 && c.sndUna = 40002 &&
      c.sent = [(40002, 1), (40002, 1), (40002, 2)] &&
      (handleSegment c (fromPeer 5001 40004 0x10 []) 0).1.sndUna = 40002) = true := Machine.exists_reach_of_play
    [.connect (some 0) 7 80 0, .segment (fromPeer 5000 40002 0x12 []) 10, .send 0 [1] 20,
      .tick 1000020, .send 0 [2] 1000030] (by decide +kernel)
  simp only [Option.any_eq_true, Bool.and_eq_true, decide_eq_true_eq] at htest
  obtain ⟨c, hc, ⟨⟨⟨⟨hs, hout⟩, hlen⟩, huna⟩, hsent⟩, hack⟩ := htest
  refine ⟨t, hrun, c, hc, ?_, ?_, ?_⟩
  · intro hseq
    simp only [TcpConn.InSequence, hs] at hseq
    omega
  · intro htakes
    have hboth := htakes (fromPeer 5001 40004 0x10 []) 0 2 rfl (by rw [huna]; rfl)
    simp only [hs] at hboth
    rw [hack] at hboth
    exact absurd (hboth (by omega)).1 (by decide)
  · intro hno
    rw [TcpConn.NoClash, hsent] at hno
    exact absurd (hno (40002, 1) (by decide) (40002, 2) (by decide) rfl) (by decide)

end Tcp
