import OnyxKernel.Net.Tcp.Sequence

/-!
# Who the sockets of the tables belong to

What the calls and the traffic do to the fields of connections and listeners that say who they belong to:
`Evolves` for what nobody but the owner of a socket can bring about,
`OnlyOf` for what a call of a process leaves alone, and
`Stays` for a slot that somebody waits for.
-/

namespace Tcp

open Tables Option

/-! ## Who a connection belongs to -/

def TcpConn.tag (c : TcpConn) : Nat × Net.Life × Option Nat := (c.ownerPid, c.holder, c.listener)

def Listener.tag (l : Listener) : Nat × Net.Life := (l.ownerPid, l.holder)

/-- The owner is the same, and no handshake of a peer begins. -/
def TcpConn.Stable (c c' : TcpConn) : Prop :=
  c'.tag = c.tag ∧ (c.state ≠ .synReceived → c'.state ≠ .synReceived)

section

variable (c : TcpConn) (seq ackNo : UInt32) (flags : UInt8) (payload : List UInt8) (now : UInt64)

theorem stable_drainAcked : c.Stable (drainAcked c ackNo) := by
  rcases drainAcked_cases c ackNo with heq | ⟨_, _, _, _, heq⟩ <;> rw [heq] <;> exact ⟨rfl, id⟩

theorem stable_transitionOpen : c.Stable (transitionOpen c seq ackNo flags payload now).1 := by
  have hpayload : c.Stable (acceptPayload (drainAcked c ackNo) seq payload) :=
    acceptPayload_send _ seq payload c.Stable fun _ _ _ => stable_drainAcked c ackNo
  unfold transitionOpen
  dsimp only
  split
  · refine ⟨hpayload.1, fun hs => ?_⟩
    unfold acceptFin
    split
    · simp
    · exact hpayload.2 hs
  · exact hpayload

theorem stable_tcpTransition : c.Stable (tcpTransition c seq ackNo flags payload now).1 := by
  have hacked := stable_drainAcked c ackNo
  unfold tcpTransition
  split
  · split
    · exact ⟨rfl, fun _ => by simp⟩
    · exact ⟨rfl, id⟩
  · rename_i hs
    split
    · exact ⟨(stable_transitionOpen ..).1, fun hne => absurd hs hne⟩
    · exact ⟨rfl, id⟩
  · exact stable_transitionOpen ..
  · exact stable_transitionOpen ..
  · exact stable_transitionOpen ..
  · split
    · dsimp only
      split
      · exact ⟨hacked.1, fun _ => by simp⟩
      · exact hacked
    · exact ⟨rfl, id⟩
  · exact ⟨rfl, id⟩

theorem stable_handleSegment (g : Incoming) : c.Stable (handleSegment c g now).1 := by
  unfold handleSegment
  split
  · exact ⟨rfl, fun _ => by simp⟩
  · exact stable_tcpTransition { c with peerWindow := g.window } ..

theorem stable_retry : c.Stable (retry c now).1 := by
  rcases retry_cases c now with heq | heq | ⟨_, _, _, _, heq⟩ <;> rw [heq]
  · exact ⟨rfl, id⟩
  · exact ⟨rfl, fun _ => by simp⟩
  · exact ⟨rfl, id⟩

end

/-! ## Tables without a new socket -/

/-- Connections stay, go, are taken off their listener or come up behind a listener; listeners stay, or
go with all connections that wait behind them. -/
structure Evolves (t t' : Tables) : Prop where
  conns : ∀ i c', t'.conns i = some c' →
    (∃ c, t.conns i = some c ∧ c'.ownerPid = c.ownerPid ∧ c'.holder = c.holder ∧
      (c'.listener = c.listener ∨ c'.listener = none)) ∨
    ∃ k l, t.listeners k = some l ∧ c'.ownerPid = l.ownerPid ∧ c'.holder = l.holder ∧
      (c'.listener = some k.val ∨ c'.listener = none)
  listeners : ∀ k l', t'.listeners k = some l' → ∃ l, t.listeners k = some l ∧ l'.tag = l.tag
  orphans : ∀ k, (t.listeners k).isSome → t'.listeners k = none →
    ∀ i c', t'.conns i = some c' → c'.listener ≠ some k.val

def Stays (t t' : Tables) (i : Fin 8) : Prop :=
  ∀ c, t.conns i = some c → c.state ≠ .synReceived →
    ∃ c', t'.conns i = some c' ∧ c'.tag = c.tag ∧ c'.state ≠ .synReceived

theorem tag_eq {c c' : TcpConn} (h : c'.tag = c.tag) :
    c'.ownerPid = c.ownerPid ∧ c'.holder = c.holder ∧ c'.listener = c.listener := by
  simpa [TcpConn.tag] using h

theorem Listener.tag_eq {l l' : Listener} (h : l'.tag = l.tag) : l'.ownerPid = l.ownerPid ∧ l'.holder = l.holder := by
  simpa [Listener.tag] using h

section

variable {t t' t'' : Tables}

namespace Evolves

theorem of_conns (hl : t'.listeners = t.listeners)
    (hc : ∀ i c', t'.conns i = some c' → ∃ c, t.conns i = some c ∧ c'.tag = c.tag) : Evolves t t' where
  conns i c' hc' := by
    obtain ⟨c, hc, htag⟩ := hc i c' hc'
    obtain ⟨howner, hholder, hlistener⟩ := Tcp.tag_eq htag
    exact .inl ⟨c, hc, howner, hholder, .inl hlistener⟩
  listeners k l' hk := ⟨l', hl ▸ hk, rfl⟩
  orphans k hk hnone := by
    rw [hl] at hnone
    simp [hnone] at hk

theorem refl (t : Tables) : Evolves t t := .of_conns rfl fun _ c hc => ⟨c, hc, rfl⟩

theorem trans (h : Evolves t t') (h' : Evolves t' t'') : Evolves t t'' where
  conns i c'' hc'' := by
    rcases h'.conns i c'' hc'' with ⟨c', hc', howner, hholder, hlistener⟩ |
      ⟨k, l', hl', howner, hholder, hlistener⟩
    · rcases h.conns i c' hc' with ⟨c, hc, howner', hholder', hlistener'⟩ |
        ⟨k, l, hl, howner', hholder', hlistener'⟩
      · refine .inl ⟨c, hc, howner.trans howner', hholder.trans hholder', ?_⟩
        rcases hlistener with hsame | hnone
        · rwa [hsame]
        · exact .inr hnone
      · refine .inr ⟨k, l, hl, howner.trans howner', hholder.trans hholder', ?_⟩
        rcases hlistener with hsame | hnone
        · rwa [hsame]
        · exact .inr hnone
    · obtain ⟨l, hl, htag⟩ := h.listeners k l' hl'
      obtain ⟨howner', hholder'⟩ := Listener.tag_eq htag
      exact .inr ⟨k, l, hl, howner.trans howner', hholder.trans hholder', hlistener⟩
  listeners k l'' hl'' := by
    obtain ⟨l', hl', htag'⟩ := h'.listeners k l'' hl''
    obtain ⟨l, hl, htag⟩ := h.listeners k l' hl'
    exact ⟨l, hl, htag'.trans htag⟩
  orphans k hk hnone i c'' hc'' heq := by
    by_cases hk' : (t'.listeners k).isSome
    · exact h'.orphans k hk' hnone i c'' hc'' heq
    · have hgone : t'.listeners k = none := by simpa using hk'
      rcases h'.conns i c'' hc'' with ⟨c', hc', -, -, hsame | hdrop⟩ | ⟨j, l', hl', -, -, hnew | hdrop⟩
      · exact h.orphans k hk hgone i c' hc' (hsame ▸ heq)
      · exact absurd (hdrop ▸ heq) (by simp)
      · obtain rfl : j = k := Fin.ext (some.inj (hnew.symm.trans heq))
        rw [hgone] at hl'
        cases hl'
      · exact absurd (hdrop ▸ heq) (by simp)

theorem setConn {cid : Fin 8} {o : Option TcpConn}
    (h : ∀ c', o = some c' → ∃ c, t.conns cid = some c ∧ c'.tag = c.tag) : Evolves t (t.setConn cid o) := by
  refine .of_conns rfl fun i c' hc' => ?_
  by_cases hi : i = cid
  · subst hi
    exact h c' (by simpa [Tables.setConn] using hc')
  · exact ⟨c', by simpa [Tables.setConn, hi] using hc', rfl⟩

theorem set_none (cid : Fin 8) : Evolves t (t.setConn cid none) := .setConn fun _ hc => nomatch hc

theorem sweep (now : UInt64) : Evolves t (t.sweepTimewait now) :=
  .of_conns rfl fun _ c' hc' => ⟨c', eq_some_of_filter_eq_some hc', rfl⟩

theorem retryTick (now : UInt64) : Evolves t (t.retryTick now).1 := by
  refine .of_conns rfl fun i c' hc' => ?_
  obtain ⟨c, hc, rfl⟩ := map_eq_some_iff.mp hc'
  exact ⟨c, hc, (stable_retry c now).1⟩

theorem setListener_ne_none {i k : Fin 8} {l : Listener} (hk : (t.listeners k).isSome) :
    (t.setListener i (some l)).listeners k ≠ none := by
  by_cases hki : k = i
  · simp [setListener, hki]
  · simpa [setListener, hki, isSome_iff_ne_none] using hk

theorem setQueue {i : Fin 8} {l : Listener} (hl : t.listeners i = some l) (queue : List (Fin 8)) :
    Evolves t (t.setListener i (some { l with queue := queue })) where
  conns _ c hc := .inl ⟨c, hc, rfl, rfl, .inl rfl⟩
  listeners k l' hk := by
    by_cases hki : k = i
    · subst hki
      obtain rfl : { l with queue := queue } = l' := by simpa [setListener] using hk
      exact ⟨l, hl, rfl⟩
    · exact ⟨l', by simpa [setListener, hki] using hk, rfl⟩
  orphans _ hk hnone := absurd hnone (setListener_ne_none hk)

theorem established (cid : Fin 8) (parent : Option Nat) : Evolves t (t.established cid parent) := by
  unfold Tables.established
  split
  · exact .set_none cid
  · split
    · exact .set_none cid
    · rename_i l hl
      split
      · exact .setQueue hl _
      · exact .set_none cid

theorem deliver {cid : Fin 8} {c : TcpConn} (hc : t.conns cid = some c) (g : Incoming)
    (now : UInt64) : Evolves t (t.deliver cid c g now).1 := by
  have hset : Evolves t (t.setConn cid (some (handleSegment c g now).1)) :=
    .setConn fun c' hc' => ⟨c, hc, some.inj hc' ▸ (stable_handleSegment c now g).1⟩
  unfold Tables.deliver
  dsimp only
  split
  · exact hset.trans (.established cid _)
  · exact hset

theorem incomingSyn (g : Incoming) (now : UInt64) : Evolves t (t.incomingSyn g now).1 := by
  unfold Tables.incomingSyn
  split
  · exact .refl t
  · rename_i parent hparent
    split
    · exact .refl t
    · split
      · exact .refl t
      · rename_i cid hcid
        obtain ⟨l, hl⟩ : ∃ l, t.listeners parent = some l := by
          have hany := List.find?_some hparent
          simp only [any_eq_true] at hany
          exact hany.imp fun _ h => h.1
        have hl' : t.allocLocalPort.2.listeners parent = some l := hl
        dsimp only
        rw [hl']
        refine ⟨fun i c' hc' => ?_, fun k l' hk => ⟨l', hk, rfl⟩, fun k hk hnone => ?_⟩
        · by_cases hi : i = cid
          · subst hi
            obtain rfl : passive l.ownerPid l.holder parent t.allocLocalPort.1 g now = c' := by
              simpa [Tables.setConn] using hc'
            exact .inr ⟨parent, l, hl, rfl, rfl, .inl rfl⟩
          · have hold : t.conns i = some c' := by
              simpa [Tables.setConn, hi, Tables.allocLocalPort] using hc'
            exact .inl ⟨c', hold, rfl, rfl, .inl rfl⟩
        · have : t.listeners k = none := hnone
          simp [this] at hk

theorem handleTcp (g : Incoming) (now : UInt64) : Evolves t (t.handleTcp g now).1 := by
  have hswept : Evolves t (t.sweepTimewait now) := .sweep now
  unfold Tables.handleTcp
  dsimp only
  split
  · split
    · rename_i c hc
      exact hswept.trans (.deliver hc g now)
    · exact hswept
  · split
    · exact hswept.trans (.incomingSyn g now)
    · exact hswept

/-! ### Calls -/

theorem send (cid : Nat) (data : List UInt8) (now : UInt64) : Evolves t (t.tcpSend cid data now).2 := by
  unfold tcpSend
  split
  · exact .refl t
  · split
    · exact .refl t
    · rename_i c hc
      split
      · exact .refl t
      · rename_i c' out n hok
        refine .setConn fun d hd => ⟨c, hc, ?_⟩
        obtain rfl := some.inj hd
        unfold tcpSendInner at hok
        split at hok
        · cases hok
        · cases hok
          rfl

theorem recv (cid size : Nat) : Evolves t (t.tcpRecv cid size).2 := by
  unfold tcpRecv
  split
  · exact .refl t
  · split
    · exact .refl t
    · rename_i c hc
      split
      · exact .refl t
      · rename_i c' out bytes hok
        refine .setConn fun d hd => ⟨c, hc, ?_⟩
        obtain rfl := some.inj hd
        obtain ⟨head, k, rfl⟩ := tcpRecvInner_eq hok
        rfl

theorem close (cid : Nat) (now : UInt64) : Evolves t (t.tcpClose cid now).2 := by
  unfold tcpClose
  split
  · exact .refl t
  · split
    · exact .refl t
    · rename_i c hc
      refine .setConn fun d hd => ⟨c, hc, ?_⟩
      unfold tcpCloseInner at hd
      split at hd
      · cases hd
        rfl
      · cases hd

theorem accept (index : Nat) : Evolves t (t.accept index).2 := by
  unfold Tables.accept
  split
  · exact .refl t
  · rename_i i _
    split
    · exact .refl t
    · rename_i l hl
      split
      · exact .refl t
      · rename_i cid rest _
        have hqueue := setQueue hl rest
        split
        · exact hqueue
        · rename_i c hc
          have hc : t.conns cid = some c := eq_some_of_filter_eq_some hc
          refine ⟨fun j c' hc' => ?_, hqueue.listeners, fun k hk hnone => ?_⟩
          · by_cases hj : j = cid
            · subst hj
              obtain rfl : { c with listener := none } = c' := by simpa [Tables.setConn] using hc'
              exact .inl ⟨c, hc, rfl, rfl, .inr rfl⟩
            · have hc' : t.conns j = some c' := by
                simpa [Tables.setConn, Tables.setListener, hj] using hc'
              exact .inl ⟨c', hc', rfl, rfl, .inl rfl⟩
          · exact absurd hnone (setListener_ne_none hk)

theorem closeListener (index : Nat) : Evolves t (t.closeListener index).2 := by
  unfold Tables.closeListener
  split
  · exact .refl t
  · rename_i i _
    split
    · exact .refl t
    · refine ⟨fun j c' hc' => ?_, fun k l' hk => ?_, fun k hk hnone j c' hc' heq => ?_⟩
      · exact .inl ⟨c', eq_some_of_filter_eq_some hc', rfl, rfl, .inl rfl⟩
      · by_cases hki : k = i
        · subst hki
          simp [setListener] at hk
        · exact ⟨l', by simpa [setListener, hki] using hk, rfl⟩
      · by_cases hki : k = i
        · subst hki
          have := (filter_eq_some_iff.mp hc').2
          simp [heq] at this
        · have : t.listeners k = none := by simpa [setListener, hki] using hnone
          simp [this] at hk

end Evolves

/-! ### The slot of a waiting connect -/

variable {i : Fin 8}

theorem Stays.trans (h : Stays t t' i) (h' : Stays t' t'' i) : Stays t t'' i := by
  intro c hc hs
  obtain ⟨c', hc', htag, hs'⟩ := h c hc hs
  obtain ⟨c'', hc'', htag', hs''⟩ := h' c' hc' hs'
  exact ⟨c'', hc'', htag'.trans htag, hs''⟩

theorem Stays.sweep {now : UInt64} (h : ∀ c, t.conns i = some c → c.expired now = false) :
    Stays t (t.sweepTimewait now) i := by
  intro c hc hs
  refine ⟨c, ?_, rfl, hs⟩
  show (t.conns i).filter _ = _
  rw [hc]
  simp [Option.filter, h c hc]

theorem Stays.retryTick (now : UInt64) : Stays t (t.retryTick now).1 i := by
  intro c hc hs
  refine ⟨(retry c now).1, ?_, (stable_retry c now).imp_right (· hs)⟩
  show (t.conns i).map _ = _
  rw [hc]
  rfl

/-- Only a connection whose handshake came from the peer is given to a listener. -/
theorem Stays.deliver {cid : Fin 8} {c : TcpConn} (hc : t.conns cid = some c) (g : Incoming)
    (now : UInt64) : Stays t (t.deliver cid c g now).1 i := by
  intro d hd hs
  by_cases hi : i = cid
  · subst hi
    obtain rfl : c = d := some.inj (hc.symm.trans hd)
    refine ⟨(handleSegment c g now).1, ?_, (stable_handleSegment c now g).imp_right (· hs)⟩
    have hno : completes c (handleSegment c g now).1 = false := by simp [completes, hs]
    unfold Tables.deliver
    dsimp only
    rw [hno]
    simp [setConn]
  · exact ⟨d, (deliver_of_ne hi c g now).trans hd, rfl, hs⟩

theorem Stays.incomingSyn (g : Incoming) (now : UInt64) : Stays t (t.incomingSyn g now).1 i := by
  intro c hc hs
  exact ⟨c, (incomingSyn_conns hc g now).trans hc, rfl, hs⟩

theorem Stays.handleTcp (g : Incoming) {now : UInt64}
    (h : ∀ c, t.conns i = some c → c.expired now = false) : Stays t (t.handleTcp g now).1 i := by
  have hswept := Stays.sweep h
  unfold Tables.handleTcp
  dsimp only
  split
  · split
    · rename_i c hc
      exact hswept.trans (.deliver hc g now)
    · exact hswept
  · split
    · exact hswept.trans (.incomingSyn g now)
    · exact hswept

/-! ### Connections behind a listener -/

/-- A connection that waits behind a listener belongs to whom the listener belongs to. -/
def Behind (t : Tables) : Prop :=
  ∀ i c k, t.conns i = some c → c.listener = some k →
    ∃ j l, Fin.val j = k ∧ t.listeners j = some l ∧ c.ownerPid = l.ownerPid ∧ c.holder = l.holder

theorem Evolves.behind (h : Evolves t t') (hb : Behind t) : Behind t' := by
  -- The listener that was there before is still there, or it took the connection with it.
  have hstill : ∀ {i c' j l}, t'.conns i = some c' → c'.listener = some (Fin.val j) →
      t.listeners j = some l → ∃ l', t'.listeners j = some l' ∧ l'.tag = l.tag := by
    intro i c' j l hc' hk hl
    cases hl' : t'.listeners j with
    | none => exact absurd hk (h.orphans j (by simp [hl]) hl' i c' hc')
    | some l' =>
      obtain ⟨l₀, hl₀, htag⟩ := h.listeners j l' hl'
      obtain rfl : l = l₀ := some.inj (hl.symm.trans hl₀)
      exact ⟨l', rfl, htag⟩
  intro i c' k hc' hk
  rcases h.conns i c' hc' with ⟨c, hc, hown, hhold, hlis⟩ | ⟨j, l, hl, hown, hhold, hlis⟩
  · have hk' : c.listener = some k := by
      rcases hlis with heq | hnone
      · rw [← heq, hk]
      · rw [hk] at hnone
        cases hnone
    obtain ⟨j, l, rfl, hl, hown', hhold'⟩ := hb i c k hc hk'
    obtain ⟨l', hl', htag⟩ := hstill hc' hk hl
    obtain ⟨ho, hh⟩ := Listener.tag_eq htag
    exact ⟨j, l', rfl, hl', by rw [hown, hown', ho], by rw [hhold, hhold', hh]⟩
  · have hk' : k = j.val := by
      rcases hlis with heq | hnone
      · rw [hk] at heq
        exact some.inj heq
      · rw [hk] at hnone
        cases hnone
    subst hk'
    obtain ⟨l', hl', htag⟩ := hstill hc' hk hl
    obtain ⟨ho, hh⟩ := Listener.tag_eq htag
    exact ⟨j, l', rfl, hl', by rw [hown, ho], by rw [hhold, hh]⟩

/-! ### What changes for others -/

/-- Only sockets of this process are touched. -/
structure OnlyOf (pid : Nat) (t t' : Tables) : Prop where
  conns : ∀ i, t'.conns i = t.conns i ∨ ∃ c, t.conns i = some c ∧ c.ownerPid = pid
  listeners : ∀ k, t'.listeners k = t.listeners k ∨ ∃ l, t.listeners k = some l ∧ l.ownerPid = pid

variable {pid : Nat}

theorem OnlyOf.refl (t : Tables) : OnlyOf pid t t := ⟨fun _ => .inl rfl, fun _ => .inl rfl⟩

theorem OnlyOf.trans (h : OnlyOf pid t t') (h' : OnlyOf pid t' t'') : OnlyOf pid t t'' where
  conns i := by
    rcases h.conns i with heq | hown
    · rw [← heq]
      exact h'.conns i
    · exact .inr hown
  listeners k := by
    rcases h.listeners k with heq | hown
    · rw [← heq]
      exact h'.listeners k
    · exact .inr hown

theorem OnlyOf.setConn {i : Fin 8} {c : TcpConn} (hc : t.conns i = some c) (hown : c.ownerPid = pid)
    (o : Option TcpConn) : OnlyOf pid t (t.setConn i o) where
  conns j := by
    by_cases hj : j = i
    · subst hj
      exact .inr ⟨c, hc, hown⟩
    · exact .inl (by simp [Tables.setConn, hj])
  listeners _ := .inl rfl

theorem OnlyOf.setListener {k : Fin 8} {l : Listener} (hl : t.listeners k = some l)
    (hown : l.ownerPid = pid) (o : Option Listener) : OnlyOf pid t (t.setListener k o) where
  conns _ := .inl rfl
  listeners j := by
    by_cases hj : j = k
    · subst hj
      exact .inr ⟨l, hl, hown⟩
    · exact .inl (by simp [Tables.setListener, hj])

section

variable {id : Nat} {i : Fin 8} {c : TcpConn} {l : Listener}

section

variable (hslot : slot id = some i) (hc : t.conns i = some c) (hown : c.ownerPid = pid)
include hslot hc hown

theorem OnlyOf.send
    (data : List UInt8) (now : UInt64) : OnlyOf pid t (t.tcpSend id data now).2 := by
  unfold tcpSend
  simp only [hslot, hc]
  split
  · exact .refl t
  · exact .setConn hc hown _

theorem OnlyOf.recv
    (size : Nat) : OnlyOf pid t (t.tcpRecv id size).2 := by
  unfold tcpRecv
  simp only [hslot, hc]
  split
  · exact .refl t
  · exact .setConn hc hown _

theorem OnlyOf.close
    (now : UInt64) : OnlyOf pid t (t.tcpClose id now).2 := by
  unfold tcpClose
  simp only [hslot, hc]
  exact .setConn hc hown _

end

theorem Behind.owner (hb : Behind t) {j : Fin 8} (hl : t.listeners i = some l) (hc : t.conns j = some c)
    (hk : c.listener = some i.val) : c.ownerPid = l.ownerPid := by
  obtain ⟨i', l', hval, hl', hown, -⟩ := hb j c i.val hc hk
  obtain rfl := Fin.ext hval
  rw [hl] at hl'
  cases hl'
  exact hown

section

variable (hb : Behind t) (hslot : slot id = some i) (hl : t.listeners i = some l) (hown : l.ownerPid = pid)
include hb hslot hl hown

theorem OnlyOf.accept
    : OnlyOf pid t (t.accept id).2 := by
  unfold Tables.accept
  simp only [hslot, hl]
  split
  · exact .refl t
  · rename_i cid rest _
    have hqueue : OnlyOf pid t (t.setListener i (some { l with queue := rest })) := .setListener hl hown _
    split
    · exact hqueue
    · rename_i c hc
      obtain ⟨hc, hwaits⟩ := filter_eq_some_iff.mp hc
      have hk : c.listener = some i.val := by
        simp only [TcpConn.waitsAt, Bool.and_eq_true, decide_eq_true_eq] at hwaits
        exact hwaits.1
      have hmine : c.ownerPid = pid := (hb.owner hl hc hk).trans hown
      refine hqueue.trans (OnlyOf.setConn ?_ hmine _)
      exact hc

theorem OnlyOf.closeListener
    : OnlyOf pid t (t.closeListener id).2 := by
  unfold Tables.closeListener
  simp only [hslot, hl]
  refine ⟨fun j => ?_, (OnlyOf.setListener hl hown none).listeners⟩
  cases hc : t.conns j with
  | none => exact .inl (by simp [hc])
  | some c =>
    by_cases hk : c.listener = some i.val
    · exact .inr ⟨c, rfl, (hb.owner hl hc hk).trans hown⟩
    · exact .inl (by simp [hc, Option.filter, hk])

end

end

end

end Tcp
