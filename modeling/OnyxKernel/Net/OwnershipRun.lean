import OnyxKernel.Net.Ownership
import OnyxKernel.Net.Tcp.Owners

/-!
# Sockets stay with their process

What a request of a process may reach, over all runs of requests and traffic. The wait of `tcp_connect`
is the one place where a slot is used by its number after other code has run; the runs looked at are those in
which the slot is not freed under it.
-/

namespace Net

open Infra Onyx Function Tcp Option Tables

/-! ## Slots and their owners -/

/-- A slot of one of the three tables. -/
inductive Ref
  | conn (i : Fin 8)
  | listener (i : Fin 8)
  | udp (i : Fin 8)
  deriving DecidableEq, Repr

def Request.creates : Request → Bool
  | tcpConnect .. => true
  | listen .. => true
  | bindUdp .. => true
  | _ => false

def Request.target : Request → Option Ref
  | tcpSend id .. => (slot id).map .conn
  | tcpRecv id .. => (slot id).map .conn
  | tcpClose id .. => (slot id).map .conn
  | accept id => (slot id).map .listener
  | closeListener id => (slot id).map .listener
  | udpRecv id .. => (slot id).map .udp
  | udpSend id .. => (slot id).map .udp
  | udpClose id => (slot id).map .udp
  | _ => none

namespace Sockets

/-- `owner_pid` of what stands in a slot. -/
def owner (s : Sockets) : Ref → Option Nat
  | .conn i => (s.tcp.conns i).map (·.ownerPid)
  | .listener i => (s.tcp.listeners i).map (·.ownerPid)
  | .udp i => (s.udp i).map (·.ownerPid)

def holder (s : Sockets) : Ref → Option Life
  | .conn i => (s.tcp.conns i).map (·.holder)
  | .listener i => (s.tcp.listeners i).map (·.holder)
  | .udp i => (s.udp i).map (·.holder)

/-- The slot has `pid` as its owner and was made for the process that has this number now. -/
def Belongs (s : Sockets) (pid : Nat) (ref : Ref) : Prop := s.owner ref = some pid ∧ s.holder ref = some (s.life pid)

/-- Nothing in the slot changes from `s` to `u`. -/
def Same (s u : Sockets) : Ref → Prop
  | .conn i => u.tcp.conns i = s.tcp.conns i
  | .listener i => u.tcp.listeners i = s.tcp.listeners i
  | .udp i => u.udp i = s.udp i

def undisturbed (s : Sockets) : Action → Bool
  | .segment _ now | .sweep now | .tick now =>
    s.connecting.all fun waiting => (s.tcp.conns waiting.2).all fun c => !c.expired now
  | _ => true

/-! ## The invariant -/

/-- Whoever is noted as the owner of a socket is the process that it was made for. -/
structure Kept (s : Sockets) : Prop where
  conns : ∀ i c, s.tcp.conns i = some c → c.ownerPid ≠ 0 → c.holder = s.life c.ownerPid
  listeners : ∀ k l, s.tcp.listeners k = some l → l.ownerPid ≠ 0 ∧ l.holder = s.life l.ownerPid
  behind : Behind s.tcp
  udp : ∀ i u, s.udp i = some u → u.ownerPid ≠ 0 → u.holder = s.life u.ownerPid
  waiting : ∀ pid cid, s.connecting = some (pid, cid) → pid ≠ 0 ∧
    ∃ c, s.tcp.conns cid = some c ∧ c.holder = s.life pid ∧ c.listener = none ∧ c.state ≠ .synReceived

section

variable {s : Sockets} {pid : Nat} {r : Request} {id : Nat}

theorem Kept.boot : Kept boot where
  conns _ _ h := nomatch h
  listeners _ _ h := nomatch h
  behind _ _ _ h := nomatch h
  udp _ _ h := nomatch h
  waiting _ _ h := nomatch h

theorem Kept.evolves (h : Kept s) {t : Tables} (he : Evolves s.tcp t)
    (hw : ∀ pid cid, s.connecting = some (pid, cid) → Stays s.tcp t cid) :
    Kept { s with tcp := t } where
  conns i c' hc' hne := by
    rcases he.conns i c' hc' with ⟨c, hc, hown, hhold, -⟩ | ⟨k, l, hl, hown, hhold, -⟩
    · rw [hown] at hne ⊢
      exact hhold.trans (h.conns i c hc hne)
    · rw [hown]
      exact hhold.trans (h.listeners k l hl).2
  listeners k l' hl' := by
    obtain ⟨l, hl, htag⟩ := he.listeners k l' hl'
    obtain ⟨hown, hhold⟩ := Listener.tag_eq htag
    rw [hown, hhold]
    exact h.listeners k l hl
  behind := he.behind h.behind
  udp := h.udp
  waiting pid cid hpc := by
    obtain ⟨hne, c, hc, hhold, hlis, hs⟩ := h.waiting pid cid hpc
    obtain ⟨c', hc', htag, hs'⟩ := hw pid cid hpc c hc hs
    obtain ⟨-, hhold', hlis'⟩ := tag_eq htag
    exact ⟨hne, c', hc', hhold'.trans hhold, hlis'.trans hlis, hs'⟩

theorem Kept.udpTable (h : Kept s) {t : Udp.Table}
    (ht : ∀ i u', t i = some u' → ∃ u, s.udp i = some u ∧ u'.ownerPid = u.ownerPid ∧ u'.holder = u.holder) :
    Kept { s with udp := t } where
  conns := h.conns
  listeners := h.listeners
  behind := h.behind
  udp i u' hu' hne := by
    obtain ⟨u, hu, hown, hhold⟩ := ht i u' hu'
    rw [hown] at hne ⊢
    exact hhold.trans (h.udp i u hu hne)
  waiting := h.waiting

/-! ## New sockets -/

theorem tcpConnect_cases (s : Sockets) (pid : Nat) (route : Option Nat) (ip : Ip) (port : UInt16)
    (now : UInt64) : ∃ next,
    (∃ e, s.tcpConnect pid route ip port now = (.error e, { s with tcp := { s.tcp with nextPort := next } })) ∨
    ∃ cid c, s.tcp.conns cid = none ∧ c.ownerPid = 0 ∧ c.holder = s.life pid ∧ c.listener = none ∧
      c.state = .synSent ∧
      s.tcpConnect pid route ip port now = (.ok .done,
        { s with
          tcp := setConn { s.tcp with nextPort := next } cid (some c)
          connecting := some (pid, cid) }) := by
  unfold tcpConnect tcpConnectStart
  cases hfree : s.tcp.allocConn with
  | none => exact ⟨s.tcp.nextPort, .inl ⟨.busy, rfl⟩⟩
  | some cid =>
    refine ⟨s.tcp.allocLocalPort.2.nextPort, ?_⟩
    cases route with
    | none => exact .inl ⟨.io, rfl⟩
    | some iface =>
      have hnone := List.find?_some hfree
      refine .inr ⟨cid, { opening iface s.tcp.allocLocalPort.1 ip port now with holder := s.life pid },
        isNone_iff_eq_none.mp hnone, rfl, rfl, rfl, rfl, ?_⟩
      simp [setConn, allocLocalPort]

theorem listen_cases (s : Sockets) (pid : Nat) (port : UInt16) :
    (∃ e, s.listen pid port = (.error e, s)) ∨
    ∃ i l, s.tcp.listeners i = none ∧ l.ownerPid = pid ∧ l.holder = s.life pid ∧
      s.listen pid port = (.ok (.number i.val), { s with tcp := s.tcp.setListener i (some l) }) := by
  unfold listen Tables.listen
  split_ifs
  · exact .inl ⟨.inval, rfl⟩
  · exact .inl ⟨.busy, rfl⟩
  · cases hfree : (List.finRange 8).find? fun i => (s.tcp.listeners i).isNone with
    | none => exact .inl ⟨.busy, rfl⟩
    | some i =>
      have hnone := List.find?_some hfree
      refine .inr ⟨i, ⟨pid, port, [], s.life pid⟩, isNone_iff_eq_none.mp hnone, rfl, rfl, ?_⟩
      simp [setListener]

theorem bindUdp_cases (s : Sockets) (pid : Nat) (port : UInt16) :
    (∃ e, s.bindUdp pid port = (.error e, s)) ∨
    ∃ i u, s.udp i = none ∧ u.ownerPid = pid ∧ u.holder = s.life pid ∧
      s.bindUdp pid port = (.ok (.number i.val), { s with udp := update s.udp i (some u) }) := by
  unfold bindUdp Udp.Table.udpBindAny
  split_ifs
  · exact .inl ⟨.busy, rfl⟩
  · cases hfree : (List.finRange 8).find? fun i => (s.udp i).isNone with
    | none => exact .inl ⟨.busy, rfl⟩
    | some i =>
      have hnone := List.find?_some hfree
      let made : Udp.UdpSocket :=
        { ownerPid := pid, iface := none, localPort := port, remoteIp := 0, remotePort := 0, bound := true,
          connected := false, datagrams := .empty, holder := s.life pid }
      refine .inr ⟨i, made, isNone_iff_eq_none.mp hnone, rfl, rfl, ?_⟩
      simp [made]

/-- A connection that waits behind no listener is put into a slot. -/
theorem Kept.place (h : Kept s) {cid : Fin 8} {c : TcpConn} (hown : c.ownerPid ≠ 0 → c.holder = s.life c.ownerPid)
    (hlis : c.listener = none) (next : UInt16) {connecting : Option (Nat × Fin 8)}
    (hw : ∀ p j, connecting = some (p, j) → p ≠ 0 ∧
      j = cid ∧ c.holder = s.life p ∧ c.state ≠ .synReceived) :
    Kept { s with tcp := setConn { s.tcp with nextPort := next } cid (some c), connecting } := by
  have hconns : ∀ {i c'}, (setConn { s.tcp with nextPort := next } cid (some c)).conns i = some c' →
      c' = c ∨ s.tcp.conns i = some c' := by
    intro i c' hc'
    by_cases hi : i = cid
    · subst hi
      exact .inl (by simpa [setConn] using hc'.symm)
    · exact .inr (by simpa [setConn, hi] using hc')
  refine ⟨fun i c' hc' hne => ?_, h.listeners, fun i c' k hc' hk => ?_, h.udp, fun p j hp => ?_⟩
  · rcases hconns hc' with rfl | hc'
    · exact hown hne
    · exact h.conns i c' hc' hne
  · rcases hconns hc' with rfl | hc'
    · rw [hlis] at hk
      cases hk
    · exact h.behind i c' k hc' hk
  · obtain ⟨hpid, rfl, hhold, hs⟩ := hw p j hp
    exact ⟨hpid, c, by simp [setConn], hhold, hlis, hs⟩

theorem Kept.tcpConnect (h : Kept s) (hpid : pid ≠ 0) (route : Option Nat) (ip : Ip)
    (port : UInt16) (now : UInt64) : Kept (s.tcpConnect pid route ip port now).2 := by
  obtain ⟨next, ⟨e, heq⟩ | ⟨cid, c, hfree, hown, hhold, hlis, hs, heq⟩⟩ :=
    tcpConnect_cases s pid route ip port now
  · rw [heq]
    exact { h with behind := h.behind }
  · rw [heq]
    refine h.place (fun hne => absurd hown hne) hlis next fun p j hp => ?_
    cases hp
    exact ⟨hpid, rfl, hhold, by simp [hs]⟩

theorem Kept.listen (h : Kept s) (hpid : pid ≠ 0) (port : UInt16) : Kept (s.listen pid port).2 := by
  obtain ⟨e, heq⟩ | ⟨i, l, hfree, hown, hhold, heq⟩ := listen_cases s pid port
  · rw [heq]
    exact h
  · rw [heq]
    refine ⟨h.conns, fun k l' hl' => ?_, fun j c k hc hk => ?_, h.udp, h.waiting⟩
    · by_cases hki : k = i
      · subst hki
        obtain rfl : l = l' := by simpa [setListener] using hl'
        rw [hown]
        exact ⟨hpid, hhold⟩
      · exact h.listeners k l' (by simpa [setListener, hki] using hl')
    · obtain ⟨k', l', hval, hl', hown', hhold'⟩ := h.behind j c k hc hk
      have hki : k' ≠ i := by
        rintro rfl
        rw [hfree] at hl'
        cases hl'
      exact ⟨k', l', hval, by simpa [setListener, hki] using hl', hown', hhold'⟩

theorem Kept.bindUdp (h : Kept s) (port : UInt16) : Kept (s.bindUdp pid port).2 := by
  obtain ⟨e, heq⟩ | ⟨i, u, hfree, hown, hhold, heq⟩ := bindUdp_cases s pid port
  · rw [heq]
    exact h
  · rw [heq]
    refine { h with udp := fun j u' hu' hne => ?_ }
    by_cases hj : j = i
    · subst hj
      obtain rfl : u = u' := by simpa using hu'
      rw [hown]
      exact hhold
    · exact h.udp j u' (by simpa [hj] using hu') hne

/-! ## Requests on a socket -/

theorem owned_cases (s : Sockets) (found : Option Nat) (pid : Nat) (op : Except Errno Reply × Sockets) :
    (found = some pid ∧ s.owned found pid op = op) ∨ ∃ e, s.owned found pid op = (.error e, s) := by
  unfold owned
  split
  · exact .inr ⟨.inval, rfl⟩
  · split
    · rename_i heq
      exact .inl ⟨by rw [heq], rfl⟩
    · exact .inr ⟨.perm, rfl⟩

theorem slot_owner {β : Type} {table : Fin 8 → Option β} {f : β → Nat}
    (h : ((slot id).bind table).map f = some pid) :
    ∃ i x, slot id = some i ∧ table i = some x ∧ f x = pid := by
  obtain ⟨x, hx, hpid⟩ := map_eq_some_iff.mp h
  obtain ⟨i, hslot, hi⟩ := bind_eq_some_iff.mp hx
  exact ⟨i, x, hslot, hi, hpid⟩

/-- What a request on a socket of `pid` does: to the TCP tables, or to one UDP socket. -/
def Serves (s : Sockets) (pid : Nat) (u : Sockets) : Prop :=
  (∃ t, u = { s with tcp := t } ∧ Evolves s.tcp t ∧ OnlyOf pid s.tcp t) ∨
    ∃ i v o, s.udp i = some v ∧ v.ownerPid = pid ∧
      (∀ v', o = some v' → v'.ownerPid = pid ∧ v'.holder = v.holder) ∧
      u = { s with udp := update s.udp i o }

/-- The request fails and changes nothing, or it is served on a socket of `pid`. -/
def Served (s : Sockets) (pid : Nat) (r : Request) : Prop :=
  (∃ e, s.serve pid r = (.error e, s)) ∨
    ∃ ref, r.target = some ref ∧ s.owner ref = some pid ∧ Serves s pid (s.serve pid r).2

theorem serve_owned {β : Type} {table : Fin 8 → Option β} {f : β → Nat}
    {op : Except Errno Reply × Sockets} (ref : Fin 8 → Ref) (htarget : r.target = (slot id).map ref)
    (howner : ∀ i, s.owner (ref i) = (table i).map f)
    (hserve : s.serve pid r = s.owned (((slot id).bind table).map f) pid op)
    (hop : ∀ i x, slot id = some i → table i = some x → f x = pid → Serves s pid op.2) : Served s pid r := by
  rw [Served, hserve]
  obtain ⟨hown, heq⟩ | hrefused := owned_cases s _ pid op
  · obtain ⟨i, x, hslot, hx, hpid⟩ := slot_owner hown
    rw [heq]
    exact .inr ⟨ref i, by rw [htarget, hslot]; rfl, by rw [howner, hx, map_some, hpid], hop i x hslot hx hpid⟩
  · exact .inl hrefused

theorem serve_cases (h : Behind s.tcp) (pid : Nat) (hold : r.creates = false) : Served s pid r := by
  cases r with
  | tcpConnect | listen | bindUdp => cases hold
  | tcpSend id data now =>
    exact serve_owned .conn rfl (fun _ => rfl) rfl fun i c hslot hc hpid =>
      .inl ⟨_, rfl, .send id data now, .send hslot hc hpid data now⟩
  | tcpRecv id size =>
    exact serve_owned .conn rfl (fun _ => rfl) rfl fun i c hslot hc hpid =>
      .inl ⟨_, rfl, .recv id size, .recv hslot hc hpid size⟩
  | tcpClose id now =>
    exact serve_owned .conn rfl (fun _ => rfl) rfl fun i c hslot hc hpid =>
      .inl ⟨_, rfl, .close id now, .close hslot hc hpid now⟩
  | accept id =>
    exact serve_owned .listener rfl (fun _ => rfl) rfl fun i l hslot hl hpid =>
      .inl ⟨_, rfl, .accept id, .accept h hslot hl hpid⟩
  | closeListener id =>
    exact serve_owned .listener rfl (fun _ => rfl) rfl fun i l hslot hl hpid =>
      .inl ⟨_, rfl, .closeListener id, .closeListener h hslot hl hpid⟩
  | udpRecv id size =>
    refine serve_owned .udp rfl (fun _ => rfl) rfl fun i u hslot hu hpid => .inr ?_
    unfold udpRecv Udp.Table.udpRecvFrom
    simp only [hslot, hu]
    split
    · refine ⟨i, u, some u, hu, hpid, fun u' hu' => ?_, ?_⟩
      · cases hu'
        exact ⟨hpid, rfl⟩
      · rw [← hu, update_eq_self]
    · refine ⟨i, u, _, hu, hpid, fun u' hu' => ?_, rfl⟩
      cases hu'
      exact ⟨hpid, rfl⟩
  | udpSend id route data =>
    exact serve_owned .udp rfl (fun _ => rfl) rfl fun i u hslot hu hpid => .inl ⟨s.tcp, rfl, .refl _, .refl _⟩
  | udpClose id =>
    refine serve_owned .udp rfl (fun _ => rfl) rfl fun i u hslot hu hpid =>
      .inr ⟨i, u, none, hu, hpid, (fun _ h => nomatch h), ?_⟩
    simp [Sockets.udpClose, Udp.Table.udpClose, hslot]

theorem Kept.serve (h : Kept s) (hpid : pid ≠ 0) (hidle : s.connecting = none) (r : Request) :
    Kept (s.serve pid r).2 := by
  cases hold : r.creates with
  | true =>
    cases r with
    | tcpConnect route ip port now => exact h.tcpConnect hpid route ip port now
    | listen port => exact h.listen hpid port
    | bindUdp port => exact h.bindUdp port
    | _ => cases hold
  | false =>
    obtain ⟨e, heq⟩ | ⟨_, -, -, ⟨t, heq, hev, -⟩ | ⟨i, u, o, hu, hown, ho, heq⟩⟩ :=
      serve_cases h.behind pid hold
    · rw [heq]
      exact h
    · rw [heq]
      refine h.evolves hev fun _ _ hw => ?_
      rw [hidle] at hw
      cases hw
    · rw [heq]
      refine h.udpTable fun j u' hu' => ?_
      by_cases hj : j = i
      · subst hj
        obtain ⟨hown', hhold⟩ := ho u' (by simpa using hu')
        exact ⟨u, hu, hown'.trans hown.symm, hhold⟩
      · exact ⟨u', by simpa [hj] using hu', rfl, rfl⟩

theorem Kept.request (h : Kept s) (r : Request) (ref : Ref) :
    Same s (s.serve pid r).2 ref ∨ s.owner ref = some pid ∨
      s.owner ref = none ∧ (s.serve pid r).2.holder ref = some (s.life pid) := by
  cases hold : r.creates with
  | true =>
    cases r with simp only [Sockets.serve]
    | tcpConnect route ip port now =>
      obtain ⟨next, ⟨e, heq⟩ | ⟨cid, c, hfree, hown, hhold, hlis, hs, heq⟩⟩ :=
        tcpConnect_cases s pid route ip port now <;> rw [heq]
      · cases ref <;> exact .inl rfl
      · cases ref with
        | conn i =>
          by_cases hi : i = cid
          · subst hi
            exact .inr (.inr ⟨by simp [owner, hfree], by simp [holder, setConn, hhold]⟩)
          · exact .inl (by simp [Same, setConn, hi])
        | listener | udp => exact .inl rfl
    | listen port =>
      obtain ⟨e, heq⟩ | ⟨k, l, hfree, hown, hhold, heq⟩ := listen_cases s pid port <;> rw [heq]
      · cases ref <;> exact .inl rfl
      · cases ref with
        | conn => exact .inl rfl
        | listener i =>
          by_cases hi : i = k
          · subst hi
            exact .inr (.inr ⟨by simp [owner, hfree], by simp [holder, setListener, hhold]⟩)
          · exact .inl (by simp [Same, setListener, hi])
        | udp => exact .inl rfl
    | bindUdp port =>
      obtain ⟨e, heq⟩ | ⟨k, u, hfree, hown, hhold, heq⟩ := bindUdp_cases s pid port <;> rw [heq]
      · cases ref <;> exact .inl rfl
      · cases ref with
        | conn | listener => exact .inl rfl
        | udp i =>
          by_cases hi : i = k
          · subst hi
            exact .inr (.inr ⟨by simp [owner, hfree], by simp [holder, hhold]⟩)
          · exact .inl (by simp [Same, hi])
    | _ => cases hold
  | false =>
    obtain ⟨e, heq⟩ | ⟨_, -, -, ⟨t, heq, -, honly⟩ | ⟨k, u, o, hu, hown, -, heq⟩⟩ :=
      serve_cases h.behind pid hold <;> rw [heq]
    · cases ref <;> exact .inl rfl
    · cases ref with
      | conn i =>
        refine (honly.conns i).imp_right ?_
        rintro ⟨c, hc, hown⟩
        exact .inl (by simp [owner, hc, hown])
      | listener i =>
        refine (honly.listeners i).imp_right ?_
        rintro ⟨l, hl, hown⟩
        exact .inl (by simp [owner, hl, hown])
      | udp => exact .inl rfl
    · cases ref with
      | conn | listener => exact .inl rfl
      | udp i =>
        by_cases hi : i = k
        · subst hi
          exact .inr (.inl (by simp [owner, hu, hown]))
        · exact .inl (by simp [Same, hi])

/-! ## The end of a process -/

theorem closeOwn_spec {t : Tables} (hb : Behind t) (pid : Nat) (i : Fin 8) :
    let t' := if (t.listeners i).any (·.ownerPid = pid) then (t.closeListener i).2 else t
    Evolves t t' ∧ OnlyOf pid t t' ∧ ∀ l, t'.listeners i = some l → l.ownerPid ≠ pid := by
  have hslot : slot i.val = some i := by simp [slot]
  split
  · rename_i hany
    simp only [any_eq_true, decide_eq_true_eq] at hany
    obtain ⟨l, hl, hown⟩ := hany
    refine ⟨.closeListener i.val, .closeListener hb hslot hl hown, fun l' hl' => ?_⟩
    simp [Tables.closeListener, hslot, hl, Tables.setListener] at hl'
  · rename_i hany
    refine ⟨.refl t, .refl t, fun l hl hown => hany ?_⟩
    simp [hl, hown]

theorem closeListeners_spec (pid : Nat) : ∀ (is : List (Fin 8)) {t : Tables}, Behind t →
    Evolves t (closeListeners pid is t) ∧ OnlyOf pid t (closeListeners pid is t) ∧
      ∀ i ∈ is, ∀ l, (closeListeners pid is t).listeners i = some l → l.ownerPid ≠ pid
  | [], t, _ => ⟨.refl t, .refl t, fun _ h => nomatch h⟩
  | i :: is, t, hb => by
    obtain ⟨hev, honly, hgone⟩ := closeOwn_spec hb pid i
    obtain ⟨hev', honly', hgone'⟩ := closeListeners_spec pid is (hev.behind hb)
    refine ⟨hev.trans hev', honly.trans honly', fun j hj l hl => ?_⟩
    rcases List.mem_cons.mp hj with rfl | hj
    · -- What is left in the slot was there after its own round.
      obtain ⟨l₀, hl₀, htag⟩ := hev'.listeners j l hl
      rw [(Listener.tag_eq htag).1]
      exact hgone l₀ hl₀
    · exact hgone' j hj l hl

theorem abandon_some {c c' : TcpConn} (h : abandon pid c = some c') :
    (c.ownerPid ≠ pid ∧ c' = c) ∨ (c.ownerPid = pid ∧ c' = { c with ownerPid := 0 }) := by
  unfold abandon at h
  split at h
  · rename_i hne
    cases h
    exact .inl ⟨hne, rfl⟩
  · rename_i hown
    split at h
    · cases h
      exact .inr ⟨not_not.mp hown, rfl⟩
    · cases h

theorem life_update {p : Nat} (h : p ≠ pid) (n : Nat) :
    Sockets.life { s with lives := update s.lives pid n } p = s.life p := by
  simp [life, h]

theorem Kept.closeProcess (h : Kept s) (hidle : s.connecting = none) (pid : Nat) : Kept (s.closeProcess pid) := by
  obtain ⟨hev, -, hgone⟩ := closeListeners_spec pid (List.finRange 8) h.behind
  have hgone : ∀ i l, (closeListeners pid (List.finRange 8) s.tcp).listeners i = some l →
      l.ownerPid ≠ pid := fun i => hgone i (List.mem_finRange i)
  have hkept : Kept { s with tcp := closeListeners pid (List.finRange 8) s.tcp } := by
    refine h.evolves hev fun _ _ hw => ?_
    rw [hidle] at hw
    cases hw
  have hother : ∀ {p}, p ≠ pid → (s.closeProcess pid).life p = s.life p := fun hp => life_update hp _
  refine ⟨fun i c' hc' hne => ?_, fun k l hl => ?_,
    fun i c' k hc' hk => ?_, fun i u hu hne => ?_, fun p cid hw => ?_⟩
  · obtain ⟨c, hc, habandon⟩ := bind_eq_some_iff.mp hc'
    obtain ⟨hown, rfl⟩ | ⟨-, rfl⟩ := abandon_some habandon
    · rw [hother hown]
      exact hkept.conns i c' hc hne
    · exact absurd rfl hne
  · rw [hother (hgone k l hl)]
    exact hkept.listeners k l hl
  · obtain ⟨c, hc, habandon⟩ := bind_eq_some_iff.mp hc'
    obtain ⟨hown, rfl⟩ | ⟨hown, rfl⟩ := abandon_some habandon
    · exact hkept.behind i c' k hc hk
    · -- It would wait behind a listener of the process, and those are closed.
      obtain ⟨j, l, -, hl, hsame, -⟩ := hkept.behind i c k hc hk
      exact absurd (hsame.symm.trans hown) (hgone j l hl)
  · obtain ⟨hu, hown⟩ := filter_eq_some_iff.mp hu
    rw [hother (of_decide_eq_true hown)]
    exact h.udp i u hu hne
  · have hw : s.connecting = some (p, cid) := hw
    rw [hidle] at hw
    cases hw

theorem Kept.closed (h : Kept s) (hpid : pid ≠ 0) (ref : Ref) :
    (s.closeProcess pid).owner ref ≠ some pid ∧
      (Same s (s.closeProcess pid) ref ∨ s.owner ref = some pid) := by
  obtain ⟨-, honly, hgone⟩ := closeListeners_spec pid (List.finRange 8) h.behind
  cases ref with
  | conn i =>
    refine ⟨fun hown => ?_, ?_⟩
    · obtain ⟨c', hc', hown⟩ := map_eq_some_iff.mp hown
      obtain ⟨c, -, habandon⟩ := bind_eq_some_iff.mp hc'
      obtain ⟨hne, rfl⟩ | ⟨-, rfl⟩ := abandon_some habandon
      · exact hne hown
      · exact hpid hown.symm
    · rcases honly.conns i with heq | ⟨c, hc, hown⟩
      · cases hc : s.tcp.conns i with
        | none => exact .inl (by simp [Same, Sockets.closeProcess, heq, hc])
        | some c =>
          by_cases hown : c.ownerPid = pid
          · exact .inr (by simp [owner, hc, hown])
          · exact .inl (by simp [Same, Sockets.closeProcess, heq, hc, abandon, hown])
      · exact .inr (by simp [owner, hc, hown])
  | listener k =>
    refine ⟨fun hown => ?_, ?_⟩
    · obtain ⟨l, hl, hown⟩ := map_eq_some_iff.mp hown
      exact hgone k (List.mem_finRange k) l hl hown
    · exact (honly.listeners k).imp_right fun ⟨l, hl, hown⟩ => by simp [owner, hl, hown]
  | udp i =>
    refine ⟨fun hown => ?_, ?_⟩
    · obtain ⟨u, hu, hown⟩ := map_eq_some_iff.mp hown
      exact of_decide_eq_true (filter_eq_some_iff.mp hu).2 hown
    · cases hu : s.udp i with
      | none => exact .inl (by simp [Same, Sockets.closeProcess, hu])
      | some u =>
        by_cases hown : u.ownerPid = pid
        · exact .inr (by simp [owner, hu, hown])
        · exact .inl (by simp [Same, Sockets.closeProcess, hu, hown])

/-! ## The end of a connect -/

variable {cid : Fin 8}

theorem Kept.connectDone (h : Kept s) (hw : s.connecting = some (pid, cid)) : Kept (s.connectDone pid cid) := by
  obtain ⟨-, c, hc, hhold, hlis, -⟩ := h.waiting pid cid hw
  unfold Sockets.connectDone
  rw [hc]
  exact h.place (c := { c with ownerPid := pid }) (fun _ => hhold) hlis s.tcp.nextPort nofun

theorem Kept.connectFail (h : Kept s) (cid : Fin 8) : Kept (s.connectFail cid) := by
  have hfree : Kept { s with connecting := none } := { h with waiting := fun _ _ hw => nomatch hw }
  exact hfree.evolves (.set_none cid) fun _ _ hw => nomatch hw

/-! ## Traffic -/

theorem Kept.handleUdp (h : Kept s) (d : Udp.Incoming) : Kept { s with udp := s.udp.handleUdp d } := by
  unfold Udp.Table.handleUdp
  split
  · exact h
  · rename_i j _
    refine h.udpTable fun i u' hu' => ?_
    by_cases hi : i = j
    · subst hi
      rw [update_self] at hu'
      obtain ⟨u, hu, rfl⟩ := map_eq_some_iff.mp hu'
      exact ⟨u, hu, rfl, rfl⟩
    · exact ⟨u', by simpa [hi] using hu', rfl, rfl⟩

theorem not_expired {now : UInt64} (hw : s.connecting = some (pid, cid))
    (h : (s.connecting.all fun waiting => (s.tcp.conns waiting.2).all fun c => !c.expired now) = true) :
    ∀ c, s.tcp.conns cid = some c → c.expired now = false := by
  intro c hc
  simpa [hw, hc] using h

/-! ## Runs -/

variable {u : Sockets}

theorem step_request (h : s.step (.request pid r) = some u) :
    pid ≠ 0 ∧ s.connecting = none ∧ u = (s.serve pid r).2 := by
  simp only [step, ite_none_right_eq_some, some.injEq] at h
  exact ⟨h.1.1, h.1.2, h.2.symm⟩

theorem step_closeProcess (h : s.step (.closeProcess pid) = some u) :
    pid ≠ 0 ∧ s.connecting = none ∧ u = s.closeProcess pid := by
  simp only [step, ite_none_right_eq_some, some.injEq] at h
  exact ⟨h.1.1, h.1.2, h.2.symm⟩

theorem step_connectDone (h : s.step .connectDone = some u) :
    ∃ pid cid, s.connecting = some (pid, cid) ∧ u = s.connectDone pid cid := by
  simp only [step] at h
  split at h
  · cases h
  · rename_i pid cid hw
    simp only [ite_none_right_eq_some, some.injEq] at h
    exact ⟨pid, cid, hw, h.2.symm⟩

theorem step_connectFail (h : s.step .connectFail = some u) :
    ∃ pid cid, s.connecting = some (pid, cid) ∧ u = s.connectFail cid := by
  simp only [step] at h
  split at h
  · cases h
  · rename_i pid cid hw
    cases h
    exact ⟨pid, cid, hw, rfl⟩

theorem Kept.step {a : Action} (h : Kept s) (hok : s.undisturbed a = true) (hstep : s.step a = some u) : Kept u := by
  cases a with
  | request pid r =>
    obtain ⟨hpid, hidle, rfl⟩ := step_request hstep
    exact h.serve hpid hidle r
  | connectDone =>
    obtain ⟨pid, cid, hw, rfl⟩ := step_connectDone hstep
    exact h.connectDone hw
  | connectFail =>
    obtain ⟨-, cid, -, rfl⟩ := step_connectFail hstep
    exact h.connectFail cid
  | closeProcess pid =>
    obtain ⟨-, hidle, rfl⟩ := step_closeProcess hstep
    exact h.closeProcess hidle pid
  | segment g now =>
    cases hstep
    exact h.evolves (.handleTcp g now) fun _ _ hw => .handleTcp g (not_expired hw hok)
  | datagram d =>
    cases hstep
    exact h.handleUdp d
  | sweep now =>
    cases hstep
    exact h.evolves (.sweep now) fun _ _ hw => .sweep (not_expired hw hok)
  | tick now =>
    cases hstep
    exact h.evolves (Evolves.trans (.sweep now) (.retryTick now)) fun _ _ hw =>
      (Stays.sweep (not_expired hw hok)).trans (.retryTick now)

theorem Kept.held (h : Kept s) {ref : Ref} (hpid : pid ≠ 0) (hown : s.owner ref = some pid) : s.Belongs pid ref := by
  refine ⟨hown, ?_⟩
  cases ref with
  | conn i =>
    obtain ⟨c, hc, rfl⟩ := map_eq_some_iff.mp hown
    simp [holder, hc, h.conns i c hc hpid]
  | listener k =>
    obtain ⟨l, hl, rfl⟩ := map_eq_some_iff.mp hown
    simp [holder, hl, (h.listeners k l hl).2]
  | udp i =>
    obtain ⟨u, hu, rfl⟩ := map_eq_some_iff.mp hown
    simp [holder, hu, h.udp i u hu hpid]

theorem accept_ok {j : Fin 8} (h : Kept s) (hok : (s.tcp.accept id).1 = .ok j)
    (hown : s.listenerOwner id = some pid) : (s.accept id).2.owner (.conn j) = some pid := by
  obtain ⟨i, l, hslot, hl, hpid⟩ := slot_owner hown
  unfold Sockets.accept
  unfold Tables.accept at hok ⊢
  simp only [hslot, hl] at hok ⊢
  split at hok
  · cases hok
  · rename_i cid rest hqueue
    split at hok
    · cases hok
    · rename_i c hfound
      cases hok
      obtain ⟨hc, hwaits⟩ := filter_eq_some_iff.mp hfound
      simp only [TcpConn.waitsAt, Bool.and_eq_true, decide_eq_true_eq] at hwaits
      have hmine : c.ownerPid = pid := (h.behind.owner hl hc hwaits.1).trans hpid
      simp [owner, setConn, hmine]

end

/-- What keeps the processes apart in a state. -/
structure Isolated (s : Sockets) : Prop where
  /-- A request changes sockets of the process that asks, and free slots, which it gets. -/
  request : ∀ pid r u, s.step (.request pid r) = some u → ∀ ref,
    Same s u ref ∨ s.Belongs pid ref ∨ s.owner ref = none ∧ u.holder ref = some (s.life pid)
  /-- A number that is not a socket of the process is refused. -/
  served : ∀ pid r u reply, s.step (.request pid r) = some u → r.creates = false →
    (s.serve pid r).1 = .ok reply → ∃ ref, r.target = some ref ∧ s.Belongs pid ref
  /-- An accepted connection has the owner of its listener. -/
  accepted : ∀ pid id u n, s.step (.request pid (.accept id)) = some u →
    (s.serve pid (.accept id)).1 = .ok (.number n) → ∃ cid, slot n = some cid ∧ u.Belongs pid (.conn cid)
  /-- The end of a connect works on the connection that the connect made. -/
  connected : ∀ pid cid u, s.connecting = some (pid, cid) →
    s.step .connectDone = some u ∨ s.step .connectFail = some u →
    s.holder (.conn cid) = some (s.life pid) ∧ ∀ ref, ref ≠ .conn cid → Same s u ref
  /-- A process that ends leaves nothing behind under its number. -/
  closed : ∀ pid u, s.step (.closeProcess pid) = some u → ∀ ref,
    u.owner ref ≠ some pid ∧ (Same s u ref ∨ s.Belongs pid ref)
  /-- A socket is never found under the number of a later process. -/
  held : ∀ ref pid, pid ≠ 0 → s.owner ref = some pid → s.Belongs pid ref

/-- Processes reach their own sockets only, in every run in which no slot is freed under a connect. -/
theorem sockets_isolated {s : Sockets} (h : machine.Reach (fun s a => s.undisturbed a = true) boot s) : Isolated s := by
  have hkept : Kept s := h.invariant .boot fun hkept hok hstep => hkept.step hok hstep
  refine ⟨fun pid r u hstep ref => ?_, fun pid r u reply hstep hold hok => ?_,
    fun pid id u n hstep hok => ?_, fun pid cid u hw hstep => ?_, fun pid u hstep ref => ?_,
    fun ref pid hpid hown => hkept.held hpid hown⟩
  · obtain ⟨hpid, hidle, rfl⟩ := step_request hstep
    rcases hkept.request r ref with hsame | hown | hfree
    · exact .inl hsame
    · exact .inr (.inl (hkept.held hpid hown))
    · exact .inr (.inr hfree)
  · obtain ⟨hpid, -, rfl⟩ := step_request hstep
    obtain ⟨e, heq⟩ | ⟨ref, htarget, hown, -⟩ := serve_cases hkept.behind pid hold
    · rw [heq] at hok
      cases hok
    · exact ⟨ref, htarget, hkept.held hpid hown⟩
  · obtain ⟨hpid, hidle, rfl⟩ := step_request hstep
    have hafter := hkept.serve hpid hidle (.accept id)
    obtain ⟨hown, heq⟩ | ⟨e, heq⟩ := owned_cases s (s.listenerOwner id) pid (s.accept id)
    · have hserve : s.serve pid (.accept id) = s.accept id := heq
      rw [hserve] at hok hafter ⊢
      cases hgot : (s.tcp.accept id).1 with
      | error e => simp [accept, hgot, Except.map] at hok
      | ok cid =>
        obtain rfl : cid.val = n := by simpa [accept, hgot, Except.map] using hok
        exact ⟨cid, by simp [slot], hafter.held hpid (accept_ok hkept hgot hown)⟩
    · have hserve : s.serve pid (.accept id) = (.error e, s) := heq
      rw [hserve] at hok
      cases hok
  · obtain ⟨-, c, hc, hhold, -⟩ := hkept.waiting pid cid hw
    refine ⟨by simp [holder, hc, hhold], fun ref href => ?_⟩
    -- Both ends of the wait write the slot and nothing else.
    have hset : ∃ o, u = { s with tcp := s.tcp.setConn cid o, connecting := none } := by
      rcases hstep with hdone | hfail
      · obtain ⟨p, j, hw', rfl⟩ := step_connectDone hdone
        obtain ⟨rfl, rfl⟩ := Prod.mk.inj (some.inj (hw.symm.trans hw'))
        exact ⟨_, rfl⟩
      · obtain ⟨p, j, hw', rfl⟩ := step_connectFail hfail
        obtain ⟨rfl, rfl⟩ := Prod.mk.inj (some.inj (hw.symm.trans hw'))
        exact ⟨none, rfl⟩
    obtain ⟨o, rfl⟩ := hset
    cases ref with
    | conn i =>
      have hi : i ≠ cid := fun heq => href (congrArg Ref.conn heq)
      simp [Same, setConn, hi]
    | listener | udp => rfl
  · obtain ⟨hpid, -, rfl⟩ := step_closeProcess hstep
    obtain ⟨hgone, hsame⟩ := hkept.closed hpid ref
    exact ⟨hgone, hsame.imp_right fun hown => hkept.held hpid hown⟩

/-- The condition is met by a connect that finds its peer next to a connection that is accepted, and by the
end of a process. -/
theorem sockets_isolated_accept :
    ∃ s, machine.Reach (fun s a => s.undisturbed a = true) boot s ∧ s.owner (.conn 0) = none ∧
      s.owner (.conn 1) = some 2 ∧ s.lives 1 = 1 ∧ Isolated s := by
  refine Machine.exists_reach_imp (P := fun s => s.owner (.conn 0) = none ∧ s.owner (.conn 1) = some 2 ∧
    s.lives 1 = 1)
    [.request 2 (.listen 80), .request 1 (.tcpConnect (some 0) 7 443 0),
      .segment ⟨0, 9, 1000, 80, 100, 0, 0x02, 2048, []⟩ 0,
      .segment ⟨0, 7, 443, 40000, 5000, 40002, 0x12, 2048, []⟩ 0, .connectDone,
      .segment ⟨0, 9, 1000, 80, 101, 2621545638, 0x10, 2048, [42]⟩ 0,
      .request 2 (.accept 0), .closeProcess 1] (by decide +kernel) ?_
  rintro s hrun ⟨hnone, hown, hlives⟩
  exact ⟨hnone, hown, hlives, sockets_isolated hrun⟩

/-- The peer of process 1 refuses its connect, the slot is freed after five seconds and taken by a
connection for the listener of process 2. The connect then finds it established and makes process 1
its owner, who reads what was sent to process 2; process 2 gets the number of it from `accept`. -/
theorem connect_takes_foreign_slot :
    ∃ s, machine.Reach Machine.always boot s ∧ s.owner (.conn 0) = some 1 ∧
      s.holder (.conn 0) = some (s.life 2) ∧ (s.serve 1 (.tcpRecv 0 8)).1.toOption = some (.bytes [42]) ∧
      (s.serve 2 (.accept 0)).1.toOption = some (.number 0) ∧
      (s.serve 2 (.accept 0)).2.owner (.conn 0) = some 1 :=
  Machine.exists_reach_of_play
    [.request 2 (.listen 80), .request 1 (.tcpConnect (some 0) 7 443 0),
      .segment ⟨0, 7, 443, 40000, 0, 40002, 0x14, 0, []⟩ 0, .sweep 5000000,
      .segment ⟨0, 9, 1000, 80, 100, 0, 0x02, 2048, []⟩ 5000000,
      .segment ⟨0, 9, 1000, 80, 101, 2621545638, 0x10, 2048, [42]⟩ 5000000, .connectDone] (by decide +kernel)

end Sockets

end Net
