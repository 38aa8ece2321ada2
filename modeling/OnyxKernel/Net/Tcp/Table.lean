import Mathlib.Data.List.FinRange
import OnyxKernel.Infra.Machine
import OnyxKernel.Net.Tcp.Conn

/-!
# The TCP tables

`CONNS`, `LISTENERS` and `NEXT_PORT`, and the calls of `net/tcp` on them. Every call holds the network
lock and writes the tables before it sends: sending may poll, so packets are handled in the middle of a
call, but after its last write. A call is therefore one step that returns the segments it sends, and the
packets handled meanwhile are the steps after it. Only `tcp_connect` writes again after a poll; it is
split in two. What `config::route` answers is an argument of it.
-/

namespace Tcp

open Infra Onyx Net

def backlog : Nat := 4

/-- `struct Listener`. -/
structure Listener where
  ownerPid : Nat
  port : UInt16
  queue : List (Fin 8)
  holder : Life
  deriving DecidableEq, Repr

/-- The statics of `net/tcp`; `MAX_CONNS` and `LISTENERS_MAX` are 8. -/
structure Tables where
  conns : Fin 8 → Option TcpConn
  listeners : Fin 8 → Option Listener
  nextPort : UInt16

def slot (id : Nat) : Option (Fin 8) := if h : id < 8 then some ⟨id, h⟩ else none

namespace Tables

def boot : Tables where
  conns := fun _ => none
  listeners := fun _ => none
  nextPort := 40000

variable (t : Tables)

def setConn (cid : Fin 8) (c : Option TcpConn) : Tables := { t with conns := Function.update t.conns cid c }

def setListener (i : Fin 8) (l : Option Listener) : Tables := { t with listeners := Function.update t.listeners i l }

/-! ## Allocation -/

def allocConn : Option (Fin 8) := (List.finRange 8).find? fun i => (t.conns i).isNone

def usesPort (port : UInt16) : Bool := (List.finRange 8).any fun i => (t.conns i).any (·.srcPort = port)

/-- The loop of `alloc_local_port`: the port, and `NEXT_PORT` afterwards. -/
def portLoop : Nat → UInt16 → UInt16 × UInt16
  | 0, next => (next, next)
  | k + 1, next => if t.usesPort next then portLoop k (next + 1) else (next, next + 1)

def allocLocalPort : UInt16 × Tables :=
  let (port, next) := t.portLoop 4096 t.nextPort
  (port, { t with nextPort := next })

/-! ## Maintenance -/

def sweepTimewait (now : UInt64) : Tables := { t with conns := fun i => (t.conns i).filter fun c => !c.expired now }

/-- `retry::tick`, when it is not running already. -/
def retryTick (now : UInt64) : Tables × List Segment :=
  ({ t with conns := fun i => (t.conns i).map fun c => (retry c now).1 },
    (List.finRange 8).filterMap fun i => (t.conns i).bind fun c => (retry c now).2)

def clearInterface (index : Nat) : Tables := { t with conns := fun i => (t.conns i).filter fun c => c.iface ≠ index }

/-! ## Socket calls -/

/-- The first part of `tcp_connect_inner`, up to the first SYN. -/
def tcpConnectStart (route : Option Nat) (dstIp : Ip) (port : UInt16) (now : UInt64) :
    Except Errno (Fin 8 × List Segment) × Tables :=
  match t.allocConn with
  | none => (.error .busy, t)
  | some cid =>
    let (srcPort, t) := t.allocLocalPort
    match route with
    | none => (.error .io, t)
    | some iface =>
      let c := opening iface srcPort dstIp port now
      (.ok (cid, [synSegment c c.sndUna syn]), t.setConn cid (some c))

/-- The wait loop of `tcp_connect_inner` sends the SYN again. -/
def tcpConnectAgain (cid : Fin 8) (isn : UInt32) : List Segment :=
  match t.conns cid with
  | none => []
  | some c => [synSegment c isn syn]

/-- The wait loop of `tcp_connect_inner` sees the connection. -/
def tcpConnected (cid : Fin 8) : Bool := (t.conns cid).any (·.state = .established)

/-- `tcp_connect_inner` gives up. -/
def tcpConnectFail (cid : Fin 8) : Tables := t.setConn cid none

def tcpSend (cid : Nat) (data : List UInt8) (now : UInt64) : Except Errno (List Segment × Nat) × Tables :=
  match slot cid with
  | none => (.error .inval, t)
  | some cid =>
    match t.conns cid with
    | none => (.error .inval, t)
    | some c =>
      match tcpSendInner c data now with
      | .error e => (.error e, t)
      | .ok (c, out, n) => (.ok (out, n), t.setConn cid (some c))

/-- `tcp_recv`, for a buffer of `size` bytes. -/
def tcpRecv (cid : Nat) (size : Nat) : Except Errno (List Segment × List UInt8) × Tables :=
  match slot cid with
  | none => (.error .inval, t)
  | some cid =>
    match t.conns cid with
    | none => (.error .inval, t)
    | some c =>
      match tcpRecvInner c size with
      | .error e => (.error e, t)
      | .ok (c, out, bytes) => (.ok (out, bytes), t.setConn cid (some c))

def tcpClose (cid : Nat) (now : UInt64) : List Segment × Tables :=
  match slot cid with
  | none => ([], t)
  | some cid =>
    match t.conns cid with
    | none => ([], t)
    | some c => ((tcpCloseInner c now).2, t.setConn cid (tcpCloseInner c now).1)

/-! ## Listeners -/

def listen (port : UInt16) : Except Errno (Fin 8) × Tables :=
  if port = 0 then (.error .inval, t)
  else if (List.finRange 8).any fun i => (t.listeners i).any (·.port = port) then (.error .busy, t)
  else
    match (List.finRange 8).find? fun i => (t.listeners i).isNone with
    | none => (.error .busy, t)
    | some i => (.ok i, t.setListener i (some ⟨0, port, [], ⟨0, 0⟩⟩))

def accept (index : Nat) : Except Errno (Fin 8) × Tables :=
  match slot index with
  | none => (.error .inval, t)
  | some i =>
    match t.listeners i with
    | none => (.error .inval, t)
    | some l =>
      match l.queue with
      | [] => (.error .noEnt, t)
      | cid :: rest =>
        let t' := t.setListener i (some { l with queue := rest })
        match (t.conns cid).filter (·.waitsAt i) with
        | none => (.error .noEnt, t')
        | some c => (.ok cid, t'.setConn cid (some { c with listener := none }))

/-- `listen::close`. -/
def closeListener (index : Nat) : Except Errno Unit × Tables :=
  match slot index with
  | none => (.error .inval, t)
  | some i =>
    match t.listeners i with
    | none => (.error .inval, t)
    | some _ =>
      (.ok (), { t.setListener i none with
        conns := fun cid => (t.conns cid).filter fun c => c.listener ≠ some i.val })

/-- The connections that wait for `accept` or for their handshake. -/
def pending (parent : Fin 8) : Nat :=
  ((List.finRange 8).filter fun i => (t.conns i).any (·.listener = some parent.val)).length

def incomingSyn (g : Incoming) (now : UInt64) : Tables × List Segment :=
  match (List.finRange 8).find? fun i => (t.listeners i).any (·.port = g.dstPort) with
  | none => (t, [])
  | some parent =>
    if backlog ≤ t.pending parent then (t, [])
    else
      match t.allocConn with
      | none => (t, [])
      | some cid =>
        let (port, t) := t.allocLocalPort
        let owner := ((t.listeners parent).map (·.ownerPid)).getD 0
        let holder := ((t.listeners parent).map (·.holder)).getD ⟨0, 0⟩
        let c := passive owner holder parent port g now
        (t.setConn cid (some c), [synSegment c c.sndUna (syn ||| ack)])

def established (cid : Fin 8) (parent : Option Nat) : Tables :=
  match parent.bind slot with
  | none => t.setConn cid none
  | some i =>
    match t.listeners i with
    | none => t.setConn cid none
    | some l =>
      if l.queue.length < backlog then t.setListener i (some { l with queue := l.queue ++ [cid] })
      else t.setConn cid none

/-! ## Segments -/

def connOf (g : Incoming) : Option (Fin 8) := (List.finRange 8).find? fun i => (t.conns i).any (·.answers g)

def deliver (cid : Fin 8) (c : TcpConn) (g : Incoming) (now : UInt64) : Tables × List Segment :=
  let (c', out) := handleSegment c g now
  let t := t.setConn cid (some c')
  (if completes c c' then t.established cid c'.listener else t, out)

/-- `handle_tcp_inner`, for a segment that is well formed and has a good checksum. -/
def handleTcp (g : Incoming) (now : UInt64) : Tables × List Segment :=
  let t := t.sweepTimewait now
  match t.connOf g with
  | some cid =>
    match t.conns cid with
    | some c => t.deliver cid c g now
    | none => (t, [])
  | none => if g.flags &&& (syn ||| ack) = syn then t.incomingSyn g now else (t, [])

end Tables

end Tcp
