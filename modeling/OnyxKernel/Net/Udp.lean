import OnyxKernel.Net.Tcp.Table

/-!
# UDP sockets

The socket table of `net/udp.rs`, the datagram queue of a socket and the calls that processes make on
them. The queue is a ring of bytes next to a ring of lengths and senders. What `config::route` answers is an
argument of sending, and `holder` is the process that a socket was made for; nothing reads it.
-/

namespace Udp

open Infra Onyx Net Function

def queueBytes : Nat := 2048

def queueMessages : Nat := 8

/-- `struct Peer`. -/
structure Peer where
  ip : Ip
  port : UInt16
  iface : UInt8
  deriving DecidableEq, Repr

/-- `struct DatagramQueue`. -/
structure DatagramQueue where
  bytes : Nat → UInt8
  head : Nat
  used : Nat
  lengths : Nat → Nat
  peers : Nat → Peer
  first : Nat
  messages : Nat

namespace DatagramQueue

def empty : DatagramQueue where
  bytes := fun _ => 0
  head := 0
  used := 0
  lengths := fun _ => 0
  peers := fun _ => ⟨0, 0, 0⟩
  first := 0
  messages := 0

/-- `push`: whether there was room, and the queue afterwards. -/
def push (q : DatagramQueue) (payload : List UInt8) (peer : Peer) : Bool × DatagramQueue :=
  if queueBytes - q.used < payload.length ∨ q.messages = queueMessages then (false, q)
  else
    let slot := (q.first + q.messages) % queueMessages
    (true,
      { q with
        bytes := Ring.store queueBytes q.bytes ((q.head + q.used) % queueBytes) payload
        lengths := update q.lengths slot payload.length
        peers := update q.peers slot peer
        used := q.used + payload.length
        messages := q.messages + 1 })

/-- `pop` into a buffer of `size` bytes: a datagram that is longer is cut. -/
def pop (q : DatagramQueue) (size : Nat) : Option (List UInt8 × Peer) × DatagramQueue :=
  if q.messages = 0 then (none, q)
  else
    let length := q.lengths q.first
    (some (Ring.held queueBytes q.bytes q.head (min length size), q.peers q.first),
      { q with
        head := (q.head + length) % queueBytes
        used := q.used - length
        first := (q.first + 1) % queueMessages
        messages := q.messages - 1 })

end DatagramQueue

/-- `struct UdpSocket`. -/
structure UdpSocket where
  ownerPid : Nat
  /-- `usize::MAX` is `none` -/
  iface : Option Nat
  localPort : UInt16
  remoteIp : Ip
  remotePort : UInt16
  bound : Bool
  connected : Bool
  datagrams : DatagramQueue
  holder : Life

/-- What `handle_udp` reads from a datagram and its IP header. -/
structure Incoming where
  iface : Nat
  srcIp : Ip
  srcPort : UInt16
  dstPort : UInt16
  payload : List UInt8
  deriving DecidableEq, Repr

def UdpSocket.accepts (s : UdpSocket) (d : Incoming) : Bool :=
  s.bound && s.localPort = d.dstPort && (s.iface = some d.iface || s.iface = none) &&
    (!s.connected || (s.remoteIp = d.srcIp && s.remotePort = d.srcPort))

/-- `UDP_SOCKS`; `MAX_UDP_SOCKS` is 8. -/
abbrev Table := Fin 8 → Option UdpSocket

namespace Table

variable (t : Table)

/-- `udp_bind_any`: a socket for all interfaces. -/
def udpBindAny (port : UInt16) : Except Errno (Fin 8) × Table :=
  if (List.finRange 8).any fun i => (t i).any fun s => s.bound && s.localPort = port then (.error .busy, t)
  else
    match (List.finRange 8).find? fun i => (t i).isNone with
    | none => (.error .busy, t)
    | some i =>
      let socket : UdpSocket :=
        { ownerPid := 0, iface := none, localPort := port, remoteIp := 0, remotePort := 0, bound := true,
          connected := false, datagrams := .empty, holder := ⟨0, 0⟩ }
      (.ok i, update t i (some socket))

def udpRecvFrom (id size : Nat) : Except Errno (List UInt8 × Peer) × Table :=
  match Tcp.slot id with
  | none => (.error .inval, t)
  | some i =>
    match t i with
    | none => (.error .inval, t)
    | some s =>
      match s.datagrams.pop size with
      | (none, _) => (.error .noEnt, t)
      | (some got, q) => (.ok got, update t i (some { s with datagrams := q }))

/-- What `udp_send_from` answers, once the packet was handed on; the table stays as it is. -/
def udpSendFrom (id : Nat) (route : Option Nat) (data : List UInt8) : Except Errno Unit :=
  match (Tcp.slot id).bind t with
  | none => .error .inval
  | some _ =>
    if 1472 < data.length then .error .inval
    else match route with
      | none => .error .io
      | some _ => .ok ()

def udpClose (id : Nat) : Table :=
  match Tcp.slot id with
  | none => t
  | some i => update t i none

/-- `handle_udp`, for a datagram that is well formed and has a good checksum. -/
def handleUdp (d : Incoming) : Table :=
  match (List.finRange 8).find? fun i => (t i).any (·.accepts d) with
  | none => t
  | some i =>
    update t i ((t i).map fun s =>
      { s with datagrams := (s.datagrams.push d.payload ⟨d.srcIp, d.srcPort, UInt8.ofNat d.iface⟩).2 })

end Table

end Udp
