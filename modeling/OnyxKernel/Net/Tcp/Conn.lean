import OnyxKernel.Core.Errno
import OnyxKernel.Infra.Ring

/-!
# TCP connections

The connection record of `net/tcp/conn.rs` and what `state.rs`, `retry.rs` and `sock.rs` do to one
connection.

The unacknowledged bytes are a list, `send_len` its length; the receive buffer stays a ring. `isn` and
`sent` record the first sequence number and every byte put into a segment, with its number, and `holder`
the process that the connection was made for; nothing reads them.
-/

namespace Net

/-- An IPv4 address, as `u32::from_be_bytes` gives it. -/
abbrev Ip := UInt32

/-- A process: numbers of processes that ended are used again. -/
structure Life where
  pid : Nat
  /-- how many processes with this number ended before -/
  before : Nat
  deriving DecidableEq, Repr

end Net

namespace Tcp

open Infra Onyx Net

def bufSize : Nat := 2048

/-- `TIMEWAIT_US`; the same time is written out in `handle.rs`, `listen.rs` and `retry.rs`. -/
def timewaitUs : UInt64 := 5000000

def retryUs : UInt64 := 1000000

/-- `RETRIES` -/
def maxRetries : Nat := 5

def maxSegment : Nat := 536

/-! ## Records -/

/-- The field `state`, with the number it has in the source. -/
inductive ConnState
  /-- 1: a SYN was sent -/
  | synSent
  /-- 2 -/
  | established
  /-- 3: a FIN was sent -/
  | closing
  /-- 4 -/
  | timeWait
  /-- 5: a SYN was received and answered -/
  | synReceived
  /-- 6: reset by the peer, or given up -/
  | failed
  /-- 7: the peer has sent its FIN -/
  | closeWait
  deriving DecidableEq, Repr

/-- `struct TcpConn`. -/
structure TcpConn where
  ownerPid : Nat
  iface : Nat
  /-- `usize::MAX` is `none` -/
  listener : Option Nat
  lastTxUs : UInt64
  retries : Nat
  peerWindow : UInt16
  state : ConnState
  srcPort : UInt16
  dstIp : Ip
  dstPort : UInt16
  sndUna : UInt32
  sndNxt : UInt32
  rcvNxt : UInt32
  /-- the first `send_len` bytes of `send_buf` -/
  sendBuf : List UInt8
  recvBuf : Nat → UInt8
  recvLen : Nat
  recvHead : Nat
  peerFin : Bool
  twDeadlineUs : UInt64
  isn : UInt32
  sent : List (UInt32 × UInt8)
  holder : Life

def TcpConn.sendLen (c : TcpConn) : Nat := c.sendBuf.length

/-- The segments of a call, with the interface they leave by. -/
structure Segment where
  iface : Nat
  dstIp : Ip
  srcPort : UInt16
  dstPort : UInt16
  seq : UInt32
  ack : UInt32
  flags : UInt8
  window : UInt16
  payload : List UInt8
  deriving DecidableEq, Repr

def fin : UInt8 := 0x01

def syn : UInt8 := 0x02

def rst : UInt8 := 0x04

def ack : UInt8 := 0x10

def pushAck : UInt8 := 0x18

/-- The segment that `send_tcp_seg` builds. -/
def sendTcpSeg (c : TcpConn) (flags : UInt8) (data : List UInt8) : Segment where
  iface := c.iface
  dstIp := c.dstIp
  srcPort := c.srcPort
  dstPort := c.dstPort
  seq := c.sndNxt
  ack := c.rcvNxt
  flags := flags
  window := UInt16.ofNat (bufSize - c.recvLen)
  payload := data

def numbered (seq : UInt32) : List UInt8 → List (UInt32 × UInt8)
  | [] => []
  | b :: rest => (seq, b) :: numbered (seq + 1) rest

/-! ## The state machine -/

/-- What `drain_acked` frees: an acknowledgement of nothing new, of what was never sent, or of more than
the buffer (the FIN apart) is ignored. -/
def drainAcked (c : TcpConn) (ackNo : UInt32) : TcpConn :=
  let outstanding := c.sndNxt - c.sndUna
  let acked := ackNo - c.sndUna
  if acked = 0 ∨ outstanding < acked then c
  else if c.sendLen < acked.toNat ∧
      ¬(c.state = .closing ∧ ackNo = c.sndNxt ∧ acked.toNat = c.sendLen + 1) then c
  else
    { c with
      sendBuf := c.sendBuf.drop (min acked.toNat c.sendLen)
      sndUna := ackNo
      retries := 0 }

/-- `SEG_ACK` or 0. `SEG_FIN_ACK` is never requested. -/
inductive Command
  | nothing
  | segAck
  deriving DecidableEq, Repr

/-- Data that continues the stream goes into the ring, as far as it fits. -/
def acceptPayload (c : TcpConn) (seq : UInt32) (payload : List UInt8) : TcpConn :=
  if seq = c.rcvNxt ∧ payload ≠ [] then
    let n := min payload.length (bufSize - c.recvLen)
    { c with
      recvBuf := Ring.store bufSize c.recvBuf ((c.recvHead + c.recvLen) % bufSize) (payload.take n)
      recvLen := c.recvLen + n
      rcvNxt := c.rcvNxt + UInt32.ofNat n }
  else c

def finLands (c : TcpConn) (seq : UInt32) (flags : UInt8) (payload : List UInt8) : Prop :=
  flags &&& fin ≠ 0 ∧ seq + UInt32.ofNat payload.length = c.rcvNxt

instance (c : TcpConn) (seq : UInt32) (flags : UInt8) (payload : List UInt8) :
    Decidable (finLands c seq flags payload) :=
  inferInstanceAs (Decidable (_ ∧ _))

def acceptFin (c : TcpConn) (now : UInt64) : TcpConn :=
  { c with
    rcvNxt := c.rcvNxt + 1
    peerFin := true
    state := if c.state = .established then .closeWait else c.state
    twDeadlineUs := if c.state = .timeWait then now + timewaitUs else c.twDeadlineUs }

/-- The arm of `tcp_transition` for the states 2, 4 and 7. -/
def transitionOpen (c : TcpConn) (seq ackNo : UInt32) (flags : UInt8) (payload : List UInt8)
    (now : UInt64) : TcpConn × Command × Command :=
  let c := acceptPayload (drainAcked c ackNo) seq payload
  let reply := if payload = [] then Command.nothing else .segAck
  if finLands c seq flags payload then (acceptFin c now, reply, .segAck) else (c, reply, .nothing)

def tcpTransition (c : TcpConn) (seq ackNo : UInt32) (flags : UInt8) (payload : List UInt8)
    (now : UInt64) : TcpConn × Command × Command :=
  match c.state with
  | .synSent =>
    if flags &&& (syn ||| ack) = syn ||| ack ∧ ackNo = c.sndNxt then
      ({ c with state := .established, sndNxt := ackNo, sndUna := ackNo, rcvNxt := seq + 1 }, .segAck, .nothing)
    else (c, .nothing, .nothing)
  | .synReceived =>
    if flags &&& ack ≠ 0 ∧ ackNo = c.sndNxt ∧ seq = c.rcvNxt then
      transitionOpen { c with state := .established, sndUna := ackNo, twDeadlineUs := 0 } seq ackNo flags payload now
    else (c, .nothing, .nothing)
  | .established | .timeWait | .closeWait => transitionOpen c seq ackNo flags payload now
  | .closing =>
    if flags &&& ack ≠ 0 then
      let c := drainAcked c ackNo
      if ackNo = c.sndNxt then
        ({ c with state := .timeWait, twDeadlineUs := now + timewaitUs }, .nothing, .nothing)
      else (c, .nothing, .nothing)
    else (c, .nothing, .nothing)
  | .failed => (c, .nothing, .nothing)

/-! ## Retransmission -/

/-- `struct Plan`. -/
structure Plan where
  flags : UInt8
  sequence : UInt32
  length : Nat
  deriving DecidableEq, Repr

def unacknowledged (c : TcpConn) : Option Plan :=
  match c.state with
  | .synSent => some ⟨syn, c.sndUna, 0⟩
  | .synReceived => some ⟨syn ||| ack, c.sndUna, 0⟩
  | .established | .closeWait =>
    if 0 < c.sendLen then some ⟨pushAck, c.sndUna, min c.sendLen maxSegment⟩ else none
  | .closing =>
    if 0 < c.sendLen then some ⟨pushAck, c.sndUna, min c.sendLen maxSegment⟩
    else some ⟨fin ||| ack, c.sndNxt - 1, 0⟩
  | .timeWait | .failed => none

def plan (c : TcpConn) (now : UInt64) : TcpConn × Option Plan :=
  match unacknowledged c with
  | none => (c, none)
  | some action =>
    if now - c.lastTxUs < retryUs then (c, none)
    else if maxRetries ≤ c.retries then
      ({ c with state := .failed, twDeadlineUs := now + timewaitUs }, none)
    else ({ c with retries := c.retries + 1, lastTxUs := now }, some action)

/-- What `tick` does to a connection, and the segment it sends for it. -/
def retry (c : TcpConn) (now : UInt64) : TcpConn × Option Segment :=
  match plan c now with
  | (c, none) => (c, none)
  | (c, some action) =>
    let data := c.sendBuf.take action.length
    let c := { c with sndNxt := action.sequence, sent := c.sent ++ numbered action.sequence data }
    (c, some (sendTcpSeg c action.flags data))

def TcpConn.expired (c : TcpConn) (now : UInt64) : Bool :=
  ((c.state = .timeWait && c.recvLen = 0) || c.state = .synReceived || c.state = .failed) &&
    c.twDeadlineUs ≤ now && c.twDeadlineUs ≠ 0

/-! ## Socket calls -/

/-- The record that `tcp_connect_inner` puts into its slot. -/
def opening (iface : Nat) (srcPort : UInt16) (dstIp : Ip) (dstPort : UInt16) (now : UInt64) : TcpConn :=
  let isn := srcPort.toUInt32 + 1
  { ownerPid := 0, iface, listener := none, lastTxUs := now, retries := 0, peerWindow := 2048,
    state := .synSent, srcPort, dstIp, dstPort, sndUna := isn, sndNxt := isn + 1, rcvNxt := 0,
    sendBuf := [], recvBuf := fun _ => 0, recvLen := 0, recvHead := 0, peerFin := false,
    twDeadlineUs := 0, isn, sent := [], holder := ⟨0, 0⟩ }

/-- A connection that `accept` may hand out. -/
def TcpConn.waitsAt (c : TcpConn) (i : Fin 8) : Bool :=
  c.listener = some i.val && (c.state = .established || c.state = .closeWait)

/-- A SYN, or SYN and ACK, sent from a copy with `snd_nxt` turned back. -/
def synSegment (c : TcpConn) (isn : UInt32) (flags : UInt8) : Segment := sendTcpSeg { c with sndNxt := isn } flags []

/-- `tcp_send_inner` on the copied record: the record to store, the segment and the bytes taken. -/
def tcpSendInner (c : TcpConn) (data : List UInt8) (now : UInt64) : Except Errno (TcpConn × List Segment × Nat) :=
  if c.state ≠ .established ∧ c.state ≠ .closeWait then .error .io
  else
    let available := c.peerWindow.toNat - c.sendLen
    let n := min (min (min data.length (bufSize - c.sendLen)) maxSegment) available
    let data := data.take n
    let fresh := 0 < n ∧ c.sendLen = 0
    let c' :=
      { c with
        sendBuf := c.sendBuf ++ data
        lastTxUs := if fresh then now else c.lastTxUs
        retries := if fresh then 0 else c.retries
        sent := c.sent ++ numbered c.sndNxt data }
    .ok ({ c' with sndNxt := c.sndNxt + UInt32.ofNat n },
      if 0 < n then [sendTcpSeg c' pushAck data] else [], n)

/-- `read_received` for a buffer of `size` bytes: the bytes and whether the peer is told. -/
def readReceived (c : TcpConn) (size : Nat) : Except Errno (TcpConn × List UInt8 × Bool) :=
  if c.state = .failed then .error .io
  else if c.recvLen = 0 then
    if c.peerFin then .ok (c, [], false) else .error .noEnt
  else
    let n := min size c.recvLen
    .ok ({ c with recvHead := (c.recvHead + n) % bufSize, recvLen := c.recvLen - n },
      Ring.held bufSize c.recvBuf c.recvHead n, 0 < n && !c.peerFin)

/-- `tcp_recv_inner` on the copied record. -/
def tcpRecvInner (c : TcpConn) (size : Nat) : Except Errno (TcpConn × List Segment × List UInt8) :=
  match readReceived c size with
  | .error e => .error e
  | .ok (c, bytes, notify) => .ok (c, if notify then [sendTcpSeg c ack []] else [], bytes)

/-- `tcp_close` on a connection; `none` frees the slot. -/
def tcpCloseInner (c : TcpConn) (now : UInt64) : Option TcpConn × List Segment :=
  if c.state = .established ∨ c.state = .closeWait then
    (some { c with
        recvLen := 0, state := .closing, sndNxt := c.sndNxt + 1, lastTxUs := now, retries := 0 },
      [sendTcpSeg c (fin ||| ack) []])
  else (none, [])

/-! ## Incoming segments -/

/-- What `handle_tcp_inner` reads from a segment and its IP header. -/
structure Incoming where
  iface : Nat
  srcIp : Ip
  srcPort : UInt16
  dstPort : UInt16
  seq : UInt32
  ack : UInt32
  flags : UInt8
  window : UInt16
  payload : List UInt8
  deriving DecidableEq, Repr

/-- The record that `incoming_syn` puts into its slot. -/
def passive (owner : Nat) (holder : Life) (parent : Fin 8) (port : UInt16) (g : Incoming) (now : UInt64) :
    TcpConn :=
  let isn := port.toUInt32 * 65537 + g.seq
  { ownerPid := owner, iface := g.iface, listener := some parent.val, lastTxUs := now, retries := 0,
    peerWindow := g.window, state := .synReceived, srcPort := g.dstPort, dstIp := g.srcIp,
    dstPort := g.srcPort, sndUna := isn, sndNxt := isn + 1, rcvNxt := g.seq + 1, sendBuf := [],
    recvBuf := fun _ => 0, recvLen := 0, recvHead := 0, peerFin := false,
    twDeadlineUs := now + timewaitUs, isn, sent := [], holder }

/-- The 4-tuple match of `handle_tcp_inner`. -/
def TcpConn.answers (c : TcpConn) (g : Incoming) : Bool :=
  c.iface = g.iface && c.srcPort = g.dstPort && c.dstPort = g.srcPort && c.dstIp = g.srcIp

def commanded (c : TcpConn) : Command × Command → List Segment
  | (first, second) => [first, second].filterMap fun
    | .nothing => none
    | .segAck => some (sendTcpSeg c ack [])

/-- A segment without RST, on the connection it belongs to. The SYN and ACK goes out again when the
peer repeats its SYN. -/
def receive (c : TcpConn) (g : Incoming) (now : UInt64) : TcpConn × List Segment :=
  let (c', commands) := tcpTransition { c with peerWindow := g.window } g.seq g.ack g.flags g.payload now
  let again :=
    if c.state = .synReceived ∧ g.flags &&& syn ≠ 0 ∧ g.seq + 1 = c'.rcvNxt then
      [synSegment c' c'.sndUna (syn ||| ack)]
    else []
  (c', again ++ commanded c' commands)

def handleSegment (c : TcpConn) (g : Incoming) (now : UInt64) : TcpConn × List Segment :=
  if g.flags &&& rst ≠ 0 then ({ c with state := .failed, twDeadlineUs := now + timewaitUs }, [])
  else receive c g now

/-- The handshake that `incoming_syn` began is complete. -/
def completes (c c' : TcpConn) : Bool := c.state = .synReceived && (c'.state = .established || c'.state = .closeWait)

end Tcp
