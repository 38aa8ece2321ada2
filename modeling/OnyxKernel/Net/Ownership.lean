import OnyxKernel.Net.Tcp.Step
import OnyxKernel.Net.Udp

/-!
# Socket ownership

The calls of `net/ownership.rs`, which processes use their sockets through: each checks the owner of the
socket with the given number and makes the call on it, all under the network lock, so requests follow each
other; packets and timers come in at any time.

`tcp_connect` keeps the lock while it waits for its peer. The packets and timers handled meanwhile may free
its slot and use it again, and the end of the wait looks at the slot by its number only. The wait is the field
`connecting`; while it lasts no request is served.

`lives` counts, for each process number, the processes with it that have ended, so that a socket can be
told from one of an earlier process with the same number.
-/

namespace Net

open Infra Onyx

/-- The tables, the `tcp_connect` that waits and the numbers of processes that ended. -/
structure Sockets where
  tcp : Tcp.Tables
  udp : Udp.Table
  connecting : Option (Nat × Fin 8)
  lives : Nat → Nat

/-- What a process may ask for, with the times and routes found on the way. -/
inductive Request
  | tcpConnect (route : Option Nat) (ip : Ip) (port : UInt16) (now : UInt64)
  | tcpSend (id : Nat) (data : List UInt8) (now : UInt64)
  | tcpRecv (id size : Nat)
  | tcpClose (id : Nat) (now : UInt64)
  | listen (port : UInt16)
  | accept (id : Nat)
  | closeListener (id : Nat)
  | bindUdp (port : UInt16)
  | udpRecv (id size : Nat)
  | udpSend (id : Nat) (route : Option Nat) (data : List UInt8)
  | udpClose (id : Nat)
  deriving DecidableEq, Repr

/-- What it gets. -/
inductive Reply
  | done
  | number (n : Nat)
  | bytes (data : List UInt8)
  deriving DecidableEq, Repr

namespace Sockets

def boot : Sockets where
  tcp := .boot
  udp := fun _ => none
  connecting := none
  lives := fun _ => 0

variable (s : Sockets)

def life (pid : Nat) : Life := ⟨pid, s.lives pid⟩

/-! ## Requests -/

/-- The check of `ownership::tcp`, `listener` and `udp`, for the owner that was found. -/
def owned (found : Option Nat) (pid : Nat) (operation : Except Errno Reply × Sockets) :
    Except Errno Reply × Sockets :=
  match found with
  | none => (.error .inval, s)
  | some owner => if owner = pid then operation else (.error .perm, s)

def connOwner (id : Nat) : Option Nat := ((Tcp.slot id).bind s.tcp.conns).map (·.ownerPid)

/-- `listen::owner`. -/
def listenerOwner (id : Nat) : Option Nat := ((Tcp.slot id).bind s.tcp.listeners).map (·.ownerPid)

def udpOwner (id : Nat) : Option Nat := ((Tcp.slot id).bind s.udp).map (·.ownerPid)

/-- The beginning of `ownership::tcp_connect`, up to the wait. -/
def tcpConnect (pid : Nat) (route : Option Nat) (ip : Ip) (port : UInt16) (now : UInt64) :
    Except Errno Reply × Sockets :=
  match s.tcp.tcpConnectStart route ip port now with
  | (.error e, t) => (.error e, { s with tcp := t })
  | (.ok (cid, _), t) =>
    let made := (t.conns cid).map fun c => { c with holder := s.life pid }
    (.ok .done, { s with tcp := t.setConn cid made, connecting := some (pid, cid) })

def listen (pid : Nat) (port : UInt16) : Except Errno Reply × Sockets :=
  match s.tcp.listen port with
  | (.error e, t) => (.error e, { s with tcp := t })
  | (.ok i, t) =>
    let made := (t.listeners i).map fun l => { l with ownerPid := pid, holder := s.life pid }
    (.ok (.number i), { s with tcp := t.setListener i made })

def bindUdp (pid : Nat) (port : UInt16) : Except Errno Reply × Sockets :=
  match s.udp.udpBindAny port with
  | (.error e, t) => (.error e, { s with udp := t })
  | (.ok i, t) =>
    let made := (t i).map fun u => { u with ownerPid := pid, holder := s.life pid }
    (.ok (.number i), { s with udp := Function.update t i made })

def tcpSend (id : Nat) (data : List UInt8) (now : UInt64) : Except Errno Reply × Sockets :=
  ((s.tcp.tcpSend id data now).1.map (.number ·.2), { s with tcp := (s.tcp.tcpSend id data now).2 })

def tcpRecv (id size : Nat) : Except Errno Reply × Sockets :=
  ((s.tcp.tcpRecv id size).1.map (.bytes ·.2), { s with tcp := (s.tcp.tcpRecv id size).2 })

def tcpClose (id : Nat) (now : UInt64) : Except Errno Reply × Sockets :=
  (.ok .done, { s with tcp := (s.tcp.tcpClose id now).2 })

def accept (id : Nat) : Except Errno Reply × Sockets :=
  ((s.tcp.accept id).1.map (.number ·.val), { s with tcp := (s.tcp.accept id).2 })

def closeListener (id : Nat) : Except Errno Reply × Sockets :=
  ((s.tcp.closeListener id).1.map fun _ => .done, { s with tcp := (s.tcp.closeListener id).2 })

def udpRecv (id size : Nat) : Except Errno Reply × Sockets :=
  ((s.udp.udpRecvFrom id size).1.map (.bytes ·.1), { s with udp := (s.udp.udpRecvFrom id size).2 })

def udpSend (id : Nat) (route : Option Nat) (data : List UInt8) : Except Errno Reply × Sockets :=
  ((s.udp.udpSendFrom id route data).map fun _ => .done, s)

def udpClose (id : Nat) : Except Errno Reply × Sockets := (.ok .done, { s with udp := s.udp.udpClose id })

/-- A request of process `pid`. -/
def serve (pid : Nat) : Request → Except Errno Reply × Sockets
  | .tcpConnect route ip port now => s.tcpConnect pid route ip port now
  | .tcpSend id data now => s.owned (s.connOwner id) pid (s.tcpSend id data now)
  | .tcpRecv id size => s.owned (s.connOwner id) pid (s.tcpRecv id size)
  | .tcpClose id now => s.owned (s.connOwner id) pid (s.tcpClose id now)
  | .listen port => s.listen pid port
  | .accept id => s.owned (s.listenerOwner id) pid (s.accept id)
  | .closeListener id => s.owned (s.listenerOwner id) pid (s.closeListener id)
  | .bindUdp port => s.bindUdp pid port
  | .udpRecv id size => s.owned (s.udpOwner id) pid (s.udpRecv id size)
  | .udpSend id route data => s.owned (s.udpOwner id) pid (s.udpSend id route data)
  | .udpClose id => s.owned (s.udpOwner id) pid (s.udpClose id)

/-! ## The end of a connect -/

/-- The wait of `tcp_connect` saw the connection: its owner is set and the number returned. -/
def connectDone (pid : Nat) (cid : Fin 8) : Sockets :=
  let made := (s.tcp.conns cid).map fun c => { c with ownerPid := pid }
  { s with tcp := s.tcp.setConn cid made, connecting := none }

/-- The wait of `tcp_connect` was too long. -/
def connectFail (cid : Fin 8) : Sockets := { s with tcp := s.tcp.tcpConnectFail cid, connecting := none }

/-! ## The end of a process -/

/-- The first loop of `close_process`. -/
def closeListeners (pid : Nat) : List (Fin 8) → Tcp.Tables → Tcp.Tables
  | [], t => t
  | i :: rest, t =>
    closeListeners pid rest
      (if (t.listeners i).any (·.ownerPid = pid) then (t.closeListener i).2 else t)

/-- What `close_process` leaves of a connection. -/
def abandon (pid : Nat) (c : Tcp.TcpConn) : Option Tcp.TcpConn :=
  if c.ownerPid ≠ pid then some c
  else if c.state = .closing ∨ c.state = .timeWait then some { c with ownerPid := 0 }
  else none

def closeProcess (pid : Nat) : Sockets :=
  let t := closeListeners pid (List.finRange 8) s.tcp
  { s with
    tcp := { t with conns := fun i => (t.conns i).bind (abandon pid) }
    udp := fun i => (s.udp i).filter fun u => u.ownerPid ≠ pid
    lives := Function.update s.lives pid (s.lives pid + 1) }

end Sockets

/-! ## Runs -/

inductive Action
  | request (pid : Nat) (r : Request)
  | connectDone
  | connectFail
  | closeProcess (pid : Nat)
  | segment (g : Tcp.Incoming) (now : UInt64)
  | datagram (d : Udp.Incoming)
  | sweep (now : UInt64)
  | tick (now : UInt64)
  deriving DecidableEq, Repr

namespace Sockets

/-- One action. No process has the number 0, and while `tcp_connect` waits the lock is taken. -/
def step (s : Sockets) : Action → Option Sockets
  | .request pid r => if pid ≠ 0 ∧ s.connecting = none then some (s.serve pid r).2 else none
  | .connectDone =>
    match s.connecting with
    | none => none
    | some (pid, cid) => if s.tcp.tcpConnected cid then some (s.connectDone pid cid) else none
  | .connectFail =>
    match s.connecting with
    | none => none
    | some (_, cid) => some (s.connectFail cid)
  | .closeProcess pid => if pid ≠ 0 ∧ s.connecting = none then some (s.closeProcess pid) else none
  | .segment g now => some { s with tcp := (s.tcp.handleTcp g now).1 }
  | .datagram d => some { s with udp := s.udp.handleUdp d }
  | .sweep now => some { s with tcp := s.tcp.sweepTimewait now }
  | .tick now => some { s with tcp := ((s.tcp.sweepTimewait now).retryTick now).1 }

def machine : Machine Sockets Action where
  step := step

end Sockets

end Net
