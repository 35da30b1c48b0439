import Evel.Model.Errno
import Evel.Model.TlsConnection
import Evel.Model.UdpSocket

namespace Evel
open General

/-- EINPROGRESS -/
def Errno.inProgress : Errno := .other 115

/-- What a call that moves no bytes returns: a descriptor or 0 if it succeeds. -/
def SysResult.value : SysResult → Int
  | .moves n => n
  | .fails _ => -1

namespace Event

/-- `~Event` takes the event out of its loop. -/
def unregisters (e : Event) : Bool := decide (2 < e.fd) && e.evLoop

end Event

namespace Setup

/-- A system call of a setup, with what surrounds it. -/
structure SysCall where
  /-- `fd` is what the call returns. -/
  opens : Bool
  /-- The failures that count as successes. -/
  accepts : Errno → Bool
  /-- The call is made again after EINTR. -/
  retries : Bool
  /-- What comes after the report of a failure, and whether the setup ends there. -/
  failure : Event → Event
  leaves : Bool

def SysCall.store (c : SysCall) (r : SysResult) (e : Event) : Event :=
  if c.opens then { e with fd := r.value } else e

/-- The calls of a setup one after the other. Failures are reported through `ev_loop`. -/
def perform : List SysResult → List SysCall → Event → Exec Event
  | _, [], e => .ret e
  | [], _ :: _, e => .hang e
  | r :: rs, c :: cs, e =>
    let e := c.store r e
    match r with
    | .moves _ => perform rs cs e
    | .fails x =>
      if c.accepts x then perform rs cs e
      else if c.retries && x = .intr then perform rs (c :: cs) e
      else if !e.evLoop then .undef e
      else if c.leaves then .ret (c.failure e)
      else perform rs cs (c.failure e)

def socket : SysCall :=
  { opens := true, accepts := fun _ => false, retries := true, failure := id, leaves := true }

/-- The setup goes on without the option. -/
def setsockopt : SysCall :=
  { opens := false, accepts := fun _ => false, retries := true, failure := id, leaves := false }

def bind : SysCall :=
  { opens := false, accepts := fun _ => false, retries := true, failure := id, leaves := true }

def listen : SysCall := bind

def connect : SysCall := { bind with accepts := fun x => x = .inProgress }

/-- `::bind` in `UdpSocket::bind`, with `on_bind_error`. -/
def bindOnce (outq : Option Nat) : SysCall :=
  { bind with retries := false, failure := Event.del true outq }

end Setup

open Setup

namespace Listener

/-- The calls of the constructor. -/
def calls : List SysCall := [socket, setsockopt, setsockopt, bind, listen]

def new (needWait : Bool) (script : List SysResult) : Exec Event :=
  perform script calls (Event.new (-1) needWait)

end Listener

namespace TcpConnection

/-- The calls of the constructor of a client. -/
def calls : List SysCall := [socket, connect]

def connectTo (script : List SysResult) : Exec TcpConnection :=
  let c := new (-1) true
  (perform script calls c.event).map fun e => { c with event := e }

end TcpConnection

namespace UdpSocket
variable {Addr : Type u}

def bindCalls (outq : Option Nat) : List SysCall := [setsockopt, setsockopt, bindOnce outq]

def bind (outq : Option Nat) (script : List SysResult) (s : UdpSocket Addr) :
    Exec (UdpSocket Addr) :=
  (perform script (bindCalls outq) s.event).map fun e => { s with event := e }

end UdpSocket

/-- An event that has not been added to a loop. -/
structure Event.Loose (e : Event) : Prop where
  evLoop : e.evLoop = false
  nextWaitOut : e.nextWaitOut = false
  nextDel : e.nextDel = false

/-- The calls that come before an object is added to a loop, with what the system and OpenSSL
answer. -/
inductive Early (Addr : Type u)
  | listener (needWait : Bool) (script : List SysResult)
  | client (script : List SysResult)
  | bind (s : UdpSocket Addr) (loose : s.event.Loose) (outq : Option Nat)
    (script : List SysResult)
  | send (s : UdpSocket Addr) (loose : s.event.Loose) (dst : Addr) (data : Buffer)
    (allowTransferOwnership : Bool) (script : List SysAnswer)
  | tlsSend (c : TlsConnection) (loose : c.event.Loose) (data : Buffer) (rese : Nat)
    (allowTransferOwnership : Bool) (script : List SslError)

namespace Early
variable {Addr : Type u}

/-- The event before the call. -/
def before : Early Addr → Event
  | .listener needWait _ => Event.new (-1) needWait
  | .client _ => Event.new (-1) true
  | .bind s _ _ _ => s.event
  | .send s _ _ _ _ _ => s.event
  | .tlsSend c _ _ _ _ _ => c.event

def outcome : Early Addr → Exec Event
  | .listener needWait script => Listener.new needWait script
  | .client script => (TcpConnection.connectTo script).map TcpConnection.event
  | .bind s _ outq script => (s.bind outq script).map UdpSocket.event
  | .send s _ dst data allow script => (s.sendRaw dst data allow script).map (fun r => r.1.event)
  | .tlsSend c _ data rese allow script =>
    (c.send data rese allow script).map (fun c => c.event)

end Early

end Evel
