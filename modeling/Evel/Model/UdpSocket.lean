import Evel.General.Exec
import Evel.Model.Buffer
import Evel.Model.Event

namespace Evel
open General

namespace Udp

/-- `data` is the pointer and `bytes` the `size` bytes it points to when the datagram is queued. -/
structure SendItem (Addr : Type u) where
  dst : Addr
  data : Ptr
  bytes : List Byte
deriving DecidableEq, Repr

end Udp

/-- `UdpSocket`, with the next address of the allocator, the buffers given to `msg_free` and
the datagrams that `sendto` has accepted. -/
structure UdpSocket (Addr : Type u) where
  event : Event
  waitingSends : List (Udp.SendItem Addr)
  nextPtr : Ptr
  freed : List Ptr
  sent : List (Addr × List Byte)
deriving DecidableEq, Repr

namespace UdpSocket
open Udp
variable {Addr : Type u}

def new (fd : Int) (needWait : Bool) : UdpSocket Addr :=
  { event := Event.new fd needWait, waitingSends := [], nextPtr := 0, freed := [], sent := [] }

def onHup (s : UdpSocket Addr) : UdpSocket Addr := { s with event := s.event.fail }

def sysError (s : UdpSocket Addr) : UdpSocket Addr := { s with event := s.event.fail }

def outAreSent (s : UdpSocket Addr) : Bool := s.waitingSends.isEmpty

/-- The second component is `*data` after the call, `none` for null. -/
def addSendItem (dst : Addr) (data : Buffer) (allowTransferOwnership : Bool)
    (s : UdpSocket Addr) : UdpSocket Addr × Option Ptr :=
  if allowTransferOwnership then
    -- `data = 0` only resets the parameter
    ({ s with waitingSends := s.waitingSends ++ [⟨dst, data.ptr, data.bytes⟩] }, some data.ptr)
  else
    ({ s with waitingSends := s.waitingSends ++ [⟨dst, s.nextPtr, data.bytes⟩],
              nextPtr := s.nextPtr + 1 }, some data.ptr)

/-- What follows an accepted datagram. A short count is reported through `ev_loop`. -/
def accept (dst : Addr) (bytes : List Byte) (real : Nat) (s : UdpSocket Addr) :
    Exec (UdpSocket Addr) :=
  let s := { s with sent := s.sent ++ [(dst, bytes.take real)] }
  if real ≠ bytes.length ∧ s.event.evLoop = false then .undef s else .ret s

/-- The loop around `sendto` in `send_raw`. The branch for a full socket queues the datagram
as `add_send_item` does. -/
def sendNow (dst : Addr) (data : Buffer) (allowTransferOwnership : Bool) :
    List SysAnswer → UdpSocket Addr → Exec (UdpSocket Addr × Option Ptr)
  | [], s => .hang (s, some data.ptr)
  | a :: as, s =>
    let real := a.real data.bytes.length
    if real ≤ 0 then
      if a.intr then sendNow dst data allowTransferOwnership as s
      else if a.again then .ret (s.addSendItem dst data allowTransferOwnership)
      else .ret (s.onHup, some data.ptr)
    else (s.accept dst data.bytes real.toNat).map (fun s => (s, some data.ptr))

def sendRaw (dst : Addr) (data : Buffer) (allowTransferOwnership : Bool)
    (script : List SysAnswer) (s : UdpSocket Addr) : Exec (UdpSocket Addr × Option Ptr) :=
  if data.bytes.length = 0 then .ret (s, some data.ptr)
  else if s.waitingSends.isEmpty then sendNow dst data allowTransferOwnership script s
  else .ret (s.addSendItem dst data allowTransferOwnership)

/-- `send_raw` queues the datagram behind others, or when the socket is full. -/
def queues (data : Buffer) (script : List SysAnswer) (s : UdpSocket Addr) : Bool :=
  data.bytes.length ≠ 0 && (!s.waitingSends.isEmpty ||
    (SysAnswer.first script).any (fun a => decide (a.count ≤ 0) && a.again))

/-- `on_out`: the outer loop is over the queue, the inner one over the answers. -/
def drain : List SysAnswer → List (SendItem Addr) → UdpSocket Addr → Exec (UdpSocket Addr)
  | _, [], s => .ret s
  | [], _ :: _, s => .hang s
  | a :: as, p :: rest, s =>
    let real := a.real p.bytes.length
    if real ≤ 0 then
      if a.intr then drain as (p :: rest) s
      else if a.again then .ret s
      else .ret s.sysError
    else
      (s.accept p.dst p.bytes real.toNat).andThen fun s =>
        drain as rest { s with freed := s.freed ++ [p.data], waitingSends := rest }

def onOut (script : List SysAnswer) (s : UdpSocket Addr) : Exec (UdpSocket Addr) :=
  drain script s.waitingSends s

end UdpSocket

namespace Udp

/-- What may happen to a socket: a datagram from the user, or a notification of the loop. -/
inductive Call (Addr : Type u)
  | sendRaw (dst : Addr) (data : Buffer) (allowTransferOwnership : Bool) (script : List SysAnswer)
  | onOut (script : List SysAnswer)
deriving DecidableEq, Repr

end Udp

namespace UdpSocket
open Udp
variable {Addr : Type u}

def call (s : UdpSocket Addr) : Call Addr → Exec (UdpSocket Addr)
  | .sendRaw dst data allow script => (s.sendRaw dst data allow script).map Prod.fst
  | .onOut script => s.onOut script

/-- Nothing follows a call that does not return. -/
def step (e : Exec (UdpSocket Addr)) (k : Call Addr) : Exec (UdpSocket Addr) :=
  e.andThen (fun s => s.call k)

end UdpSocket

end Evel
