import Evel.General.Exec
import Evel.Model.Buffer
import Evel.Model.Event

namespace Evel
open General

namespace Tcp

/-- `data` holds the bytes from `si.data` on, `si.size` of them. If they are `shared`, they are
still in the buffer of the caller. -/
structure SendItem where
  data : List Byte
  allo : Ptr
  rese : Nat
  shared : Bool
deriving DecidableEq, Repr

end Tcp

/-- `TcpConnection`, with the next address of the allocator, the buffers given to
`msg_free` and the bytes that `sendmsg` has accepted. -/
structure TcpConnection where
  event : Event
  waitingForConnection : Bool
  waitingSends : List Tcp.SendItem
  nextPtr : Ptr
  freed : List Ptr
  accepted : List Byte
deriving DecidableEq, Repr

namespace TcpConnection
open Tcp

/-- The two constructors: `waiting` for a client, not for an accepted descriptor. -/
def new (fd : Int) (waiting : Bool) : TcpConnection :=
  { event := Event.new fd true, waitingForConnection := waiting, waitingSends := [],
    nextPtr := 0, freed := [], accepted := [] }

def msgAllocSize (size : Nat) : Nat := (size + 7) / 8 * 8

/-- The second component is `*data` after the call, `none` for null. A buffer is taken as it is, and
`*data` still points to it. -/
def addSendItem (data : Buffer) (rese : Nat) (allowTransferOwnership : Bool)
    (c : TcpConnection) : TcpConnection × Option Ptr :=
  if data.bytes.length ≠ 0 then
    if allowTransferOwnership then
      -- `data = 0` only resets the parameter
      ({ c with waitingSends := c.waitingSends ++ [⟨data.bytes, data.ptr, rese, true⟩] },
        some data.ptr)
    else
      let item : SendItem := ⟨data.bytes, c.nextPtr, msgAllocSize data.bytes.length, false⟩
      ({ c with waitingSends := c.waitingSends ++ [item], nextPtr := c.nextPtr + 1 },
        some data.ptr)
  else (c, some data.ptr)

/-- The branch of `send` that hands the buffer to `add_send_item`. -/
def queues (data : Buffer) (c : TcpConnection) : Bool :=
  data.bytes.length ≠ 0 && (c.waitingForConnection || !c.waitingSends.isEmpty)

def onHup (c : TcpConnection) : TcpConnection := { c with event := c.event.fail }

def outAreSent (c : TcpConnection) : Bool := c.waitingSends.isEmpty

/-- The loop around `sendmsg` in `send`. -/
def sendNow (bytes : List Byte) : List SysAnswer → TcpConnection → Exec TcpConnection
  | [], c => .hang c
  | a :: as, c =>
    let real := a.real bytes.length
    if real ≤ 0 then
      if a.intr then sendNow bytes as c
      else if real < 0 ∧ a.again then .ret c
      else .ret c.onHup
    else .ret { c with accepted := c.accepted ++ bytes.take real.toNat }

/-- The virtual `send`. The second component is `*data` after the call, as above. -/
def send (data : Buffer) (rese : Nat) (allowTransferOwnership : Bool)
    (script : List SysAnswer) (c : TcpConnection) : Exec (TcpConnection × Option Ptr) :=
  if data.bytes.length = 0 then .ret (c, some data.ptr)
  else if c.waitingForConnection || !c.waitingSends.isEmpty then
    .ret (c.addSendItem data rese allowTransferOwnership)
  else (sendNow data.bytes script c).map (fun c => (c, some data.ptr))

/-- `send( data, size )` -/
def sendCopy (data : Buffer) (script : List SysAnswer) (c : TcpConnection) :
    Exec TcpConnection :=
  (c.send data data.bytes.length false script).map Prod.fst

/-- The inner loop of `on_out` and the three lines after it. `iov` holds what the entries of
`viovec` from `iov_ptr` on describe. Reading past them, or the front of an empty deque, is
undefined. -/
def partlySent : Nat → List (List Byte) → TcpConnection →
    Option (List (List Byte) × TcpConnection)
  | _, [], _ => none
  | real, v :: iov, c =>
    match c.waitingSends with
    | [] => none
    | si :: rest =>
      if v.length ≤ real then
        partlySent (real - v.length) iov
          { c with freed := c.freed ++ [si.allo], waitingSends := rest }
      else
        some (v.drop real :: iov,
          { c with waitingSends := { si with data := si.data.drop real } :: rest })

/-- The loop around `sendmsg` in `on_out`. `tot` stays what it was before the loop. -/
def drain (tot : Nat) : List SysAnswer → List (List Byte) → TcpConnection → Exec TcpConnection
  | [], _, c => .hang c
  | a :: as, iov, c =>
    let real := a.real iov.flatten.length
    if real ≤ 0 then
      if a.intr then drain tot as iov c
      else if real < 0 ∧ a.again then .ret c
      else .ret c.onHup
    else
      let c := { c with accepted := c.accepted ++ iov.flatten.take real.toNat }
      if real.toNat = tot then
        .ret { c with freed := c.freed ++ c.waitingSends.map SendItem.allo, waitingSends := [] }
      else
        match partlySent real.toNat iov c with
        | none => .undef c
        | some (iov, c) => drain tot as iov c

def onOut (script : List SysAnswer) (c : TcpConnection) : Exec TcpConnection :=
  let iov := c.waitingSends.map SendItem.data
  let tot := iov.flatten.length
  if tot = 0 then .ret c else drain tot script iov c

end TcpConnection

end Evel
