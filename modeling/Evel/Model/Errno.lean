import Evel.Model.OnInp

namespace Evel
open General

/-- What the system does in a call: it moves bytes and leaves `errno` as it is, or it fails and
sets it. -/
inductive SysResult
  | moves (n : Nat)
  | fails (errno : Errno)
deriving DecidableEq, Repr

namespace SysResult

/-- `errno` after the call -/
def errno (before : Errno) : SysResult → Errno
  | .moves _ => before
  | .fails e => e

/-- What the caller sees. -/
def answer (before : Errno) (r : SysResult) : SysAnswer :=
  match r with
  | .moves n => ⟨n, r.errno before⟩
  | .fails _ => ⟨-1, r.errno before⟩

end SysResult

/-- What `parse` does if it is called. It may leave another `errno`. -/
structure Callback where
  takesBuffer : Bool
  acts : List Event.Act
  errno : Option Errno
deriving DecidableEq, Repr

namespace Tcp

/-- `errno` after the loop around `ioctl` -/
def ioctlErrno : List FionRead → Errno → Errno
  | [], e => e
  | .size _ :: _, e => e
  | .fails x :: as, _ => if x = .intr then ioctlErrno as x else x

/-- What the system does in one turn of the loop in `on_inp`, and `parse`. The calls of `ioctl`
come to an end. -/
structure Happening where
  ioctls : List FionRead
  recv : SysResult
  parse : Callback
  answered : (TcpInput.buffSize ioctls).isSome = true
deriving DecidableEq

/-- The turn of a connection that meets this `errno`. -/
def Happening.round (h : Happening) (before : Errno) : Round :=
  { ioctls := h.ioctls, recv := h.recv.answer (ioctlErrno h.ioctls before),
    takesBuffer := h.parse.takesBuffer, acts := h.parse.acts }

/-- The peer has closed: nothing is there to be read, and `recv` returns 0. -/
def endOfStream : Happening :=
  { ioctls := [.size 0], recv := .moves 0, parse := ⟨false, [], none⟩, answered := rfl }

end Tcp

/-- A connection, and the `errno` of its thread. -/
structure TcpReader where
  conn : TcpInput
  errno : Errno
deriving DecidableEq

namespace TcpReader
open Tcp

/-- `parse` is called if the last `recv` has moved bytes. -/
def parsed (r : Round) (c : TcpInput) : Bool :=
  c.recvs.getLast?.any (fun call => decide (0 < r.recv.real call.length))

def turn (h : Happening) (t : TcpReader) : Turn TcpReader :=
  let r := h.round t.errno
  let errno := h.recv.errno (ioctlErrno h.ioctls t.errno)
  (TcpInput.turn r t.conn).map fun c =>
    { conn := c, errno := if parsed r c then h.parse.errno.getD errno else errno }

def onInp (script : List Happening) (t : TcpReader) : Exec TcpReader :=
  loop (fun t => !t.conn.event.wantCloseFd && !t.conn.event.nextDel) turn script t

end TcpReader

namespace Udp

/-- What `recvfrom` meets: a signal, or a datagram that waits in the kernel. -/
inductive Arrival (Addr : Type u)
  | interrupted
  | datagram (src : Addr) (bytes : List Byte) (parse : Callback)
deriving DecidableEq, Repr

namespace Arrival
variable {Addr : Type u}

/-- A datagram of 0 bytes is a success, and nothing to read is a failure. -/
def result : Option (Arrival Addr) → SysResult
  | some .interrupted => .fails .intr
  | some (.datagram _ bytes _) => .moves bytes.length
  | none => .fails .again

def acts : Option (Arrival Addr) → List Event.Act
  | some (.datagram _ _ parse) => parse.acts
  | _ => []

def isDatagram : Arrival Addr → Bool
  | .interrupted => false
  | .datagram _ _ _ => true

end Arrival

end Udp

/-- A socket and the `errno` of its thread, with what `parse` has been called with and what waits
in the kernel. -/
structure UdpReader (Addr : Type u) where
  event : Event
  buffer : Bool
  errno : Errno
  parsed : List (Addr × List Byte)
  kernel : List (Udp.Arrival Addr)
deriving DecidableEq, Repr

namespace UdpReader
open Udp
variable {Addr : Type u}

/-- What a turn does besides the requests of `parse` and the end of the socket. -/
def received (inpBufSize : Nat) (a : Option (Arrival Addr)) (s : UdpReader Addr) :
    UdpReader Addr :=
  let s' := { s with buffer := true, errno := (Arrival.result a).errno s.errno,
                     kernel := s.kernel.tail }
  match a with
  | some (.datagram src bytes parse) =>
    if 0 < ((Arrival.result a).answer s.errno).real inpBufSize then
      { s' with buffer := !parse.takesBuffer, errno := parse.errno.getD s'.errno,
                parsed := s'.parsed ++ [(src, bytes.take inpBufSize)] }
    else s'
  | _ => s'

def turn (inpBufSize : Nat) (a : Option (Arrival Addr)) (s : UdpReader Addr) :
    Turn (UdpReader Addr) :=
  (UdpSocket.turn inpBufSize ⟨(Arrival.result a).answer s.errno, Arrival.acts a⟩ s.event).map
    fun e => { s.received inpBufSize a with event := e }

/-- `recvfrom` takes what waits in the kernel until there is nothing more. -/
def onInp (inpBufSize : Nat) (s : UdpReader Addr) : Exec (UdpReader Addr) :=
  loop (fun _ => true) (turn inpBufSize) (s.kernel.map some ++ [none]) s

end UdpReader

end Evel
