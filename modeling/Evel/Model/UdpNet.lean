import Mathlib.Logic.Function.Basic
import Evel.Model.OnInp
import Evel.Model.UdpSocket

namespace Evel
open General

/-- A datagram on its way. -/
structure Packet (Addr : Type u) where
  src : Addr
  dst : Addr
  bytes : List Byte
deriving DecidableEq, Repr

/-- A socket with an address of its own. `parsed` holds what `parse` was called with. -/
structure UdpHost (Addr : Type u) where
  sock : UdpSocket Addr
  inpBufSize : Nat
  parsed : List (Addr × List Byte)

/-- Hosts, and the datagrams that `sendto` has accepted and `recvfrom` has not given out. No sender
writes to a buffer that it has handed over: `Dns` and `UdpConnectionDTLS`, that fill theirs again,
are not among them. -/
structure UdpNet (Addr : Type u) where
  hosts : Addr → UdpHost Addr
  air : List (Packet Addr)

namespace UdpNet
open Udp
variable {Addr : Type u}

inductive Input (Addr : Type u)
  | send (src dst : Addr) (data : Buffer) (allowTransferOwnership : Bool)
      (script : List SysAnswer)
  | onOut (src : Addr) (script : List SysAnswer)
  /-- A turn of the loop in `on_inp`: `recvfrom` gives the datagram at this place or fails, with
  what `errno` is then. -/
  | onInp (dst : Addr) (k : Option Nat) (errno : Errno) (acts : List Event.Act)
  | act (host : Addr) (a : Event.Act)
  | lose (k : Nat)
  | duplicate (k : Nat)
deriving DecidableEq

def new (fd : Addr → Int) (inpBufSize : Addr → Nat) : UdpNet Addr :=
  { hosts := fun i => ⟨UdpSocket.new (fd i) true, inpBufSize i, []⟩, air := [] }

variable [DecidableEq Addr]

/-- What the host has sent since its socket was the old one comes to the network. -/
def putOut (src : Addr) (sock : UdpSocket Addr) (s : UdpNet Addr) : UdpNet Addr :=
  let h := s.hosts src
  let sent := sock.sent.drop h.sock.sent.length
  { hosts := Function.update s.hosts src { h with sock := sock },
    air := s.air ++ sent.map (fun p => ⟨src, p.1, p.2⟩) }

def putEvent (dst : Addr) (t : Turn Event) (s : UdpNet Addr) : Exec (UdpNet Addr) :=
  let put e : UdpNet Addr :=
    let h := s.hosts dst
    { s with hosts := Function.update s.hosts dst { h with sock := { h.sock with event := e } } }
  match t with
  | .next e | .done e => .ret (put e)
  | .hang e => .hang (put e)

/-- `recvfrom` gives no more of a datagram than there is room for, and drops the rest. -/
def receive (dst : Addr) (p : Packet Addr) (s : UdpNet Addr) : UdpNet Addr :=
  let h := s.hosts dst
  let data := p.bytes.take h.inpBufSize
  if data = [] then s
  else
    { s with hosts := Function.update s.hosts dst { h with parsed := h.parsed ++ [(p.src, data)] } }

/-- The loop does not come to `on_inp` of a socket that is to be closed. -/
def onInp (dst : Addr) (k : Option Nat) (errno : Errno) (acts : List Event.Act)
    (s : UdpNet Addr) : Exec (UdpNet Addr) :=
  let h := s.hosts dst
  let e := h.sock.event
  if e.nextDel || e.wantCloseFd then .ret s
  else
    match k with
    | none => s.putEvent dst (UdpSocket.turn h.inpBufSize ⟨⟨-1, errno⟩, acts⟩ e)
    | some k =>
      match s.air[k]? with
      | none => .ret s
      | some p =>
        if p.dst = dst then
          ({ s with air := s.air.eraseIdx k }.receive dst p).putEvent dst
            (UdpSocket.turn h.inpBufSize ⟨⟨p.bytes.length, errno⟩, acts⟩ e)
        else .ret s

def act (i : Addr) (a : Event.Act) (s : UdpNet Addr) : UdpNet Addr :=
  let h := s.hosts i
  let sock := { h.sock with event := h.sock.event.act true a }
  { s with hosts := Function.update s.hosts i { h with sock := sock } }

/-- The network may lose a datagram, deliver it more than once, and deliver any before another. -/
def apply (s : UdpNet Addr) : Input Addr → Exec (UdpNet Addr)
  | .send src dst data allow script =>
    ((s.hosts src).sock.sendRaw dst data allow script).map (fun r => s.putOut src r.1)
  | .onOut src script => ((s.hosts src).sock.onOut script).map (fun sock => s.putOut src sock)
  | .onInp dst k errno acts => s.onInp dst k errno acts
  | .act i a => .ret (s.act i a)
  | .lose k => .ret { s with air := s.air.eraseIdx k }
  | .duplicate k => .ret { s with air := s.air ++ s.air[k]?.toList }

/-- Nothing follows a step that does not return. -/
def step (e : Exec (UdpNet Addr)) (k : Input Addr) : Exec (UdpNet Addr) :=
  e.andThen (fun s => s.apply k)

end UdpNet

end Evel
