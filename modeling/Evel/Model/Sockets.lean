import Evel.Model.EvLoop
import Evel.Model.TcpConnection
import Evel.Model.UdpSocket

namespace Evel
open General

/-- An event that sends through `waiting_sends`. -/
inductive Sock (Addr : Type u)
  | tcp (c : TcpConnection)
  | udp (u : UdpSocket Addr)
deriving DecidableEq

namespace Sock
variable {Addr : Type u}

def event : Sock Addr → Event
  | .tcp c => c.event
  | .udp u => u.event

def withEvent (e : Event) : Sock Addr → Sock Addr
  | .tcp c => .tcp { c with event := e }
  | .udp u => .udp { u with event := e }

def outAreSent : Sock Addr → Bool
  | .tcp c => c.outAreSent
  | .udp u => u.outAreSent

def onOut (script : List SysAnswer) : Sock Addr → Exec (Sock Addr)
  | .tcp c => (c.onOut script).map .tcp
  | .udp u => (u.onOut script).map .udp

/-- `on_inp` returns at this answer, which is no message and no interruption, without an error. -/
def again (a : SysAnswer) : Sock Addr → Bool
  | .tcp _ => a.count ≠ 0 && a.again
  | .udp _ => a.again

end Sock

namespace Sockets
open Loop

/-- What happens to the sockets. An event is told to close when `close`, `close_fd`, `on_timeout`
or `del` is called, also by the loop or because of an error. -/
inductive Entry
  /-- SIOCOUTQ -/
  | asked (ev : EventId) (outq : Option Nat)
  | told (ev : EventId)
  | parsed (ev : EventId)
  | destroyed (ev : EventId) (fd : Int) (outAreSent : Bool)
deriving DecidableEq, Repr

/-- Where the loop is in the `on_inp` of the socket at hand: not in it, before the next call of
`recv`, or in `parse`. -/
inductive Reading
  | no
  | recv
  | parse
deriving DecidableEq, Repr

inductive Input (Addr : Type u)
  /-- An event that is no socket -/
  | create (fd : Int) (needWait mayHaveOut : Bool)
  | tcp (fd : Int) (waiting : Bool)
  | udp (fd : Int) (needWait : Bool)
  | tcpSend (ev : EventId) (data : Buffer) (rese : Nat) (allowTransferOwnership : Bool)
      (script : List SysAnswer)
  | udpSend (ev : EventId) (dst : Addr) (data : Buffer) (allowTransferOwnership : Bool)
      (script : List SysAnswer)
  | install (ev : EventId) (outq : Option Nat)
  | request (ev : EventId) (r : Request) (outq : Option Nat)
  | regWork (ev : EventId)
  | addWork (ev : EventId)
  | poll (batch : List (EventId × Mask))
  /-- The loop goes on: what `out_are_sent` returns for an event that is no socket, the answer
  to SIOCOUTQ, and those to the sends of `on_out`. -/
  | next (outAreSent : Bool) (outq : Option Nat) (script : List SysAnswer)
  | recv (a : SysAnswer)
deriving DecidableEq

end Sockets

/-- A loop and the sockets among its events. The flags of a socket are those of the loop. -/
structure Sockets (Addr : Type u) where
  loop : EvLoop
  sock : EventId → Option (Sock Addr)
  reading : Sockets.Reading
  log : List Sockets.Entry

namespace Sockets
open Loop
variable {Addr : Type u}

def new : Sockets Addr :=
  { loop := EvLoop.new, sock := fun _ => none, reading := .no, log := [] }

def note (es : List Entry) (s : Sockets Addr) : Sockets Addr := { s with log := s.log ++ es }

def goto (p : Phase) (s : Sockets Addr) : Sockets Addr := { s with loop := s.loop.goto p }

def advance (batch : List (EventId × Mask)) (s : Sockets Addr) : Sockets Addr :=
  { s with loop := s.loop.advance batch }

/-- `out_are_sent`, with what it returns for an event that is no socket. -/
def outAreSent (x : EventId) (other : Bool) (s : Sockets Addr) : Bool :=
  match s.sock x with
  | some k => k.outAreSent
  | none => other

def create (k : Sock Addr) (s : Sockets Addr) : Sockets Addr :=
  { s with loop := s.loop.create (.user true) k.event,
           sock := Function.update s.sock s.loop.nextId (some k) }

/-- A request comes to the test of `del` that calls SIOCOUTQ. -/
def asksOutq (x : EventId) (r : Request) (l : EvLoop) : Bool :=
  let f := (l.events x).flags r
  f.2 && f.1.evLoop && decide (0 ≤ f.1.fd) && !f.1.hasError && EvLoop.mayHaveOut (l.kind x)

/-- The request with what `out_are_sent` really returns. -/
def actual (x : EventId) (r : Request) (s : Sockets Addr) : Request :=
  match r with
  | .close other => .close (s.outAreSent x other)
  | r => r

def request (x : EventId) (r : Request) (outq : Option Nat) (s : Sockets Addr) : Sockets Addr :=
  let r := s.actual x r
  { s with loop := s.loop.request x r outq }.note
    (.told x :: if asksOutq x r s.loop then [.asked x outq] else [])

/-- A call has left the socket in the state `k`: if it changed the flags, by an error. -/
def put (x : EventId) (k : Sock Addr) (s : Sockets Addr) : Sockets Addr :=
  let s' := { s with sock := Function.update s.sock x (some k) }
  if k.event = s.loop.events x then s' else s'.request x .fail none

def load (x : EventId) (s : Sockets Addr) : Option (Sock Addr) :=
  if s.loop.alive x then (s.sock x).map (Sock.withEvent (s.loop.events x)) else none

def install (x : EventId) (outq : Option Nat) (s : Sockets Addr) : Sockets Addr :=
  let e := s.loop.events x
  if e.evLoop then s
  else
    let s' := { s with loop := s.loop.setEvent x { e with evLoop := true } }
    if e.delOnInstall then s'.request x .del outq else s'

/-- What the inputs of user code do to live events, and `epoll_wait`. -/
def user (s : Sockets Addr) : Input Addr → Exec (Sockets Addr)
  | .create fd needWait mayHaveOut =>
    .ret { s with loop := s.loop.create (.user mayHaveOut) (Event.new fd needWait) }
  | .tcp fd waiting => .ret (s.create (.tcp (TcpConnection.new fd waiting)))
  | .udp fd needWait => .ret (s.create (.udp (UdpSocket.new fd needWait)))
  | .tcpSend x data rese allow script =>
    match s.load x with
    | some (.tcp c) => (c.send data rese allow script).map (fun r => s.put x (.tcp r.1))
    | _ => .ret s
  | .udpSend x dst data allow script =>
    match s.load x with
    | some (.udp u) => (u.sendRaw dst data allow script).map (fun r => s.put x (.udp r.1))
    | _ => .ret s
  | .install x outq => .ret (if s.loop.alive x then s.install x outq else s)
  | .request x r outq => .ret (if s.loop.alive x then s.request x r outq else s)
  | .regWork x => .ret (if s.loop.alive x then { s with loop := s.loop.regWork x } else s)
  | .addWork x => .ret (if s.loop.alive x then { s with loop := s.loop.addWork x } else s)
  | .poll batch =>
    .ret (if s.loop.phase = .poll ∧
        ∀ p ∈ batch, s.loop.alive p.1 = true ∧ (s.loop.events p.1).evLoop = true
      then s.advance batch else s)
  | _ => .ret s

/-- The test of `run` after `on_out`. -/
def afterOut (x : EventId) (mask : Mask) (outq : Option Nat) (s : Sockets Addr) : Sockets Addr :=
  if mask.out && (s.loop.events x).wantCloseFd && s.outAreSent x true then s.request x .del outq
  else s

/-- The body of the loop over the notifications, for a socket. No user code runs between the
first test and the one after `on_out`, so these are one step. -/
def handle (x : EventId) (mask : Mask) (stage : Stage) (rest : List (EventId × Mask))
    (outq : Option Nat) (script : List SysAnswer) (k : Sock Addr) (s : Sockets Addr) :
    Exec (Sockets Addr) :=
  let e := s.loop.events x
  let at_ stage := Phase.batch x mask stage rest
  match stage with
  | .want =>
    if e.nextDel then .ret (s.advance rest)
    else
      (if mask.out then ((k.withEvent e).onOut script).map (fun k => s.put x k) else .ret s).andThen
        fun s => .ret ((s.afterOut x mask outq).goto (at_ .inp))
  -- no socket is between two steps here
  | .out | .tick => .ret s
  | .inp =>
    if mask.inp && !e.wantCloseFd && !e.nextDel then .ret { s with reading := .recv }
    else .ret (s.goto (at_ .rdHup))
  | .rdHup => .ret ((if mask.rdHup then s.request x .fail outq else s).goto (at_ .hup))
  | .hup => .ret ((if mask.hup then s.request x .fail outq else s).goto (at_ .err))
  | .err => .ret ((if mask.err then s.request x .fail outq else s).advance rest)

/-- The end of a socket -/
def obituary (x : EventId) (s : Sockets Addr) : List Entry :=
  match s.sock x with
  | some k => [.destroyed x (s.loop.events x).fd k.outAreSent]
  | none => []

/-- What the loop asks and destroys in its next step. -/
def entries (outq : Option Nat) (s : Sockets Addr) : List Entry :=
  match s.loop.phase with
  | .dels =>
    match s.loop.delList with
    | x :: _ => s.obituary x
    | [] => []
  | .batch _ _ .tick _ =>
    match s.loop.chain with
    | x :: _ => (if 0 ≤ (s.loop.events x).fd then [.asked x outq] else []) ++
        if EvLoop.pendingOut outq (s.loop.events x) = 0 then s.obituary x else []
    | [] => []
  | _ => []

/-- A step of the loop that handles no notification of a socket. -/
def others (outAreSent : Bool) (outq : Option Nat) (s : Sockets Addr) : Exec (Sockets Addr) :=
  (s.loop.next outAreSent outq).bimap (fun l => { s with loop := l }.note (s.entries outq))
    (fun l => { s with loop := l })

/-- `on_inp` returns. -/
def leave (s : Sockets Addr) : Sockets Addr :=
  match s.loop.phase with
  | .batch x mask _ rest => { s with reading := .no }.goto (.batch x mask .rdHup rest)
  | _ => s

def next (outAreSent : Bool) (outq : Option Nat) (script : List SysAnswer) (s : Sockets Addr) :
    Exec (Sockets Addr) :=
  match s.loop.phase with
  | .batch x mask stage rest =>
    match s.sock x with
    | some k =>
      if s.loop.alive x then
        match s.reading with
        | .no => s.handle x mask stage rest outq script k
        | .recv => .ret s
        | .parse =>
          -- `parse` has returned
          .ret (if (s.loop.events x).wantCloseFd || (s.loop.events x).nextDel then s.leave
            else { s with reading := .recv })
      else .undef s
    | none => s.others outAreSent outq
  | _ => s.others outAreSent outq

/-- `recv` or `recvfrom` returns. -/
def recv (a : SysAnswer) (s : Sockets Addr) : Exec (Sockets Addr) :=
  match s.reading, s.loop.phase with
  | .recv, .batch x _ _ _ =>
    match s.sock x with
    | some k =>
      if s.loop.alive x then
        if 0 < a.count then .ret ({ s with reading := .parse }.note [.parsed x])
        else if a.intr then .ret s
        else if k.again a then .ret s.leave
        else .ret (s.request x .fail none).leave
      else .undef s
    | none => .ret s
  | _, _ => .ret s

/-- No user code runs while a socket waits for `recv`. -/
def apply (s : Sockets Addr) : Input Addr → Exec (Sockets Addr)
  | .next outAreSent outq script => s.next outAreSent outq script
  | .recv a => s.recv a
  | i => if s.reading = .recv then .ret s else s.user i

/-- Nothing follows a step that does not return. -/
def step (e : Exec (Sockets Addr)) (i : Input Addr) : Exec (Sockets Addr) :=
  e.andThen (fun s => s.apply i)

end Sockets

end Evel
