import Mathlib.Logic.Function.Basic
import Evel.Model.OnInp
import Evel.Model.TcpConnection

namespace Evel
open General

/-- One end of a connection. The two sides of `TcpConnection` share its event, and `parsed` holds
the bytes that `parse` was called with. -/
structure TcpEnd where
  out : TcpConnection
  inp : TcpInput
  parsed : List Byte

namespace TcpEnd

def new (fd : Int) (waiting : Bool) (offsetParse inpBufferSize : Nat) : TcpEnd :=
  { out := TcpConnection.new fd waiting, inp := TcpInput.new fd offsetParse inpBufferSize,
    parsed := [] }

/-- A call of `send` or `on_out` has come to `c`. -/
def putOut (c : TcpConnection) (e : TcpEnd) : TcpEnd :=
  { e with out := c, inp := { e.inp with event := c.event } }

/-- A turn of `on_inp` has come to `c`, and `parse` was given `bytes`. -/
def putInp (c : TcpInput) (bytes : List Byte) (e : TcpEnd) : TcpEnd :=
  { out := { e.out with event := c.event }, inp := c, parsed := e.parsed ++ bytes }

end TcpEnd

/-- Two ends, in processes of their own, whose callers do not write to a buffer that they have
handed over. `wire i` holds the bytes that `sendmsg` has accepted from the end `i` and `recv` has
not given to the other one. -/
structure TcpLink where
  ends : Bool → TcpEnd
  wire : Bool → List Byte

namespace TcpLink
open Tcp

inductive Input
  | send (i : Bool) (data : Buffer) (rese : Nat) (allowTransferOwnership : Bool)
      (script : List SysAnswer)
  | onOut (i : Bool) (script : List SysAnswer)
  /-- A turn of the loop in `on_inp` -/
  | onInp (i : Bool) (r : Round)
  | act (i : Bool) (a : Event.Act)
deriving DecidableEq

/-- A client and the connection that a listener has accepted. -/
def new (fd : Bool → Int) (offsetParse inpBufferSize : Bool → Nat) : TcpLink :=
  { ends := fun i => TcpEnd.new (fd i) i (offsetParse i) (inpBufferSize i), wire := fun _ => [] }

/-- What the end `i` has sent since it was `e` comes to the wire. -/
def putOut (i : Bool) (c : TcpConnection) (s : TcpLink) : TcpLink :=
  let e := s.ends i
  { ends := Function.update s.ends i (e.putOut c),
    wire := Function.update s.wire i (s.wire i ++ c.accepted.drop e.out.accepted.length) }

/-- `recv` gives `used` bytes to the end `i`. -/
def putInp (i : Bool) (c : TcpInput) (used : Nat) (s : TcpLink) : TcpLink :=
  { ends := Function.update s.ends i ((s.ends i).putInp c ((s.wire (!i)).take used)),
    wire := Function.update s.wire (!i) ((s.wire (!i)).drop used) }

/-- `used` in a turn of `on_inp` -/
def used (r : Round) (c : TcpInput) : Nat :=
  match TcpInput.buffSize r.ioctls with
  | none => 0
  | some size => (r.recv.real (c.reserve size).inpBufferSize).toNat

/-- `recv` gives no more than there is. Other answers are passed over, and so is a turn that the
condition of the loop does not admit. -/
def onInp (i : Bool) (r : Round) (s : TcpLink) : Exec TcpLink :=
  let c := (s.ends i).inp
  if c.event.wantCloseFd || c.event.nextDel || decide ((s.wire (!i)).length < used r c) then .ret s
  else
    match TcpInput.turn r c with
    | .next c' => .ret (s.putInp i c' (used r c))
    | .done c' => .ret (s.putInp i c' 0)
    | .hang c' => .hang (s.putInp i c' 0)

def act (i : Bool) (a : Event.Act) (s : TcpLink) : TcpLink :=
  let e := s.ends i
  s.putOut i { e.out with event := e.out.event.act true a }

def apply (s : TcpLink) : Input → Exec TcpLink
  | .send i data rese allow script =>
    ((s.ends i).out.send data rese allow script).map (fun r => s.putOut i r.1)
  | .onOut i script => ((s.ends i).out.onOut script).map (fun c => s.putOut i c)
  | .onInp i r => s.onInp i r
  | .act i a => .ret (s.act i a)

/-- Nothing follows a step that does not return. -/
def step (e : Exec TcpLink) (k : Input) : Exec TcpLink := e.andThen (fun s => s.apply k)

end TcpLink

end Evel
