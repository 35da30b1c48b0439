import Mathlib.Algebra.Group.Nat.Defs
import Evel.General.Rounds
import Evel.Model.EvLoop

namespace Evel
open General Loop

namespace Event

/-- What user code asks of an event, with the answer to SIOCOUTQ. -/
structure Act where
  request : Request
  outq : Option Nat
deriving DecidableEq, Repr

def act (mayHaveOut : Bool) (e : Event) (a : Act) : Event :=
  let f := e.flags a.request
  if f.2 then f.1.del mayHaveOut a.outq else f.1

def acts (mayHaveOut : Bool) (as : List Act) (e : Event) : Event := as.foldl (act mayHaveOut) e

/-- `has_error` and `want_close_fd` are false and `next_del` is null. -/
def isOpen (e : Event) : Bool := !e.hasError && !e.wantCloseFd && !e.nextDel

end Event

/-- An answer to the system call of `on_inp`, and what the callback does if there is one. -/
structure Reply where
  answer : SysAnswer
  acts : List Event.Act
deriving DecidableEq, Repr

namespace Listener

/-- `accept` returns the descriptor of the connection. -/
def turn (r : Reply) (e : Event) : Turn Event :=
  if r.answer.count < 0 then
    if r.answer.intr then .next e
    -- all other errors return, those that do not say that the call would block with a report
    else .done e
  else .next (e.acts true r.acts)

def onInp (script : List Reply) (e : Event) : Exec Event := loop (fun _ => true) turn script e

end Listener

namespace Signal

/-- `sizeof( signalfd_siginfo )` -/
def sigInfoSize : Nat := 128

/-- `may_have_out` is false and `out_are_sent` is true. -/
def close (e : Event) : Event := e.closeFd false true none

def turn (r : Reply) (e : Event) : Turn Event :=
  let s := r.answer.real sigInfoSize
  if s = 0 then .done (close e)
  else if s < 0 then
    if r.answer.intr then .next e
    else if r.answer.again then .done e
    else .done (close e)
  else if s < sigInfoSize then .done (close e)
  else .next (e.acts false r.acts)

def onInp (script : List Reply) (e : Event) : Exec Event := loop (fun _ => true) turn script e

end Signal

namespace UdpSocket

/-- `sys_error` is the end of a socket with an error. -/
def turn (inpBufSize : Nat) (r : Reply) (e : Event) : Turn Event :=
  let inpLen := r.answer.real inpBufSize
  if inpLen ≤ 0 then
    if r.answer.intr then .next e
    else if r.answer.again then .done e
    else .done e.fail
  else
    let e := e.acts true r.acts
    if e.nextDel || e.wantCloseFd then .done e else .next e

def onInp (inpBufSize : Nat) (script : List Reply) (e : Event) : Exec Event :=
  loop (fun _ => true) (turn inpBufSize) script e

end UdpSocket

namespace Tcp

/-- What `ioctl( fd, FIONREAD, .. )` does. -/
inductive FionRead
  | size (n : UInt32)
  | fails (errno : Errno)
deriving DecidableEq, Repr

/-- The answers in one turn of the loop in `on_inp`, and what `parse` does if it is called: it may
take ownership of the buffer. -/
structure Round where
  ioctls : List FionRead
  recv : SysAnswer
  takesBuffer : Bool
  acts : List Event.Act
deriving DecidableEq, Repr

/-- A call of `recv`, with the size that was allocated for `inp_buffer`. -/
structure Recv where
  length : Nat
  allocated : Nat
deriving DecidableEq, Repr

end Tcp

/-- The input side of `TcpConnection`: `inp_buffer` as the size of what it points to, the calls of
`recv`, and its answers at which `on_hup` was called. -/
structure TcpInput where
  event : Event
  offsetParse : Nat
  inpBuffer : Option Nat
  inpBufferSize : Nat
  recvs : List Tcp.Recv
  hups : List SysAnswer
deriving DecidableEq, Repr

namespace TcpInput
open Tcp

/-- No constructor writes `inp_buffer_size`. -/
def new (fd : Int) (offsetParse inpBufferSize : Nat) : TcpInput :=
  { event := Event.new fd true, offsetParse := offsetParse, inpBuffer := none,
    inpBufferSize := inpBufferSize, recvs := [], hups := [] }

/-- `( size + 7 ) & ~7` -/
def msgAllocSize (size : Nat) : Nat := (size + 7) % 2 ^ 64 / 8 * 8

def maxBuffSize : Nat := 2 ^ 20

/-- The loop around `ioctl`, which may ask for more answers. -/
def buffSize : List FionRead → Option Nat
  | [] => none
  | .size n :: _ => some (if maxBuffSize < n.toNat then maxBuffSize else n.toNat)
  | .fails errno :: as => if errno = .intr then buffSize as else some 8192

/-- `inp_buffer_size` is an `unsigned`. -/
def allocate (size : Nat) (c : TcpInput) : TcpInput :=
  let rese := msgAllocSize ((c.offsetParse + size) % 2 ^ 64)
  { c with inpBuffer := some rese,
           inpBufferSize := (rese + 2 ^ 64 - c.offsetParse) % 2 ^ 64 % 2 ^ 32 }

/-- `on_inp` makes a buffer if there is none, or if it is too small. -/
def allocates (size : Nat) (c : TcpInput) : Bool :=
  match c.inpBuffer with
  | none => true
  | some _ => decide (c.inpBufferSize < size)

def reserve (size : Nat) (c : TcpInput) : TcpInput :=
  if c.allocates size then c.allocate size else c

def turn (r : Round) (c : TcpInput) : Turn TcpInput :=
  match buffSize r.ioctls with
  | none => .hang c
  | some size =>
    let c := c.reserve size
    let used := r.recv.real c.inpBufferSize
    let c := { c with recvs := c.recvs ++ [⟨c.inpBufferSize, c.inpBuffer.getD 0⟩] }
    if used ≤ 0 then
      if r.recv.intr then .next c
      else if used ≠ 0 ∧ r.recv.again then .done c
      else .done { c with event := c.event.fail, hups := c.hups ++ [r.recv] }
    else
      .next { c with event := c.event.acts true r.acts,
                     inpBuffer := if r.takesBuffer then none else c.inpBuffer }

def onInp (script : List Round) (c : TcpInput) : Exec TcpInput :=
  loop (fun c => !c.event.wantCloseFd && !c.event.nextDel) turn script c

/-- The loop calls `on_inp`, or user code asks something of the connection. -/
inductive Call
  | onInp (script : List Round)
  | act (a : Event.Act)
deriving DecidableEq, Repr

def call (c : TcpInput) : Call → Exec TcpInput
  | .onInp script => c.onInp script
  | .act a => .ret { c with event := c.event.act true a }

/-- Nothing follows a call that does not return. -/
def step (e : Exec TcpInput) (k : Call) : Exec TcpInput := e.andThen (fun c => c.call k)

end TcpInput

end Evel
