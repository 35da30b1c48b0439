import Mathlib.Logic.Function.Basic
import Evel.General.Exec
import Evel.Model.Event

namespace Evel
open General

/-- The address of an event. An address is not used twice. -/
abbrev EventId := Nat

namespace Loop

/-- The classes of events that the loop itself tells apart. -/
inductive Kind
  | user (mayHaveOut : Bool)
  | waitOut
deriving DecidableEq, Repr

/-- What `epoll_wait` reports of an event. -/
structure Mask where
  out : Bool
  inp : Bool
  rdHup : Bool
  hup : Bool
  err : Bool
deriving DecidableEq, Repr

/-- The test that comes next for the event at hand. In `tick` the loop is inside
`WaitOut::timeout`. -/
inductive Stage
  | want
  | out
  | inp
  | tick
  | rdHup
  | hup
  | err
deriving DecidableEq, Repr

inductive Phase
  | work
  | dels
  | poll
  | batch (ev : EventId) (mask : Mask) (stage : Stage) (rest : List (EventId × Mask))
deriving DecidableEq, Repr

/-- The methods of an event that may ask for its deletion. -/
inductive Request
  /-- `close`, `close_fd` or `on_timeout`, with what `out_are_sent` returns -/
  | close (outAreSent : Bool)
  | del
  /-- `on_rd_hup`, `on_hup`, `sys_error` or `error` -/
  | fail
deriving DecidableEq, Repr

/-- The end of an event, and the lists it is a member of at that moment. -/
structure Destruction where
  event : EventId
  inDel : Bool
  inWork : Bool
  inWaitOut : Bool
deriving DecidableEq, Repr

/-- What user code may do, at any time and from any callback, and what the system answers to
the loop. -/
inductive Input
  | create (fd : Int) (needWait mayHaveOut : Bool)
  | install (ev : EventId) (outq : Option Nat)
  | request (ev : EventId) (r : Request) (outq : Option Nat)
  | regWork (ev : EventId)
  | addWork (ev : EventId)
  /-- `epoll_wait` returns -/
  | poll (batch : List (EventId × Mask))
  /-- The loop goes on, with the answers to `out_are_sent` and to SIOCOUTQ. -/
  | next (outAreSent : Bool) (outq : Option Nat)
deriving DecidableEq, Repr

end Loop

namespace Event
open Loop

/-- The flags that a request leaves before it may come to `del`, and whether it does. -/
def flags (r : Request) (e : Event) : Event × Bool :=
  match r with
  | .close outAreSent => e.closeFdFlags outAreSent
  | .del => (e, true)
  | .fail => { e with hasError := true }.closeFdFlags true

end Event

/-- `EvLoop`. The events of the chain that `WaitOut::timeout` has disconnected are those of
`chain`, and of `renewed` when they have been pushed to `n_wait_out_list`. -/
structure EvLoop where
  events : EventId → Event
  kind : EventId → Loop.Kind
  alive : EventId → Bool
  nextId : EventId
  workList : List EventId
  delList : List EventId
  waitOutList : List EventId
  chain : List EventId
  renewed : List EventId
  waitOutTimer : Option EventId
  phase : Loop.Phase
  log : List Loop.Destruction

namespace EvLoop
open Loop

/-- A loop at the start of `run`, before any event is made. -/
def new : EvLoop :=
  { events := fun _ => Event.new 0 false, kind := fun _ => .user false, alive := fun _ => false,
    nextId := 0, workList := [], delList := [], waitOutList := [], chain := [], renewed := [],
    waitOutTimer := none, phase := .work, log := [] }

/-- The events whose `next_wait_out` is not null. -/
def waiting (s : EvLoop) : List EventId := s.waitOutList ++ s.chain ++ s.renewed

def setEvent (x : EventId) (e : Event) (s : EvLoop) : EvLoop :=
  { s with events := Function.update s.events x e }

def create (k : Kind) (e : Event) (s : EvLoop) : EvLoop :=
  { s with events := Function.update s.events s.nextId e,
           kind := Function.update s.kind s.nextId k,
           alive := Function.update s.alive s.nextId true, nextId := s.nextId + 1 }

def checkWaitOut (s : EvLoop) : EvLoop :=
  match s.waitOutTimer with
  | some _ => s
  | none =>
    -- nothing depends on the descriptor of the timer
    { s.create .waitOut { Event.new 3 true with evLoop := true } with
      waitOutTimer := some s.nextId }

def mayHaveOut : Kind → Bool
  | .user b => b
  | .waitOut => false

/-- The list that a request registers the event in, if any. -/
def target (x : EventId) (r : Request) (outq : Option Nat) (s : EvLoop) : Option Event.DelTarget :=
  let f := (s.events x).flags r
  if f.2 then some (f.1.delTarget (mayHaveOut (s.kind x)) outq) else none

/-- `push_back` does nothing for an event that is in the list already. -/
def register (x : EventId) (t : Event.DelTarget) (s : EvLoop) : EvLoop :=
  let e := s.events x
  let s' := s.setEvent x (e.register t)
  match t with
  | .waitOutList =>
    checkWaitOut (if e.nextWaitOut then s' else { s' with waitOutList := s'.waitOutList ++ [x] })
  | .delList => if e.nextDel then s' else { s' with delList := s'.delList ++ [x] }
  | .delOnInstall => s'

def request (x : EventId) (r : Request) (outq : Option Nat) (s : EvLoop) : EvLoop :=
  let s' := s.setEvent x ((s.events x).flags r).1
  match s.target x r outq with
  | none => s'
  | some t => s'.register x t

def regWork (x : EventId) (s : EvLoop) : EvLoop :=
  let e := s.events x
  if e.evLoop then
    let s' := s.setEvent x { e with nextWork := true }
    if e.nextWork then s' else { s' with workList := s'.workList ++ [x] }
  else s.setEvent x { e with workOnInstall := true }

def addWork (x : EventId) (s : EvLoop) : EvLoop :=
  let e := s.events x
  let s' := s.setEvent x { e with nextWork := true }
  if e.nextWork then s' else { s' with workList := s'.workList ++ [x] }

/-- `add_event_obj`. The user functions that it calls are inputs of their own. -/
def install (x : EventId) (outq : Option Nat) (s : EvLoop) : EvLoop :=
  let e := s.events x
  if e.evLoop then s
  else
    let s' := s.setEvent x { e with evLoop := true }
    if e.delOnInstall then s'.request x .del outq else s'

/-- `delete ev`. The destructor unlinks nothing. -/
def destroy (x : EventId) (s : EvLoop) : EvLoop :=
  { s with alive := Function.update s.alive x false,
           log := s.log ++ [⟨x, s.delList.contains x, s.workList.contains x,
             s.waiting.contains x⟩] }

def goto (p : Phase) (s : EvLoop) : EvLoop := { s with phase := p }

/-- The next notification of the batch, or the next round of the loop. -/
def advance (batch : List (EventId × Mask)) (s : EvLoop) : EvLoop :=
  match batch with
  | [] => s.goto .work
  | (x, mask) :: rest => s.goto (.batch x mask .want rest)

/-- `pending` in `WaitOut::timeout` -/
def pendingOut (outq : Option Nat) (e : Event) : Nat := if 0 ≤ e.fd then outq.getD 0 else 0

/-- One turn of the loop of `WaitOut::timeout`, or what follows it. -/
def tick (w : EventId) (outq : Option Nat) (done : Phase) (s : EvLoop) : Exec EvLoop :=
  match s.chain with
  | x :: chain =>
    if s.alive x then
      if pendingOut outq (s.events x) ≠ 0 then
        .ret { s with chain := chain, renewed := s.renewed ++ [x] }
      else .ret ({ s with chain := chain }.destroy x)
    else .undef s
  | [] =>
    let s := { s with waitOutList := s.renewed ++ s.waitOutList, renewed := [] }
    if s.waitOutList.isEmpty then
      .ret (({ s with waitOutTimer := none }.request w (.close true) none).goto done)
    else .ret (s.goto done)

/-- The body of the loop over the events that `epoll_wait` has returned. -/
def handle (x : EventId) (mask : Mask) (stage : Stage) (rest : List (EventId × Mask))
    (outAreSent : Bool) (outq : Option Nat) (s : EvLoop) : Exec EvLoop :=
  let e := s.events x
  let at_ stage := Phase.batch x mask stage rest
  match stage with
  | .want => .ret (if e.nextDel then s.advance rest else s.goto (at_ .out))
  | .out =>
    .ret ((if mask.out && e.wantCloseFd && outAreSent then s.request x .del outq else s).goto
      (at_ .inp))
  | .inp =>
    if mask.inp && !e.wantCloseFd && !e.nextDel && s.kind x = .waitOut && !s.waitOutList.isEmpty
    then .ret ({ s with chain := s.waitOutList, waitOutList := [] }.goto (at_ .tick))
    else .ret (s.goto (at_ .rdHup))
  | .tick => s.tick x outq (at_ .rdHup)
  | .rdHup => .ret ((if mask.rdHup then s.request x .fail outq else s).goto (at_ .hup))
  | .hup => .ret ((if mask.hup then s.request x .fail outq else s).goto (at_ .err))
  | .err => .ret ((if mask.err then s.request x .fail outq else s).advance rest)

/-- What `run` does next. It is undefined if it meets an event that has been destroyed. -/
def next (outAreSent : Bool) (outq : Option Nat) (s : EvLoop) : Exec EvLoop :=
  match s.phase with
  | .work =>
    match s.workList with
    | [] => .ret (s.goto .dels)
    | x :: workList =>
      if s.alive x then
        .ret ({ s with workList := workList }.setEvent x { s.events x with nextWork := false })
      else .undef s
  | .dels =>
    match s.delList with
    | [] => .ret (s.goto .poll)
    | x :: delList =>
      if s.alive x then
        .ret (({ s with delList := delList }.setEvent x
          { s.events x with nextDel := false }).destroy x)
      else .undef s
  | .poll => .ret s
  | .batch x mask stage rest =>
    if s.alive x then s.handle x mask stage rest outAreSent outq else .undef s

/-- User code reaches only events that it has made and that are not destroyed, and
`epoll_wait` reports those that are in the loop. Other inputs are passed over. -/
def apply (s : EvLoop) : Input → Exec EvLoop
  | .create fd needWait mayHaveOut => .ret (s.create (.user mayHaveOut) (Event.new fd needWait))
  | .install x outq => .ret (if s.alive x then s.install x outq else s)
  | .request x r outq => .ret (if s.alive x then s.request x r outq else s)
  | .regWork x => .ret (if s.alive x then s.regWork x else s)
  | .addWork x => .ret (if s.alive x then s.addWork x else s)
  | .poll batch =>
    .ret (if s.phase = .poll ∧ ∀ p ∈ batch, s.alive p.1 = true ∧ (s.events p.1).evLoop = true
      then s.advance batch else s)
  | .next outAreSent outq => s.next outAreSent outq

/-- Nothing follows an undefined step. -/
def step (e : Exec EvLoop) (i : Input) : Exec EvLoop := e.andThen (fun s => s.apply i)

end EvLoop

end Evel
