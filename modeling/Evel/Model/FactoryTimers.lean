import Evel.Model.MainLoop

namespace Evel
open General Loop

/-- A loop with factories among its events, and their timers. `timeoutsTimer` is the field of a
factory, `ucf` that of a timer. -/
structure FactoryTimers where
  loop : EvLoop
  timeoutsTimer : EventId → Option EventId
  needToInstallTimeoutsTimer : EventId → Bool
  ucf : EventId → Option EventId

namespace FactoryTimers

inductive Input
  /-- User code, the system, or the next step of the loop -/
  | loop (i : Loop.Input)
  /-- `add_event_obj`, with `on_install`. In what follows `fd` is the descriptor of the timer, if it
  has to be made. -/
  | install (ev : EventId) (outq : Option Nat) (fd : Int)
  | addTimeout (ev : EventId) (fd : Int)
deriving DecidableEq, Repr

def new : FactoryTimers :=
  { loop := EvLoop.new, timeoutsTimer := fun _ => none,
    needToInstallTimeoutsTimer := fun _ => false, ucf := fun _ => none }

/-- `*ev_loop << ( timeouts_timer = new UdpConnFactTimeoutsTimer( this, 0.125 ) )` -/
def makeTimer (x : EventId) (fd : Int) (s : FactoryTimers) : FactoryTimers :=
  let w := s.loop.nextId
  { s with loop := (s.loop.create (.user false) (Event.new fd false)).install w none,
           timeoutsTimer := Function.update s.timeoutsTimer x (some w),
           ucf := Function.update s.ucf w (some x) }

def addTimeout (x : EventId) (fd : Int) (s : FactoryTimers) : FactoryTimers :=
  match s.timeoutsTimer x with
  | some _ => s
  | none =>
    if (s.loop.events x).evLoop then s.makeTimer x fd
    else { s with
      needToInstallTimeoutsTimer := Function.update s.needToInstallTimeoutsTimer x true }

def install (x : EventId) (outq : Option Nat) (fd : Int) (s : FactoryTimers) : FactoryTimers :=
  if (s.loop.events x).evLoop then s
  else
    -- `on_install` comes before the test of `del_on_install`
    let s := if s.needToInstallTimeoutsTimer x then s.makeTimer x fd else s
    { s with loop := s.loop.install x outq }

/-- `~UdpConnectionFactory`, that closes the timer. -/
def dtor (x : EventId) (s : FactoryTimers) : Exec FactoryTimers :=
  match s.timeoutsTimer x with
  | none => .ret s
  | some w =>
    if s.loop.alive w then .ret { s with loop := s.loop.request w (.close true) none }
    else .undef s

/-- The destructors of the events that the loop has destroyed. -/
def follow (l : EvLoop) (s : FactoryTimers) : Exec FactoryTimers :=
  let destroyed := (l.log.drop s.loop.log.length).map Destruction.event
  destroyed.foldl (fun e x => e.andThen (dtor x)) (.ret { s with loop := l })

/-- User code has no way to the timers. -/
def hidden (x : EventId) (s : FactoryTimers) : Bool :=
  s.loop.kind x = .waitOut || (s.ucf x).isSome

/-- Epoll has nothing to report of a timer but its expirations. -/
def permits (s : FactoryTimers) : Loop.Input → Bool
  | .create _ _ _ | .next _ _ => true
  | .install _ _ => false
  | .request x _ _ | .regWork x | .addWork x => !s.hidden x
  | .poll batch => batch.all (fun p => !s.hidden p.1 || p.2.onlyInp)

/-- The factory that is called in the next step of the loop, by `on_inp` of its timer. -/
def called (s : FactoryTimers) : Option EventId :=
  match s.loop.phase with
  | .batch w mask .inp _ =>
    let e := s.loop.events w
    if s.loop.alive w && mask.inp && !e.wantCloseFd && !e.nextDel then s.ucf w else none
  | _ => none

/-- The factory that an input of the loop calls, if any, is not there. -/
def astray (i : Loop.Input) (s : FactoryTimers) : Bool :=
  match i with
  | .next _ _ => s.called.any (fun x => !s.loop.alive x)
  | _ => false

def apply (s : FactoryTimers) : Input → Exec FactoryTimers
  | .loop i =>
    if s.permits i then
      if s.astray i then .undef s
      else (s.loop.apply i).thenWith (fun l => { s with loop := l }) (fun l => s.follow l)
    else .ret s
  | .install x outq fd =>
    .ret (if s.loop.alive x && !s.hidden x then s.install x outq fd else s)
  | .addTimeout x fd => .ret (if s.loop.alive x && !s.hidden x then s.addTimeout x fd else s)

/-- Nothing follows a step that does not return. -/
def step (e : Exec FactoryTimers) (i : Input) : Exec FactoryTimers :=
  e.andThen (fun s => s.apply i)

end FactoryTimers

end Evel
