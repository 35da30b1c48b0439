import Evel.Model.EvLoop

namespace Evel
open General Loop

namespace Loop.Mask

/-- All that epoll reports of a timer. -/
def onlyInp (m : Mask) : Bool := !m.out && !m.rdHup && !m.hup && !m.err

end Loop.Mask

namespace MainLoop

/-- Why `run` returns. -/
inductive Cause
  /-- `nb_waiting_events` is 0. -/
  | idle
  /-- `stop` has been called. -/
  | stopped
  /-- `epoll_wait` has failed. -/
  | failed
deriving DecidableEq, Repr

inductive Input
  /-- User code, `epoll_wait`, or the next step of `run` -/
  | loop (i : Loop.Input)
  | run
  | stop (retVal : Int)
  | incNbWaitingEvents
  | decNbWaitingEvents
  /-- `>>` -/
  | remEventObj (ev : EventId)
  /-- `epoll_wait` returns -1. -/
  | pollError (intr : Bool)
deriving DecidableEq, Repr

end MainLoop

/-- A loop with what `run` asks before it goes on. `held` are the waiting events that user code has
counted itself and not taken back, `removed` the events that it has taken out of the loop. -/
structure MainLoop where
  loop : EvLoop
  nbWaitingEvents : Int
  held : Nat
  removed : List EventId
  ret : Int
  cnt : Bool
  running : Bool
  returned : Option (MainLoop.Cause × Int)

namespace MainLoop

def new : MainLoop :=
  { loop := EvLoop.new, nbWaitingEvents := 0, held := 0, removed := [], ret := 0, cnt := false,
    running := false, returned := none }

/-- `run` returns. -/
def leave (c : Cause) (value : Int) (s : MainLoop) : MainLoop :=
  { s with running := false, returned := some (c, value) }

/-- `while ( cnt )` -/
def again (s : MainLoop) : MainLoop :=
  if s.cnt then { s with loop := s.loop.goto .work } else s.leave .stopped s.ret

/-- User code has no way to the timer of `wait_out_list`, and epoll has nothing to report of it but
its expirations, and of an event that has been taken out nothing. -/
def permits (s : MainLoop) : Loop.Input → Bool
  | .create _ _ _ => true
  | .install x _ | .request x _ _ | .regWork x | .addWork x => s.loop.kind x ≠ .waitOut
  | .poll batch =>
    s.running && batch.all (fun p =>
      (s.loop.kind p.1 ≠ .waitOut || p.2.onlyInp) && !s.removed.contains p.1)
  | .next _ _ => s.running

/-- `if ( ev->need_wait ) ++nb_waiting_events` for the event of an input -/
def installed (i : Loop.Input) (l : EvLoop) : Nat :=
  match i with
  | .install x _ => if l.alive x && !(l.events x).evLoop && (l.events x).needWait then 1 else 0
  | _ => 0

/-- The same in `check_wait_out`, that adds its timer. The loop waits for it. -/
def timerMade (l l' : EvLoop) : Nat :=
  if l.waitOutTimer.isNone && l'.waitOutTimer.isSome then 1 else 0

/-- `~Event` takes an event out of the loop if its descriptor is above 2. -/
def discounted (l : EvLoop) (x : EventId) : Bool :=
  let e := l.events x
  decide (2 < e.fd) && e.evLoop && e.needWait

/-- The events that the step from `l` to `l'` destroys -/
def ended (l l' : EvLoop) : List EventId := (l'.log.drop l.log.length).map Destruction.event

/-- `--nb_waiting_events` in their destructors -/
def destroyed (l l' : EvLoop) : Nat := (ended l l').countP (discounted l')

/-- `~Event` takes an event out that epoll does not know any more: `>>` has left its `ev_loop`. -/
def aborts (l : EvLoop) (s : MainLoop) : Bool :=
  (ended s.loop l).any (fun x =>
    decide (2 < (l.events x).fd) && (l.events x).evLoop && s.removed.contains x)

/-- `rem_event_obj`. It aborts when epoll does not know the descriptor: epoll has taken those of the
events that were added. Without a descriptor, user code takes an event out that is in the loop, and
once. -/
def remEventObj (x : EventId) (s : MainLoop) : Exec MainLoop :=
  let e := s.loop.events x
  if e.evLoop && !s.removed.contains x then
    .ret { s with
      nbWaitingEvents := s.nbWaitingEvents - (if e.needWait then 1 else 0)
      removed := x :: s.removed }
  else if 0 ≤ e.fd then .hang s
  else .ret s

/-- After a step of the loop or of user code -/
def follow (i : Loop.Input) (l : EvLoop) (s : MainLoop) : MainLoop :=
  let s' := { s with
    loop := l
    nbWaitingEvents := s.nbWaitingEvents + installed i s.loop + timerMade s.loop l -
      destroyed s.loop l }
  -- the end of a batch
  if s.running && s.loop.phase ≠ .work && l.phase = .work then s'.again else s'

/-- `run` comes to its test of `nb_waiting_events`. -/
def asks (s : MainLoop) : Input → Bool
  | .loop (.next _ _) => s.running && s.loop.phase = .dels && s.loop.delList.isEmpty
  | _ => false

def apply (s : MainLoop) : Input → Exec MainLoop
  | .loop i =>
    if s.asks (.loop i) && s.nbWaitingEvents = 0 then .ret (s.leave .idle s.ret)
    else if s.permits i then
      (s.loop.apply i).thenWith (fun _ => s) fun l =>
        if s.aborts l then .hang s else .ret (s.follow i l)
    else .ret s
  | .run =>
    .ret (if s.running then s
      else { s with cnt := true, running := true, loop := s.loop.goto .work })
  | .stop retVal => .ret { s with ret := retVal, cnt := false }
  | .incNbWaitingEvents =>
    .ret { s with nbWaitingEvents := s.nbWaitingEvents + 1, held := s.held + 1 }
  | .decNbWaitingEvents =>
    -- user code takes back what it has counted
    .ret (if s.held = 0 then s
      else { s with nbWaitingEvents := s.nbWaitingEvents - 1, held := s.held - 1 })
  | .remEventObj x =>
    -- the timer of `wait_out_list` is not at hand
    if s.loop.alive x && s.loop.kind x ≠ .waitOut then s.remEventObj x else .ret s
  | .pollError intr =>
    .ret (if s.running && s.loop.phase = .poll then
        if intr then s.again else s.leave .failed (-1)
      else s)

/-- Nothing follows a step that does not return. -/
def step (e : Exec MainLoop) (i : Input) : Exec MainLoop := e.andThen (fun s => s.apply i)

end MainLoop

end Evel
