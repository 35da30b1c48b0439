import Mathlib.Logic.Function.Basic
import Evel.Model.EvLoop

namespace Evel

/-- The part of `EvLoop` that knows which events are in the loop: what epoll watches, and how many
events the loop waits for. `inLoop` are the events that have been added, and neither removed nor
destroyed since. -/
structure Registry where
  eventFd : Int
  fd : EventId → Int
  needWait : EventId → Bool
  evLoop : EventId → Bool
  alive : EventId → Bool
  nextId : EventId
  watched : List Int
  nbWaitingEvents : Int
  aborted : Bool
  inLoop : List EventId

namespace Registry

/-- A loop with the descriptor that `epoll_create1` has returned. -/
def new (eventFd : Int) : Registry :=
  { eventFd := eventFd, fd := fun _ => -1, needWait := fun _ => false, evLoop := fun _ => false,
    alive := fun _ => false, nextId := 0, watched := [], nbWaitingEvents := 0, aborted := false,
    inLoop := [] }

/-- The constructor of `Event`. -/
def create (fd : Int) (needWait : Bool) (s : Registry) : Registry :=
  { s with fd := Function.update s.fd s.nextId fd,
           needWait := Function.update s.needWait s.nextId needWait,
           evLoop := Function.update s.evLoop s.nextId false,
           alive := Function.update s.alive s.nextId true, nextId := s.nextId + 1 }

/-- `EPOLL_CTL_ADD`. An error is only reported. -/
def watch (fd : Int) (accepts : Bool) (s : Registry) : Registry :=
  if 0 ≤ fd && accepts && !s.watched.contains fd then { s with watched := fd :: s.watched } else s

/-- `add_event_obj`, with the answer of epoll to a descriptor that it does not watch yet. -/
def addEventObj (x : EventId) (accepts : Bool) (s : Registry) : Registry :=
  if s.evLoop x || decide (s.eventFd < 0) then s
  else
    let s := { s with evLoop := Function.update s.evLoop x true }
    let s := if s.needWait x then { s with nbWaitingEvents := s.nbWaitingEvents + 1 } else s
    s.watch (s.fd x) accepts

/-- `rem_event_obj` -/
def remEventObj (x : EventId) (s : Registry) : Registry :=
  if 0 ≤ s.eventFd then
    if 0 ≤ s.fd x && !s.watched.contains (s.fd x) then { s with aborted := true }
    else
      let s := { s with watched := s.watched.erase (s.fd x) }
      if s.needWait x then { s with nbWaitingEvents := s.nbWaitingEvents - 1 } else s
  else s

/-- `Event::~Event`. Epoll forgets a descriptor that is closed. -/
def destroy (x : EventId) (s : Registry) : Registry :=
  let s := if 2 < s.fd x && s.evLoop x then s.remEventObj x else s
  if s.aborted then s
  else
    let s := if 2 < s.fd x then { s with watched := s.watched.erase (s.fd x) } else s
    { s with alive := Function.update s.alive x false }

inductive Input
  | create (fd : Int) (needWait : Bool)
  | add (ev : EventId) (accepts : Bool)
  | remove (ev : EventId)
  | destroy (ev : EventId)
deriving DecidableEq, Repr

/-- Only live events are added, removed and destroyed, and nothing follows `abort`. -/
def step (s : Registry) (i : Input) : Registry :=
  if s.aborted then s
  else
    match i with
    | .create fd needWait => s.create fd needWait
    | .add x accepts =>
      if s.alive x then
        { s.addEventObj x accepts with
          inLoop := if x ∈ s.inLoop ∨ s.eventFd < 0 then s.inLoop else x :: s.inLoop }
      else s
    | .remove x =>
      if s.alive x then { s.remEventObj x with inLoop := s.inLoop.erase x } else s
    | .destroy x =>
      if s.alive x then { s.destroy x with inLoop := s.inLoop.erase x } else s

end Registry

end Evel
