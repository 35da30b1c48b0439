import Evel.Model.EvLoop
import Evel.Model.ExpIndexedList

namespace Evel
open General Loop

/-- The arguments of `EvLoop::TimeoutList` -/
def EvLoop.geometry : ExpIndexed.Geometry := ⟨64, 3, by decide⟩

/-- A loop and its timeouts, for events whose `on_timeout` is that of `Event`: no timeout is added
or removed while a shift is under way. `shifts` are those that `TimeoutsTimer::timeout` has still
to make, and `due` holds the events that the shift under way has still to hand over. -/
structure TimedLoop where
  loop : EvLoop
  timeoutList : ExpIndexed.ExpIndexedList EventId EvLoop.geometry
  timeoutsTimer : Option EventId
  shifts : Nat
  due : List EventId

namespace TimedLoop
open ExpIndexed

inductive Input
  /-- User code, the system, or the next step of the loop -/
  | loop (i : Loop.Input)
  /-- `fd` is the descriptor of the timer, if it has to be made. -/
  | addTimeout (ev : EventId) (index : Nat) (fd : Int)
  | remTimeout (ev : EventId)
  /-- The timer's `on_inp`, with what `read` gives. -/
  | onInp (s : Int) (nbExpirations : UInt64)
  | shift
  /-- `on_timeout` of the next event -/
  | expire (outAreSent : Bool) (outq : Option Nat)
deriving DecidableEq

def new : TimedLoop :=
  { loop := EvLoop.new, timeoutList := .new EventId EvLoop.geometry 0, timeoutsTimer := none,
    shifts := 0, due := [] }

/-- `timeout` has not returned. -/
def busy (s : TimedLoop) : Bool := s.shifts ≠ 0 || !s.due.isEmpty

/-- The destructors of the events that the loop has destroyed take them out of the timeouts. -/
def follow (l : EvLoop) (s : TimedLoop) : TimedLoop :=
  let destroyed := (l.log.drop s.loop.log.length).map Destruction.event
  { s with loop := l, timeoutList := destroyed.foldl ExpIndexedList.destroy s.timeoutList }

/-- The loop comes to `on_inp` of the timer. -/
def atTimer (s : TimedLoop) : Option (EventId × Mask × List (EventId × Mask)) :=
  match s.timeoutsTimer, s.loop.phase with
  | some w, .batch x mask .inp rest =>
    let e := s.loop.events w
    if x = w && mask.inp && !e.wantCloseFd && !e.nextDel then some (w, mask, rest) else none
  | _, _ => none

/-- The loop does not go on before `on_inp` of the timer has been called. -/
def waits (i : Loop.Input) (s : TimedLoop) : Bool :=
  match i with
  | .next _ _ => s.atTimer.isSome
  | _ => false

/-- `add_timeout` makes the timer, that `may_have_out` is false for, before the first of all. -/
def checkTimer (fd : Int) (s : TimedLoop) : TimedLoop :=
  match s.timeoutsTimer with
  | some _ => s
  | none =>
    let l := s.loop.create (.user false) (Event.new fd false)
    { s with loop := l.install s.loop.nextId none, timeoutsTimer := some s.loop.nextId }

def addTimeout (x : EventId) (index : Nat) (fd : Int) (s : TimedLoop) : TimedLoop :=
  let s := s.checkTimer fd
  { s with loop := s.loop.setEvent x { s.loop.events x with evLoop := true },
           timeoutList := s.timeoutList.add x index }

/-- `unsigned( s >= 8 ? nb_expirations : 1 )` -/
def nbExpires (s : Int) (nbExpirations : UInt64) : Nat :=
  if 8 ≤ s then nbExpirations.toNat % 2 ^ 32 else 1

/-- User code adds and removes timeouts of events that it has made and that are not destroyed, but
not from `on_timeout`, and the loop goes on when `timeout` has returned. -/
def apply (s : TimedLoop) : Input → Exec TimedLoop
  | .loop i =>
    if s.busy || s.waits i then .ret s
    else (s.loop.apply i).map s.follow
  | .addTimeout x index fd =>
    .ret (if s.busy || !s.loop.alive x then s else s.addTimeout x index fd)
  | .remTimeout x =>
    .ret (if s.busy || !s.loop.alive x then s else { s with timeoutList := s.timeoutList.rem x })
  | .onInp r nbExpirations =>
    match s.atTimer with
    | none => .ret s
    | some (w, mask, rest) =>
      .ret { s with loop := s.loop.goto (.batch w mask .rdHup rest),
                    shifts := nbExpires r nbExpirations }
  | .shift =>
    .ret (if s.due = [] ∧ s.shifts ≠ 0 then
        { s with timeoutList := s.timeoutList.shift, due := s.timeoutList.shifted.out,
                 shifts := s.shifts - 1 }
      else s)
  | .expire outAreSent outq =>
    match s.due with
    | [] => .ret s
    | x :: due =>
      if s.loop.alive x then
        .ret { s with loop := s.loop.request x (.close outAreSent) outq, due := due }
      else .undef s

/-- Nothing follows a step that does not return. -/
def step (e : Exec TimedLoop) (i : Input) : Exec TimedLoop := e.andThen (fun s => s.apply i)

end TimedLoop

end Evel
