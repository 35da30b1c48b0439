import Evel.Model.CiList
import Evel.Model.EvLoop

namespace Evel
open General

namespace WaitOut

/-- The lists that go through `next_wait_out`: that of the loop, and that of `timeout`. -/
inductive Waits
  | waitOutList
  | nWaitOutList
deriving DecidableEq, Repr

/-- A call of `del`, with the answer to SIOCOUTQ. -/
structure Del where
  event : EventId
  outq : Option Nat
deriving DecidableEq, Repr

end WaitOut

open WaitOut

/-- What `WaitOut::timeout` works on. The fields `next_wait_out` are those of `waits` and the fields
`next_del` those of `dels`, whose only list is `del_list`. -/
structure WaitOut where
  events : EventId → Event
  mayHaveOut : EventId → Bool
  alive : EventId → Bool
  nextId : EventId
  waits : CiList.Heap Waits EventId
  dels : CiList.Heap Unit EventId
  waitOutTimer : Option EventId
  destroyed : List EventId

namespace WaitOut

def setEvent (x : EventId) (e : Event) (s : WaitOut) : WaitOut :=
  { s with events := Function.update s.events x e }

def checkWaitOut (s : WaitOut) : WaitOut :=
  match s.waitOutTimer with
  | some _ => s
  | none =>
    -- nothing depends on the descriptor of the timer
    { s with events := Function.update s.events s.nextId { Event.new 3 true with evLoop := true }
             mayHaveOut := Function.update s.mayHaveOut s.nextId false
             alive := Function.update s.alive s.nextId true
             nextId := s.nextId + 1
             waitOutTimer := some s.nextId }

/-- `Event::del` -/
def del (d : Del) (s : WaitOut) : Exec WaitOut :=
  let e := s.events d.event
  if s.alive d.event then
    let t := e.delTarget (s.mayHaveOut d.event) d.outq
    let s := s.setEvent d.event (e.register t)
    match t with
    | .waitOutList =>
      .ret (checkWaitOut { s with waits := s.waits.pushBack .waitOutList d.event })
    | .delList => .ret { s with dels := s.dels.pushBack () d.event }
    | .delOnInstall => .ret s
  else .undef s

/-- `Event::close_fd` of a timer, whose `out_are_sent` is true and whose `may_have_out` is false. -/
def closeFd (x : EventId) (s : WaitOut) : Exec WaitOut :=
  let f := (s.events x).closeFdFlags true
  let s := s.setEvent x f.1
  if f.2 then s.del ⟨x, none⟩ else .ret s

/-- What a destructor does: calls of `del`. -/
def destructor : List Del → WaitOut → Exec WaitOut
  | [], s => .ret s
  | d :: ds, s => (s.del d).andThen (destructor ds)

/-- `delete ev` -/
def delete (x : EventId) (dels : List Del) (s : WaitOut) : Exec WaitOut :=
  (s.destructor dels).map fun s =>
    { s with alive := Function.update s.alive x false, destroyed := s.destroyed ++ [x] }

/-- What happens to an event of the chain: the answer to SIOCOUTQ, and its destructor if that is
called. -/
structure Reaction where
  outq : Option Nat
  dels : List Del
deriving DecidableEq, Repr

/-- `pending` is not 0. -/
def stays (r : EventId → Reaction) (events : EventId → Event) (x : EventId) : Bool :=
  EvLoop.pendingOut (r x).outq (events x) ≠ 0

/-- One turn of the loop in `timeout`, without the steps to the next event. -/
def turn (r : EventId → Reaction) (ev : EventId) (s : WaitOut) : Exec WaitOut :=
  if stays r s.events ev then
    -- the link is reset, to be really pushed
    .ret { s with waits := (s.waits.setNext ev none).pushBack .nWaitOutList ev }
  else s.delete ev (r ev).dels

/-- The loop in `timeout`, for as many turns as there is fuel. It is undefined if it meets a null
pointer or an event that has been destroyed. -/
def walk (r : EventId → Reaction) : Nat → Option EventId → WaitOut → Exec WaitOut
  | 0, _, s => .hang s
  | _ + 1, none, s => .undef s
  | n + 1, some ev, s =>
    if s.alive ev then
      let nx := s.waits.next ev
      (s.turn r ev).andThen fun s => if nx = some ev then .ret s else walk r n nx s
    else .undef s

/-- What `timeout` does when the chain is done. -/
def finish (w : EventId) (s : WaitOut) : Exec WaitOut :=
  ((s.waits.prepend .waitOutList .nWaitOutList).map fun h => { s with waits := h }).andThen fun s =>
    if s.waits.empty .waitOutList then closeFd w { s with waitOutTimer := none } else .ret s

/-- `WaitOut::timeout` of the timer `w` -/
def timeout (r : EventId → Reaction) (w : EventId) (fuel : Nat) (s : WaitOut) : Exec WaitOut :=
  let d := s.waits.disconnect .waitOutList
  let s := { s with waits := d.1 }
  if d.2.isSome then
    let s := { s with waits := s.waits.setList .nWaitOutList CiList.new }
    (s.walk r fuel d.2).andThen (finish w)
  else .ret s

end WaitOut

end Evel
