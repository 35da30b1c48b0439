import Mathlib.Logic.Function.Basic
import Evel.General.Exec

namespace Evel
open General

/-- `CiList`: what it points to. -/
structure CiList (α : Type u) where
  head : Option α
  tail : Option α
deriving DecidableEq, Repr

namespace CiList

/-- `CiList()` -/
def new : CiList α := { head := none, tail := none }

/-- The lists over one field of the items, and that field. -/
structure Heap (ι : Type u) (α : Type v) where
  next : α → Option α
  list : ι → CiList α

namespace Heap
variable {ι : Type u} {α : Type v} [DecidableEq ι] [DecidableEq α]

def setNext (x : α) (y : Option α) (h : Heap ι α) : Heap ι α :=
  { h with next := Function.update h.next x y }

def setList (l : ι) (c : CiList α) (h : Heap ι α) : Heap ι α :=
  { h with list := Function.update h.list l c }

def pushBack (l : ι) (x : α) (h : Heap ι α) : Heap ι α :=
  if (h.next x).isNone then
    -- `( tail ? next( tail ) : head ) = item`
    let h := match (h.list l).tail with
      | some t => h.setNext t (some x)
      | none => h.setList l { h.list l with head := some x }
    let h := h.setNext x (some x)
    h.setList l { h.list l with tail := some x }
  else h

def popFront (l : ι) (h : Heap ι α) : Heap ι α × Option α :=
  match (h.list l).head with
  | some res =>
    let h := if h.next res = some res then h.setList l new
      else h.setList l { h.list l with head := h.next res }
    (h.setNext res none, some res)
  | none => (h, none)

def empty (l : ι) (h : Heap ι α) : Bool := (h.list l).head.isNone

/-- `b.prepend( a )`. The mutex of a list cannot be locked twice. -/
def prepend (b a : ι) (h : Heap ι α) : Exec (Heap ι α) :=
  if a = b then .undef h
  else match (h.list b).head, (h.list a).head with
    | some first, some head =>
      match (h.list a).tail with
      | some t =>
        let h := h.setNext t (some first)
        .ret (h.setList b { h.list b with head := some head })
      | none => .undef h
    | some _, none => .ret h
    | none, _ => .ret (h.setList b (h.list a))

def disconnect (l : ι) (h : Heap ι α) : Heap ι α × Option α :=
  (h.setList l new, (h.list l).head)

end Heap

/-- The calls, and what users do with the items of a chain that has been disconnected. -/
inductive Op (ι : Type u) (α : Type v)
  | pushBack (l : ι) (x : α)
  | popFront (l : ι)
  | empty (l : ι)
  | prepend (b a : ι)
  | disconnect (l : ι)
  | reset (x : α)
deriving DecidableEq, Repr

/-- What the calls have returned. -/
inductive Out (α : Type v)
  | popFront (res : Option α)
  | empty (res : Bool)
  | disconnect (res : Option α)
deriving DecidableEq, Repr

/-- The heap, and what has been returned so far. -/
structure Machine (ι : Type u) (α : Type v) where
  heap : Heap ι α
  outs : List (Out α)

namespace Machine
variable {ι : Type u} {α : Type v} [DecidableEq ι] [DecidableEq α]

def new : Machine ι α :=
  { heap := { next := fun _ => none, list := fun _ => CiList.new }, outs := [] }

def call (m : Machine ι α) : Op ι α → Exec (Machine ι α)
  | .pushBack l x => .ret { m with heap := m.heap.pushBack l x }
  | .popFront l =>
    let r := m.heap.popFront l
    .ret { heap := r.1, outs := m.outs ++ [.popFront r.2] }
  | .empty l => .ret { m with outs := m.outs ++ [.empty (m.heap.empty l)] }
  | .prepend b a => (m.heap.prepend b a).map fun h => { m with heap := h }
  | .disconnect l =>
    let r := m.heap.disconnect l
    .ret { heap := r.1, outs := m.outs ++ [.disconnect r.2] }
  | .reset x => .ret { m with heap := m.heap.setNext x none }

/-- Nothing follows a call that does not return. -/
def step (e : Exec (Machine ι α)) (o : Op ι α) : Exec (Machine ι α) :=
  e.andThen (fun m => m.call o)

end Machine

end CiList

end Evel
