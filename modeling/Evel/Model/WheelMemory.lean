import Evel.General.Exec
import Evel.Model.ExpIndexedList

namespace Evel.ExpIndexed
open General

/-- `ExpIndexedItemData` with its links. -/
structure Node (T : Type u) where
  lst : Option Bucket
  prev : Option T
  next : Option T
  offset : Nat
deriving DecidableEq

/-- What the owner of a list and the callbacks of its shifts do with an item. -/
inductive Act (T : Type u)
  | add (item : T) (index : Nat)
  | rem (item : T)
  | destroy (item : T)
deriving DecidableEq

/-- What the current shift has done: callbacks, and items that left their list. -/
inductive Entry (T : Type u)
  | handed (item : T)
  | removed (item : T)
deriving DecidableEq

/-- An `ExpIndexedList` and the items in memory: `sub_lists` and `cur_list` of its levels, the
items that are not destroyed, and what the callbacks of the current shift will do. -/
structure Memory (T : Type u) where
  offset : Nat
  subLists : Bucket → Option T
  curList : Nat → Nat
  items : T → Node T
  alive : T → Bool
  script : List (List (Act T))
  log : List (Entry T)

/-- The heads that the loops of `size` start from: those of a level and of the levels after it. -/
def bucketsFrom (sa : Nat) : (depth : Nat) → List Bucket
  | 0 => [(0, 0)]
  | depth + 1 => (List.range sa).map (fun b => (depth + 1, b)) ++ bucketsFrom sa depth

def Geometry.buckets (g : Geometry) : List Bucket := bucketsFrom g.sa g.nb

namespace Memory

def new (T : Type u) (offset : Nat) : Memory T :=
  { offset := offset, subLists := fun _ => none, curList := fun _ => 0
    items := fun _ => ⟨none, none, none, 0⟩, alive := fun _ => true, script := [], log := [] }

/-- The items that follow one another from `ptr` on. -/
def chain (m : Memory T) : (fuel : Nat) → (ptr : Option T) → List T
  | 0, _ => []
  | _ + 1, none => []
  | fuel + 1, some item => item :: m.chain fuel (m.items item).next

/-- What `size` walks over. -/
def linked (m : Memory T) (g : Geometry) (fuel : Nat) : List T :=
  g.buckets.flatMap (fun lst => m.chain fuel (m.subLists lst))

def size (m : Memory T) (g : Geometry) (fuel : Nat) : Nat :=
  (g.buckets.map (fun lst => (m.chain fuel (m.subLists lst)).length)).sum

variable {T : Type u} [DecidableEq T]

def setItem (m : Memory T) (item : T) (node : Node T) : Memory T :=
  { m with items := Function.update m.items item node }

def setLst (m : Memory T) (item : T) (lst : Option Bucket) : Memory T :=
  m.setItem item { m.items item with lst := lst }

def setHead (m : Memory T) (lst : Bucket) (ptr : Option T) : Memory T :=
  { m with subLists := Function.update m.subLists lst ptr }

def setCur (m : Memory T) (depth curList : Nat) : Memory T :=
  { m with curList := Function.update m.curList depth curList }

/-- Items that are destroyed may not be written. -/
def setNext (m : Memory T) (item : T) (ptr : Option T) : Exec (Memory T) :=
  if m.alive item then .ret (m.setItem item { m.items item with next := ptr }) else .undef m

def setPrev (m : Memory T) (item : T) (ptr : Option T) : Exec (Memory T) :=
  if m.alive item then .ret (m.setItem item { m.items item with prev := ptr }) else .undef m

/-- The item becomes the first one of its bucket. -/
def push (m : Memory T) (lst : Bucket) (item : T) : Exec (Memory T) :=
  let behind : Exec (Memory T) := match m.subLists lst with
    | some first => m.setPrev first (some item)
    | none => .ret m
  behind.map fun m => (m.setItem item { m.items item with
    lst := some lst, prev := none, next := m.subLists lst }).setHead lst (some item)

/-- `prev` and `next` of an item become neighbours. -/
def bridge (m : Memory T) (lst : Bucket) (item : T) : Exec (Memory T) :=
  let before : Exec (Memory T) := match (m.items item).prev with
    | some before => m.setNext before (m.items item).next
    | none => .ret (m.setHead lst (m.items item).next)
  before.andThen fun m => match (m.items item).next with
    | some after => m.setPrev after (m.items item).prev
    | none => .ret m

def addLoc (sa depth pm : Nat) (m : Memory T) (item : T) (index : Nat) : Exec (Memory T) :=
  m.push (depth, (m.curList depth + index / pm) % sizeMod % sa) item

/-- `add` of the part of the wheel that starts `depth` levels before the last bucket. -/
def addFrom (sa : Nat) : (depth pm of : Nat) → Memory T → T → Nat → Exec (Memory T)
  | 0, _, _, m, item, _ => m.push (0, 0) item
  | depth + 1, pm, of, m, item, index =>
    if nextIndex sa pm of ≤ index then
      addFrom sa depth (nextPm sa pm) (nextIndex sa pm of) m item index
    else addLoc sa (depth + 1) pm m item (sizeSub index of)

/-- The loop of a level over the bucket that it empties. It follows `next` as it was before the
callback. -/
def walk (f : T → Memory T → Exec (Memory T)) : (fuel : Nat) → Option T → Memory T →
    Exec (Memory T)
  | _, none, m => .ret m
  | 0, some _, m => .hang m
  | fuel + 1, some item, m =>
    if m.alive item then
      let ptr := (m.items item).next
      (f item (m.setLst item none)).andThen (walk f fuel ptr)
    else .undef m

/-- The loop of the last bucket: what is due before `bound` is taken out, then handed over. -/
def lastWalk (f : T → Memory T → Exec (Memory T)) (bound : Nat) : (fuel : Nat) → Option T →
    Memory T → Exec (Memory T)
  | _, none, m => .ret m
  | 0, some _, m => .hang m
  | fuel + 1, some item, m =>
    if m.alive item then
      let ptr := (m.items item).next
      if (m.items item).offset < bound then
        (((m.setLst item none).bridge (0, 0) item).andThen (f item)).andThen
          (lastWalk f bound fuel ptr)
      else lastWalk f bound fuel ptr m
    else .undef m

/-- `shift` of the part of the wheel that starts `depth` levels before the last bucket. -/
def shiftFrom (sa fuel globOffset : Nat) : (depth pm : Nat) → (T → Memory T → Exec (Memory T)) →
    Memory T → Exec (Memory T)
  | 0, pm, f, m => lastWalk f ((globOffset + pm) % sizeMod) fuel (m.subLists (0, 0)) m
  | depth + 1, pm, f, m =>
    (if m.curList (depth + 1) = sa then
      shiftFrom sa fuel globOffset depth (nextPm sa pm)
        (fun item m =>
          addLoc sa (depth + 1) pm m item (sizeSub (m.items item).offset globOffset))
        (m.setCur (depth + 1) 0)
    else .ret m).andThen fun m =>
    let lst := (depth + 1, m.curList (depth + 1))
    (walk f fuel (m.subLists lst) (m.setCur (depth + 1) (m.curList (depth + 1) + 1))).map
      fun m => m.setHead lst none

/-- The item is due `index` shifts from now. -/
def dated (m : Memory T) (item : T) (index : Nat) : Memory T :=
  m.setItem item { m.items item with offset := (m.offset + index) % sizeMod }

def add (g : Geometry) (m : Memory T) (item : T) (index : Nat) : Exec (Memory T) :=
  if (m.items item).lst.isSome then .ret m
  else addFrom g.sa g.nb 1 0 (m.dated item index) item index

/-- An item is about to leave its list. -/
def leaves (m : Memory T) (item : T) : Memory T := { m with log := m.log ++ [.removed item] }

def rem (m : Memory T) (item : T) : Exec (Memory T) :=
  match (m.items item).lst with
  | none => .ret m
  | some lst =>
    ((m.leaves item).setLst item none).bridge lst item

def dies (m : Memory T) (item : T) : Memory T :=
  { m with alive := Function.update m.alive item false }

/-- The destructor of `ExpIndexedItemData`. -/
def destroy (m : Memory T) (item : T) : Exec (Memory T) :=
  let out : Exec (Memory T) := match (m.items item).lst with
    | none => .ret m
    | some lst => ((m.leaves item).bridge lst item).map fun m => m.setLst item none
  out.map fun m => m.dies item

/-- Nothing more can be done with an item that is destroyed. -/
def act (g : Geometry) (m : Memory T) : Act T → Exec (Memory T)
  | .add item index => if m.alive item then m.add g item index else .ret m
  | .rem item => if m.alive item then m.rem item else .ret m
  | .destroy item => if m.alive item then m.destroy item else .ret m

def acts (g : Geometry) : List (Act T) → Memory T → Exec (Memory T)
  | [], m => .ret m
  | a :: as, m => (m.act g a).andThen (acts g as)

/-- The callback of the outermost shift. When the script is at its end it does nothing. -/
def callback (g : Geometry) (item : T) (m : Memory T) : Exec (Memory T) :=
  acts g (m.script.headD [])
    { m with script := m.script.tail, log := m.log ++ [.handed item] }

def shift (g : Geometry) (fuel : Nat) (script : List (List (Act T))) (m : Memory T) :
    Exec (Memory T) :=
  shiftFrom g.sa fuel m.offset g.nb 1 (callback g)
    { m with offset := (m.offset + 1) % sizeMod, script := script, log := [] }

end Memory

/-- What is done with a list from outside. -/
inductive Use (T : Type u)
  | act (a : Act T)
  | shift (script : List (List (Act T)))
deriving DecidableEq

def Memory.use [DecidableEq T] (g : Geometry) (fuel : Nat) (m : Memory T) :
    Use T → Exec (Memory T)
  | .act a => m.act g a
  | .shift script => m.shift g fuel script

/-- One step of a run: nothing follows a call that did not return. -/
def useStep [DecidableEq T] (g : Geometry) (fuel : Nat) (e : Exec (Memory T)) (u : Use T) :
    Exec (Memory T) :=
  e.andThen (fun m => m.use g fuel u)

end Evel.ExpIndexed
