import Mathlib.Algebra.Ring.Nat
import Mathlib.Logic.Function.Basic
import Evel.General.Runs
import Evel.General.History

namespace Evel.ExpIndexed
open General

/-- `size_t` has 64 bits: its sums and differences wrap. -/
def sizeMod : Nat := 2 ^ 64

def sizeSub (a b : Nat) : Nat := (a + sizeMod - b) % sizeMod

/-- The template arguments `sa` and `nb` of a list. -/
structure Geometry where
  sa : Nat
  nb : Nat
  saPos : 0 < sa

/-- A bucket head is named by the number of levels after its own and its index there. -/
abbrev Bucket := Nat × Nat

/-- `ExpIndexedItemData`. The chain through `prev` and `next` is the bucket's list. -/
structure ItemData where
  lst : Option Bucket
  offset : Nat

/-- The buckets of one level (head first) together with the data of the items. -/
structure Store (T : Type u) where
  subLists : Nat → List T
  items : T → ItemData

/-- `_ExpIndexedList<T,GID,sa,nb>`: the levels that remain and the last bucket. -/
inductive Levels (T : Type u) (sa : Nat) : Nat → Type u
  | last (subList : List T) : Levels T sa 0
  | level (subLists : Nat → List T) (curList : Nat) (curLe : curList ≤ sa)
      (next : Levels T sa nb) : Levels T sa (nb + 1)

/-- `next_index` of a level and the step `pm*sa` of the level after it. -/
def nextIndex (sa pm of : Nat) : Nat := (of + pm * sa) % sizeMod

def nextPm (sa pm : Nat) : Nat := pm * sa % sizeMod

variable {T : Type u} [DecidableEq T]

def link (items : T → ItemData) (item : T) (lst : Option Bucket) : T → ItemData :=
  Function.update items item { items item with lst := lst }

/-- The loops of `shift` reset `lst` of each item they take out. -/
def unlink (items : T → ItemData) (out : List T) : T → ItemData :=
  fun x => if x ∈ out then { items x with lst := none } else items x

def addLoc (sa depth pm curList : Nat) (s : Store T) (item : T) (index : Nat) : Store T :=
  let b := (curList + index / pm) % sizeMod % sa
  { subLists := Function.update s.subLists b (item :: s.subLists b)
    items := link s.items item (some (depth, b)) }

/-- What a call leaves behind: the levels, the data of the items, and the items
handed to the callback in the order of the calls. -/
structure Shifted (T : Type u) (sa nb : Nat) where
  levels : Levels T sa nb
  items : T → ItemData
  out : List T

/-- Lines 91 to 98: empty the bucket under the cursor and move the cursor. -/
def takeBucket (s : Store T) (curList : Nat) (h : curList < sa) (next : Levels T sa nb) :
    Shifted T sa (nb + 1) :=
  let out := s.subLists curList
  { levels := .level (Function.update s.subLists curList []) (curList + 1) h next
    items := unlink s.items out
    out := out }

namespace Levels

/-- The constructor: every bucket empty, every cursor at 0. -/
def empty (T : Type u) (sa : Nat) : (nb : Nat) → Levels T sa nb
  | 0 => .last []
  | nb + 1 => .level (fun _ => []) 0 (Nat.zero_le sa) (empty T sa nb)

def add {sa : Nat} : {nb : Nat} → (pm of : Nat) → Levels T sa nb → (T → ItemData) → T → Nat →
    Levels T sa nb × (T → ItemData)
  | 0, _, _, .last subList, items, item, _ =>
    (.last (item :: subList), link items item (some (0, 0)))
  | nb + 1, pm, of, .level subLists curList curLe next, items, item, index =>
    if nextIndex sa pm of ≤ index then
      let r := next.add (nextPm sa pm) (nextIndex sa pm of) items item index
      (.level subLists curList curLe r.1, r.2)
    else
      let s := addLoc sa (nb + 1) pm curList ⟨subLists, items⟩ item (sizeSub index of)
      (.level s.subLists curList curLe next, s.items)

/-- `shift`. A callback that leaves the list alone sees the items of `out` in turn;
the callback of an inner level is the lambda that calls `_add_loc` on the outer one. -/
def shift {sa : Nat} (saPos : 0 < sa) (globOffset : Nat) :
    {nb : Nat} → (pm : Nat) → Levels T sa nb → (T → ItemData) → Shifted T sa nb
  | 0, pm, .last subList, items =>
    let due := fun x => decide ((items x).offset < (globOffset + pm) % sizeMod)
    { levels := .last (subList.filter (fun x => !due x))
      items := unlink items (subList.filter due)
      out := subList.filter due }
  | nb + 1, pm, .level subLists curList curLe next, items =>
    if h : curList = sa then
      let r := next.shift saPos globOffset (nextPm sa pm) items
      let s := r.out.foldl (fun s item => addLoc sa (nb + 1) pm 0 s item
        (sizeSub (s.items item).offset globOffset)) ⟨subLists, r.items⟩
      takeBucket s 0 saPos r.levels
    else
      takeBucket ⟨subLists, items⟩ curList (Nat.lt_of_le_of_ne curLe h) next

/-- The items that a shift passes through the cascade lambda of some level. -/
def cascaded {sa : Nat} (saPos : 0 < sa) (globOffset : Nat) :
    {nb : Nat} → (pm : Nat) → Levels T sa nb → (T → ItemData) → List T
  | 0, _, .last _, _ => []
  | _ + 1, pm, .level _ curList _ next, items =>
    if curList = sa then
      next.cascaded saPos globOffset (nextPm sa pm) items ++
        (next.shift saPos globOffset (nextPm sa pm) items).out
    else []

/-- `rem` takes the item out of the bucket that its `lst` names. -/
def erase {sa : Nat} : {nb : Nat} → Levels T sa nb → Bucket → T → Levels T sa nb
  | 0, .last subList, _, item => .last (subList.erase item)
  | nb + 1, .level subLists curList curLe next, (depth, b), item =>
    if depth = nb + 1 then
      .level (Function.update subLists b ((subLists b).erase item)) curList curLe next
    else .level subLists curList curLe (next.erase (depth, b) item)

/-- The loops of `size` over the buckets. -/
def size {sa : Nat} : {nb : Nat} → Levels T sa nb → Nat
  | 0, .last subList => subList.length
  | _ + 1, .level subLists _ _ next =>
    ((List.range sa).map (fun b => (subLists b).length)).sum + next.size

/-- The cursors, outermost level first. -/
def cursors {sa : Nat} : {nb : Nat} → Levels T sa nb → List Nat
  | 0, .last _ => []
  | _ + 1, .level _ curList _ next => curList :: next.cursors

end Levels

structure ExpIndexedList (T : Type u) (g : Geometry) where
  offset : Nat
  list : Levels T g.sa g.nb
  items : T → ItemData

namespace ExpIndexedList

/-- A list constructed with `offset`; its items are constructed with a null `lst`. -/
def new (T : Type u) (g : Geometry) (offset : Nat) : ExpIndexedList T g :=
  { offset := offset, list := .empty T g.sa g.nb, items := fun _ => ⟨none, 0⟩ }

variable {g : Geometry}

def add (l : ExpIndexedList T g) (item : T) (index : Nat) : ExpIndexedList T g :=
  if (l.items item).lst.isSome then l
  else
    let items := Function.update l.items item
      { l.items item with offset := (l.offset + index) % sizeMod }
    let r := l.list.add 1 0 items item index
    { l with list := r.1, items := r.2 }

def rem (l : ExpIndexedList T g) (item : T) : ExpIndexedList T g :=
  match (l.items item).lst with
  | none => l
  | some lst => { l with list := l.list.erase lst item, items := link l.items item none }

/-- The destructor of `ExpIndexedItemData` takes the item out of its list. -/
def destroy (l : ExpIndexedList T g) (item : T) : ExpIndexedList T g :=
  match (l.items item).lst with
  | none => l
  | some lst => { l with list := l.list.erase lst item, items := link l.items item none }

/-- `shift` runs the levels at `offset++`. -/
def shifted (l : ExpIndexedList T g) : Shifted T g.sa g.nb :=
  l.list.shift g.saPos l.offset 1 l.items

def shift (l : ExpIndexedList T g) : ExpIndexedList T g :=
  { offset := (l.offset + 1) % sizeMod, list := l.shifted.levels, items := l.shifted.items }

end ExpIndexedList

/-- What may be done with a list. -/
inductive Call (T : Type u)
  | add (item : T) (index : Nat)
  | rem (item : T)
  | destroy (item : T)
  | size
  | shift
deriving DecidableEq

/-- What a call shows. -/
inductive Seen (T : Type u)
  | nothing
  | size (n : Nat)
  | handed (out : List T)
deriving DecidableEq

namespace ExpIndexedList
variable {g : Geometry}

def call (l : ExpIndexedList T g) : Call T → ExpIndexedList T g × Seen T
  | .add item index => (l.add item index, .nothing)
  | .rem item => (l.rem item, .nothing)
  | .destroy item => (l.destroy item, .nothing)
  | .size => (l, .size l.list.size)
  | .shift => (l.shift, .handed l.shifted.out)

/-- What the calls show, one after the other. -/
def observe : ExpIndexedList T g → List (Call T) → List (Seen T)
  | _, [] => []
  | l, c :: cs => (l.call c).2 :: (l.call c).1.observe cs

end ExpIndexedList

inductive Op (T : Type u)
  | add (item : T) (index : Nat)
  | rem (item : T)
  | shift

/-- What a run shows: accepted adds (with the list's offset and cursors then), effective
removals, the two operands of each cascade's subtraction, callbacks, completed shifts. -/
inductive Event (T : Type u)
  | added (item : T) (offset index : Nat) (cursors : List Nat)
  | removed (item : T)
  | cascaded (item : T) (itemOffset globOffset : Nat)
  | delivered (item : T) (globOffset : Nat)
  | shifted (globOffset : Nat)
deriving DecidableEq

def Event.item : Event T → Option T
  | .added x _ _ _ | .removed x | .delivered x _ => some x
  | .cascaded _ _ _ | .shifted _ => none

structure Run (T : Type u) (g : Geometry) where
  list : ExpIndexedList T g
  log : List (Event T)

variable {g : Geometry}

def Run.start (T : Type u) (g : Geometry) (offset : Nat) : Run T g :=
  ⟨.new T g offset, []⟩

/-- The entries that an operation adds to the log. -/
def events (l : ExpIndexedList T g) : Op T → List (Event T)
  | .add x i => if (l.items x).lst.isSome then [] else [.added x l.offset i l.list.cursors]
  | .rem x => if (l.items x).lst.isSome then [.removed x] else []
  | .shift =>
    (l.list.cascaded g.saPos l.offset 1 l.items).map
        (fun x => .cascaded x (l.items x).offset l.offset) ++
      l.shifted.out.map (fun x => .delivered x l.offset) ++ [.shifted l.offset]

def apply (l : ExpIndexedList T g) : Op T → ExpIndexedList T g
  | .add x i => l.add x i
  | .rem x => l.rem x
  | .shift => l.shift

def step (r : Run T g) (op : Op T) : Run T g :=
  ⟨apply r.list op, r.log ++ events r.list op⟩

end Evel.ExpIndexed
