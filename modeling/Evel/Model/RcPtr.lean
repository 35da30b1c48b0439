import Mathlib.Data.List.Count
import Evel.General.Exec
import Evel.General.Runs
import Evel.General.Census

namespace Evel
open General

/-- What the `RcPtr`s of a program work on: the handles between their constructor and their
destructor, what `data` says in each, and the objects they manage. -/
structure RcHeap (κ : Type u) (α : Type v) where
  handles : List κ
  data : κ → Option α
  created : List α
  cptUse : α → Nat
  deleted : List α

namespace RcHeap
variable {κ : Type u} {α : Type v} [DecidableEq κ] [DecidableEq α]

def new : RcHeap κ α :=
  { handles := [], data := fun _ => none, created := [], cptUse := fun _ => 0, deleted := [] }

/-- `data = x`, in the handle `k` -/
def setData (k : κ) (x : Option α) (h : RcHeap κ α) : RcHeap κ α :=
  { h with data := Function.update h.data k x }

def setCptUse (a : α) (n : Nat) (h : RcHeap κ α) : RcHeap κ α :=
  { h with cptUse := Function.update h.cptUse a n }

/-- `new T`, where a pointer to one is asked for: nobody refers to it yet. -/
def create (obj : Option α) (h : RcHeap κ α) : RcHeap κ α :=
  match obj with
  | some a => { h.setCptUse a 0 with created := h.created ++ [a] }
  | none => h

/-- `if ( data ) ++data->cpt_use;` -/
def acquire (x : Option α) (h : RcHeap κ α) : Exec (RcHeap κ α) :=
  match x with
  | some a => if a ∈ h.deleted then .undef h else .ret (h.setCptUse a (h.cptUse a + 1))
  | none => .ret h

/-- `delete data;` The destructor of the object leaves the handles alone. -/
def delete (a : α) (h : RcHeap κ α) : Exec (RcHeap κ α) :=
  if a ∈ h.deleted then .undef h else .ret { h with deleted := h.deleted ++ [a] }

/-- What the destructor and the assignments do with the old target of a handle:
`if ( data ) { if ( data->cpt_use ) --data->cpt_use; else delete data; }` -/
def release (k : κ) (h : RcHeap κ α) : Exec (RcHeap κ α) :=
  match h.data k with
  | some a =>
    if a ∈ h.deleted then .undef h
    else if h.cptUse a ≠ 0 then .ret (h.setCptUse a (h.cptUse a - 1))
    else h.delete a
  | none => .ret h

/-- A handle that starts its life with `data( x )` -/
def enter (k : κ) (x : Option α) (h : RcHeap κ α) : RcHeap κ α :=
  { h.setData k x with handles := k :: h.handles }

/-- `RcPtr()` -/
def construct (k : κ) (h : RcHeap κ α) : Exec (RcHeap κ α) := .ret (h.enter k none)

/-- `RcPtr( T *obj )` -/
def constructObj (k : κ) (obj : Option α) (h : RcHeap κ α) : Exec (RcHeap κ α) :=
  .ret ((h.create obj).enter k obj)

/-- `RcPtr( RcPtr &&obj )`, `RcPtr( RcPtr< U > &&obj )` -/
def constructMove (k obj : κ) (h : RcHeap κ α) : Exec (RcHeap κ α) :=
  .ret ((h.enter k (h.data obj)).setData obj none)

/-- `RcPtr( const RcPtr &obj )`, `RcPtr( const RcPtr< U > &obj )` -/
def constructCopy (k obj : κ) (h : RcHeap κ α) : Exec (RcHeap κ α) :=
  let h := h.enter k (h.data obj)
  h.acquire (h.data k)

/-- `~RcPtr()` -/
def destroy (k : κ) (h : RcHeap κ α) : Exec (RcHeap κ α) :=
  (h.release k).map fun h => { h with handles := h.handles.erase k }

/-- `operator=( T *obj )`, `operator=( U *obj )` -/
def assignObj (k : κ) (obj : Option α) (h : RcHeap κ α) : Exec (RcHeap κ α) :=
  ((h.create obj).release k).map (setData k obj)

/-- `operator=( const RcPtr &obj )`, `operator=( const RcPtr< U > &obj )` -/
def assignCopy (k obj : κ) (h : RcHeap κ α) : Exec (RcHeap κ α) :=
  (h.acquire (h.data obj)).andThen fun h => (h.release k).map fun h => h.setData k (h.data obj)

/-- `operator=( RcPtr &&obj )`, `operator=( RcPtr< U > &&obj )` -/
def assignMove (k obj : κ) (h : RcHeap κ α) : Exec (RcHeap κ α) :=
  .ret ((h.setData k (h.data obj)).setData obj none)

def clear (k : κ) (h : RcHeap κ α) : Exec (RcHeap κ α) :=
  match h.data k with
  | some a => (h.delete a).map (setData k none)
  | none => .ret h

/-- The operations on the handle `k`. -/
inductive Op (κ : Type u) (α : Type v)
  | construct (k : κ)
  | constructObj (k : κ) (obj : Option α)
  | constructMove (k obj : κ)
  | constructCopy (k obj : κ)
  | destroy (k : κ)
  | assignObj (k : κ) (obj : Option α)
  | assignCopy (k obj : κ)
  | assignMove (k obj : κ)
  | clear (k : κ)
deriving DecidableEq, Repr

def call (h : RcHeap κ α) : Op κ α → Exec (RcHeap κ α)
  | .construct k => h.construct k
  | .constructObj k obj => h.constructObj k obj
  | .constructMove k obj => h.constructMove k obj
  | .constructCopy k obj => h.constructCopy k obj
  | .destroy k => h.destroy k
  | .assignObj k obj => h.assignObj k obj
  | .assignCopy k obj => h.assignCopy k obj
  | .assignMove k obj => h.assignMove k obj
  | .clear k => h.clear k

/-- `obj` is null or points to an object that is made for this operation. -/
def Fresh (h : RcHeap κ α) (obj : Option α) : Prop := ∀ a ∈ obj, a ∉ h.created

/-- A handle is constructed once before it is used and is not used after its destructor, and the
pointers that are taken over are fresh. -/
def Possible (h : RcHeap κ α) : Op κ α → Prop
  | .construct k => k ∉ h.handles
  | .constructObj k obj => k ∉ h.handles ∧ h.Fresh obj
  | .constructMove k obj | .constructCopy k obj => k ∉ h.handles ∧ obj ∈ h.handles
  | .destroy k | .clear k => k ∈ h.handles
  | .assignObj k obj => k ∈ h.handles ∧ h.Fresh obj
  | .assignCopy k obj | .assignMove k obj => k ∈ h.handles ∧ obj ∈ h.handles

instance (h : RcHeap κ α) (obj : Option α) : Decidable (h.Fresh obj) :=
  match obj with
  | none => .isTrue (by simp [Fresh])
  | some a => decidable_of_iff (a ∉ h.created) (by simp [Fresh])

instance (h : RcHeap κ α) : (o : Op κ α) → Decidable (h.Possible o)
  | .construct k => inferInstanceAs (Decidable (k ∉ h.handles))
  | .constructObj k obj => inferInstanceAs (Decidable (k ∉ h.handles ∧ h.Fresh obj))
  | .constructMove k obj => inferInstanceAs (Decidable (k ∉ h.handles ∧ obj ∈ h.handles))
  | .constructCopy k obj => inferInstanceAs (Decidable (k ∉ h.handles ∧ obj ∈ h.handles))
  | .destroy k => inferInstanceAs (Decidable (k ∈ h.handles))
  | .clear k => inferInstanceAs (Decidable (k ∈ h.handles))
  | .assignObj k obj => inferInstanceAs (Decidable (k ∈ h.handles ∧ h.Fresh obj))
  | .assignCopy k obj => inferInstanceAs (Decidable (k ∈ h.handles ∧ obj ∈ h.handles))
  | .assignMove k obj => inferInstanceAs (Decidable (k ∈ h.handles ∧ obj ∈ h.handles))

/-- Nothing follows an operation that does not return, and what no program can do is passed
over. -/
def step (e : Exec (RcHeap κ α)) (o : Op κ α) : Exec (RcHeap κ α) :=
  e.andThen fun h => if h.Possible o then h.call o else .ret h

/-- How many handles point to the object. -/
def pointers (h : RcHeap κ α) (a : α) : Nat := census (· == some a) h.handles h.data

end RcHeap

end Evel
