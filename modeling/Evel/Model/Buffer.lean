import Evel.Model.System

namespace Evel

/-- What a caller of `send` passes: `*data`, and the bytes it points to. -/
structure Buffer where
  ptr : Ptr
  bytes : List Byte
deriving DecidableEq, Repr

/-- A call that may take ownership of a buffer, as it looks when it returns: the pointer it
was given, what `*data` is now (`none` for null), how many elements of `waiting_sends` refer
to the buffer, and whether the branch that queues the buffer itself was due. -/
structure Handover where
  given : Ptr
  left : Option Ptr
  refs : Nat
  queues : Bool
deriving DecidableEq, Repr

namespace Handover

/-- Either the caller keeps the buffer, or one element of the queue owns it. -/
def Linear (h : Handover) : Prop :=
  (h.left = some h.given ∧ h.refs = 0) ∨ (h.left = none ∧ h.refs = 1)

instance : DecidablePred Linear := fun h =>
  inferInstanceAs (Decidable ((h.left = some h.given ∧ h.refs = 0) ∨ (h.left = none ∧ h.refs = 1)))

end Handover

end Evel
