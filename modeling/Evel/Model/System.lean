import Mathlib.Data.List.Basic

namespace Evel

abbrev Byte := UInt8

/-- The address that `malloc` gave a buffer. -/
abbrev Ptr := Nat

/-- The values of `errno` that the code tells apart. -/
inductive Errno
  | zero
  | intr
  | again
  | wouldBlock
  | other (n : Nat)
deriving DecidableEq, Repr

/-- What a system call reports. A call that moves bytes moves no more than it is given. -/
structure SysAnswer where
  count : Int
  errno : Errno
deriving DecidableEq, Repr

namespace SysAnswer

def real (a : SysAnswer) (size : Nat) : Int := min a.count size

/-- `errno == EAGAIN or errno == EWOULDBLOCK` -/
def again (a : SysAnswer) : Bool := a.errno = .again || a.errno = .wouldBlock

def intr (a : SysAnswer) : Bool := a.errno = .intr

/-- The call returned -1, and could not go on without waiting. -/
def WouldBlock (a : SysAnswer) : Prop := a.count < 0 ∧ a.again = true

instance : DecidablePred WouldBlock := fun a =>
  inferInstanceAs (Decidable (a.count < 0 ∧ a.again = true))

/-- A loop around a system call gets past the interruptions to the first other answer. -/
def first (script : List SysAnswer) : Option SysAnswer :=
  script.find? (fun a => !(decide (a.count ≤ 0) && a.intr))

@[simp] theorem first_nil : first [] = none := rfl

theorem first_cons (a : SysAnswer) (as : List SysAnswer) :
    first (a :: as) = if a.count ≤ 0 ∧ a.intr = true then first as else some a := by
  by_cases h : a.count ≤ 0 ∧ a.intr = true
  · rw [if_pos h, first, List.find?_cons_of_neg (by simp [h])]
    rfl
  · rw [if_neg h, first, List.find?_cons_of_pos]
    simpa [Decidable.imp_iff_not_or] using h

theorem intr_of_again {a : SysAnswer} (h : a.again = true) : a.intr = false := by
  simp only [again, Bool.or_eq_true, decide_eq_true_eq] at h
  rcases h with h | h <;> simp [intr, h]

theorem real_nonpos {a : SysAnswer} (hn : n ≠ 0) : a.real n ≤ 0 ↔ a.count ≤ 0 := by
  simp only [real]
  omega

theorem real_toNat {a : SysAnswer} : (a.real n).toNat = min a.count.toNat n := by
  simp only [real]
  omega

end SysAnswer

end Evel
