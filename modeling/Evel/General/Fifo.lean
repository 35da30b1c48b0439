import Mathlib.Data.List.Basic

namespace Evel.General

/-- Nothing is lost, doubled or overtaken: what has left and then what waits is what has come. -/
def Fifo (left waiting came : List α) : Prop := left ++ waiting = came

instance [DecidableEq α] (left waiting came : List α) : Decidable (Fifo left waiting came) :=
  inferInstanceAs (Decidable (left ++ waiting = came))

namespace Fifo
variable {left waiting came : List α}

theorem empty : Fifo ([] : List α) [] [] := rfl

/-- A new one waits behind the others. -/
theorem push (h : Fifo left waiting came) (a : α) : Fifo left (waiting ++ [a]) (came ++ [a]) := by
  rw [Fifo, ← List.append_assoc, show left ++ waiting = came from h]

/-- The first one leaves. -/
theorem pop (h : Fifo left (a :: waiting) came) : Fifo (left ++ [a]) waiting came := by
  rw [Fifo, List.append_assoc]
  exact h

/-- A new one passes where nobody waits. -/
theorem pass (h : Fifo left [] came) (a : α) : Fifo (left ++ [a]) [] (came ++ [a]) :=
  (h.push a).pop

end Fifo

end Evel.General
