import Mathlib.Data.List.Nodup

namespace Evel.General

/-- An intrusive list: its members are the live items whose link is set, each once. -/
structure Linked (alive link : α → Bool) (l : List α) : Prop where
  mem : ∀ x, x ∈ l ↔ alive x = true ∧ link x = true
  nodup : l.Nodup

namespace Linked
variable {alive link link' : α → Bool} {l : List α}

theorem notMem (h : Linked alive link l) (hx : link x = false) : x ∉ l := by
  simp [h.mem, hx]

theorem congr (h : Linked alive link l) (hl : ∀ y, alive y = true → link' y = link y) :
    Linked alive link' l := by
  refine ⟨fun y => ?_, h.nodup⟩
  rw [h.mem, and_congr_right_iff]
  intro hy
  rw [hl y hy]

theorem perm (h : Linked alive link l) (hp : l.Perm l') : Linked alive link l' :=
  ⟨fun x => hp.mem_iff.symm.trans (h.mem x), hp.nodup_iff.mp h.nodup⟩

variable [DecidableEq α]

theorem push (h : Linked alive link l) (ha : alive x = true) (hx : link x = false)
    (hl : ∀ y, link' y = if y = x then true else link y) : Linked alive link' (l ++ [x]) := by
  refine ⟨fun y => ?_, ?_⟩
  · by_cases hy : y = x
    · simp [hy, hl, ha]
    · simp [hy, hl, h.mem]
  · have := h.notMem hx
    rw [List.nodup_append_comm]
    exact List.nodup_cons.mpr ⟨this, h.nodup⟩

theorem pop (h : Linked alive link (x :: l))
    (hl : ∀ y, link' y = if y = x then false else link y) : Linked alive link' l := by
  obtain ⟨hx, hnd⟩ := List.nodup_cons.mp h.nodup
  refine ⟨fun y => ?_, hnd⟩
  by_cases hy : y = x
  · simp [hy, hl, hx]
  · rw [hl, if_neg hy, ← h.mem]
    simp [hy]

/-- A new item comes with no link. -/
theorem birth (h : Linked alive link l) (hx : alive x = false)
    (hl : ∀ y, link' y = if y = x then false else link y) :
    Linked (Function.update alive x true) link' l := by
  refine ⟨fun y => ?_, h.nodup⟩
  by_cases hy : y = x
  · subst hy
    simp [h.mem, hx, hl]
  · simp [h.mem, hl, hy]

/-- An item may leave the list and die with its link set. -/
theorem kill (h : Linked alive link (x :: l)) : Linked (Function.update alive x false) link l := by
  obtain ⟨hx, hnd⟩ := List.nodup_cons.mp h.nodup
  refine ⟨fun y => ?_, hnd⟩
  by_cases hy : y = x
  · subst hy
    simp [hx]
  · have := h.mem y
    simpa [hy] using this

/-- An item may die outside the list. -/
theorem death (h : Linked alive link l) (hx : x ∉ l) :
    Linked (Function.update alive x false) link l := by
  refine ⟨fun y => ?_, h.nodup⟩
  by_cases hy : y = x
  · subst hy
    simp [hx]
  · simp [h.mem, hy]

end Linked

end Evel.General
