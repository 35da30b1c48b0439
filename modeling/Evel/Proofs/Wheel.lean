import Mathlib.Algebra.BigOperators.Intervals
import Mathlib.Algebra.Order.Group.Multiset
import Evel.General.Buckets
import Evel.General.Cycle
import Evel.Model.ExpIndexedList

namespace Evel.ExpIndexed
open General Finset

variable {T : Type u} {sa nb : Nat}

/-- The items of one bucket that is emptied at `e` by a level with step `pm`, each with
the tick of its callback. -/
def bucketSlots (due : T → Nat) (pm e : Nat) (xs : List T) : Multiset (T × Nat) :=
  ↑(xs.map (fun x => (x, settle pm (due x) e)))

/-- When a level called next at `t` empties bucket `b`. -/
def exitTick (sa pm t curList b : Nat) : Nat := t + cyclicDist sa curList b * pm

def storeSlots (sa : Nat) (due : T → Nat) (pm t curList : Nat) (subLists : Nat → List T) :
    Multiset (T × Nat) :=
  ∑ b ∈ range sa, bucketSlots due pm (exitTick sa pm t curList b) (subLists b)

namespace Levels

/-- The flat schedule that a stack of levels stands for, when its outermost level is
called next at tick `t`: every item with the tick of its callback. -/
def slots (due : T → Nat) : {nb : Nat} → (pm t : Nat) → Levels T sa nb → Multiset (T × Nat)
  | 0, _, _, .last subList => ↑(subList.map (fun x => (x, due x)))
  | _ + 1, pm, t, .level subLists curList _ next =>
    storeSlots sa due pm t curList subLists +
      next.slots due (pm * sa) (t + (sa - curList) * pm)

def contents : {nb : Nat} → Levels T sa nb → Multiset T
  | 0, .last subList => ↑subList
  | _ + 1, .level subLists _ _ next => ∑ b ∈ range sa, ↑(subLists b) + next.contents

/-- No item stays in a bucket past its due tick, and every item knows its bucket. The
comparison of the last bucket may wrap and leave an item there, but not if `clear` holds. -/
def Sound (clear : Prop) (items : T → ItemData) :
    {nb : Nat} → (pm t : Nat) → Levels T sa nb → Prop
  | 0, pm, t, .last subList => ∀ x ∈ subList, t % sizeMod ≤ (items x).offset ∧
      (clear → t ≤ (items x).offset ∧ (items x).offset + pm < sizeMod) ∧
      (items x).lst = some (0, 0)
  | nb + 1, pm, t, .level subLists curList _ next =>
    (∀ b < sa, ∀ x ∈ subLists b, exitTick sa pm t curList b ≤ (items x).offset ∧
      (items x).lst = some (nb + 1, b)) ∧
    next.Sound clear items (pm * sa) (t + (sa - curList) * pm)

theorem slots_contents (due : T → Nat) (pm t : Nat) (w : Levels T sa nb) :
    (w.slots due pm t).map Prod.fst = w.contents := by
  induction w generalizing pm t with
  | last subList => simp [slots, contents, Function.comp_def]
  | level subLists curList curLe next ih =>
    have hb : ∀ b, (bucketSlots due pm (exitTick sa pm t curList b) (subLists b)).map Prod.fst =
        (↑(subLists b) : Multiset T) := by
      intro b
      simp [bucketSlots, Function.comp_def]
    simp only [slots, contents, storeSlots, Multiset.map_add, ih]
    rw [← Multiset.coe_mapAddMonoidHom, map_sum]
    simp only [Multiset.coe_mapAddMonoidHom, hb]

theorem mem_contents (h : (x, f) ∈ slots due pm t w) : x ∈ contents w := by
  rw [← slots_contents due pm t]
  exact Multiset.mem_map_of_mem Prod.fst h

theorem exists_slot (due : T → Nat) (pm t : Nat) (h : x ∈ contents w) :
    ∃ f, (x, f) ∈ slots due pm t w := by
  rw [← slots_contents due pm t] at h
  obtain ⟨⟨y, f⟩, hm, rfl⟩ := Multiset.mem_map.mp h
  exact ⟨f, hm⟩

/-- The schedule depends on the due ticks of the listed items only. -/
theorem slots_congr (w : Levels T sa nb) (h : ∀ x ∈ w.contents, due x = due' x) :
    w.slots due pm t = w.slots due' pm t := by
  induction w generalizing pm t with
  | last subList =>
    simp only [slots, Multiset.coe_eq_coe]
    refine List.Perm.of_eq (List.map_congr_left (fun x hx => ?_))
    rw [h x (by simpa [contents] using hx)]
  | level subLists curList curLe next ih =>
    have hs : ∀ b < sa, ∀ x ∈ subLists b, due x = due' x := by
      intro b hb x hx
      exact h x (Multiset.mem_add.mpr (.inl (mem_bucket_sum.mpr ⟨b, hb, by simpa using hx⟩)))
    have hn : ∀ x ∈ next.contents, due x = due' x :=
      fun x hx => h x (Multiset.mem_add.mpr (.inr hx))
    simp only [slots, storeSlots, ih hn]
    congr 1
    apply sum_congr rfl
    intro b hb
    simp only [bucketSlots, Multiset.coe_eq_coe]
    exact List.Perm.of_eq (List.map_congr_left (fun x hx => by rw [hs b (mem_range.mp hb) x hx]))

/-- Changing the data of other items keeps the levels sound. -/
theorem Sound.congr (w : Levels T sa nb) (hs : w.Sound clear items pm t)
    (h : ∀ x ∈ w.contents, items' x = items x) : w.Sound clear items' pm t := by
  induction w generalizing pm t with
  | last subList =>
    intro x hx
    rw [h x (by simpa [contents] using hx)]
    exact hs x hx
  | level subLists curList curLe next ih =>
    refine ⟨?_, ih hs.2 (fun x hx => h x (Multiset.mem_add.mpr (.inr hx)))⟩
    intro b hb x hx
    rw [h x (Multiset.mem_add.mpr (.inl (mem_bucket_sum.mpr ⟨b, hb, by simpa using hx⟩)))]
    exact hs.1 b hb x hx

/-- No callback of a clear list is scheduled before the next call. -/
theorem Sound.slot_ge (w : Levels T sa nb) (hs : w.Sound clear items pm t) (hclear : clear)
    (h : (x, f) ∈ w.slots (fun x => (items x).offset) pm t) : t ≤ f := by
  induction w generalizing pm t with
  | last subList =>
    simp only [slots, Multiset.mem_coe, List.mem_map, Prod.mk.injEq] at h
    obtain ⟨y, hy, rfl, rfl⟩ := h
    exact ((hs y hy).2.1 hclear).1
  | level subLists curList curLe next ih =>
    rcases Multiset.mem_add.mp h with h | h
    · obtain ⟨b, hb, h⟩ := mem_bucket_sum.mp h
      simp only [bucketSlots, Multiset.mem_coe, List.mem_map, Prod.mk.injEq] at h
      obtain ⟨y, hy, rfl, rfl⟩ := h
      exact Nat.le_trans (Nat.le_add_right t _) (le_settle _ _ _)
    · exact Nat.le_trans (Nat.le_add_right t _) (ih hs.2 h)

/-- No callback is scheduled after the tick the item is due at. -/
theorem Sound.slot_le (w : Levels T sa nb) (hs : w.Sound clear items pm t)
    (h : (x, f) ∈ w.slots (fun x => (items x).offset) pm t) : f ≤ (items x).offset := by
  induction w generalizing pm t with
  | last subList =>
    simp only [slots, Multiset.mem_coe, List.mem_map, Prod.mk.injEq] at h
    obtain ⟨y, hy, rfl, rfl⟩ := h
    exact Nat.le_refl _
  | level subLists curList curLe next ih =>
    rcases Multiset.mem_add.mp h with h | h
    · obtain ⟨b, hb, h⟩ := mem_bucket_sum.mp h
      simp only [bucketSlots, Multiset.mem_coe, List.mem_map, Prod.mk.injEq] at h
      obtain ⟨y, hy, rfl, rfl⟩ := h
      exact settle_le (hs.1 b hb y hy).1
    · exact ih hs.2 h

/-- When the ticks wrap, only the last bucket can still hold items: nothing changes for them. -/
theorem Sound.turn (due : T → Nat) (w : Levels T sa nb) (hs : w.Sound clear items pm (t + sizeMod))
    (hlt : ∀ x ∈ w.contents, (items x).offset < sizeMod) :
    w.Sound clear items pm t ∧ w.slots due pm (t + sizeMod) = w.slots due pm t := by
  induction w generalizing pm t with
  | last subList =>
    refine ⟨fun x hx => ?_, rfl⟩
    obtain ⟨hle, hclear, hl⟩ := hs x hx
    have hx := hlt x (by simpa [contents] using hx)
    refine ⟨?_, fun hc => ?_, hl⟩
    · rwa [Nat.add_mod_right] at hle
    · have := (hclear hc).1
      omega
  | level subLists curList curLe next ih =>
    have hempty : ∀ b < sa, subLists b = [] := by
      intro b hb
      refine List.eq_nil_iff_forall_not_mem.mpr (fun x hx => ?_)
      have hdue := (hs.1 b hb x hx).1
      have hx := hlt x (Multiset.mem_add.mpr (.inl (mem_bucket_sum.mpr ⟨b, hb, by simpa using hx⟩)))
      unfold exitTick at hdue
      omega
    have hn : t + sizeMod + (sa - curList) * pm = t + (sa - curList) * pm + sizeMod := by omega
    have h := hs.2
    rw [hn] at h
    obtain ⟨hsound, hslots⟩ := ih h (fun x hx => hlt x (Multiset.mem_add.mpr (.inr hx)))
    refine ⟨⟨fun b hb x hx => ?_, hsound⟩, ?_⟩
    · simp [hempty b hb] at hx
    · simp only [slots, hn, hslots, storeSlots]
      congr 1
      apply sum_congr rfl
      intro b hb
      simp [bucketSlots, hempty b (mem_range.mp hb)]

end Levels

end Evel.ExpIndexed
