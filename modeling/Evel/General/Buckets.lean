import Mathlib.Algebra.BigOperators.Group.Finset.Basic
import Mathlib.Algebra.Order.BigOperators.Group.Finset

namespace Evel.General
open Finset

variable {M : Type u} [AddCommMonoid M]

/-- Replacing one bucket of an array replaces one summand. -/
theorem sum_update_add (F : Nat → β → M) (f : Nat → β) (v : β) (hc : c < n) :
    ∑ b ∈ range n, F b (Function.update f c v b) + F c (f c) =
      ∑ b ∈ range n, F b (f b) + F c v := by
  have hm : c ∈ range n := mem_range.mpr hc
  have he : ∑ b ∈ (range n).erase c, F b (Function.update f c v b) =
      ∑ b ∈ (range n).erase c, F b (f b) := by
    apply sum_congr rfl
    intro b hb
    rw [Function.update_of_ne (ne_of_mem_erase hb)]
  rw [← add_sum_erase _ (fun b => F b (Function.update f c v b)) hm,
    ← add_sum_erase _ (fun b => F b (f b)) hm, he, Function.update_self]
  ac_rfl

/-- Membership in an array of buckets is membership in one of them. -/
theorem mem_bucket_sum {f : Nat → Multiset α} :
    a ∈ ∑ b ∈ range n, f b ↔ ∃ b < n, a ∈ f b := by
  simp [Multiset.mem_sum]

/-- Two buckets of a duplicate-free array share nothing. -/
theorem bucket_unique {f : Nat → Multiset α} (h : (∑ b ∈ range n, f b).Nodup)
    (hb : b < n) (hc : c < n) (ha : a ∈ f b) (ha' : a ∈ f c) : b = c := by
  by_contra hne
  have hm : b ∈ range n := mem_range.mpr hb
  have hm' : c ∈ (range n).erase b := mem_erase.mpr ⟨Ne.symm hne, mem_range.mpr hc⟩
  rw [← add_sum_erase _ f hm, Multiset.nodup_add] at h
  exact Multiset.disjoint_left.mp h.2.2 ha (Multiset.mem_sum.mpr ⟨c, hm', ha'⟩)

/-- What is left after an erasure from a duplicate-free array of buckets. -/
theorem mem_update_erase [DecidableEq α] {f : Nat → List α}
    (h : (∑ b ∈ range n, (↑(f b) : Multiset α)).Nodup) (hc : c < n) (ha : a ∈ f c) (hb : b < n)
    (hx : x ∈ Function.update f c ((f c).erase a) b) : x ≠ a ∧ x ∈ f b := by
  by_cases he : b = c
  · subst he
    rw [Function.update_self] at hx
    have hle : (↑(f b) : Multiset α) ≤ ∑ b ∈ range n, (↑(f b) : Multiset α) :=
      single_le_sum (f := fun b => (↑(f b) : Multiset α)) (fun _ _ => Multiset.zero_le _)
        (mem_range.mpr hc)
    have hnd : (f b).Nodup := by simpa using Multiset.nodup_of_le hle h
    exact (List.Nodup.mem_erase_iff hnd).mp hx
  · rw [Function.update_of_ne he] at hx
    refine ⟨?_, hx⟩
    rintro rfl
    exact he (bucket_unique h hb hc (by simpa using hx) (by simpa using ha))

end Evel.General
