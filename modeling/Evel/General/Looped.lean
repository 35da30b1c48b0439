import Evel.General.Threads

namespace Evel.General

/-- A chain whose last member references itself. -/
def Looped (next : α → Option α) (xs : List α) : Prop := Fwd next xs.getLast? xs

namespace Looped
variable {next next' : α → Option α} {xs ys : List α}

theorem nil (next : α → Option α) : Looped next [] := trivial

theorem congr (h : Looped next xs) (he : ∀ x ∈ xs, next' x = next x) : Looped next' xs :=
  Fwd.congr h he

/-- The chain up to its last member, and that member. -/
theorem concat_iff {as : List α} {t : α} :
    Looped next (as ++ [t]) ↔ Fwd next (some t) as ∧ next t = some t := by
  simp [Looped, fwd_append, Fwd]

theorem singleton_iff {x : α} : Looped next [x] ↔ next x = some x := by
  simp [Looped, Fwd]

theorem cons_cons_iff {x y : α} {ys : List α} :
    Looped next (x :: y :: ys) ↔ next x = some y ∧ Looped next (y :: ys) := by
  simp [Looped, Fwd]

theorem tail {x : α} (h : Looped next (x :: xs)) : Looped next xs := by
  cases xs with
  | nil => trivial
  | cons y ys => exact (cons_cons_iff.mp h).2

/-- Only the last member references itself. -/
theorem self_iff (h : Looped next xs) (hd : xs.Nodup) (hx : x ∈ xs) :
    next x = some x ↔ xs.getLast? = some x := by
  induction xs with
  | nil => cases hx
  | cons a as ih =>
    cases as with
    | nil =>
      obtain rfl := List.mem_singleton.mp hx
      exact iff_of_true (singleton_iff.mp h) rfl
    | cons b bs =>
      rw [cons_cons_iff] at h
      rw [List.getLast?_cons_cons]
      obtain ⟨ha, hd⟩ := List.nodup_cons.mp hd
      obtain rfl | hx := List.mem_cons.mp hx
      · -- the last member stands behind it
        refine iff_of_false ?_ (fun he => ha (List.mem_of_getLast? he))
        intro he
        obtain rfl : b = x := Option.some.inj (h.1.symm.trans he)
        exact ha List.mem_cons_self
      · exact ih h.2 hd hx

variable [DecidableEq α]

/-- A new member is added behind the last one. -/
theorem push (h : Looped next xs) (hd : xs.Nodup) (hx : x ∉ xs) (ht : xs.getLast? = some t) :
    Looped (Function.update (Function.update next t (some x)) x (some x)) (xs ++ [x]) := by
  obtain rfl | ⟨as, t', rfl⟩ := List.eq_nil_or_concat xs
  · cases ht
  · rw [List.concat_eq_append] at h hd hx ht ⊢
    rw [List.getLast?_concat] at ht
    obtain rfl : t' = t := Option.some.inj ht
    rw [concat_iff] at h ⊢
    have htx : t' ≠ x := fun he => hx (by simp [he])
    refine ⟨?_, Function.update_self x _ _⟩
    rw [fwd_append]
    refine ⟨h.1.congr (fun y hy => ?_), ?_, trivial⟩
    · have hyt : y ≠ t' := by
        rintro rfl
        exact (List.nodup_append'.mp hd).2.2 hy (by simp)
      have hyx : y ≠ x := fun he => hx (by simp [← he, hy])
      simp [hyt, hyx]
    · simp [htx]

/-- The loop at the end of a chain becomes the link to another one. -/
theorem append (h : Looped next xs) (h' : Looped next ys) (hd : (xs ++ ys).Nodup)
    (ht : xs.getLast? = some t) (hy : ys.head? = some y) :
    Looped (Function.update next t (some y)) (xs ++ ys) := by
  obtain rfl | ⟨as, t', rfl⟩ := List.eq_nil_or_concat xs
  · cases ht
  · rw [List.concat_eq_append] at h hd ht ⊢
    rw [List.getLast?_concat] at ht
    obtain rfl : t' = t := Option.some.inj ht
    rw [concat_iff] at h
    obtain ⟨hxs, -, hdis⟩ := List.nodup_append'.mp hd
    have hlast : (as ++ [t'] ++ ys).getLast? = ys.getLast? := by
      obtain ⟨b, bs, rfl⟩ := List.exists_cons_of_ne_nil (l := ys) (by rintro rfl; cases hy)
      rw [List.getLast?_append_cons]
    rw [Looped, hlast, fwd_append, fwd_append]
    refine ⟨⟨h.1.congr (fun z hz => ?_), ?_, trivial⟩, h'.congr (fun z hz => ?_)⟩
    · refine Function.update_of_ne ?_ _ _
      rintro rfl
      exact (List.nodup_append'.mp hxs).2.2 hz (by simp)
    · simp [hy]
    · refine Function.update_of_ne ?_ _ _
      rintro rfl
      exact hdis (by simp) hz

end Looped

end Evel.General
