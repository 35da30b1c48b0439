import Mathlib.Data.List.Nodup
import Mathlib.Logic.Function.Basic

namespace Evel.General

/-- Each member of the chain is followed by the next one and the last one by `stop`. -/
def Fwd (next : α → Option α) (stop : Option α) : List α → Prop
  | [] => True
  | x :: xs => next x = xs.head?.or stop ∧ Fwd next stop xs

/-- Each member of the chain is preceded by the one before and the first one by `back`. -/
def Bwd (prev : α → Option α) : Option α → List α → Prop
  | _, [] => True
  | back, x :: xs => prev x = back ∧ Bwd prev (some x) xs

section chains
variable {next next' prev prev' : α → Option α}

theorem Fwd.congr {xs : List α} (h : Fwd next stop xs) (he : ∀ x ∈ xs, next' x = next x) :
    Fwd next' stop xs := by
  induction xs with
  | nil => trivial
  | cons x xs ih =>
    exact ⟨(he x List.mem_cons_self).trans h.1,
      ih h.2 (fun y hy => he y (List.mem_cons_of_mem _ hy))⟩

theorem Bwd.congr {xs : List α} (h : Bwd prev back xs) (he : ∀ x ∈ xs, prev' x = prev x) :
    Bwd prev' back xs := by
  induction xs generalizing back with
  | nil => trivial
  | cons x xs ih =>
    exact ⟨(he x List.mem_cons_self).trans h.1,
      ih h.2 (fun y hy => he y (List.mem_cons_of_mem _ hy))⟩

theorem fwd_append (xs ys : List α) :
    Fwd next stop (xs ++ ys) ↔ Fwd next (ys.head?.or stop) xs ∧ Fwd next stop ys := by
  induction xs with
  | nil => simp [Fwd]
  | cons x xs ih =>
    have hhead : (xs ++ ys).head?.or stop = xs.head?.or (ys.head?.or stop) := by
      cases xs <;> simp
    simp only [List.cons_append, Fwd, ih, hhead, and_assoc]

theorem bwd_append (xs ys : List α) :
    Bwd prev back (xs ++ ys) ↔ Bwd prev back xs ∧ Bwd prev (xs.getLast?.or back) ys := by
  induction xs generalizing back with
  | nil => simp [Bwd]
  | cons x xs ih =>
    have hlast : (x :: xs).getLast?.or back = xs.getLast?.or (some x) := by
      rw [List.getLast?_cons]
      cases xs.getLast? <;> rfl
    simp only [List.cons_append, Bwd, ih, hlast, and_assoc]

end chains

/-- Lists that are threaded through their members: where each list starts, what stands before
its first member, and what each member knows: its list and its neighbours. -/
structure Links (α : Type u) (β : Type v) where
  root : β → Option α
  back : β → Option α
  home : α → Option β
  prev : α → Option α
  next : α → Option α

/-- Following `next` from the roots shows the lists `L`, which share no member. -/
structure Links.Shows (k : Links α β) (L : β → List α) : Prop where
  root : ∀ b, k.root b = (L b).head?
  next : ∀ b, Fwd k.next none (L b)
  nodup : ∀ b, (L b).Nodup
  home : ∀ b, ∀ x ∈ L b, k.home x = some b

/-- The lists can be taken apart: the members know their predecessors too, and who has a list
is in it. -/
structure Links.Holds (k : Links α β) (L : β → List α) : Prop extends k.Shows L where
  prev : ∀ b, Bwd k.prev (k.back b) (L b)
  mem : ∀ x b, k.home x = some b → x ∈ L b

namespace Links
variable [DecidableEq α] [DecidableEq β] {k : Links α β} {L : β → List α}

/-- `x` becomes the first member of list `b`. -/
def push (k : Links α β) (b : β) (x : α) : Links α β :=
  let prev := match k.root b with
    | some first => Function.update k.prev first (some x)
    | none => k.prev
  { k with
    root := Function.update k.root b (some x)
    home := Function.update k.home x (some b)
    prev := Function.update prev x none
    next := Function.update k.next x (k.root b) }

/-- `x` leaves list `b`, its neighbours become neighbours. -/
def remove (k : Links α β) (b : β) (x : α) : Links α β :=
  { k with
    root := if (k.prev x).isNone then Function.update k.root b (k.next x) else k.root
    home := Function.update k.home x none
    prev := match k.next x with
      | some after => Function.update k.prev after (k.prev x)
      | none => k.prev
    next := match k.prev x with
      | some before => Function.update k.next before (k.next x)
      | none => k.next }

/-- The first member of list `b` is passed: the list starts behind it. -/
def pass (k : Links α β) (b : β) (x : α) : Links α β :=
  { k with
    root := Function.update k.root b (k.next x)
    back := Function.update k.back b (some x)
    home := Function.update k.home x none }

@[simp] theorem pass_next (k : Links α β) (b : β) (x : α) : (k.pass b x).next = k.next := rfl
@[simp] theorem pass_prev (k : Links α β) (b : β) (x : α) : (k.pass b x).prev = k.prev := rfl

omit [DecidableEq α] [DecidableEq β] in
theorem Shows.unlisted (h : k.Shows L) (hx : k.home x = none) : ∀ b, x ∉ L b := by
  intro b hm
  have hb := h.home b x hm
  rw [hx] at hb
  contradiction

omit [DecidableEq α] [DecidableEq β] in
/-- A member is in one list. -/
theorem Shows.unique (h : k.Shows L) (hb : x ∈ L b) (hc : x ∈ L c) : b = c := by
  have := (h.home b x hb).symm.trans (h.home c x hc)
  simpa using this

omit [DecidableEq α] [DecidableEq β] in
theorem Shows.next_head (h : k.Shows L) (hb : L b = x :: xs) : k.next x = xs.head? := by
  have := h.next b
  rw [hb] at this
  simpa using this.1

omit [DecidableEq α] [DecidableEq β] in
theorem Shows.congr (h : k.Shows L) {k' : Links α β} (hroot : k'.root = k.root)
    (hnext : k'.next = k.next) (hhome : k'.home = k.home) : k'.Shows L := by
  refine ⟨fun b => ?_, fun b => ?_, h.nodup, fun b x hx => ?_⟩
  · rw [hroot]
    exact h.root b
  · rw [hnext]
    exact h.next b
  · rw [hhome]
    exact h.home b x hx

/-- Who stands first in a list and has no predecessor is not known to the others. -/
theorem Shows.push (h : k.Shows L) (hx : k.home x = none) (b : β) :
    (k.push b x).Shows (Function.update L b (x :: L b)) := by
  have hnot := h.unlisted hx
  have hne : ∀ c, ∀ y ∈ L c, y ≠ x := fun c y hy he => hnot c (he ▸ hy)
  have hnext : ∀ c, Fwd (k.push b x).next none (L c) := fun c =>
    (h.next c).congr (fun y hy => Function.update_of_ne (hne c y hy) _ _)
  refine ⟨fun c => ?_, fun c => ?_, fun c => ?_, fun c y hy => ?_⟩
  · by_cases hc : c = b
    · subst hc
      simp [Links.push]
    · simpa [Links.push, hc] using h.root c
  · by_cases hc : c = b
    · subst hc
      simp only [Function.update_self]
      refine ⟨?_, hnext c⟩
      simp [Links.push, h.root c]
    · simpa [hc] using hnext c
  · by_cases hc : c = b
    · subst hc
      simpa using ⟨hnot c, h.nodup c⟩
    · simpa [hc] using h.nodup c
  · by_cases hyx : y = x
    · subst hyx
      by_cases hc : c = b
      · simp [Links.push, hc]
      · exact absurd (by simpa [hc] using hy) (hnot c)
    · have hy : y ∈ L c := by
        by_cases hc : c = b
        · subst hc
          simpa [hyx] using hy
        · simpa [hc] using hy
      simpa [Links.push, hyx] using h.home c y hy

omit [DecidableEq α] [DecidableEq β] in
/-- A member that is in no list may change what it knows. -/
theorem Shows.stray (h : k.Shows L) (hx : ∀ b, x ∉ L b) {k' : Links α β}
    (hroot : ∀ b, k'.root b = k.root b) (hnext : ∀ y, y ≠ x → k'.next y = k.next y)
    (hhome : ∀ y, y ≠ x → k'.home y = k.home y) : k'.Shows L := by
  have hne : ∀ c, ∀ y ∈ L c, y ≠ x := fun c y hy he => hx c (he ▸ hy)
  refine ⟨fun c => (hroot c).trans (h.root c), fun c => ?_, h.nodup, fun c y hy => ?_⟩
  · exact (h.next c).congr (fun y hy => hnext y (hne c y hy))
  · rw [hhome y (hne c y hy)]
    exact h.home c y hy

theorem Holds.push (h : k.Holds L) (hx : k.home x = none) (hb : k.back b = none) :
    (k.push b x).Holds (Function.update L b (x :: L b)) := by
  have hnot := h.unlisted hx
  have hne : ∀ c, ∀ y ∈ L c, y ≠ x := fun c y hy he => hnot c (he ▸ hy)
  have hroot := h.root b
  refine ⟨h.toShows.push hx b, fun c => ?_, fun y c hy => ?_⟩
  · by_cases hc : c = b
    · subst hc
      simp only [Function.update_self]
      refine ⟨by simpa [Links.push] using hb.symm, ?_⟩
      cases hl : L c with
      | nil => trivial
      | cons first rest =>
        have hprev := h.prev c
        have hnd := h.nodup c
        rw [hl] at hprev hroot hnd
        have hfx : first ≠ x := hne c first (by simp [hl])
        refine ⟨by simp [Links.push, hroot, hfx], hprev.2.congr (fun y hy => ?_)⟩
        have hyf : y ≠ first := fun he => (List.nodup_cons.mp hnd).1 (he ▸ hy)
        simp [Links.push, hroot, hyf, hne c y (by simp [hl, hy])]
    · rw [Function.update_of_ne hc]
      refine (h.prev c).congr (fun y hy => ?_)
      cases hl : L b with
      | nil => simp [Links.push, hroot, hl, hne c y hy]
      | cons first rest =>
        have hyf : y ≠ first := fun he => hc (h.unique (he ▸ hy) (by simp [hl]))
        simp [Links.push, hroot, hl, hne c y hy, hyf]
  · by_cases hyx : y = x
    · subst hyx
      have hc : c = b := by simpa [Links.push, eq_comm] using hy
      simp [hc]
    · have hm := h.mem y c (by simpa [Links.push, hyx] using hy)
      by_cases hc : c = b
      · subst hc
        simp [hm]
      · simpa [hc] using hm

/-- The rest of a list once its first member is passed. -/
theorem Shows.pass (h : k.Shows L) (hb : L b = x :: xs) :
    (k.pass b x).Shows (Function.update L b xs) := by
  have hnd := h.nodup b
  have hnext := h.next b
  rw [hb] at hnd hnext
  refine ⟨fun c => ?_, fun c => ?_, fun c => ?_, fun c y hy => ?_⟩
  · by_cases hc : c = b
    · subst hc
      simp [Links.pass, h.next_head hb]
    · simpa [Links.pass, hc] using h.root c
  · by_cases hc : c = b
    · subst hc
      simpa using hnext.2
    · simpa [hc] using h.next c
  · by_cases hc : c = b
    · subst hc
      simpa using (List.nodup_cons.mp hnd).2
    · simpa [hc] using h.nodup c
  · have hyx : y ≠ x := by
      rintro rfl
      by_cases hc : c = b
      · subst hc
        exact (List.nodup_cons.mp hnd).1 (by simpa using hy)
      · exact hc (h.unique (by simpa [hc] using hy) (by simp [hb]))
    simp only [Links.pass, Function.update_of_ne hyx]
    by_cases hc : c = b
    · subst hc
      refine h.home c y ?_
      rw [hb]
      exact List.mem_cons_of_mem _ (by simpa using hy)
    · exact h.home c y (by simpa [hc] using hy)

theorem Holds.pass (h : k.Holds L) (hb : L b = x :: xs) :
    (k.pass b x).Holds (Function.update L b xs) := by
  have hprev := h.prev b
  rw [hb] at hprev
  refine ⟨h.toShows.pass hb, fun c => ?_, fun y c hy => ?_⟩
  · by_cases hc : c = b
    · subst hc
      simpa [Links.pass] using hprev.2
    · simpa [Links.pass, hc] using h.prev c
  · have hyx : y ≠ x := by
      rintro rfl
      simp [Links.pass] at hy
    have hm := h.mem y c (by simpa [Links.pass, hyx] using hy)
    by_cases hc : c = b
    · subst hc
      rw [hb] at hm
      simpa using (List.mem_cons.mp hm).resolve_left hyx
    · simpa [hc] using hm

omit [DecidableEq α] [DecidableEq β] in
/-- The neighbours of a member. -/
theorem Holds.around (h : k.Holds L) (hb : L b = as ++ x :: cs) :
    k.prev x = as.getLast?.or (k.back b) ∧ k.next x = cs.head? := by
  have hprev := h.prev b
  have hnext := h.next b
  rw [hb] at hprev hnext
  have hprev := ((bwd_append _ _).mp hprev).2.1
  have hnext := ((fwd_append _ _).mp hnext).2.1
  exact ⟨hprev, by simpa using hnext⟩

omit [DecidableEq α] [DecidableEq β] in
/-- Before and behind a member stand other members. -/
theorem Holds.apart (h : k.Holds L) (hb : L b = as ++ x :: cs) :
    as.Nodup ∧ cs.Nodup ∧ x ∉ as ∧ x ∉ cs ∧ List.Disjoint as cs := by
  have hnd := h.nodup b
  rw [hb, List.nodup_append'] at hnd
  obtain ⟨has, hcs, hdis⟩ := hnd
  obtain ⟨hx, hcs⟩ := List.nodup_cons.mp hcs
  refine ⟨has, hcs, fun hm => hdis hm List.mem_cons_self, hx, ?_⟩
  exact fun y hy hy' => hdis hy (List.mem_cons_of_mem _ hy')

theorem Holds.remove_next (h : k.Holds L) (hb : L b = as ++ x :: cs)
    (hback : as = [] → k.back b = none) :
    ∀ c, Fwd (k.remove b x).next none (Function.update L b (as ++ cs) c) := by
  obtain ⟨hprev, hnext⟩ := h.around hb
  obtain ⟨has, hcs, hxas, hxcs, hdis⟩ := h.apart hb
  have hold := h.next b
  rw [hb, fwd_append] at hold
  rcases List.eq_nil_or_concat as with rfl | ⟨as', before, rfl⟩
  · -- the first member leaves: no other one knows it
    have hnone : k.prev x = none := by simpa [hback rfl] using hprev
    intro c
    simp only [Links.remove, hnone]
    by_cases hc : c = b
    · subst hc
      simpa using hold.2.2
    · simpa [hc] using h.next c
  · have hsome : k.prev x = some before := by simpa using hprev
    rw [List.concat_eq_append] at has hold hdis hb
    have hkeep : ∀ y, y ≠ before → (k.remove b x).next y = k.next y := by
      intro y hy
      simp [Links.remove, hsome, hy]
    have hbefore : ∀ y ∈ as', y ≠ before := by
      rintro y hy rfl
      exact (List.nodup_append'.mp has).2.2 hy (by simp)
    intro c
    by_cases hc : c = b
    · subst hc
      simp only [Function.update_self, List.concat_eq_append]
      rw [fwd_append, fwd_append]
      rw [fwd_append] at hold
      refine ⟨⟨hold.1.1.congr (fun y hy => hkeep y (hbefore y hy)), ?_, trivial⟩, ?_⟩
      · simp [Links.remove, hsome, hnext]
      · refine hold.2.2.congr (fun y hy => hkeep y ?_)
        rintro rfl
        exact hdis (by simp) hy
    · rw [Function.update_of_ne hc]
      refine (h.next c).congr (fun y hy => hkeep y ?_)
      rintro rfl
      exact hc (h.unique hy (by simp [hb]))

theorem Holds.remove_prev (h : k.Holds L) (hb : L b = as ++ x :: cs) :
    ∀ c, Bwd (k.remove b x).prev (k.back c) (Function.update L b (as ++ cs) c) := by
  obtain ⟨hprev, hnext⟩ := h.around hb
  obtain ⟨has, hcs, hxas, hxcs, hdis⟩ := h.apart hb
  have hold := h.prev b
  rw [hb, bwd_append] at hold
  cases cs with
  | nil =>
    have hnone : k.next x = none := hnext
    intro c
    simp only [Links.remove, hnone]
    by_cases hc : c = b
    · subst hc
      simpa using hold.1
    · simpa [hc] using h.prev c
  | cons after cs =>
    have hsome : k.next x = some after := hnext
    have hkeep : ∀ y, y ≠ after → (k.remove b x).prev y = k.prev y := by
      intro y hy
      simp [Links.remove, hsome, hy]
    intro c
    by_cases hc : c = b
    · subst hc
      rw [Function.update_self, bwd_append]
      refine ⟨hold.1.congr (fun y hy => hkeep y ?_), ?_, ?_⟩
      · rintro rfl
        exact hdis hy List.mem_cons_self
      · simp [Links.remove, hsome, hprev]
      · refine hold.2.2.2.congr (fun y hy => hkeep y ?_)
        rintro rfl
        exact (List.nodup_cons.mp hcs).1 hy
    · rw [Function.update_of_ne hc]
      refine (h.prev c).congr (fun y hy => hkeep y ?_)
      rintro rfl
      exact hc (h.unique hy (by simp [hb]))

/-- A member leaves its list. The first one of a list may leave if nothing stands before it. -/
theorem Holds.remove (h : k.Holds L) (hb : L b = as ++ x :: cs)
    (hback : as = [] → k.back b = none) :
    (k.remove b x).Holds (Function.update L b (as ++ cs)) := by
  obtain ⟨hprev, hnext⟩ := h.around hb
  obtain ⟨has, hcs, hxas, hxcs, hdis⟩ := h.apart hb
  have hroot := h.root b
  have hx : ∀ c, x ∈ L c → c = b := fun c hc => h.unique hc (by simp [hb])
  have hmem : ∀ c, ∀ y ∈ Function.update L b (as ++ cs) c, y ≠ x ∧ y ∈ L c := by
    intro c y hy
    by_cases hc : c = b
    · subst hc
      simp only [Function.update_self, List.mem_append] at hy
      refine ⟨?_, by simp [hb]; tauto⟩
      rintro rfl
      exact hy.elim hxas hxcs
    · rw [Function.update_of_ne hc] at hy
      exact ⟨fun he => hc (hx c (he ▸ hy)), hy⟩
  refine ⟨⟨fun c => ?_, h.remove_next hb hback, fun c => ?_, fun c y hy => ?_⟩,
    h.remove_prev hb, fun y c hy => ?_⟩
  · by_cases hc : c = b
    · subst hc
      rw [hb] at hroot
      cases as with
      | nil =>
        have hnone : k.prev x = none := by simpa [hback rfl] using hprev
        simp [Links.remove, hnone, hnext]
      | cons first as =>
        have hsome : (k.prev x).isNone = false := by
          rw [hprev]
          simp [List.getLast?_cons]
        simpa [Links.remove, hsome] using hroot
    · have hsame : (k.remove b x).root c = k.root c := by
        simp only [Links.remove]
        split
        · exact Function.update_of_ne hc _ _
        · rfl
      rw [hsame, h.root c, Function.update_of_ne hc]
  · by_cases hc : c = b
    · subst hc
      rw [Function.update_self]
      exact List.nodup_append'.mpr ⟨has, hcs, hdis⟩
    · simpa [hc] using h.nodup c
  · obtain ⟨hyx, hy⟩ := hmem c y hy
    simpa [Links.remove, hyx] using h.home c y hy
  · have hyx : y ≠ x := by
      rintro rfl
      simp [Links.remove] at hy
    have hm := h.mem y c (by simpa [Links.remove, hyx] using hy)
    by_cases hc : c = b
    · subst hc
      rw [hb] at hm
      simp only [List.mem_append, List.mem_cons, hyx, false_or] at hm
      simpa using hm
    · simpa [hc] using hm

end Links

end Evel.General
