import Mathlib.Data.List.Forall2
import Evel.Model.ExpIndexedList

namespace Evel.ExpIndexed
open General

variable {T : Type u} {sa nb : Nat} {p : T → Bool}

/-- The data of the items in `p`. -/
def mask (p : T → Bool) (items : T → ItemData) : T → ItemData :=
  fun x => if p x then items x else ⟨none, 0⟩

/-- The items in `p`, as if there were no others. -/
def Store.only (p : T → Bool) (s : Store T) : Store T :=
  { subLists := fun b => (s.subLists b).filter p, items := mask p s.items }

namespace Levels

def only (p : T → Bool) : {nb : Nat} → Levels T sa nb → Levels T sa nb
  | 0, .last subList => .last (subList.filter p)
  | _ + 1, .level subLists curList curLe next =>
    .level (fun b => (subLists b).filter p) curList curLe (next.only p)

end Levels

def Shifted.only (p : T → Bool) (r : Shifted T sa nb) : Shifted T sa nb :=
  { levels := r.levels.only p, items := mask p r.items, out := r.out.filter p }

def ExpIndexedList.only {g : Geometry} (p : T → Bool) (l : ExpIndexedList T g) :
    ExpIndexedList T g :=
  { offset := l.offset, list := l.list.only p, items := mask p l.items }

section mask
variable {items : T → ItemData} {x : T}

theorem mask_apply (hx : p x = true) : mask p items x = items x := if_pos hx

variable [DecidableEq T]

theorem mask_update (hx : p x = true) :
    mask p (Function.update items x d) = Function.update (mask p items) x d := by
  funext y
  by_cases hy : y = x
  · subst hy
    simp [mask, hx]
  · simp [mask, hy]

/-- The data of another item does not show. -/
theorem mask_update_other (hx : p x = false) :
    mask p (Function.update items x d) = mask p items := by
  funext y
  by_cases hy : y = x
  · subst hy
    simp [mask, hx]
  · simp [mask, hy]

theorem mask_link (hx : p x = true) : mask p (link items x lst) = link (mask p items) x lst := by
  simp [link, mask_update hx, mask_apply hx]

theorem mask_link_other (hx : p x = false) : mask p (link items x lst) = mask p items :=
  mask_update_other hx

theorem mask_unlink (out : List T) :
    mask p (unlink items out) = unlink (mask p items) (out.filter p) := by
  funext x
  by_cases hx : p x = true
  · simp [mask, unlink, hx]
  · simp [mask, unlink, hx]

omit [DecidableEq T] in
theorem filter_update (f : Nat → List T) (b : Nat) (xs : List T) :
    (fun c => (Function.update f b xs c).filter p) =
      Function.update (fun c => (f c).filter p) b (xs.filter p) := by
  funext c
  by_cases hc : c = b
  · subst hc
    simp
  · simp [hc]

end mask

section levels
variable [DecidableEq T]

theorem addLoc_only (s : Store T) (hx : p x = true) :
    (addLoc sa depth pm c s x i).only p = addLoc sa depth pm c (s.only p) x i := by
  simp only [addLoc, Store.only, filter_update, mask_link hx, List.filter_cons_of_pos hx]

/-- An item that goes to its bucket does not show in the others. -/
theorem addLoc_only_other (s : Store T) (hx : p x = false) :
    (addLoc sa depth pm c s x i).only p = s.only p := by
  have hsame : ((x :: s.subLists ((c + i / pm) % sizeMod % sa)).filter p) =
      (s.subLists ((c + i / pm) % sizeMod % sa)).filter p :=
    List.filter_cons_of_neg (by simp [hx])
  simp only [addLoc, Store.only, filter_update, mask_link_other hx, hsame, Function.update_eq_self]

/-- The cascade sends each item to its bucket, whatever goes with it. -/
theorem cascade_only (out : List T) (s : Store T) (globOffset : Nat) :
    (out.foldl (fun s item => addLoc sa depth pm 0 s item
        (sizeSub (s.items item).offset globOffset)) s).only p =
      (out.filter p).foldl (fun s item => addLoc sa depth pm 0 s item
        (sizeSub (s.items item).offset globOffset)) (s.only p) := by
  induction out generalizing s with
  | nil => rfl
  | cons x out ih =>
    rw [List.foldl_cons, ih]
    cases hx : p x with
    | true =>
      have hitem : (s.only p).items x = s.items x := mask_apply hx
      rw [List.filter_cons_of_pos hx, List.foldl_cons, addLoc_only s hx, hitem]
    | false =>
      rw [List.filter_cons_of_neg (by simp [hx]), addLoc_only_other s hx]

theorem takeBucket_only (s : Store T) (h : c < sa) (next : Levels T sa nb) :
    (takeBucket s c h next).only p = takeBucket (s.only p) c h (next.only p) := by
  simp only [takeBucket, Shifted.only, Levels.only, filter_update, mask_unlink, Store.only,
    List.filter_nil]

theorem shift_only (saPos : 0 < sa) (globOffset pm : Nat) (w : Levels T sa nb)
    (items : T → ItemData) :
    (w.shift saPos globOffset pm items).only p =
      (w.only p).shift saPos globOffset pm (mask p items) := by
  induction w generalizing pm with
  | last subList =>
    have hdue : ∀ x ∈ subList.filter p, (mask p items x).offset = (items x).offset := by
      intro x hx
      rw [mask_apply (List.mem_filter.mp hx).2]
    have hout : (subList.filter
        (fun x => decide ((items x).offset < (globOffset + pm) % sizeMod))).filter p =
        (subList.filter p).filter
          (fun x => decide ((mask p items x).offset < (globOffset + pm) % sizeMod)) := by
      rw [List.filter_comm]
      exact List.filter_congr (fun x hx => by rw [hdue x hx])
    have hleft : (subList.filter
          (fun x => !decide ((items x).offset < (globOffset + pm) % sizeMod))).filter p =
        (subList.filter p).filter
          (fun x => !decide ((mask p items x).offset < (globOffset + pm) % sizeMod)) := by
      rw [List.filter_comm]
      exact List.filter_congr (fun x hx => by rw [hdue x hx])
    simp only [Levels.shift, Levels.only, Shifted.only, mask_unlink, hout, hleft]
  | level subLists curList curLe next ih =>
    by_cases hc : curList = sa
    · simp only [Levels.shift, Levels.only, hc, ↓reduceDIte, takeBucket_only, cascade_only]
      rw [← ih (nextPm sa pm)]
      rfl
    · simp only [Levels.shift, Levels.only, hc, ↓reduceDIte]
      exact takeBucket_only _ _ _

theorem add_only (pm of : Nat) (w : Levels T sa nb) (items : T → ItemData) (hx : p x = true) :
    (w.only p).add pm of (mask p items) x index =
      ((w.add pm of items x index).1.only p, mask p (w.add pm of items x index).2) := by
  induction w generalizing pm of with
  | last subList => simp [Levels.add, Levels.only, hx, mask_link hx]
  | @level nb subLists curList curLe next ih =>
    simp only [Levels.add, Levels.only]
    split
    · rw [ih]
      rfl
    · rw [show (⟨fun b => (subLists b).filter p, mask p items⟩ : Store T) =
        Store.only p ⟨subLists, items⟩ from rfl, ← addLoc_only _ hx]
      rfl

theorem add_only_other (pm of index : Nat) (w : Levels T sa nb) (items : T → ItemData)
    (hx : p x = false) :
    (w.add pm of items x index).1.only p = w.only p ∧
      mask p (w.add pm of items x index).2 = mask p items := by
  induction w generalizing pm of with
  | last subList => simp [Levels.add, Levels.only, hx, mask_link_other hx]
  | @level nb subLists curList curLe next ih =>
    simp only [Levels.add]
    split
    · obtain ⟨hlevels, hitems⟩ := ih (nextPm sa pm) (nextIndex sa pm of)
      exact ⟨by simp only [Levels.only, hlevels], hitems⟩
    · have hloc : (addLoc sa (nb + 1) pm curList ⟨subLists, items⟩ x (sizeSub index of)).only p =
          Store.only p ⟨subLists, items⟩ := addLoc_only_other _ hx
      obtain ⟨hsub, hitems⟩ := Store.mk.inj hloc
      exact ⟨by simp only [Levels.only, hsub], hitems⟩

theorem filter_erase_other (hx : p x = false) (xs : List T) :
    (xs.erase x).filter p = xs.filter p := by
  rw [List.erase_filter.symm]
  exact List.erase_of_not_mem (by simp [hx])

theorem erase_only (w : Levels T sa nb) (b : Bucket) (x : T) :
    (w.erase b x).only p = (w.only p).erase b x := by
  induction w with
  | last subList => simp only [Levels.erase, Levels.only, List.erase_filter]
  | level subLists curList curLe next ih =>
    obtain ⟨depth, b⟩ := b
    simp only [Levels.erase, Levels.only]
    split
    · simp only [Levels.only, filter_update, List.erase_filter]
    · simp only [Levels.only, ih]

theorem erase_only_other (w : Levels T sa nb) (b : Bucket) (hx : p x = false) :
    (w.erase b x).only p = w.only p := by
  induction w with
  | last subList => simp only [Levels.erase, Levels.only, filter_erase_other hx]
  | level subLists curList curLe next ih =>
    obtain ⟨depth, b⟩ := b
    simp only [Levels.erase]
    split
    · simp only [Levels.only, filter_update, filter_erase_other hx, Function.update_eq_self]
    · simp only [Levels.only, ih]

end levels

namespace ExpIndexedList
variable {g : Geometry}

theorem only_new (p : T → Bool) (offset : Nat) : (new T g offset).only p = new T g offset := by
  have hempty : ∀ nb, (Levels.empty T g.sa nb).only p = .empty T g.sa nb := by
    intro nb
    induction nb with
    | zero => rfl
    | succ nb ih => simp [Levels.empty, Levels.only, ih]
  have hitems : mask p (fun _ : T => ⟨none, 0⟩) = fun _ => ⟨none, 0⟩ := by
    funext x
    simp [mask]
  simp [only, new, hempty, hitems]

variable [DecidableEq T]

theorem only_add (l : ExpIndexedList T g) (hx : p x = true) :
    (l.add x index).only p = (l.only p).add x index := by
  have hitem : (l.only p).items x = l.items x := mask_apply hx
  simp only [add, hitem]
  split
  · rfl
  · simp only [only, ← mask_update hx, add_only _ _ _ _ hx]

theorem only_add_other (l : ExpIndexedList T g) (hx : p x = false) :
    (l.add x index).only p = l.only p := by
  simp only [add]
  split
  · rfl
  · obtain ⟨hlevels, hitems⟩ := add_only_other 1 0 index l.list
      (Function.update l.items x { l.items x with offset := (l.offset + index) % sizeMod })
      hx
    rw [mask_update_other hx] at hitems
    simp only [only, hlevels, hitems]

theorem only_rem (l : ExpIndexedList T g) (hx : p x = true) :
    (l.rem x).only p = (l.only p).rem x := by
  have hitem : (l.only p).items x = l.items x := mask_apply hx
  simp only [rem, hitem]
  split
  · rfl
  · simp only [only, erase_only, mask_link hx]

theorem only_rem_other (l : ExpIndexedList T g) (hx : p x = false) :
    (l.rem x).only p = l.only p := by
  simp only [rem]
  split
  · rfl
  · simp only [only, erase_only_other _ _ hx, mask_link_other hx]

theorem only_shifted (p : T → Bool) (l : ExpIndexedList T g) :
    l.shifted.only p = (l.only p).shifted :=
  shift_only g.saPos l.offset 1 l.list l.items

end ExpIndexedList

/-- The call is about an item in `p`, or about time. -/
def Call.concerns (p : T → Bool) : Call T → Bool
  | .add item _ | .rem item | .destroy item => p item
  | .size => false
  | .shift => true

/-- What the shifts have handed to the callback, shift by shift. -/
def handed (seen : List (Seen T)) : List (List T) :=
  seen.filterMap (fun s => match s with | .handed out => some out | _ => none)

section observe
variable [DecidableEq T] {g : Geometry}

theorem call_only (l : ExpIndexedList T g) {c : Call T} (hc : c.concerns p = true) :
    (l.call c).1.only p = ((l.only p).call c).1 := by
  cases c with
  | add x index => exact l.only_add hc
  | rem x => exact l.only_rem hc
  | destroy x => exact l.only_rem hc
  | size => cases hc
  | shift =>
    have hs := l.only_shifted p
    simp only [ExpIndexedList.call, ExpIndexedList.shift, ← hs]
    rfl

theorem call_only_other (l : ExpIndexedList T g) {c : Call T} (hc : c.concerns p = false) :
    (l.call c).1.only p = l.only p ∧ handed [(l.call c).2] = [] := by
  cases c with
  | add x index => exact ⟨l.only_add_other hc, rfl⟩
  | rem x => exact ⟨l.only_rem_other hc, rfl⟩
  | destroy x => exact ⟨l.only_rem_other hc, rfl⟩
  | size => exact ⟨rfl, rfl⟩
  | shift => cases hc

omit [DecidableEq T] in
theorem handed_cons (s : Seen T) (seen : List (Seen T)) :
    handed (s :: seen) = handed [s] ++ handed seen := by
  cases s <;> rfl

/-- What is handed over of `p` is what would be handed over if there were nothing else. -/
theorem observe_only (l : ExpIndexedList T g) (cs : List (Call T)) :
    (handed (l.observe cs)).map (List.filter p) =
      handed ((l.only p).observe (cs.filter (Call.concerns p))) := by
  induction cs generalizing l with
  | nil => rfl
  | cons c cs ih =>
    rw [ExpIndexedList.observe, handed_cons, List.map_append, ih]
    cases hc : c.concerns p with
    | true =>
      have hsame : (handed [(l.call c).2]).map (List.filter p) =
          handed [((l.only p).call c).2] := by
        cases c with
        | shift =>
          have hout : l.shifted.out.filter p = (l.only p).shifted.out :=
            congrArg Shifted.out (l.only_shifted p)
          simp [handed, ExpIndexedList.call, hout]
        | _ => rfl
      rw [List.filter_cons_of_pos hc, ExpIndexedList.observe,
        handed_cons _ (ExpIndexedList.observe _ _),
        call_only l hc, hsame]
    | false =>
      obtain ⟨honly, hnone⟩ := call_only_other l hc
      rw [List.filter_cons_of_neg (by simp [hc]), honly, hnone]
      rfl

theorem observe_count (x : T) (offset : Nat) (cs : List (Call T)) :
    (handed ((ExpIndexedList.new T g offset).observe cs)).map (List.count x) =
      (handed ((ExpIndexedList.new T g offset).observe
        (cs.filter (Call.concerns (· == x))))).map List.length := by
  have honly := observe_only (p := (· == x)) (ExpIndexedList.new T g offset) cs
  rw [ExpIndexedList.only_new] at honly
  rw [← honly, List.map_map]
  refine List.map_congr_left (fun out _ => ?_)
  exact List.count_eq_length_filter

theorem length_handed (l : ExpIndexedList T g) (cs : List (Call T)) :
    (handed (l.observe cs)).length = cs.count .shift := by
  induction cs generalizing l with
  | nil => rfl
  | cons c cs ih =>
    rw [ExpIndexedList.observe, handed_cons, List.length_append, ih]
    cases c with
    | shift => simp [handed, ExpIndexedList.call, Nat.add_comm]
    | _ => simp [handed, ExpIndexedList.call]

/-- Lists that hold each item equally often are the same but for the order. -/
theorem forall₂_perm {xs ys : List (List T)} (hlen : xs.length = ys.length)
    (h : ∀ x, xs.map (List.count x) = ys.map (List.count x)) : List.Forall₂ List.Perm xs ys := by
  induction xs generalizing ys with
  | nil =>
    obtain rfl := List.eq_nil_of_length_eq_zero hlen.symm
    exact .nil
  | cons a xs ih =>
    cases ys with
    | nil => cases hlen
    | cons b ys =>
      simp only [List.map_cons, List.cons.injEq] at h
      exact .cons (List.perm_iff_count.mpr (fun x => (h x).1))
        (ih (Nat.succ.inj hlen) (fun x => (h x).2))

/-- Two runs with the same shifts and the same calls on one item hand that item over by the same
shifts. If they have the same calls on each item, only the order within a shift may differ. -/
theorem timeouts_independent (g : Geometry) (offset : Nat) (cs ds : List (Call T)) :
    (∀ x, cs.filter (Call.concerns (· == x)) = ds.filter (Call.concerns (· == x)) →
      (handed ((ExpIndexedList.new T g offset).observe cs)).map (List.count x) =
        (handed ((ExpIndexedList.new T g offset).observe ds)).map (List.count x)) ∧
    (cs.count .shift = ds.count .shift →
      (∀ x, cs.filter (Call.concerns (· == x)) = ds.filter (Call.concerns (· == x))) →
      List.Forall₂ List.Perm (handed ((ExpIndexedList.new T g offset).observe cs))
        (handed ((ExpIndexedList.new T g offset).observe ds))) := by
  have hone : ∀ x, cs.filter (Call.concerns (· == x)) = ds.filter (Call.concerns (· == x)) →
      (handed ((ExpIndexedList.new T g offset).observe cs)).map (List.count x) =
        (handed ((ExpIndexedList.new T g offset).observe ds)).map (List.count x) := by
    intro x h
    rw [observe_count, observe_count, h]
  refine ⟨hone, fun hshift hall => ?_⟩
  refine forall₂_perm ?_ (fun x => hone x (hall x))
  rw [length_handed, length_handed, hshift]

/-- Two items are added in either order, with a third one beside them or not. -/
theorem timeouts_independent_swap :
    let g : Geometry := ⟨4, 3, by decide⟩
    let l := ExpIndexedList.new (Fin 3) g 0
    (handed (l.observe [.add 0 1, .add 1 9, .shift, .shift])).map (List.count 0) =
        (handed (l.observe [.add 2 1, .add 0 1, .shift, .rem 2, .shift])).map (List.count 0) ∧
      List.Forall₂ List.Perm (handed (l.observe [.add 0 1, .add 1 1, .shift, .shift]))
        (handed (l.observe [.add 1 1, .add 0 1, .shift, .shift])) :=
  ⟨(timeouts_independent ⟨4, 3, by decide⟩ 0 [.add 0 1, .add 1 9, .shift, .shift]
      [.add 2 1, .add 0 1, .shift, .rem 2, .shift]).1 0 (by decide),
    (timeouts_independent ⟨4, 3, by decide⟩ 0 [.add 0 1, .add 1 1, .shift, .shift]
      [.add 1 1, .add 0 1, .shift, .shift]).2 (by decide) (by decide)⟩

end observe

end Evel.ExpIndexed
