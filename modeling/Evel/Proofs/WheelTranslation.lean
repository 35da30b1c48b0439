import Evel.Proofs.WheelFlat

namespace Evel.ExpIndexed
open General

variable {T : Type u} {sa nb : Nat} {P Q : T → Prop} {due due' : T → Nat}

/-- The last bucket is empty, and what the others hold satisfies `P`. -/
def Levels.Upper (P : T → Prop) : {nb : Nat} → Levels T sa nb → Prop
  | 0, .last subList => subList = []
  | _ + 1, .level subLists _ _ next => (∀ b, ∀ x ∈ subLists b, P x) ∧ next.Upper P

theorem Levels.Upper.mono {w : Levels T sa nb} (h : w.Upper P) (hpq : ∀ x, P x → Q x) :
    w.Upper Q := by
  induction w with
  | last subList => exact h
  | level subLists curList curLe next ih =>
    exact ⟨fun b x hx => hpq x (h.1 b x hx), ih h.2⟩

theorem upper_empty (P : T → Prop) (sa nb : Nat) : (Levels.empty T sa nb).Upper P := by
  induction nb with
  | zero => rfl
  | succ nb ih => exact ⟨fun _ _ hx => (List.not_mem_nil hx).elim, ih⟩

/-- The same items, with the ticks of one list and with those of another. -/
structure Twins (due due' : T → Nat) (items items' : T → ItemData) : Prop where
  lst : ∀ x, (items' x).lst = (items x).lst
  due : ∀ x, (items x).offset = due x
  due' : ∀ x, (items' x).offset = due' x

/-- The tick lies `d` behind the other one, on the clock. -/
def Behind (d a a' : Nat) : Prop := a < sizeMod ∧ a' = (a + d) % sizeMod

theorem Behind.start (hd : d < sizeMod) : Behind d 0 d :=
  ⟨by decide, by rw [Nat.zero_add, Nat.mod_eq_of_lt hd]⟩

/-- The difference of two ticks does not depend on where they lie. -/
theorem Behind.sub (ha : Behind d a a') (hb : Behind d b b') : sizeSub a' b' = sizeSub a b := by
  obtain ⟨ha, rfl⟩ := ha
  obtain ⟨hb, rfl⟩ := hb
  unfold sizeSub sizeMod at *
  omega

theorem Behind.add (h : Behind d a a') (n : Nat) :
    Behind d ((a + n) % sizeMod) ((a' + n) % sizeMod) := by
  obtain ⟨ha, rfl⟩ := h
  refine ⟨Nat.mod_lt _ (by decide), ?_⟩
  rw [Nat.mod_add_mod, Nat.mod_add_mod]
  congr 1
  omega

section levels
variable [DecidableEq T] {items items' : T → ItemData}

theorem Twins.link (h : Twins due due' items items') (x : T) (lst : Option Bucket) :
    Twins due due' (link items x lst) (link items' x lst) := by
  refine ⟨fun y => ?_, fun y => (link_offset _ _ _ _).trans (h.due y),
    fun y => (link_offset _ _ _ _).trans (h.due' y)⟩
  by_cases hy : y = x
  · rw [hy, link_self, link_self]
  · rw [link_of_ne hy, link_of_ne hy, h.lst y]

theorem Twins.unlink (h : Twins due due' items items') (out : List T) :
    Twins due due' (unlink items out) (unlink items' out) := by
  refine ⟨fun y => ?_, fun y => ?_, fun y => ?_⟩
  · by_cases hy : y ∈ out <;> simp [ExpIndexed.unlink, hy, h.lst y]
  · by_cases hy : y ∈ out <;> simp [ExpIndexed.unlink, hy, h.due y]
  · by_cases hy : y ∈ out <;> simp [ExpIndexed.unlink, hy, h.due' y]

/-- Two levels with the same buckets, whose items satisfy `P` -/
structure TwinStores (P : T → Prop) (due due' : T → Nat) (s s' : Store T) : Prop where
  items : Twins due due' s.items s'.items
  subLists : s'.subLists = s.subLists
  upper : ∀ b, ∀ x ∈ s.subLists b, P x

theorem TwinStores.addLoc {s s' : Store T} (h : TwinStores P due due' s s') (hx : P x)
    (sa depth pm c i : Nat) :
    TwinStores P due due' (addLoc sa depth pm c s x i) (addLoc sa depth pm c s' x i) := by
  refine ⟨h.items.link x _, ?_, fun b y hy => ?_⟩
  · simp only [ExpIndexed.addLoc, h.subLists]
  · by_cases hb : b = (c + i / pm) % sizeMod % sa
    · subst hb
      simp only [ExpIndexed.addLoc, Function.update_self, List.mem_cons] at hy
      rcases hy with rfl | hy
      · exact hx
      · exact h.upper _ y hy
    · simp only [ExpIndexed.addLoc, Function.update_of_ne hb] at hy
      exact h.upper b y hy

/-- A cascade sends each item to its bucket, wherever the ticks lie. -/
theorem TwinStores.cascade {s s' : Store T} (ho : Behind d o o')
    (hP : ∀ x, P x → Behind d (due x) (due' x)) (h : TwinStores P due due' s s')
    (out : List T) (hout : ∀ x ∈ out, P x) (depth pm : Nat) :
    TwinStores P due due'
      (out.foldl (fun s item => ExpIndexed.addLoc sa depth pm 0 s item
        (sizeSub (s.items item).offset o)) s)
      (out.foldl (fun s item => ExpIndexed.addLoc sa depth pm 0 s item
        (sizeSub (s.items item).offset o')) s') := by
  induction out generalizing s s' with
  | nil => exact h
  | cons x out ih =>
    have hx := hout x List.mem_cons_self
    have hsub : sizeSub (s'.items x).offset o' = sizeSub (s.items x).offset o := by
      rw [h.items.due, h.items.due']
      exact (hP x hx).sub ho
    rw [List.foldl_cons, List.foldl_cons, hsub]
    exact ih (h.addLoc hx sa depth pm 0 _) (fun y hy => hout y (List.mem_cons_of_mem x hy))

/-- What two calls of `shift` leave behind: the same but for the ticks. -/
structure TwinShifts (P : T → Prop) (due due' : T → Nat) (r r' : Shifted T sa nb) : Prop where
  items : Twins due due' r.items r'.items
  levels : r'.levels = r.levels
  out : r'.out = r.out
  upper : r.levels.Upper P
  handed : ∀ x ∈ r.out, P x

theorem TwinStores.takeBucket {s s' : Store T} {next : Levels T sa nb}
    (h : TwinStores P due due' s s') (hn : next.Upper P) (c : Nat) (hc : c < sa) :
    TwinShifts P due due' (takeBucket s c hc next) (takeBucket s' c hc next) := by
  refine ⟨?_, ?_, ?_, ⟨fun b x hx => ?_, hn⟩, h.upper c⟩
  · simp only [ExpIndexed.takeBucket, h.subLists]
    exact h.items.unlink _
  · simp only [ExpIndexed.takeBucket, h.subLists]
  · simp only [ExpIndexed.takeBucket, h.subLists]
  · by_cases hb : b = c
    · simp [hb] at hx
    · rw [Function.update_of_ne hb] at hx
      exact h.upper b x hx

theorem twin_shift (saPos : 0 < sa) (w : Levels T sa nb) (pm : Nat) (ho : Behind d o o')
    (hP : ∀ x, P x → Behind d (due x) (due' x)) (h : Twins due due' items items')
    (hw : w.Upper P) :
    TwinShifts P due due' (w.shift saPos o pm items) (w.shift saPos o' pm items') := by
  induction w generalizing pm items items' with
  | last subList =>
    obtain rfl : subList = [] := hw
    exact ⟨h.unlink [], rfl, rfl, rfl, fun _ hx => (List.not_mem_nil hx).elim⟩
  | level subLists curList curLe next ih =>
    simp only [Levels.shift]
    split
    · have hr := ih (nextPm sa pm) h hw.2
      rw [hr.levels, hr.out]
      have hs : TwinStores P due due'
          ⟨subLists, (next.shift saPos o (nextPm sa pm) items).items⟩
          ⟨subLists, (next.shift saPos o' (nextPm sa pm) items').items⟩ := ⟨hr.items, rfl, hw.1⟩
      exact (hs.cascade ho hP _ hr.handed _ pm).takeBucket hr.upper 0 saPos
    · have hs : TwinStores P due due' ⟨subLists, items⟩ ⟨subLists, items'⟩ := ⟨h, rfl, hw.1⟩
      exact hs.takeBucket hw.2 curList _

/-- An index short of the last bucket goes to the same bucket of both. -/
theorem twin_add (w : Levels T sa nb) (pm of : Nat) (hfit : lastIndex sa nb pm of < sizeMod)
    (hi : index < lastIndex sa nb pm of) (hof : of ≤ index) (hx : P x)
    (h : Twins due due' items items') (hw : w.Upper P) :
    (w.add pm of items' x index).1 = (w.add pm of items x index).1 ∧
      Twins due due' (w.add pm of items x index).2 (w.add pm of items' x index).2 ∧
      (w.add pm of items x index).1.Upper P := by
  induction w generalizing pm of with
  | last subList => exact absurd hof (Nat.not_le_of_lt hi)
  | @level nb subLists curList curLe next ih =>
    have hnext : of + pm * sa < sizeMod :=
      Nat.lt_of_le_of_lt (le_lastIndex sa nb (pm * sa) (of + pm * sa)) hfit
    have hni : nextIndex sa pm of = of + pm * sa := Nat.mod_eq_of_lt hnext
    have hnm : nextPm sa pm = pm * sa := Nat.mod_eq_of_lt (by omega)
    simp only [Levels.add, hni, hnm]
    split
    · next hge =>
      obtain ⟨hlevels, hitems, hupper⟩ := ih (pm * sa) (of + pm * sa) hfit hi hge hw.2
      rw [hlevels]
      exact ⟨rfl, hitems, hw.1, hupper⟩
    · have hs : TwinStores P due due' ⟨subLists, items⟩ ⟨subLists, items'⟩ := ⟨h, rfl, hw.1⟩
      have hadd := hs.addLoc hx sa (nb + 1) pm curList (sizeSub index of)
      rw [hadd.subLists]
      exact ⟨rfl, hadd.items, hadd.upper, hw.2⟩

theorem upper_erase (w : Levels T sa nb) (hw : w.Upper P) (b : Bucket) (x : T) :
    (w.erase b x).Upper P := by
  induction w with
  | last subList =>
    obtain rfl : subList = [] := hw
    rfl
  | level subLists curList curLe next ih =>
    obtain ⟨depth, b⟩ := b
    simp only [Levels.erase]
    split
    · refine ⟨fun c y hy => ?_, hw.2⟩
      by_cases hc : c = b
      · subst hc
        rw [Function.update_self] at hy
        exact hw.1 c y (List.mem_of_mem_erase hy)
      · rw [Function.update_of_ne hc] at hy
        exact hw.1 c y hy
    · exact ⟨hw.1, ih hw.2⟩

end levels

variable {g : Geometry} {l l' : ExpIndexedList T g}

/-- The same list at another time, with nothing in the last bucket. -/
structure Translated (d : Nat) (l l' : ExpIndexedList T g) : Prop where
  list : l'.list = l.list
  now : Behind d l.offset l'.offset
  lst : ∀ x, (l'.items x).lst = (l.items x).lst
  upper : l.list.Upper (fun x => Behind d (l.items x).offset (l'.items x).offset)

theorem translated_new (T : Type u) (g : Geometry) (hd : d < sizeMod) :
    Translated d (ExpIndexedList.new T g 0) (ExpIndexedList.new T g d) :=
  ⟨rfl, .start hd, fun _ => rfl, upper_empty _ _ _⟩

theorem Translated.twins (h : Translated d l l') :
    Twins (fun x => (l.items x).offset) (fun x => (l'.items x).offset) l.items l'.items :=
  ⟨h.lst, fun _ => rfl, fun _ => rfl⟩

theorem Twins.upper {items items' : T → ItemData} {w : Levels T sa nb}
    (h : Twins due due' items items')
    (hw : w.Upper (fun x => Behind d (due x) (due' x))) :
    w.Upper (fun x => Behind d (items x).offset (items' x).offset) :=
  hw.mono (fun x hx => by rwa [h.due, h.due'])

variable [DecidableEq T]

theorem Translated.add (h : Translated d l l') (hg : g.Fits)
    (hi : index < lastIndex g.sa g.nb 1 0) :
    Translated d (l.add x index) (l'.add x index) := by
  by_cases hx : (l.items x).lst = none
  · have hx' : (l'.items x).lst = none := (h.lst x).trans hx
    rw [l.add_free hx, l'.add_free hx']
    have hself : ∀ l : ExpIndexedList T g, l.dated x index x =
        { l.items x with offset := (l.offset + index) % sizeMod } := fun l => by
      simp [ExpIndexedList.dated]
    have hother : ∀ (l : ExpIndexedList T g) y, y ≠ x → l.dated x index y = l.items y :=
      fun l y hy => by simp [ExpIndexedList.dated, hy]
    have hbehind : Behind d (l.dated x index x).offset (l'.dated x index x).offset := by
      rw [hself, hself]
      exact h.now.add index
    have htwins : Twins (fun y => (l.dated x index y).offset)
        (fun y => (l'.dated x index y).offset) (l.dated x index) (l'.dated x index) := by
      refine ⟨fun y => ?_, fun _ => rfl, fun _ => rfl⟩
      by_cases hy : y = x
      · rw [hy, hself, hself]
        exact h.lst x
      · rw [hother l y hy, hother l' y hy, h.lst y]
    have hupper : l.list.Upper
        (fun y => Behind d (l.dated x index y).offset (l'.dated x index y).offset) := by
      refine h.upper.mono (fun y hy => ?_)
      by_cases hyx : y = x
      · rwa [hyx]
      · rwa [hother l y hyx, hother l' y hyx]
    obtain ⟨hlevels, hitems, hadd⟩ := twin_add l.list 1 0 hg.1 hi (Nat.zero_le _) hbehind htwins
      hupper
    rw [h.list]
    exact ⟨hlevels, h.now, hitems.lst, hitems.upper hadd⟩
  · rw [l.add_held hx, l'.add_held (by rwa [h.lst x])]
    exact h

theorem Translated.rem (h : Translated d l l') (x : T) : Translated d (l.rem x) (l'.rem x) := by
  cases hx : (l.items x).lst with
  | none =>
    have hx' : (l'.items x).lst = none := (h.lst x).trans hx
    simpa [ExpIndexedList.rem, hx, hx'] using h
  | some b =>
    have hx' : (l'.items x).lst = some b := (h.lst x).trans hx
    have hlink := h.twins.link x none
    have herase := upper_erase l.list h.upper b x
    simp only [ExpIndexedList.rem, hx, hx', h.list]
    exact ⟨rfl, h.now, hlink.lst, hlink.upper herase⟩

theorem Translated.shift (h : Translated d l l') :
    Translated d l.shift l'.shift ∧ l'.shifted.out = l.shifted.out := by
  have hs := twin_shift g.saPos l.list 1 h.now (fun _ hx => hx) h.twins h.upper
  have hshift : l'.shifted = l.list.shift g.saPos l'.offset 1 l'.items := by
    rw [ExpIndexedList.shifted, h.list]
  rw [← hshift] at hs
  exact ⟨⟨hs.levels, h.now.add 1, hs.items.lst, hs.items.upper hs.upper⟩, hs.out⟩

theorem Translated.call (h : Translated d l l') (hg : g.Fits) {c : Call T}
    (hc : ∀ x i, c = .add x i → i < lastIndex g.sa g.nb 1 0) :
    Translated d (l.call c).1 (l'.call c).1 ∧ (l'.call c).2 = (l.call c).2 := by
  cases c with
  | add x i => exact ⟨h.add hg (hc x i rfl), rfl⟩
  | rem x => exact ⟨h.rem x, rfl⟩
  | destroy x => exact ⟨h.rem x, rfl⟩
  | size => exact ⟨h, by simp only [ExpIndexedList.call, h.list]⟩
  | shift => exact ⟨h.shift.1, by simp only [ExpIndexedList.call, h.shift.2]⟩

/-- Where no index goes to the last bucket, what a list shows does not depend on its offset. -/
theorem Translated.observe (h : Translated d l l') (hg : g.Fits) (cs : List (Call T))
    (hcs : ∀ x i, .add x i ∈ cs → i < lastIndex g.sa g.nb 1 0) :
    l'.observe cs = l.observe cs := by
  induction cs generalizing l l' with
  | nil => rfl
  | cons c cs ih =>
    obtain ⟨hnext, hsame⟩ := h.call hg (c := c) (fun x i he => hcs x i (by simp [he]))
    rw [ExpIndexedList.observe, ExpIndexedList.observe, hsame,
      ih hnext (fun x i hm => hcs x i (List.mem_cons_of_mem _ hm))]

/-- What an index asks that goes to the last bucket: neither its tick nor the step of the bucket
after it wraps. -/
def LastRoom (g : Geometry) (offset index : Nat) : Prop :=
  lastIndex g.sa g.nb 1 0 ≤ index → offset + index + g.sa ^ g.nb < sizeMod

/-- Beside an index of the last bucket no index wraps, and without one the offset does not
matter. -/
theorem observe_flat (hg : g.Fits) (ho : offset < sizeMod) (pre post : List (Call T))
    (hpre : .shift ∉ pre) (hpost : ∀ x i, .add x i ∉ post)
    (hroom : ∀ x i, .add x i ∈ pre → LastRoom g offset i) :
    List.Forall₂ Seen.Same ((ExpIndexedList.new T g offset).observe (pre ++ post))
      ((Flat.new T).observe (pre ++ post)) := by
  by_cases hlast : ∃ x i, .add x i ∈ pre ∧ lastIndex g.sa g.nb 1 0 ≤ i
  · obtain ⟨x₀, i₀, hm, hge⟩ := hlast
    have hi₀ := hroom x₀ i₀ hm hge
    refine observe_laid hg (new_agrees g ho) (new_fresh T g offset) rfl pre post hpre hpost
      (fun x i hmem => ⟨?_, hroom x i hmem⟩)
    by_cases hi : lastIndex g.sa g.nb 1 0 ≤ i
    · have := hroom x i hmem hi
      omega
    · omega
  · have hlevels : ∀ x i, .add x i ∈ pre → i < lastIndex g.sa g.nb 1 0 := fun x i hmem =>
      Nat.lt_of_not_le (fun hi => hlast ⟨x, i, hmem, hi⟩)
    have hsame := (translated_new T g ho).observe hg (pre ++ post) (fun x i hmem => by
      rcases List.mem_append.mp hmem with hmem | hmem
      · exact hlevels x i hmem
      · exact absurd hmem (hpost x i))
    rw [hsame]
    refine observe_laid hg (new_agrees g (by decide)) (new_fresh T g 0) rfl pre post hpre hpost
      (fun x i hmem => ?_)
    have hi := hlevels x i hmem
    exact ⟨by rw [Nat.zero_add]; exact Nat.lt_trans hi hg.1,
      fun hge => absurd hge (Nat.not_le_of_lt hi)⟩

/-- A schedule laid before the first shift is handed over as a flat map would, in every
geometry. -/
theorem laid_schedule_exact (offset : Nat) (pre post : List (Call T))
    (hpre : .shift ∉ pre) (hpost : ∀ x i, .add x i ∉ post) (ho : offset < sizeMod)
    (hg : g.Fits) (hroom : ∀ x i, .add x i ∈ pre → LastRoom g offset i) :
    List.Forall₂ Seen.Same ((ExpIndexedList.new T g offset).observe (pre ++ post))
        ((Flat.new T).observe (pre ++ post)) ∧
      ∀ g' : Geometry, g'.Fits → (∀ x i, .add x i ∈ pre → LastRoom g' offset i) →
        List.Forall₂ Seen.Same ((ExpIndexedList.new T g offset).observe (pre ++ post))
          ((ExpIndexedList.new T g' offset).observe (pre ++ post)) := by
  have hflat := observe_flat hg ho pre post hpre hpost hroom
  exact ⟨hflat, fun g' hg' hroom' =>
    forall₂_same_trans hflat (observe_flat hg' ho pre post hpre hpost hroom')⟩

section Examples

theorem lastRoom_two (g : Geometry) (hg : g.sa ^ g.nb ≤ 64) : ∀ x i : Nat,
      (.add x i : Call Nat) ∈ [.add 7 4, .add 8 1] → LastRoom g 0 i := by
  intro x i h
  have hi : i ≤ 4 := by
    simp only [List.mem_cons, Call.add.injEq, List.not_mem_nil, or_false] at h
    omega
  exact fun _ => by unfold sizeMod; omega

/-- Two items, one of which is taken out again before its turn. -/
theorem laid_schedule_exact_two :
    List.Forall₂ Seen.Same
      ((ExpIndexedList.new Nat ⟨4, 3, by decide⟩ 0).observe
        ([.add 7 4, .add 8 1] ++ [.shift, .size, .shift, .destroy 7, .size]))
      ((ExpIndexedList.new Nat ⟨1, 0, by decide⟩ 0).observe
        ([.add 7 4, .add 8 1] ++ [.shift, .size, .shift, .destroy 7, .size])) :=
  (laid_schedule_exact 0 [.add 7 4, .add 8 1] [.shift, .size, .shift, .destroy 7, .size]
    (by decide) (by simp) (by decide) (g := ⟨4, 3, by decide⟩) ⟨by decide, by decide⟩
    (lastRoom_two _ (by decide))).2 ⟨1, 0, by decide⟩ ⟨by decide, by decide⟩
    (lastRoom_two _ (by decide))

/-- The last bucket compares with a tick that has wrapped to 0: the item is due and stays,
although `offset + index` did not wrap. -/
theorem top_schedule_stuck : (2 ^ 64 - 1) + 0 < sizeMod ∧
    ¬ List.Forall₂ Seen.Same
      ((ExpIndexedList.new Nat ⟨16, 0, by decide⟩ (2 ^ 64 - 1)).observe [.add 7 0, .shift])
      ((Flat.new Nat).observe [.add 7 0, .shift]) := by
  refine ⟨by decide, fun h => ?_⟩
  have hlist : (ExpIndexedList.new Nat ⟨16, 0, by decide⟩ (2 ^ 64 - 1)).observe
      [.add 7 0, .shift] = [.nothing, .handed []] := by decide
  have hflat : (Flat.new Nat).observe [.add 7 0, .shift] = [.nothing, .handed [7]] := by decide
  rw [hlist, hflat] at h
  cases h with
  | cons _ h =>
    cases h with
    | cons h _ =>
      cases h with
      | handed h => exact absurd h.length_eq (by decide)

end Examples

end Evel.ExpIndexed
