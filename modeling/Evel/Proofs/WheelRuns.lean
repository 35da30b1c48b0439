import Evel.Proofs.WheelEdits

namespace Evel.ExpIndexed
open General

variable {T : Type u} [DecidableEq T] {g : Geometry}

/-- The constants of the levels are representable: `next_index` in `size_t`, `cur_list` in
`int`. -/
def Geometry.Fits (g : Geometry) : Prop :=
  lastIndex g.sa g.nb 1 0 < sizeMod ∧ g.sa < 2 ^ 31

/-- `offset + index` does not wrap. -/
def NoWrap (r : Run T g) : Op T → Prop
  | .add _ index => r.list.offset + index < sizeMod
  | .rem _ | .shift => True

/-- An item that goes to the last bucket is not due within one step of it before the ticks
wrap. -/
def LastClear (r : Run T g) : Op T → Prop
  | .add _ index =>
    lastIndex g.sa g.nb 1 0 ≤ index → r.list.offset + index + g.sa ^ g.nb < sizeMod
  | .rem _ | .shift => True

/-- An index laid at `offset` that the comparisons of the last bucket can still tell. -/
def Room (g : Geometry) (offset index : Nat) : Prop :=
  offset + index < sizeMod ∧
    (lastIndex g.sa g.nb 1 0 ≤ index → offset + index + g.sa ^ g.nb < sizeMod)

/-- The add that an item waits for, if the last thing that happened to it is an add. -/
def AddedAt (log : List (Event T)) (x : T) (offset index : Nat) (cursors : List Nat) : Prop :=
  lastOf Event.item log x = some (.added x offset index cursors)

/-- What each entry of a log says about the entries before it. -/
def Law (clear : Prop) (g : Geometry) (pre : List (Event T)) : Event T → Prop
  | .added x _ _ _ => ∀ s i cs, ¬ AddedAt pre x s i cs
  | .removed x => ∃ s i cs, AddedAt pre x s i cs
  | .cascaded _ itemOffset globOffset => globOffset ≤ itemOffset
  | .delivered x glob => ∃ s i cs, AddedAt pre x s i cs ∧ s ≤ glob ∧
      glob + lead g.sa 1 0 0 cs i = s + i
  | .shifted glob => clear → ∀ x s i cs, AddedAt pre x s i cs → glob < s + i

/-- An item of the schedule with the tick of its callback, against the log. -/
def Waiting (r : Run T g) (x : T) (f : Nat) : Prop :=
  ∃ s i cs, AddedAt r.log x s i cs ∧ (r.list.items x).offset = s + i ∧
    f + lead g.sa 1 0 0 cs i = s + i ∧ s ≤ f

/-- The flat schedule of a list. -/
def ExpIndexedList.slots (l : ExpIndexedList T g) : Multiset (T × Nat) :=
  l.list.slots (fun x => (l.items x).offset) 1 l.offset

/-- The invariant of runs, with `clear` if the last bucket was clear at every add. -/
structure Good (clear : Prop) (r : Run T g) : Prop where
  offset : r.list.offset < sizeMod
  sound : r.list.list.Sound clear r.list.items 1 r.list.offset
  nodup : r.list.list.contents.Nodup
  listed : ∀ x, (r.list.items x).lst ≠ none → x ∈ r.list.list.contents
  bound : ∀ x ∈ r.list.list.contents, (r.list.items x).offset < sizeMod
  waiting : ∀ x f, (x, f) ∈ r.list.slots → Waiting r x f
  added : ∀ x s i cs, AddedAt r.log x s i cs → x ∈ r.list.list.contents
  law : EachEntry (Law clear g) r.log

omit [DecidableEq T] in
theorem empty_contents (T : Type u) (sa nb : Nat) : (Levels.empty T sa nb).contents = 0 := by
  induction nb with
  | zero => rfl
  | succ nb ih => simp [Levels.empty, Levels.contents, ih]

omit [DecidableEq T] in
theorem sound_of_empty (w : Levels T sa nb) (h : w.contents = 0) : w.Sound clear items pm t := by
  induction w generalizing pm t with
  | last subList =>
    have : subList = [] := by simpa [Levels.contents] using h
    subst this
    simp [Levels.Sound]
  | level subLists curList curLe next ih =>
    refine ⟨?_, ih (add_eq_zero.mp h).2⟩
    intro b hb x hx
    have : x ∈ (Levels.level subLists curList curLe next).contents :=
      Multiset.mem_add.mpr (.inl (mem_bucket_sum.mpr ⟨b, hb, by simpa using hx⟩))
    simp [h] at this

omit [DecidableEq T] in
theorem slots_empty (w : Levels T sa nb) (h : w.contents = 0) : w.slots due pm t = 0 := by
  rw [← Levels.slots_contents due pm t, Multiset.map_eq_zero] at h
  exact h

theorem start_good (T : Type u) [DecidableEq T] (g : Geometry) (ho : offset < sizeMod) :
    Good clear (Run.start T g offset) := by
  have he := empty_contents T g.sa g.nb
  refine ⟨ho, sound_of_empty _ he, ?_, ?_, ?_, ?_, ?_, eachEntry_nil _⟩
  · simp [Run.start, ExpIndexedList.new, he]
  · intro x hx
    exact absurd rfl hx
  · simp [Run.start, ExpIndexedList.new, he]
  · intro x f hx
    simp [Run.start, ExpIndexedList.new, ExpIndexedList.slots, slots_empty _ he] at hx
  · intro x s i cs h
    simp [AddedAt, Run.start] at h

/-- An item with a null `lst` is not listed. -/
theorem Good.unlisted {r : Run T g} (h : Good clear r) (hx : (r.list.items x).lst = none) :
    x ∉ r.list.list.contents := by
  intro hm
  obtain ⟨d, b, hl, _⟩ := sound_depth _ h.sound hm
  rw [hx] at hl
  contradiction

/-- Entries about other items do not change what an item waits for. -/
theorem addedAt_append {log es : List (Event T)} (h : ∀ e ∈ es, e.item ≠ some x) :
    AddedAt (log ++ es) x s i cs ↔ AddedAt log x s i cs := by
  simp only [AddedAt, lastOf_append_other h]

theorem addedAt_snoc {log : List (Event T)} (he : e.item = some x) (hy : y ≠ x) :
    AddedAt (log ++ [e]) y s i cs ↔ AddedAt log y s i cs := by
  refine addedAt_append (fun d hd => ?_)
  rw [List.mem_singleton.mp hd, he]
  simpa using Ne.symm hy

theorem addedAt_removed (log : List (Event T)) (x : T) :
    ¬ AddedAt (log ++ [.removed x]) x s i cs := by
  simp [AddedAt, lastOf_append_self Event.item (e := Event.removed x) rfl]

/-- The data of the items when the levels get the new one: it has its due tick. -/
def ExpIndexedList.dated (l : ExpIndexedList T g) (x : T) (index : Nat) : T → ItemData :=
  Function.update l.items x { l.items x with offset := (l.offset + index) % sizeMod }

/-- An accepted add puts one more entry into the schedule. -/
theorem Good.addSpec {r : Run T g} (hg : g.Fits) (h : Good clear r)
    (hw : NoWrap r (.add x index)) (hc : clear → LastClear r (.add x index))
    (hl : (r.list.items x).lst = none) :
    ∃ f, f + lead g.sa 1 0 0 r.list.list.cursors index = r.list.offset + index ∧
      AddSpec clear 1 r.list.offset r.list.list (r.list.dated x index) x f
        (r.list.list.add 1 0 (r.list.dated x index) x index) ∧
      r.list.list.slots (fun y => (r.list.dated x index y).offset) 1 r.list.offset =
        r.list.slots := by
  have hx := h.unlisted hl
  have hsame : ∀ y ∈ r.list.list.contents, r.list.dated x index y = r.list.items y := by
    intro y hy
    have hyx : y ≠ x := fun he => hx (he ▸ hy)
    exact Function.update_of_ne hyx _ _
  have hdue : (r.list.dated x index x).offset = r.list.offset + index := by
    simp [ExpIndexedList.dated, Nat.mod_eq_of_lt hw]
  obtain ⟨f, hf, hs⟩ := add_spec 1 0 0 (i := index) r.list.list hg.2 hg.1
    (Nat.zero_le _) (Nat.lt_of_le_of_lt (Nat.le_add_left _ _) hw) rfl hx hdue
    (by simpa [LastClear] using hc) (h.sound.congr _ hsame)
  exact ⟨f, hf, hs, Levels.slots_congr _ (fun y hy => by rw [hsame y hy])⟩

theorem ExpIndexedList.add_free (l : ExpIndexedList T g) (hl : (l.items x).lst = none) :
    l.add x index = ⟨l.offset, (l.list.add 1 0 (l.dated x index) x index).1,
      (l.list.add 1 0 (l.dated x index) x index).2⟩ := by
  simp [ExpIndexedList.add, hl, ExpIndexedList.dated]

theorem ExpIndexedList.add_held (l : ExpIndexedList T g) (hl : (l.items x).lst ≠ none) :
    l.add x index = l := by
  simp [ExpIndexedList.add, Option.isSome_iff_ne_none.mpr hl]

theorem add_good {r : Run T g} (hg : g.Fits) (h : Good clear r) (hw : NoWrap r (.add x index))
    (hc : clear → LastClear r (.add x index)) :
    Good clear (step r (.add x index)) := by
  cases hl : (r.list.items x).lst with
  | some a =>
    have hold : step r (.add x index) = r := by
      simp [step, apply, events, ExpIndexedList.add, hl]
    rwa [hold]
  | none =>
    have hx := h.unlisted hl
    have hne : ∀ y ∈ r.list.list.contents, y ≠ x := fun y hy he => hx (he ▸ hy)
    have hsame : ∀ y, y ≠ x → r.list.dated x index y = r.list.items y :=
      fun y hy => Function.update_of_ne hy _ _
    have hdue : (r.list.dated x index x).offset = r.list.offset + index := by
      simp [ExpIndexedList.dated, Nat.mod_eq_of_lt hw]
    obtain ⟨f, hf, hs, hold⟩ := h.addSpec hg hw hc hl
    have hcontents := hs.contents
    have hnew : step r (.add x index) = ⟨⟨r.list.offset,
        (r.list.list.add 1 0 (r.list.dated x index) x index).1,
        (r.list.list.add 1 0 (r.list.dated x index) x index).2⟩,
        r.log ++ [.added x r.list.offset index r.list.list.cursors]⟩ := by
      simp [step, apply, events, r.list.add_free hl, hl]
    rw [hnew]
    refine ⟨h.offset, hs.sound, ?_, ?_, ?_, ?_, ?_, ?_⟩
    · simp only [hcontents, Multiset.nodup_cons]
      exact ⟨hx, h.nodup⟩
    · intro y hy
      simp only [hcontents, Multiset.mem_cons]
      by_cases hyx : y = x
      · exact .inl hyx
      · simp only [hs.frame y hyx, hsame y hyx] at hy
        exact .inr (h.listed y hy)
    · intro y hy
      simp only [hcontents, Multiset.mem_cons] at hy
      simp only [hs.offset]
      by_cases hyx : y = x
      · rw [hyx, hdue]
        exact hw
      · rw [hsame y hyx]
        exact h.bound y (hy.resolve_left hyx)
    · intro y f' hm
      simp only [ExpIndexedList.slots, hs.offset, hs.slots, hold, Multiset.mem_cons,
        Prod.mk.injEq] at hm
      rcases hm with ⟨rfl, rfl⟩ | hm
      · refine ⟨r.list.offset, index, r.list.list.cursors, ?_, ?_, hf, hs.ahead⟩
        · exact lastOf_append_self Event.item rfl
        · rw [hs.offset, hdue]
      · have hyx : y ≠ x := hne y (Levels.mem_contents hm)
        obtain ⟨s, i, cs, ha, ho, hl, hle⟩ := h.waiting y f' hm
        refine ⟨s, i, cs, (addedAt_snoc rfl hyx).mpr ha, ?_, hl, hle⟩
        rw [hs.offset, hsame y hyx, ho]
    · intro y s i cs ha
      simp only [hcontents, Multiset.mem_cons]
      by_cases hyx : y = x
      · exact .inl hyx
      · exact .inr (h.added y s i cs ((addedAt_snoc rfl hyx).mp ha))
    · exact eachEntry_snoc h.law (fun s i cs ha => hx (h.added x s i cs ha))

theorem rem_good {r : Run T g} (h : Good clear r) : Good clear (step r (.rem x)) := by
  cases hl : (r.list.items x).lst with
  | none =>
    have hold : step r (.rem x) = r := by
      simp [step, apply, events, ExpIndexedList.rem, hl]
    rwa [hold]
  | some a =>
    have hx := h.listed x (by simp [hl])
    have hnew : step r (.rem x) = ⟨⟨r.list.offset, r.list.list.erase a x,
        link r.list.items x none⟩, r.log ++ [.removed x]⟩ := by
      simp [step, apply, events, ExpIndexedList.rem, hl]
    have hs := erase_spec (fun y => (r.list.items y).offset) r.list.list h.nodup h.sound hx hl
    have hcontents := hs.contents
    obtain ⟨f, hf⟩ := hs.slots
    have hnd := h.nodup
    rw [hcontents, Multiset.nodup_cons] at hnd
    have hin : ∀ y ∈ (r.list.list.erase a x).contents, y ∈ r.list.list.contents ∧ y ≠ x := by
      intro y hy
      rw [hcontents]
      refine ⟨Multiset.mem_cons_of_mem hy, ?_⟩
      rintro rfl
      exact hnd.1 hy
    rw [hnew]
    refine ⟨h.offset, hs.sound _ (fun y hy => link_of_ne hy), hnd.2, ?_, ?_, ?_, ?_, ?_⟩
    · intro y hy
      by_cases hyx : y = x
      · simp [hyx] at hy
      · simp only [link_of_ne hyx] at hy
        have := h.listed y hy
        rw [hcontents, Multiset.mem_cons] at this
        exact this.resolve_left hyx
    · intro y hy
      simp only [link_offset]
      exact h.bound y (hin y hy).1
    · intro y f' hm
      simp only [ExpIndexedList.slots, link_offset] at hm
      obtain ⟨hyc, hyx⟩ := hin y (Levels.mem_contents hm)
      obtain ⟨s, i, cs, ha, ho, hrest⟩ := h.waiting y f' (by
        rw [ExpIndexedList.slots, hf]
        exact Multiset.mem_cons_of_mem hm)
      refine ⟨s, i, cs, (addedAt_snoc rfl hyx).mpr ha, ?_, hrest⟩
      rw [link_offset, ho]
    · intro y s i cs ha
      by_cases hyx : y = x
      · subst hyx
        exact absurd ha (addedAt_removed _ _)
      · have := h.added y s i cs ((addedAt_snoc rfl hyx).mp ha)
        rw [hcontents, Multiset.mem_cons] at this
        exact this.resolve_left hyx
    · obtain ⟨f', hm⟩ := Levels.exists_slot (fun y => (r.list.items y).offset) 1 r.list.offset
        hx
      obtain ⟨s, i, cs, ha, _⟩ := h.waiting x f' hm
      exact eachEntry_snoc h.law ⟨s, i, cs, ha⟩

omit [DecidableEq T] in
/-- The callbacks of one shift concern different items: each sees the log of the others. -/
theorem delivered_split {out : List T} (hnd : out.Nodup)
    (h : out.map (fun x => Event.delivered x glob) = pre ++ e :: post) :
    ∃ x ∈ out, e = .delivered x glob ∧ ∀ d ∈ pre, d.item ≠ some x := by
  obtain ⟨a, b, rfl, rfl, hb⟩ := List.map_eq_append_iff.mp h
  obtain ⟨x, c, rfl, rfl, rfl⟩ := List.map_eq_cons_iff.mp hb
  refine ⟨x, by simp, rfl, ?_⟩
  intro d hd
  obtain ⟨y, hy, rfl⟩ := List.mem_map.mp hd
  have hne := List.disjoint_of_nodup_append hnd hy
  simp only [Event.item, ne_eq, Option.some.injEq]
  rintro rfl
  exact hne List.mem_cons_self

/-- The step of the last bucket is representable. -/
theorem Geometry.Fits.pow (hg : g.Fits) : 1 * g.sa ^ g.nb < sizeMod := by
  cases hnb : g.nb with
  | zero => simp [sizeMod]
  | succ nb =>
    have hf := hg.1
    rw [hnb] at hf
    have := lastIndex_pow g.sa nb 1 0
    omega

section Shift
variable {r : Run T g}

theorem Good.shiftSpec (h : Good clear r) (hg : g.Fits) :
    ShiftSpec clear 1 r.list.offset r.list.list r.list.items r.list.shifted :=
  shift_spec g.saPos r.list.list hg.pow h.offset h.nodup h.bound h.sound

theorem Good.shift_nodup (h : Good clear r) (hg : g.Fits) :
    r.list.shifted.levels.contents.Nodup ∧ r.list.shifted.out.Nodup := by
  have hnd := h.nodup
  rw [(h.shiftSpec hg).contents, Multiset.nodup_add] at hnd
  exact ⟨hnd.1, by simpa using hnd.2.1⟩

/-- What `shift` takes out of the schedule is what is scheduled for its tick. -/
theorem Good.shift_slots (h : Good clear r) (hg : g.Fits) :
    r.list.slots = r.list.shifted.levels.slots (fun x => (r.list.items x).offset) 1
      (r.list.offset + 1) + ↑(r.list.shifted.out.map (fun x => (x, r.list.offset))) := by
  simpa only [settle_one, ExpIndexedList.slots] using (h.shiftSpec hg).slots

/-- What stays was there, and is not handed to the callback. -/
theorem Good.shift_left (h : Good clear r) (hg : g.Fits) (hx : x ∈ r.list.shifted.levels.contents) :
    x ∈ r.list.list.contents ∧ x ∉ r.list.shifted.out := by
  have hnd := h.nodup
  rw [(h.shiftSpec hg).contents, Multiset.nodup_add] at hnd
  refine ⟨?_, fun hm => Multiset.disjoint_left.mp hnd.2.2 hx (by simpa using hm)⟩
  rw [(h.shiftSpec hg).contents]
  exact Multiset.mem_add.mpr (.inl hx)

/-- What stays is not due yet. -/
theorem Good.shift_late (h : Good clear r) (hg : g.Fits) (hc : clear)
    (hx : x ∈ r.list.shifted.levels.contents) :
    r.list.offset + 1 ≤ (r.list.items x).offset := by
  have hs := h.shiftSpec hg
  obtain ⟨f, hf⟩ := Levels.exists_slot (fun x => (r.list.shifted.items x).offset) 1
    (r.list.offset + 1) hx
  have := Nat.le_trans (hs.sound.slot_ge _ hc hf) (hs.sound.slot_le _ hf)
  rwa [hs.offset] at this

/-- What stays is sound and scheduled as before, also when the offset wraps. -/
theorem Good.shift_turn (h : Good clear r) (hg : g.Fits) :
    r.list.shifted.levels.Sound clear r.list.shifted.items 1 ((r.list.offset + 1) % sizeMod) ∧
      r.list.shifted.levels.slots (fun x => (r.list.shifted.items x).offset) 1
          ((r.list.offset + 1) % sizeMod) =
        r.list.shifted.levels.slots (fun x => (r.list.items x).offset) 1 (r.list.offset + 1) := by
  have hs := h.shiftSpec hg
  rcases Nat.lt_or_ge (r.list.offset + 1) sizeMod with hlt | hge
  · rw [Nat.mod_eq_of_lt hlt]
    exact ⟨hs.sound, by simp only [hs.offset]⟩
  · have ht : r.list.offset + 1 = 0 + sizeMod := by
      have := h.offset
      omega
    have hsound := hs.sound
    rw [ht] at hsound
    obtain ⟨hsound, hslots⟩ := hsound.turn (fun x => (r.list.items x).offset) _ (fun x hx => by
      rw [hs.offset]
      exact h.bound x (h.shift_left hg hx).1)
    rw [ht, Nat.add_mod_right, hslots]
    exact ⟨hsound, by simp only [hs.offset, Nat.zero_mod]⟩

/-- A shift concerns the items of its callbacks and no other. -/
theorem shift_events_other (hx : x ∉ r.list.shifted.out) :
    ∀ e ∈ events r.list .shift, e.item ≠ some x := by
  intro e he
  simp only [events, List.mem_append, List.mem_map, List.mem_singleton] at he
  rcases he with (⟨y, hy, rfl⟩ | ⟨y, hy, rfl⟩) | rfl
  · simp [Event.item]
  · simp only [Event.item, ne_eq, Option.some.injEq]
    rintro rfl
    exact hx hy
  · simp [Event.item]

/-- An item that waits after the shift was not in its callbacks and waited before. -/
theorem addedAt_shift (ha : AddedAt (r.log ++ events r.list .shift) x s i cs) :
    AddedAt r.log x s i cs ∧ x ∉ r.list.shifted.out := by
  by_cases hx : x ∈ r.list.shifted.out
  · have hk : ∃ e ∈ events r.list .shift, e.item = some x :=
      ⟨.delivered x r.list.offset, by simp [events, hx], rfl⟩
    obtain ⟨e, he, hlast⟩ := lastOf_append_mem hk r.log
    rw [AddedAt, hlast] at ha
    simp [events, Option.some.inj ha] at he
  · exact ⟨(addedAt_append (shift_events_other hx)).mp ha, hx⟩

theorem Good.shift_added (h : Good clear r) (hg : g.Fits)
    (ha : AddedAt (r.log ++ events r.list .shift) x s i cs) :
    x ∈ r.list.shifted.levels.contents := by
  obtain ⟨ha, hx⟩ := addedAt_shift ha
  have hm := h.added x s i cs ha
  rw [(h.shiftSpec hg).contents, Multiset.mem_add] at hm
  exact hm.resolve_right (fun ho => hx (by simpa using ho))

/-- What waits after the shift is due later. -/
theorem Good.shift_due (h : Good clear r) (hg : g.Fits) (hc : clear)
    (ha : AddedAt (r.log ++ events r.list .shift) x s i cs) : r.list.offset < s + i := by
  have hx := h.shift_added hg ha
  obtain ⟨f, hf⟩ := Levels.exists_slot (fun x => (r.list.items x).offset) 1 r.list.offset
    (h.shift_left hg hx).1
  obtain ⟨s', i', cs', ha', ho, _⟩ := h.waiting x f hf
  obtain ⟨rfl, rfl, rfl⟩ : s' = s ∧ i' = i ∧ cs' = cs := by
    simpa using ha'.symm.trans (addedAt_shift ha).1
  have := h.shift_late hg hc hx
  omega

/-- The entries of a shift: its cascades, its callbacks and its end. -/
theorem Good.shift_law (h : Good clear r) (hg : g.Fits) :
    EachEntry (Law clear g) (r.log ++ events r.list .shift) := by
  simp only [events]
  rw [← List.append_assoc, ← List.append_assoc]
  refine eachEntry_snoc (eachEntry_append (eachEntry_append h.law ?_) ?_) ?_
  · intro pre e post he
    have hm : e ∈ (r.list.list.cascaded g.saPos r.list.offset 1 r.list.items).map
        (fun x => Event.cascaded x (r.list.items x).offset r.list.offset) := by
      rw [he]
      simp
    obtain ⟨x, hx, rfl⟩ := List.mem_map.mp hm
    exact cascaded_spec g.saPos r.list.list hg.pow h.offset h.nodup h.bound h.sound x hx
  · intro pre e post he
    obtain ⟨x, hx, rfl, hpre⟩ := delivered_split (h.shift_nodup hg).2 he
    obtain ⟨s, i, cs, ha, ho, hl, hle⟩ := h.waiting x r.list.offset (by
      rw [h.shift_slots hg]
      exact Multiset.mem_add.mpr (.inr (by simpa using hx)))
    refine ⟨s, i, cs, ?_, hle, hl⟩
    rw [List.append_assoc, addedAt_append]
    · exact ha
    · intro e he
      rcases List.mem_append.mp he with he | he
      · obtain ⟨y, hy, rfl⟩ := List.mem_map.mp he
        simp [Event.item]
      · exact hpre e he
  · intro hc x s i cs ha
    have hev : AddedAt (r.log ++ events r.list .shift) x s i cs := by
      simp only [events]
      rw [← List.append_assoc, ← List.append_assoc, addedAt_append]
      · exact ha
      · simp [Event.item]
    exact h.shift_due hg hc hev

theorem shift_good (hg : g.Fits) (h : Good clear r) : Good clear (step r .shift) := by
  have hs := h.shiftSpec hg
  refine ⟨Nat.mod_lt _ (by decide), (h.shift_turn hg).1, (h.shift_nodup hg).1, ?_, ?_, ?_,
    fun x s i cs ha => h.shift_added hg ha, h.shift_law hg⟩
  · intro x hx
    have hx : (r.list.shifted.items x).lst ≠ none := hx
    by_cases hm : x ∈ r.list.list.contents
    · rw [hs.contents, Multiset.mem_add] at hm
      exact hm.resolve_right (fun ho => hx (hs.out x (by simpa using ho)))
    · rw [hs.frame x hm] at hx
      exact absurd (h.listed x hx) hm
  · intro x hx
    simp only [step, apply, ExpIndexedList.shift, hs.offset]
    exact h.bound x (h.shift_left hg hx).1
  · intro x f hm
    have hc := Levels.mem_contents hm
    obtain ⟨s, i, cs, ha, ho, hrest⟩ := h.waiting x f (by
      rw [h.shift_slots hg, ← (h.shift_turn hg).2]
      exact Multiset.mem_add.mpr (.inl hm))
    refine ⟨s, i, cs, (addedAt_append (shift_events_other (h.shift_left hg hc).2)).mpr ha, ?_,
      hrest⟩
    simp only [step, apply, ExpIndexedList.shift, hs.offset, ho]

end Shift

theorem step_good {r : Run T g} (hg : g.Fits) (h : Good clear r) (hw : NoWrap r op)
    (hc : clear → LastClear r op) : Good clear (step r op) := by
  cases op with
  | add x index => exact add_good hg h hw hc
  | rem x => exact rem_good h
  | shift => exact shift_good hg h

/-- The invariant holds after every run whose sums do not wrap. -/
theorem run_good (hg : g.Fits) (ho : offset < sizeMod) (ops : List (Op T))
    (hw : Along step (fun r op => NoWrap r op ∧ (clear → LastClear r op))
      (Run.start T g offset) ops) :
    Good clear (run step (Run.start T g offset) ops) :=
  run_invariant (Good clear) (fun _ _ h hw => step_good hg h hw.1 hw.2) (start_good T g ho) hw

end Evel.ExpIndexed
