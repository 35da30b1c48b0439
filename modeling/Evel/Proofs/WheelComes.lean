import Evel.Proofs.WheelKept

namespace Evel.ExpIndexed
open General

variable {T : Type u} [DecidableEq T] {g : Geometry}

section comes
variable {l : ExpIndexedList T g} {log : List (Event T)}

/-- What is listed is not overdue. -/
theorem Good.due_ge {r : Run T g} (h : Good True r) (hx : x ∈ r.list.list.contents) :
    r.list.offset ≤ (r.list.items x).offset := by
  obtain ⟨f, hf⟩ := Levels.exists_slot (fun x => (r.list.items x).offset) 1 r.list.offset hx
  exact Nat.le_trans (h.sound.slot_ge _ trivial hf) (h.sound.slot_le _ hf)

theorem add_offset (l : ExpIndexedList T g) (x : T) (index : Nat) :
    (l.add x index).offset = l.offset := by
  simp only [ExpIndexedList.add]
  split <;> rfl

/-- Adds that have room keep the lists good and the items that are there. -/
theorem addAll_good (hg : g.Fits) (h : ∃ log, Good True ⟨l, log⟩) (adds : List (T × Nat))
    (hroom : ∀ e ∈ adds, Room g l.offset e.2) :
    (∃ log, Good True ⟨addAll l adds, log⟩) ∧ (addAll l adds).offset = l.offset ∧
      ∀ x, (l.items x).lst ≠ none → ((addAll l adds).items x).lst ≠ none ∧
        ((addAll l adds).items x).offset = (l.items x).offset := by
  induction adds generalizing l with
  | nil => exact ⟨h, rfl, fun x hx => ⟨hx, rfl⟩⟩
  | cons e adds ih =>
    obtain ⟨log, hgood⟩ := h
    have hr := hroom e List.mem_cons_self
    have hstep := add_good hg hgood (show NoWrap ⟨l, log⟩ (.add e.1 e.2) from hr.1)
      (fun _ => show LastClear ⟨l, log⟩ (.add e.1 e.2) from hr.2)
    obtain ⟨hgood', hoff, hkeep⟩ := ih (l := l.add e.1 e.2) ⟨_, hstep⟩ (fun d hd => by
      rw [add_offset]
      exact hroom d (List.mem_cons_of_mem _ hd))
    refine ⟨hgood', hoff.trans (add_offset _ _ _), fun x hx => ?_⟩
    have hitem : (l.add e.1 e.2).items x = l.items x := by
      by_cases hxe : x = e.1
      · subst hxe
        rw [l.add_held hx]
      · exact add_items_other l hxe
    obtain ⟨hlst, hdue⟩ := hkeep x (by rwa [hitem])
    exact ⟨hlst, hdue.trans (by rw [hitem])⟩

/-- What a shift does not hand over stays for a later one. -/
theorem shift_good_item (hg : g.Fits) (h : Good True ⟨l, log⟩) (hx : (l.items x).lst ≠ none) :
    x ∈ l.shifted.out ∨ ((l.shift.items x).lst ≠ none ∧
      (l.shift.items x).offset = (l.items x).offset ∧ l.shift.offset = l.offset + 1) := by
  have hspec : ShiftSpec True 1 l.offset l.list l.items l.shifted := h.shiftSpec hg
  have hm : x ∈ l.list.contents := h.listed x hx
  rw [hspec.contents, Multiset.mem_add] at hm
  rcases hm with hm | hm
  · have hgood : Good True (step ⟨l, log⟩ .shift) := shift_good hg h
    refine .inr ⟨fun hn => hgood.unlisted hn hm, hspec.offset x, ?_⟩
    have hlate : l.offset + 1 ≤ (l.items x).offset := h.shift_late hg trivial hm
    have hbound : (l.items x).offset < sizeMod := h.bound x (h.shift_left hg hm).1
    exact Nat.mod_eq_of_lt (by omega)
  · exact .inl (by simpa using hm)

end comes

/-- What is added has room. -/
def Act.Fits (g : Geometry) (offset : Nat) : Act T → Prop
  | .add _ index => Room g offset index
  | .rem _ | .destroy _ => True

def RoomFor (g : Geometry) (e : Exec (Memory T)) : Use T → Prop
  | .act a => a.Fits g e.state.offset
  | .shift script => ∀ a ∈ script.flatten, a.Fits g ((e.state.offset + 1) % sizeMod)

instance (g : Geometry) (offset : Nat) : (a : Act T) → Decidable (a.Fits g offset)
  | .add _ _ => inferInstanceAs (Decidable (_ ∧ _))
  | .rem _ | .destroy _ => .isTrue trivial

instance (g : Geometry) (e : Exec (Memory T)) : (u : Use T) → Decidable (RoomFor g e u)
  | .act a => inferInstanceAs (Decidable (a.Fits g e.state.offset))
  | .shift script =>
    inferInstanceAs (Decidable (∀ a ∈ script.flatten, a.Fits g ((e.state.offset + 1) % sizeMod)))

/-- Nobody takes the item out. -/
def Use.spares (x : T) : Use T → Prop
  | .act (.rem y) | .act (.destroy y) => y ≠ x
  | .act (.add _ _) | .shift _ => True

def Use.ticks : Use T → Nat
  | .act _ => 0
  | .shift _ => 1

/-- The state of a run whose adds have room. -/
def Timed (g : Geometry) (fuel : Nat) (m : Memory T) (us : List (Use T)) : Prop :=
  ∃ (l : ExpIndexedList T g) (L : Bucket → List T) (k : Nat), Shows m l L ∧
    (∃ log, Good True ⟨l, log⟩) ∧ m.Roomy k ∧ k + (us.map Use.adds).sum ≤ fuel

/-- Every step of a run is calm, and what it adds has room. -/
def Served (g : Geometry) (fuel : Nat) (e : Exec (Memory T)) (u : Use T) : Prop :=
  CalmUse g fuel e u ∧ RoomFor g e u

instance (g : Geometry) (fuel : Nat) (e : Exec (Memory T)) (u : Use T) :
    Decidable (Served g fuel e u) :=
  inferInstanceAs (Decidable (_ ∧ _))

/-- What the lists get to see of a use hands an item over or keeps it for later. -/
theorem Use.Means.items {l : ExpIndexedList T g} {u : Use T} (h : u.Means ops) (hg : g.Fits)
    (hgood : Good True ⟨l, log⟩) (hroom : RoomFor g (.ret m) u) (hnow : m.offset = l.offset) :
    (∃ log, Good True ⟨ops.foldl apply l, log⟩) ∧
      ∀ x, u.spares x → (l.items x).lst ≠ none →
        (∃ script, u = .shift script ∧ x ∈ l.shifted.out) ∨
          (((ops.foldl apply l).items x).lst ≠ none ∧
            ((ops.foldl apply l).items x).offset = (l.items x).offset ∧
            (ops.foldl apply l).offset = l.offset + u.ticks) := by
  have htake : ∀ y, ops = [] ∨ ops = [Op.rem y] → (∃ log, Good True ⟨ops.foldl apply l, log⟩) ∧
      ∀ x, y ≠ x → (l.items x).lst ≠ none → ((ops.foldl apply l).items x).lst ≠ none ∧
        ((ops.foldl apply l).items x).offset = (l.items x).offset ∧
        (ops.foldl apply l).offset = l.offset + 0 := by
    rintro y (rfl | rfl)
    · exact ⟨⟨log, hgood⟩, fun x _ hx => ⟨hx, rfl, rfl⟩⟩
    · refine ⟨⟨_, rem_good (x := y) hgood⟩, fun x hy hx => ?_⟩
      have hitem : (l.rem y).items x = l.items x := rem_items_other l (Ne.symm hy)
      have hoff : (l.rem y).offset = l.offset := by
        simp only [ExpIndexedList.rem]
        split <;> rfl
      show ((l.rem y).items x).lst ≠ none ∧ ((l.rem y).items x).offset = (l.items x).offset ∧
        (l.rem y).offset = l.offset
      rw [hitem, hoff]
      exact ⟨hx, rfl, rfl⟩
  cases u with
  | act a =>
    cases a with
    | add y index =>
      have hr : Room g l.offset index := hnow ▸ hroom
      rcases h with rfl | rfl
      · exact ⟨⟨log, hgood⟩, fun x _ hx => .inr ⟨hx, rfl, rfl⟩⟩
      · obtain ⟨hgood', hoff, hkeep⟩ := addAll_good hg ⟨log, hgood⟩ [(y, index)]
          (fun e he => by rw [List.mem_singleton.mp he]; exact hr)
        exact ⟨hgood', fun x _ hx => .inr ⟨(hkeep x hx).1, (hkeep x hx).2, hoff⟩⟩
    | rem y => exact ⟨(htake y h).1, fun x hs hx => .inr ((htake y h).2 x hs hx)⟩
    | destroy y => exact ⟨(htake y h).1, fun x hs hx => .inr ((htake y h).2 x hs hx)⟩
  | shift script =>
    obtain ⟨adds, hsub, rfl⟩ := h
    have hall : ((Op.shift :: adds.map (fun e => Op.add e.1 e.2)).foldl apply l) =
        addAll l.shift adds := (addAll_eq l.shift adds).symm
    have hr : ∀ e ∈ adds, Room g l.shift.offset e.2 := by
      intro e he
      have hm : Act.add e.1 e.2 ∈ script.flatten :=
        hsub.subset (List.mem_map.mpr ⟨e, he, rfl⟩)
      have hfits : Room g ((m.offset + 1) % sizeMod) e.2 := hroom _ hm
      rwa [hnow] at hfits
    have hshift : Good True (step ⟨l, log⟩ .shift) := shift_good hg hgood
    obtain ⟨hgood', hoff, hkeep⟩ := addAll_good (l := l.shift) hg ⟨_, hshift⟩ adds hr
    rw [hall]
    refine ⟨hgood', fun x _ hx => ?_⟩
    rcases shift_good_item hg hgood hx with hm | ⟨hlst, hsame, hnow⟩
    · exact .inl ⟨script, rfl, hm⟩
    · obtain ⟨hlst', hsame'⟩ := hkeep x hlst
      exact .inr ⟨hlst', hsame'.trans hsame, hoff.trans hnow⟩

/-- A use hands an item over or keeps it for later. -/
theorem use_serves {m : Memory T} {u : Use T} {us : List (Use T)} (hg : g.Fits) (hpos : g.nb ≠ 0)
    (h : Timed g fuel m (u :: us)) (hadds : ∀ script, u = .shift script → OnlyAdds script)
    (hserved : Served g fuel (.ret m) u) :
    (m.use g fuel u).Returns fun m' => Timed g fuel m' us ∧
      ∀ x, u.spares x → (m.items x).lst ≠ none →
        (∃ script, u = .shift script ∧ x ∈ m'.handed) ∨ ((m'.items x).lst ≠ none ∧
          (m'.items x).offset = (m.items x).offset ∧ m'.offset = m.offset + u.ticks) := by
  obtain ⟨l, L, k, hshows, ⟨log, hgood⟩, hroomy, hk⟩ := h
  simp only [List.map_cons, List.sum_cons] at hk
  refine (use_shows hshows hroomy (by omega) hg.2 hpos hadds hserved.1).mono ?_
  intro m' hm'
  obtain ⟨ops, L', h', hroomy', hmeans, hhanded⟩ := hm'
  obtain ⟨hgood', hitems⟩ := hmeans.items hg hgood hserved.2 hshows.offset
  refine ⟨⟨_, L', k + u.adds, h', hgood', hroomy', by omega⟩, fun x hspare hx => ?_⟩
  rcases hitems x hspare (by rwa [hshows.lst]) with ⟨script, hu, hm⟩ | ⟨hlst, hoff, hnow⟩
  · exact .inl ⟨script, hu, hhanded script hu ▸ hm⟩
  · rw [h'.lst] at hlst
    rw [h'.offset, hshows.offset]
    refine .inr ⟨hlst, ?_, hnow⟩
    have hdue : (m'.items x).offset = ((ops.foldl apply l).items x).offset := by
      rw [← h'.data]
      rfl
    have hdue0 : (m.items x).offset = (l.items x).offset := by
      rw [← hshows.data]
      rfl
    rw [hdue, hoff, hdue0]

theorem new_timed (T : Type u) [DecidableEq T] (ho : offset < sizeMod) (us : List (Use T))
    (hfuel : (us.map Use.adds).sum ≤ fuel) : Timed g fuel (Memory.new T offset) us := by
  obtain ⟨m, hm, l, L, k, hshows, hroomy, hk⟩ := new_budgeted g offset us hfuel
  cases hm
  exact ⟨_, _, k, Shows.new T g offset, ⟨_, start_good T g ho⟩, hroomy, hk⟩

/-- The run lemma: with `us` still to come. -/
theorem run_timed {m : Memory T} {pre us : List (Use T)} (hg : g.Fits) (hpos : g.nb ≠ 0)
    (h : Timed g fuel m (pre ++ us)) (hadds : ∀ script, .shift script ∈ pre → OnlyAdds script)
    (hserved : Along (useStep g fuel) (Served g fuel) (.ret m) (pre ++ us)) :
    (run (useStep g fuel) (.ret m) pre).Returns fun m' => Timed g fuel m' us ∧
      Along (useStep g fuel) (Served g fuel) (.ret m') us := by
  induction pre generalizing m with
  | nil => exact ⟨h, hserved⟩
  | cons u pre ih =>
    obtain ⟨m', hm', htimed, -⟩ := (use_serves hg hpos h
      (fun script he => hadds script (by simp [he])) hserved.1).exists
    have hstep : useStep g fuel (.ret m) u = .ret m' := hm'
    have hrest := hserved.2
    rw [hstep] at hrest
    rw [run_cons, hstep]
    exact ih htimed (fun script hs => hadds script (List.mem_cons_of_mem _ hs)) hrest

/-- An item that has a list is handed over by the time its date is reached, if nobody takes it
out. -/
theorem item_comes {m : Memory T} {us : List (Use T)} (hg : g.Fits) (hpos : g.nb ≠ 0)
    (h : Timed g fuel m us) (hadds : ∀ script, .shift script ∈ us → OnlyAdds script)
    (hserved : Along (useStep g fuel) (Served g fuel) (.ret m) us) (hus : ∀ u ∈ us, u.spares x)
    (hx : (m.items x).lst ≠ none)
    (hdate : (m.items x).offset < m.offset + (us.map Use.ticks).sum) :
    ∃ mid script rest, us = mid ++ .shift script :: rest ∧
      (run (useStep g fuel) (.ret m) (mid ++ [.shift script])).Returns
        (fun m' => x ∈ m'.handed) := by
  induction us generalizing m with
  | nil =>
    obtain ⟨l, L, k, hshows, ⟨log, hgood⟩, -⟩ := h
    have hdue := hgood.due_ge (hgood.listed x (by rwa [hshows.lst]))
    have hoff : (l.items x).offset = (m.items x).offset := by
      rw [← hshows.data]
      rfl
    have hnow : m.offset = l.offset := hshows.offset
    simp only [List.map_nil, List.sum_nil] at hdate
    simp only [hoff] at hdue
    omega
  | cons u us ih =>
    obtain ⟨m', hm', htimed, hitem⟩ := (use_serves hg hpos h
      (fun script he => hadds script (by simp [he])) hserved.1).exists
    have hstep : useStep g fuel (.ret m) u = .ret m' := hm'
    rcases hitem x (hus u List.mem_cons_self) hx with ⟨script, rfl, hm⟩ | ⟨hlst, hoff, hnow⟩
    · exact ⟨[], script, us, rfl, by simpa [hstep] using hm⟩
    · have hrest := hserved.2
      rw [hstep] at hrest
      simp only [List.map_cons, List.sum_cons] at hdate
      obtain ⟨mid, script, rest, rfl, hcomes⟩ := ih htimed
        (fun script hs => hadds script (List.mem_cons_of_mem _ hs)) hrest
        (fun v hv => hus v (List.mem_cons_of_mem _ hv)) hlst (by omega)
      exact ⟨u :: mid, script, rest, rfl, by simpa [hstep] using hcomes⟩

/-- In a run whose callbacks add items again, no item that has a list is ever lost, exactly if no
callback adds an item, that is in no list then, for the end of the cycle. Such a run hands over
every item by its date, if the dates have room. -/
theorem rearming_keeps_iff (hsa : g.sa < 2 ^ 31) (hpos : g.nb ≠ 0) (offset : Nat)
    (us : List (Use T)) (hadds : ∀ script, .shift script ∈ us → OnlyAdds script)
    (hfuel : (us.map Use.adds).sum ≤ fuel) :
    ((∀ n, (run (useStep g fuel) (.ret (Memory.new T offset)) (us.take n)).Returns
        (Memory.Kept g fuel)) ↔
      Along (useStep g fuel) (CalmUse g fuel) (.ret (Memory.new T offset)) us) ∧
    (g.Fits → offset < sizeMod →
      Along (useStep g fuel) (Served g fuel) (.ret (Memory.new T offset)) us →
      ∀ pre post, us = pre ++ post →
        (run (useStep g fuel) (.ret (Memory.new T offset)) pre).Returns fun m =>
          ∀ x, (m.items x).lst ≠ none → (∀ u ∈ post, u.spares x) →
            (m.items x).offset < m.offset + (post.map Use.ticks).sum →
            ∃ mid script rest, post = mid ++ .shift script :: rest ∧
              (run (useStep g fuel) (.ret m) (mid ++ [.shift script])).Returns
                (fun m' => x ∈ m'.handed)) := by
  refine ⟨run_kept_iff hsa hpos offset us hadds hfuel, ?_⟩
  rintro hg ho hserved pre post rfl
  refine (run_timed hg hpos (new_timed T ho _ hfuel) (fun script hs => hadds script (by simp [hs]))
    hserved).mono ?_
  rintro m ⟨htimed, hrest⟩ x hx hspare hdate
  exact item_comes hg hpos htimed (fun script hs => hadds script (by simp [hs])) hrest hspare hx
    hdate

theorem rearming_keeps_iff_twice :
    let step : Exec (Memory Nat) → Use Nat → _ := useStep ⟨4, 2, by decide⟩ 9
    let pre : List (Use Nat) := [.act (.add 0 0), .shift [[.add 0 2, .add 1 5]]]
    let post : List (Use Nat) := [.shift [], .shift [], .shift []]
    (∀ n, (run step (.ret (Memory.new Nat 0)) ((pre ++ post).take n)).Returns
      (Memory.Kept ⟨4, 2, by decide⟩ 9)) ∧
    (run step (.ret (Memory.new Nat 0)) pre).Returns fun m =>
      ∃ mid script rest, post = mid ++ .shift script :: rest ∧
        (run step (.ret m) (mid ++ [.shift script])).Returns (fun m' => 0 ∈ m'.handed) := by
  intro step pre post
  have hadds : ∀ script, .shift script ∈ pre ++ post → OnlyAdds script := by
    intro script hs a ha
    have hscript : script = [[.add 0 2, .add 1 5]] ∨ script = [] := by
      simpa [pre, post] using hs
    rcases hscript with rfl | rfl
    · have ha : a = .add 0 2 ∨ a = .add 1 5 := by simpa using ha
      rcases ha with rfl | rfl
      · exact ⟨0, 2, rfl⟩
      · exact ⟨1, 5, rfl⟩
    · cases ha
  have h := rearming_keeps_iff (g := ⟨4, 2, by decide⟩) (by decide) (by decide) 0
    (pre ++ post) hadds (show _ ≤ 9 by decide)
  refine ⟨h.1.mpr (by decide), ?_⟩
  have hlater : (run step (.ret (Memory.new Nat 0)) pre).Returns (fun m =>
      (m.items 0).lst ≠ none ∧ (m.items 0).offset < m.offset + (post.map Use.ticks).sum) := by
    decide
  refine ((h.2 ⟨by decide, by decide⟩ (by decide) (by decide) pre post rfl).and hlater).mono ?_
  intro m hm
  obtain ⟨hcomes, hlst, hdate⟩ := hm
  exact hcomes 0 hlst (by simp [post, Use.spares]) hdate

/-- The timer of one callback that is armed again for a whole cycle of four shifts. -/
theorem rearmed_item_lost :
    ¬ (run (useStep ⟨4, 2, by decide⟩ 9) (.ret (Memory.new Nat 0))
      [.act (.add 0 0), .shift [[.add 0 3]]]).Returns (Memory.Kept ⟨4, 2, by decide⟩ 9) := by
  intro h
  have hlost : (run (useStep ⟨4, 2, by decide⟩ 9) (.ret (Memory.new Nat 0))
      [.act (.add 0 0), .shift [[.add 0 3]]]).Returns
        (fun m => (m.items 0).lst = some (2, 0) ∧ m.linked ⟨4, 2, by decide⟩ 9 = []) := by
    decide
  obtain ⟨m, -, ⟨hkept, -⟩, hlst, hlinked⟩ := (h.and hlost).exists
  have hcount := hkept 0 (by simp [hlst])
  simp [hlinked] at hcount

end Evel.ExpIndexed
