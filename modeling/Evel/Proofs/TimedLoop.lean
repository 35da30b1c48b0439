import Evel.Model.TimedLoop
import Evel.Proofs.LoopFrame
import Evel.Proofs.WheelComes

namespace Evel.EvLoop
open General Loop
variable {s s' : EvLoop}

/-- The events that a step has ended are in the log. -/
def Mourned (s s' : EvLoop) : Prop :=
  ∃ dead : List Destruction, s'.log = s.log ++ dead ∧
    ∀ x, s.alive x = true → x ∉ dead.map Destruction.event → s'.alive x = true

theorem mourned_none (hl : s'.log = s.log) (ha : ∀ x, s.alive x = true → s'.alive x = true) :
    Mourned s s' := ⟨[], by rw [hl, List.append_nil], fun x hx _ => ha x hx⟩

theorem Apart.mourned (h : Apart s s') : Mourned s s' := mourned_none h.log h.alive

theorem mourned_destroy (hl : s'.log = s.log) (ha : s'.alive = s.alive) (x : EventId) :
    Mourned s (s'.destroy x) := by
  refine ⟨_, by rw [destroy, hl], fun y hy hne => ?_⟩
  have hyx : y ≠ x := by simpa using hne
  simpa [destroy, hyx, ha] using hy

theorem mourned_next (outAreSent : Bool) (outq : Option Nat) (s : EvLoop) :
    (s.next outAreSent outq).Split (Mourned s) (fun _ => True) := by
  cases hp : s.phase with
  | work =>
    simp only [next, hp]
    split
    · exact mourned_none rfl (fun _ => id)
    · split
      · exact mourned_none rfl (fun _ => id)
      · trivial
  | dels =>
    simp only [next, hp]
    split
    · exact mourned_none rfl (fun _ => id)
    · split
      · exact mourned_destroy rfl rfl _
      · trivial
  | poll =>
    simp only [next, hp]
    exact mourned_none rfl (fun _ => id)
  | batch x mask stage rest =>
    cases ha : s.alive x with
    | false =>
      simp only [next, hp, ha]
      trivial
    | true =>
      obtain ⟨s', he, ho, -⟩ | ⟨y, -, he⟩ | ⟨he, -⟩ := next_batch hp ha outAreSent outq
      · rw [he]
        exact mourned_none ho.log ho.alive
      · rw [he]
        exact mourned_destroy rfl rfl y
      · rw [he]
        trivial

theorem mourned_apply (s : EvLoop) (i : Input) :
    (s.apply i).Split (Mourned s) (fun _ => True) := by
  cases hu : Input.user i with
  | true =>
    obtain ⟨s', he, ha⟩ := apply_user s hu
    rw [he]
    exact ha.mourned
  | false =>
    cases i with
    | next outAreSent outq => exact mourned_next outAreSent outq s
    | poll batch =>
      simp only [apply]
      split
      · exact mourned_none (by cases batch <;> rfl) (by cases batch <;> exact fun _ => id)
      · exact mourned_none rfl (fun _ => id)
    | _ => cases hu

theorem geometry_fits : geometry.Fits := ⟨by decide, by decide⟩

end Evel.EvLoop

namespace Evel.ExpIndexed
variable {T : Type u} [DecidableEq T] {g : Geometry} {l : ExpIndexedList T g}

theorem destroy_item (l : ExpIndexedList T g) (y x : T) :
    ((l.destroy y).items x).offset = (l.items x).offset ∧
      (((l.destroy y).items x).lst ≠ none → (l.items x).lst ≠ none ∧ x ≠ y) := by
  cases hl : (l.items y).lst with
  | none =>
    simp only [ExpIndexedList.destroy, hl]
    refine ⟨trivial, fun hx => ⟨hx, ?_⟩⟩
    rintro rfl
    exact hx hl
  | some a =>
    simp only [ExpIndexedList.destroy, hl, link_offset, true_and]
    by_cases hxy : x = y
    · subst hxy
      simp
    · rw [link_of_ne hxy]
      exact fun hx => ⟨hx, hxy⟩

theorem destroy_offset (l : ExpIndexedList T g) (y : T) : (l.destroy y).offset = l.offset := by
  simp only [ExpIndexedList.destroy]
  split <;> rfl

/-- The items that are destroyed leave the list, and nothing else happens to it. -/
structure Outlives (xs : List T) (l l' : ExpIndexedList T g) : Prop where
  good : (∃ log, Good True ⟨l, log⟩) → ∃ log, Good True ⟨l', log⟩
  held : ∀ x, (l'.items x).lst ≠ none → (l.items x).lst ≠ none ∧ x ∉ xs
  offset : l'.offset = l.offset
  item : ∀ x, (l'.items x).offset = (l.items x).offset

theorem outlives_destroyed (xs : List T) (l : ExpIndexedList T g) :
    Outlives xs l (xs.foldl ExpIndexedList.destroy l) := by
  induction xs generalizing l with
  | nil => exact ⟨id, fun x hx => ⟨hx, List.not_mem_nil⟩, rfl, fun _ => rfl⟩
  | cons y ys ih =>
    have hrest := ih (l.destroy y)
    refine ⟨fun hg => hrest.good ?_, fun x hx => ?_, ?_, fun x => ?_⟩
    · obtain ⟨log, hgood⟩ := hg
      exact ⟨_, rem_good hgood⟩
    · obtain ⟨hheld, hnot⟩ := hrest.held x hx
      obtain ⟨hold, hxy⟩ := (destroy_item l y x).2 hheld
      exact ⟨hold, by simp [hxy, hnot]⟩
    · rw [List.foldl_cons, hrest.offset, destroy_offset]
    · rw [List.foldl_cons, hrest.item, (destroy_item l y x).1]

/-- What a shift hands over was in the list, is not any more and is not late. -/
theorem shift_handed (hg : g.Fits) (h : ∃ log, Good True ⟨l, log⟩) (hx : x ∈ l.shifted.out) :
    (l.items x).lst ≠ none ∧ (l.shift.items x).lst = none ∧
      l.shift.offset ≤ (l.shift.items x).offset + 1 := by
  obtain ⟨log, hgood⟩ := h
  have hspec : ShiftSpec True 1 l.offset l.list l.items l.shifted := hgood.shiftSpec hg
  have hin : x ∈ l.list.contents := by
    rw [hspec.contents]
    exact Multiset.mem_add.mpr (.inr (by simpa using hx))
  refine ⟨fun hn => hgood.unlisted hn hin, hspec.out x hx, ?_⟩
  have hdue := hspec.due x hx
  have hsame := hspec.offset x
  have hnext : l.shift.offset ≤ l.offset + 1 := Nat.mod_le _ _
  have hitem : (l.shift.items x).offset = (l.shifted.items x).offset := rfl
  omega

theorem shift_kept (hg : g.Fits) (h : ∃ log, Good True ⟨l, log⟩)
    (hx : (l.shift.items x).lst ≠ none) : (l.items x).lst ≠ none := by
  obtain ⟨log, hgood⟩ := h
  have hnext : Good True (step ⟨l, log⟩ .shift) := shift_good hg hgood
  have hleft := hgood.shift_left hg (hnext.listed x hx)
  exact fun hn => hgood.unlisted hn hleft.1

theorem add_kept (l : ExpIndexedList T g) (y : T) (index : Nat)
    (hx : ((l.add y index).items x).lst ≠ none) : (l.items x).lst ≠ none ∨ x = y := by
  by_cases hxy : x = y
  · exact .inr hxy
  · exact .inl (by rwa [add_items_other l hxy] at hx)

end Evel.ExpIndexed

namespace Evel.TimedLoop
open General Loop ExpIndexed
variable {s s' : TimedLoop}

/-- The timeouts refer to events that are there and not late, those that are handed over too. -/
structure Watched (s : TimedLoop) : Prop where
  good : ∃ log, Good True ⟨s.timeoutList, log⟩
  held : ∀ x, (s.timeoutList.items x).lst ≠ none → s.loop.alive x = true
  due : ∀ x ∈ s.due, s.loop.alive x = true ∧ (s.timeoutList.items x).lst = none ∧
    s.timeoutList.offset ≤ (s.timeoutList.items x).offset + 1
  once : s.due.Nodup

theorem watched_new : Watched new where
  good := ⟨[], start_good EventId EvLoop.geometry (by decide)⟩
  held x hx := absurd rfl hx
  due x hx := by cases hx
  once := List.nodup_nil

theorem due_of_not_busy (h : s.busy = false) : s.due = [] := by
  simp only [busy, Bool.or_eq_false_iff, Bool.not_eq_false', List.isEmpty_iff] at h
  exact h.2

/-- Events leave the timeouts: those that are destroyed do. -/
theorem Watched.leave (h : Watched s) (hd : s.due = []) {l : EvLoop}
    (hout : Outlives xs s.timeoutList list)
    (ha : ∀ x, s.loop.alive x = true → x ∉ xs → l.alive x = true) :
    Watched { s with loop := l, timeoutList := list } where
  good := hout.good h.good
  held x hx := ha x (h.held x (hout.held x hx).1) (hout.held x hx).2
  due x hx := by
    rw [hd] at hx
    cases hx
  once := h.once

theorem Watched.follow (h : Watched s) (hd : s.due = []) (hm : EvLoop.Mourned s.loop l) :
    Watched (s.follow l) := by
  obtain ⟨dead, hlog, halive⟩ := hm
  have hdead : l.log.drop s.loop.log.length = dead := by rw [hlog, List.drop_left]
  simp only [TimedLoop.follow, hdead]
  exact h.leave hd (outlives_destroyed _ _) halive

/-- The loop may go elsewhere while no event is destroyed. -/
theorem Watched.withLoop (h : Watched s) (ha : ∀ x, s.loop.alive x = true → l.alive x = true) :
    Watched { s with loop := l } where
  good := h.good
  held x hx := ha x (h.held x hx)
  due x hx := ⟨ha x (h.due x hx).1, (h.due x hx).2⟩
  once := h.once

theorem Watched.checkTimer (h : Watched s) (fd : Int) :
    Watched (s.checkTimer fd) ∧ (s.checkTimer fd).due = s.due ∧
      (s.checkTimer fd).timeoutList = s.timeoutList ∧
      ∀ x, s.loop.alive x = true → (s.checkTimer fd).loop.alive x = true := by
  simp only [TimedLoop.checkTimer]
  split
  · exact ⟨h, rfl, rfl, fun _ => id⟩
  · have ha := (EvLoop.apart_create (.user false) (Event.new fd false) s.loop).trans
      (EvLoop.apart_install s.loop.nextId none _)
    exact ⟨{ h.withLoop ha.alive with }, rfl, rfl, ha.alive⟩

theorem Watched.addTimeout (h : Watched s) (hd : s.due = []) (hx : s.loop.alive x = true)
    (hroom : Room EvLoop.geometry s.timeoutList.offset index) (fd : Int) :
    Watched (s.addTimeout x index fd) := by
  obtain ⟨ht, htdue, htlist, halive⟩ := h.checkTimer fd
  obtain ⟨log, hgood⟩ := h.good
  refine ⟨?_, fun y hy => ?_, fun y hy => ?_, ?_⟩
  · simp only [TimedLoop.addTimeout, htlist]
    exact ⟨_, add_good EvLoop.geometry_fits hgood (show NoWrap ⟨_, log⟩ (.add x index) from hroom.1)
      (fun _ => show LastClear ⟨_, log⟩ (.add x index) from hroom.2)⟩
  · simp only [TimedLoop.addTimeout, htlist] at hy
    rcases add_kept _ x index hy with hy | rfl
    · exact halive y (h.held y hy)
    · exact halive y hx
  · simp only [TimedLoop.addTimeout, htdue, hd] at hy
    cases hy
  · simp only [TimedLoop.addTimeout, htdue]
    exact h.once

theorem Watched.shift (h : Watched s) (n : Nat) :
    Watched { s with timeoutList := s.timeoutList.shift, due := s.timeoutList.shifted.out,
                     shifts := n } := by
  obtain ⟨log, hgood⟩ := h.good
  have hfits := EvLoop.geometry_fits
  refine ⟨⟨_, shift_good hfits hgood⟩, fun x hx => ?_, fun x hx => ?_, ?_⟩
  · exact h.held x (shift_kept hfits h.good hx)
  · obtain ⟨hheld, hfree, htime⟩ := shift_handed hfits h.good hx
    exact ⟨h.held x hheld, hfree, htime⟩
  · exact (hgood.shift_nodup hfits).2

/-- What is added has room. -/
def HasRoom (s : TimedLoop) : Input → Prop
  | .addTimeout _ index _ => Room EvLoop.geometry s.timeoutList.offset index
  | _ => True

instance (s : TimedLoop) : DecidablePred (HasRoom s)
  | .addTimeout _ _ _ => inferInstanceAs (Decidable (_ ∧ _))
  | .loop _ | .remTimeout _ | .onInp _ _ | .shift | .expire _ _ => .isTrue trivial

theorem Watched.apply (h : Watched s) {i : Input} (hi : HasRoom s i) :
    (s.apply i).Split Watched (fun _ => True) := by
  cases i with
  | loop i =>
    simp only [TimedLoop.apply]
    split
    · exact h
    · next hb =>
      have hidle : s.busy = false := by
        simp only [Bool.or_eq_true, not_or, Bool.not_eq_true] at hb
        exact hb.1
      rw [Exec.split_map]
      exact (EvLoop.mourned_apply s.loop i).mono (fun l hl => h.follow (due_of_not_busy hidle) hl)
        (fun _ _ => trivial)
  | addTimeout x index fd =>
    simp only [TimedLoop.apply, Exec.split_ret]
    split
    · exact h
    · next hb =>
      simp only [Bool.or_eq_true, not_or, Bool.not_eq_true, Bool.not_eq_false'] at hb
      exact h.addTimeout (due_of_not_busy hb.1) (by simpa using hb.2) hi fd
  | remTimeout x =>
    simp only [TimedLoop.apply, Exec.split_ret]
    split
    · exact h
    · next hb =>
      simp only [Bool.or_eq_true, not_or, Bool.not_eq_true] at hb
      have hrem : Outlives [x] s.timeoutList (s.timeoutList.rem x) := outlives_destroyed [x] _
      exact h.leave (due_of_not_busy hb.1) hrem (fun _ hx _ => hx)
  | onInp r nbExpirations =>
    simp only [TimedLoop.apply]
    split
    · exact h
    · exact { h.withLoop (l := s.loop.goto _) (fun _ => id) with }
  | shift =>
    simp only [TimedLoop.apply, Exec.split_ret]
    split
    · exact h.shift _
    · exact h
  | expire outAreSent outq =>
    simp only [TimedLoop.apply]
    split
    · exact h
    · next x left hdue =>
      split
      · have ha := (EvLoop.apart_request x (.close outAreSent) outq s.loop).alive
        have h' := h.withLoop ha
        have honce := h.once
        rw [hdue, List.nodup_cons] at honce
        exact ⟨h'.good, h'.held, fun y hy => h'.due y (hdue ▸ List.mem_cons_of_mem x hy), honce.2⟩
      · trivial

/-- Where `on_timeout` is that of `Event`, the timeouts hold in every run only events that are not
destroyed and whose time is not over, and a shift hands an event over no later than its time, once,
and while it is there. -/
theorem timeouts_reach_live_events (inputs : List Input)
    (h : run step (.ret new) inputs = .ret s)
    (hroom : Along step (fun e i => e.Split (fun s => HasRoom s i) (fun _ => True)) (.ret new)
      inputs) :
    (∀ x, (s.timeoutList.items x).lst ≠ none →
      s.loop.alive x = true ∧ s.timeoutList.offset ≤ (s.timeoutList.items x).offset) ∧
    s.due.Nodup ∧
    ∀ x ∈ s.due, s.loop.alive x = true ∧ (s.timeoutList.items x).lst = none ∧
      s.timeoutList.offset ≤ (s.timeoutList.items x).offset + 1 := by
  have hnew : (Exec.ret new).Split Watched (fun _ => True) := watched_new
  have hstep : ∀ (e : Exec TimedLoop) i, e.Split Watched (fun _ => True) →
      e.Split (fun s => HasRoom s i) (fun _ => True) →
      (step e i).Split Watched (fun _ => True) := by
    intro e i he hi
    cases e with
    | ret s => exact Watched.apply he hi
    | hang s | undef s => trivial
  have hrun := run_invariant _ hstep hnew hroom
  rw [h] at hrun
  have hs : Watched s := hrun
  refine ⟨fun x hx => ⟨hs.held x hx, ?_⟩, hs.once, hs.due⟩
  obtain ⟨log, hgood⟩ := hs.good
  exact hgood.due_ge (hgood.listed x hx)

/-- The timer comes for one of two events, and the other one is destroyed before its time. -/
theorem timeouts_reach_live_events_two :
    let inputs : List Input := [.loop (.create 5 true true), .loop (.install 0 none),
      .loop (.create 6 true true), .loop (.install 1 none), .addTimeout 0 0 9, .addTimeout 1 8 9,
      .loop (.request 1 .del none), .loop (.next true none), .loop (.next true none),
      .loop (.next true none), .loop (.poll [(2, ⟨false, true, false, false, false⟩)]),
      .loop (.next true none), .loop (.next true none), .onInp 8 1, .shift]
    let s := (run step (.ret new) inputs).state
    s.due = [0] ∧ s.loop.log = [⟨1, false, false, false⟩] ∧ (s.timeoutList.items 1).lst = none ∧
      s.loop.alive 0 = true := by
  intro inputs s
  have h : run step (.ret new) inputs = .ret s := rfl
  have hroom : Along step (fun e i => e.Split (fun s => HasRoom s i) (fun _ => True)) (.ret new)
      inputs := by decide
  have hlive := timeouts_reach_live_events inputs h hroom
  exact ⟨by decide, by decide, by decide, (hlive.2.2 0 (by decide)).1⟩

end Evel.TimedLoop
