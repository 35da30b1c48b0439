import Evel.General.Census
import Evel.General.Runs
import Evel.Model.Registry

namespace Evel.Registry
open General

/-- What the calls say of the events in the loop, whatever the loop makes of it. -/
structure Known (s : Registry) : Prop where
  nodup : s.inLoop.Nodup
  member : ∀ x ∈ s.inLoop, s.alive x = true ∧ s.evLoop x = true
  old : ∀ x, s.alive x = true → x < s.nextId
  open_ : s.inLoop ≠ [] → 0 ≤ s.eventFd

/-- The loop waits for the events in it that it has to wait for, nothing has reached `abort`, and
no other event refers to the loop: it can be added, and its destruction leaves the loop alone. -/
structure Accounted (s : Registry) : Prop where
  count : s.nbWaitingEvents = s.inLoop.countP s.needWait
  running : s.aborted = false
  free : ∀ x, s.alive x = true → x ∉ s.inLoop → s.evLoop x = false

/-- No event in the loop is removed but by its destructor, and then its descriptor is a watched
one above 2, or else the loop does not wait for it. Of the other events only those are removed
that the loop does not wait for, with no descriptor or a watched one. -/
def Careful (s : Registry) : Input → Prop
  | .remove x => s.alive x = true → x ∉ s.inLoop ∧ (0 ≤ s.eventFd →
      s.needWait x = false ∧ (0 ≤ s.fd x → s.fd x ∈ s.watched))
  | .destroy x => s.alive x = true → x ∈ s.inLoop →
      if 2 < s.fd x then s.fd x ∈ s.watched else s.needWait x = false
  | _ => True

instance (s : Registry) : DecidablePred (Careful s)
  | .create _ _ | .add _ _ => .isTrue trivial
  | .remove x => inferInstanceAs (Decidable (s.alive x = true → x ∉ s.inLoop ∧ (0 ≤ s.eventFd →
      s.needWait x = false ∧ (0 ≤ s.fd x → s.fd x ∈ s.watched))))
  | .destroy x => inferInstanceAs (Decidable (s.alive x = true → x ∈ s.inLoop →
      if 2 < s.fd x then s.fd x ∈ s.watched else s.needWait x = false))

section frame
variable (x : EventId) (accepts : Bool) (s : Registry)

@[simp] theorem watch_evLoop (fd : Int) : (s.watch fd accepts).evLoop = s.evLoop := by
  rw [watch]
  split <;> rfl

/-- `add_event_obj` only changes what the loop knows. -/
theorem addEventObj_frame : (s.addEventObj x accepts).alive = s.alive ∧
    (s.addEventObj x accepts).nextId = s.nextId ∧
    (s.addEventObj x accepts).eventFd = s.eventFd := by
  simp only [addEventObj, watch]
  split_ifs <;> exact ⟨rfl, rfl, rfl⟩

theorem addEventObj_evLoop (h : 0 ≤ s.eventFd) :
    (s.addEventObj x accepts).evLoop = Function.update s.evLoop x true := by
  have hopen : ¬ s.eventFd < 0 := by omega
  cases hl : s.evLoop x with
  | true =>
    have : Function.update s.evLoop x true = s.evLoop := by
      rw [← hl, Function.update_eq_self]
    simp [addEventObj, hl, this]
  | false =>
    cases hw : s.needWait x <;> simp [addEventObj, hl, hopen, hw]

/-- `rem_event_obj` leaves the event as it is. -/
theorem remEventObj_frame : (s.remEventObj x).alive = s.alive ∧
    (s.remEventObj x).evLoop = s.evLoop ∧ (s.remEventObj x).nextId = s.nextId ∧
    (s.remEventObj x).eventFd = s.eventFd := by
  simp only [remEventObj]
  split_ifs <;> exact ⟨rfl, rfl, rfl, rfl⟩

theorem destroy_frame : (s.destroy x).evLoop = s.evLoop ∧ (s.destroy x).nextId = s.nextId ∧
    (s.destroy x).eventFd = s.eventFd ∧ ∀ y, y ≠ x → (s.destroy x).alive y = s.alive y := by
  have hrem := remEventObj_frame x s
  simp only [destroy]
  split_ifs <;> simp +contextual [hrem]

end frame

theorem known_new (eventFd : Int) : Known (new eventFd) :=
  ⟨List.nodup_nil, by simp [new], by simp [new], by simp [new]⟩

theorem Known.create (h : Known s) (fd : Int) (needWait : Bool) :
    Known (s.create fd needWait) := by
  refine ⟨h.nodup, fun x hx => ?_, fun x hx => ?_, h.open_⟩
  · have hne := Nat.ne_of_lt (h.old x (h.member x hx).1)
    simpa [Registry.create, hne] using h.member x hx
  · by_cases hn : x = s.nextId
    · simp [Registry.create, hn]
    · exact Nat.lt_succ_of_lt (h.old x (by simpa [Registry.create, hn] using hx))

theorem Known.add (h : Known s) (ha : s.alive x = true) (accepts : Bool) :
    Known { s.addEventObj x accepts with
      inLoop := if x ∈ s.inLoop ∨ s.eventFd < 0 then s.inLoop else x :: s.inLoop } := by
  obtain ⟨halive, hnext, hfd⟩ := addEventObj_frame x accepts s
  by_cases hopen : s.eventFd < 0
  · have hsame : s.addEventObj x accepts = s := by simp [addEventObj, hopen]
    rw [hsame, if_pos (.inr hopen)]
    exact h
  · have hev := addEventObj_evLoop x accepts s (by omega)
    have hmem : ∀ y ∈ s.inLoop, (s.addEventObj x accepts).alive y = true ∧
        (s.addEventObj x accepts).evLoop y = true := by
      intro y hy
      rw [halive, hev]
      by_cases hyx : y = x <;> simp [hyx, h.member y hy, ha]
    refine ⟨?_, fun y hy => ?_, fun y hy => ?_, fun _ => ?_⟩
    · dsimp only
      split
      · exact h.nodup
      · next hn => exact List.nodup_cons.mpr ⟨fun hx => hn (.inl hx), h.nodup⟩
    · dsimp only at hy
      split at hy
      · exact hmem y hy
      · rcases List.mem_cons.mp hy with rfl | hy
        · exact ⟨by rw [halive]; exact ha, by simp [hev]⟩
        · exact hmem y hy
    · rw [hnext]
      exact h.old y (halive ▸ hy)
    · rw [hfd]
      omega

theorem Known.remove (h : Known s) (x : EventId) :
    Known { s.remEventObj x with inLoop := s.inLoop.erase x } := by
  obtain ⟨halive, hev, hnext, hfd⟩ := remEventObj_frame x s
  refine ⟨h.nodup.erase x, fun y hy => ?_, fun y hy => ?_, fun hne => ?_⟩
  · simpa [halive, hev] using h.member y (List.mem_of_mem_erase hy)
  · simpa [hnext] using h.old y (by simpa [halive] using hy)
  · simpa [hfd] using h.open_ (fun hn => hne (by simp [hn]))

theorem Known.destroy (h : Known s) (ha : s.alive x = true) :
    Known { s.destroy x with inLoop := s.inLoop.erase x } := by
  obtain ⟨hev, hnext, hfd, halive⟩ := destroy_frame x s
  refine ⟨h.nodup.erase x, fun y hy => ?_, fun y hy => ?_, fun hne => ?_⟩
  · obtain ⟨hyx, hy⟩ := (h.nodup.mem_erase_iff).mp hy
    simpa [halive y hyx, hev] using h.member y hy
  · rw [hnext]
    by_cases hyx : y = x
    · exact hyx ▸ h.old x ha
    · exact h.old y (by simpa [halive y hyx] using hy)
  · simpa [hfd] using h.open_ (fun hn => hne (by simp [hn]))

theorem Known.step (h : Known s) (i : Input) : Known (s.step i) := by
  unfold Registry.step
  split
  · exact h
  · cases i with
    | create fd needWait => exact h.create fd needWait
    | add x accepts =>
      dsimp only
      split
      · next ha => exact h.add ha accepts
      · exact h
    | remove x =>
      dsimp only
      split
      · exact h.remove x
      · exact h
    | destroy x =>
      dsimp only
      split
      · next ha => exact h.destroy ha
      · exact h

theorem Accounted.create (h : Accounted s) (hk : Known s) (fd : Int) (needWait : Bool) :
    Accounted (s.create fd needWait) := by
  have hne : ∀ x ∈ s.inLoop, x ≠ s.nextId :=
    fun x hx => Nat.ne_of_lt (hk.old x (hk.member x hx).1)
  refine ⟨?_, h.running, fun x hx hn => ?_⟩
  · have hcount : s.inLoop.countP (s.create fd needWait).needWait = s.inLoop.countP s.needWait :=
      List.countP_congr (fun x hx => by simp [Registry.create, hne x hx])
    exact h.count.trans (by rw [← hcount]; rfl)
  · by_cases hx' : x = s.nextId
    · simp [Registry.create, hx']
    · simpa [Registry.create, hx'] using
        h.free x (by simpa [Registry.create, hx'] using hx) hn

theorem Accounted.add (h : Accounted s) (hk : Known s) (ha : s.alive x = true) (accepts : Bool) :
    Accounted { s.addEventObj x accepts with
      inLoop := if x ∈ s.inLoop ∨ s.eventFd < 0 then s.inLoop else x :: s.inLoop } := by
  by_cases hin : x ∈ s.inLoop ∨ s.eventFd < 0
  · have hsame : s.addEventObj x accepts = s := by
      rcases hin with hx | hopen
      · simp [addEventObj, (hk.member x hx).2]
      · simp [addEventObj, hopen]
    rw [hsame, if_pos hin]
    exact h
  · obtain ⟨hx, hopen⟩ := not_or.mp hin
    have hl := h.free x ha hx
    have hev := addEventObj_evLoop x accepts s (by omega)
    have halive := (addEventObj_frame x accepts s).1
    rw [if_neg hin]
    have hrest : (s.addEventObj x accepts).aborted = s.aborted ∧
        (s.addEventObj x accepts).needWait = s.needWait ∧
        (s.addEventObj x accepts).nbWaitingEvents =
          s.nbWaitingEvents + if s.needWait x then 1 else 0 := by
      simp only [addEventObj, hl, hopen, decide_false, Bool.or_self, Bool.false_eq_true, if_false,
        watch]
      split_ifs <;> simp
    refine ⟨?_, hrest.1.trans h.running, fun y hy hn => ?_⟩
    · dsimp only
      rw [hrest.2.2, hrest.2.1, h.count, List.countP_cons]
      push_cast
      split <;> rfl
    · have hyx : y ≠ x := fun he => hn (by simp [he])
      simpa [hev, hyx] using h.free y (by simpa [halive] using hy)
        (fun hm => hn (List.mem_cons_of_mem x hm))

section destroys
variable {s : Registry}

/-- The removal of an event whose descriptor is watched, or that has none. -/
theorem remEventObj_watched (hopen : 0 ≤ s.eventFd) (hw : 0 ≤ s.fd x → s.fd x ∈ s.watched) :
    s.remEventObj x = { s with
      watched := s.watched.erase (s.fd x)
      nbWaitingEvents := s.nbWaitingEvents - if s.needWait x then 1 else 0 } := by
  have hfd : ¬ (0 ≤ s.fd x ∧ s.fd x ∉ s.watched) := fun hc => hc.2 (hw hc.1)
  cases hn : s.needWait x <;> simp [remEventObj, hopen, hfd, hn]

theorem remEventObj_unwatched (hopen : 0 ≤ s.eventFd) (hfd : 0 ≤ s.fd x)
    (hm : s.fd x ∉ s.watched) : (s.remEventObj x).aborted = true := by
  simp [remEventObj, hopen, hfd, hm]

/-- The destructor of an event in its loop removes it, and closes its descriptor. -/
theorem destroy_watched (hrun : s.aborted = false) (hl : s.evLoop x = true)
    (hopen : 0 ≤ s.eventFd) (hfd : 2 < s.fd x) (hm : s.fd x ∈ s.watched) :
    s.destroy x = { s with
      watched := (s.watched.erase (s.fd x)).erase (s.fd x)
      nbWaitingEvents := s.nbWaitingEvents - if s.needWait x then 1 else 0
      alive := Function.update s.alive x false } := by
  simp [destroy, remEventObj_watched hopen (fun _ => hm), hfd, hl, hrun]

theorem destroy_unwatched (hl : s.evLoop x = true) (hopen : 0 ≤ s.eventFd) (hfd : 2 < s.fd x)
    (hm : s.fd x ∉ s.watched) : (s.destroy x).aborted = true := by
  have hrem := remEventObj_unwatched hopen (show 0 ≤ s.fd x by omega) hm
  simp [destroy, hfd, hl, hrem]

/-- The destructor does not remove an event that has kept a standard descriptor, or none. -/
theorem destroy_standard (hrun : s.aborted = false) (hfd : ¬ 2 < s.fd x) :
    s.destroy x = { s with alive := Function.update s.alive x false } := by
  simp [destroy, hfd, hrun]

theorem destroy_free (hrun : s.aborted = false) (hl : s.evLoop x = false) :
    s.destroy x = { s with
      watched := if 2 < s.fd x then s.watched.erase (s.fd x) else s.watched
      alive := Function.update s.alive x false } := by
  by_cases hfd : 2 < s.fd x <;> simp [destroy, hl, hfd, hrun]

end destroys

/-- A removal keeps the account only of an event that is not in the loop, and that the loop takes
no notice of. -/
theorem accounted_remove_iff (h : Accounted s) (hk : Known s) (ha : s.alive x = true) :
    Accounted { s.remEventObj x with inLoop := s.inLoop.erase x } ↔
      x ∉ s.inLoop ∧ (0 ≤ s.eventFd →
        s.needWait x = false ∧ (0 ≤ s.fd x → s.fd x ∈ s.watched)) := by
  obtain ⟨halive, hev, -, -⟩ := remEventObj_frame x s
  by_cases hx : x ∈ s.inLoop
  · -- the event keeps its reference to the loop
    refine iff_of_false (fun hr => ?_) (fun hc => hc.1 hx)
    have := hr.free x (by simpa [halive] using ha) (hk.nodup.not_mem_erase)
    simp [hev, (hk.member x hx).2] at this
  · rw [List.erase_of_not_mem hx]
    by_cases hopen : 0 ≤ s.eventFd
    · by_cases hfd : 0 ≤ s.fd x ∧ s.fd x ∉ s.watched
      · refine iff_of_false (fun hr => ?_) (fun hc => hfd.2 ((hc.2 hopen).2 hfd.1))
        have habort := remEventObj_unwatched hopen hfd.1 hfd.2
        exact absurd hr.running (by simp [habort])
      · have hwatched : 0 ≤ s.fd x → s.fd x ∈ s.watched :=
          fun h0 => by_contra fun hm => hfd ⟨h0, hm⟩
        have hrem := remEventObj_watched hopen hwatched
        rw [hrem]
        constructor
        · intro hr
          refine ⟨hx, fun _ => ⟨?_, hwatched⟩⟩
          have hcount : s.nbWaitingEvents - (if s.needWait x then 1 else 0) =
              s.inLoop.countP s.needWait := hr.count
          rw [h.count] at hcount
          cases hw : s.needWait x with
          | false => rfl
          | true =>
            rw [hw, if_pos rfl] at hcount
            omega
        · intro hc
          refine ⟨?_, h.running, h.free⟩
          simpa [(hc.2 hopen).1] using h.count
    · have hrem : s.remEventObj x = s := by simp [remEventObj, hopen]
      rw [hrem]
      exact iff_of_true h ⟨hx, fun h0 => absurd h0 hopen⟩

/-- The destruction of an event in the loop keeps the account only if it removes the event, or if
the loop does not wait for it. -/
theorem accounted_destroy_iff (h : Accounted s) (hk : Known s) (ha : s.alive x = true) :
    Accounted { s.destroy x with inLoop := s.inLoop.erase x } ↔
      (x ∈ s.inLoop → if 2 < s.fd x then s.fd x ∈ s.watched else s.needWait x = false) := by
  have hfree : ∀ y, Function.update s.alive x false y = true → y ∉ s.inLoop.erase x →
      s.evLoop y = false := by
    intro y hy hn
    have hyx : y ≠ x := fun he => by simp [he] at hy
    exact h.free y (by simpa [hyx] using hy) (fun hm => hn ((List.mem_erase_of_ne hyx).mpr hm))
  by_cases hx : x ∈ s.inLoop
  · have hopen := hk.open_ (List.ne_nil_of_mem hx)
    have hl := (hk.member x hx).2
    have hcount : s.nbWaitingEvents = (s.inLoop.erase x).countP s.needWait +
        if s.needWait x then 1 else 0 := by
      rw [h.count, ← countP_erase_add s.needWait hx]
      split <;> rfl
    by_cases hfd : 2 < s.fd x
    · by_cases hm : s.fd x ∈ s.watched
      · rw [destroy_watched h.running hl hopen hfd hm]
        refine iff_of_true ⟨?_, h.running, hfree⟩ (fun _ => by rw [if_pos hfd]; exact hm)
        dsimp only
        omega
      · refine iff_of_false (fun hr => ?_) (fun hc => hm (by simpa [hfd] using hc hx))
        have habort := destroy_unwatched hl hopen hfd hm
        exact absurd hr.running (by simp [habort])
    · rw [destroy_standard h.running hfd]
      simp only [hx, hfd, if_false, true_imp_iff]
      constructor
      · intro hr
        have hc : s.nbWaitingEvents = (s.inLoop.erase x).countP s.needWait := hr.count
        cases hw : s.needWait x with
        | false => rfl
        | true =>
          rw [hw, if_pos rfl] at hcount
          omega
      · intro hw
        refine ⟨?_, h.running, hfree⟩
        simpa [hw] using hcount
  · rw [destroy_free h.running (h.free x ha hx)]
    refine iff_of_true ⟨?_, h.running, hfree⟩ (fun hm => absurd hm hx)
    dsimp only
    rw [List.erase_of_not_mem hx]
    exact h.count

/-- A step keeps the account if and only if it is a careful one. -/
theorem accounted_step (h : Accounted s) (hk : Known s) (i : Input) :
    Accounted (s.step i) ↔ Careful s i := by
  unfold Registry.step
  rw [if_neg (by simp [h.running])]
  cases i with
  | create fd needWait => exact iff_of_true (h.create hk fd needWait) trivial
  | add x accepts =>
    refine iff_of_true ?_ trivial
    dsimp only
    split
    · next ha => exact h.add hk ha accepts
    · exact h
  | remove x =>
    dsimp only [Careful]
    split
    · next ha => exact (accounted_remove_iff h hk ha).trans ⟨fun hc _ => hc, fun hc => hc ha⟩
    · next ha => exact iff_of_true h (fun hx => absurd hx ha)
  | destroy x =>
    dsimp only [Careful]
    split
    · next ha => exact (accounted_destroy_iff h hk ha).trans ⟨fun hc _ => hc, fun hc => hc ha⟩
    · next ha => exact iff_of_true h (fun hx => absurd hx ha)

/-- The account of a loop is right in every state of a run if and only if the run is careful. -/
theorem accounted_iff (eventFd : Int) (inputs : List Input) :
    (∀ n, Accounted (run step (new eventFd) (inputs.take n))) ↔
      Along step Careful (new eventFd) inputs := by
  have hnew : Accounted (new eventFd) := ⟨rfl, rfl, fun _ _ _ => rfl⟩
  have hknown : ∀ n, Known (run step (new eventFd) (inputs.take n)) := fun n =>
    run_invariant_all Known (fun _ i hk => hk.step i) (known_new eventFd) _
  rw [← along_iff (fun s => Known s ∧ Accounted s)
    (fun s i hs _ => ⟨fun ha => (accounted_step hs.2 hs.1 i).mp ha.2,
      fun hc => ⟨hs.1.step i, (accounted_step hs.2 hs.1 i).mpr hc⟩⟩) ⟨known_new eventFd, hnew⟩]
  exact forall_congr' fun n => (and_iff_right (hknown n)).symm

/-- An event that has been removed and is then destroyed is removed a second time. -/
theorem removed_twice : ¬ ∀ n, Accounted (run step (new 3)
    ([.create 7 true, .add 0 true, .remove 0, .destroy 0].take n)) := by
  intro h
  have : (run step (new 3) [.create 7 true, .add 0 true, .remove 0, .destroy 0]).aborted = false :=
    (h 4).running
  exact absurd this (by decide)

end Evel.Registry
