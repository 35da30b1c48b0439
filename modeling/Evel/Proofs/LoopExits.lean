import Evel.Proofs.LoopProgress
import Evel.Proofs.MainLoop

namespace Evel.MainLoop
open General Loop EvLoop

/-- The loop is at one of the events that `epoll_wait` has returned. -/
def handling : Phase → Bool
  | .batch _ _ _ _ => true
  | _ => false

theorem handling_next (outAreSent : Bool) (outq : Option Nat) (l : EvLoop) :
    (l.next outAreSent outq).Split
      (fun l' => (handling l'.phase = true → handling l.phase = true) ∧
        (l'.phase = .work → l.phase = .work ∨ handling l.phase = true)) (fun _ => True) := by
  cases hp : l.phase with
  | batch x mask stage rest =>
    exact .all (fun _ => ⟨fun _ => rfl, fun _ => .inr rfl⟩) (fun _ => trivial) _
  | poll => simp [EvLoop.next, hp, handling]
  | work =>
    cases hw : l.workList with
    | nil => simp [EvLoop.next, hp, hw, goto, handling]
    | cons x workList => cases ha : l.alive x <;> simp [EvLoop.next, hp, hw, ha, setEvent, handling]
  | dels =>
    cases hd : l.delList with
    | nil => simp [EvLoop.next, hp, hd, goto, handling]
    | cons x delList =>
      cases ha : l.alive x <;> simp [EvLoop.next, hp, hd, ha, setEvent, destroy, handling]

theorem filed_again {s : MainLoop} (h : Filed s.loop) : Filed s.again.loop := by
  rw [MainLoop.again]
  split
  · exact ((Filing.refl s.loop).goto .work).filed h
  · exact h

theorem filed_apply {s : MainLoop} (h : Filed s.loop) (i : Input) :
    (s.apply i).Split (fun s' => Filed s'.loop) (fun _ => True) := by
  cases i with
  | loop i =>
    rw [MainLoop.apply]
    split_ifs
    · exact h
    · refine (filing_apply s.loop i).thenWith (fun l hl => ?_) (fun _ _ => trivial)
      split
      · trivial
      · rw [Exec.split_ret, MainLoop.follow]
        split
        · exact filed_again (hl.filed h)
        · exact hl.filed h
    · exact h
  | run =>
    change Filed (if s.running then s else _ : MainLoop).loop
    split
    · exact h
    · exact ((Filing.refl s.loop).goto .work).filed h
  | stop retVal => exact h
  | incNbWaitingEvents => exact h
  | decNbWaitingEvents =>
    change Filed (if s.held = 0 then s else _ : MainLoop).loop
    split <;> exact h
  | remEventObj x =>
    rw [MainLoop.apply]
    split
    · simp only [MainLoop.remEventObj]
      split
      · exact h
      · split
        · trivial
        · exact h
    · exact h
  | pollError intr =>
    change Filed (if _ then if intr then s.again else s.leave .failed (-1) else s : MainLoop).loop
    split_ifs
    · exact filed_again h
    · exact h
    · exact h

theorem filed_step {e : Exec MainLoop} (h : e.Split (fun s => Filed s.loop) (fun _ => True))
    (i : Input) : (step e i).Split (fun s => Filed s.loop) (fun _ => True) :=
  h.andThen (fun _ hs => filed_apply hs i)

/-- How `run` has returned: because nothing is to be waited for, or at the end of the batch that
it was handling, because of `stop`. -/
def Left (s₀ s : MainLoop) : Prop :=
  (s.returned = some (.idle, s₀.ret) ∧ s.loop.phase = .dels ∧ s.loop.delList = []) ∨
    (s.returned = some (.stopped, s₀.ret) ∧ s.loop.phase = .work ∧ s₀.cnt = false ∧
      handling s₀.loop.phase = true)

/-- On the way from `s₀` to the next `epoll_wait`, or out of `run`. -/
structure Underway (s₀ s : MainLoop) : Prop where
  loop : EvLoop.Underway s₀.loop s.loop
  cnt : s.cnt = s₀.cnt
  ret : s.ret = s₀.ret
  batch : handling s.loop.phase = true → handling s₀.loop.phase = true
  left : s.running = false → Left s₀ s

/-- What follows the last event of a batch -/
theorem Underway.again {s₀ s : MainLoop} (h : Underway s₀ s) (hw : s.loop.phase = .work)
    (hb : handling s₀.loop.phase = true) :
    Underway s₀ s.again ∧ (s.again.running = false ∨ s.again.loop = s.loop) := by
  rw [MainLoop.again]
  split
  · have hgoto : s.loop.goto .work = s.loop := by rw [goto, ← hw]
    rw [hgoto]
    exact ⟨h, .inr rfl⟩
  · next hc =>
    have hcnt : s₀.cnt = false := by
      rw [← h.cnt]
      exact Bool.eq_false_iff.mpr hc
    refine ⟨{ h with left := fun _ => .inr ⟨?_, hw, hcnt, hb⟩ }, .inl rfl⟩
    rw [leave, h.ret]

theorem Underway.follow {s₀ s : MainLoop} {i : Loop.Input} (h : Underway s₀ s)
    (hr : s.running = true) (hl : EvLoop.Underway s₀.loop l)
    (hb : handling l.phase = true → handling s.loop.phase = true)
    (hw : l.phase = .work → s.loop.phase = .work ∨ handling s.loop.phase = true) :
    Underway s₀ (s.follow i l) ∧
      ((s.follow i l).running = false ∨ (s.follow i l).loop = l) := by
  have hs : Underway s₀ { s with
      loop := l
      nbWaitingEvents := s.nbWaitingEvents + installed i s.loop + timerMade s.loop l -
        destroyed s.loop l } :=
    ⟨hl, h.cnt, h.ret, fun hp => h.batch (hb hp), fun hn => by simp [hr] at hn⟩
  rw [MainLoop.follow]
  split
  · next hend =>
    have hend : s.loop.phase ≠ .work ∧ l.phase = .work := by simpa [hr] using hend
    exact hs.again hend.2 (h.batch ((hw hend.2).resolve_left hend.1))
  · exact ⟨hs, .inr rfl⟩

/-- One turn of `run`, with what `out_are_sent` and SIOCOUTQ answer. -/
def turn (e : Exec MainLoop) (answer : Bool × Option Nat) : Exec MainLoop :=
  step e (.loop (.next answer.1 answer.2))

theorem Underway.turn {s₀ s : MainLoop} (h : Underway s₀ s) (hr : s.running = true)
    (hp : s.loop.phase ≠ .poll) (answer : Bool × Option Nat) :
    (turn (.ret s) answer).Split
      (fun s' => Underway s₀ s' ∧ (s'.running = false ∨ s'.loop.weight < s.loop.weight))
      (fun _ => True) := by
  obtain ⟨outAreSent, outq⟩ := answer
  change (s.apply (.loop (.next outAreSent outq))).Split _ _
  rw [MainLoop.apply]
  split_ifs with hidle hpermits
  · have hasks : s.asks (.loop (.next outAreSent outq)) = true := by
      simp only [Bool.and_eq_true] at hidle
      exact hidle.1
    obtain ⟨-, -, -, -, hphase, hdel⟩ := asks_cases hasks
    refine ⟨{ h with left := fun _ => .inl ⟨?_, hphase, hdel⟩ }, .inl rfl⟩
    rw [leave, h.ret]
  · have hnext := ((h.loop.next outAreSent outq).and (weight_next hp outAreSent outq)).and
      (handling_next outAreSent outq s.loop)
    refine hnext.thenWith (fun l hl => ?_) (fun _ _ => trivial)
    split
    · trivial
    · obtain ⟨hu, hloop⟩ := h.follow (i := .next outAreSent outq) hr hl.1.1 hl.2.1 hl.2.2
      refine ⟨hu, hloop.imp_right (fun he => ?_)⟩
      rw [he]
      exact hl.1.2
  · exact absurd hr hpermits

/-- What has been doomed when `run` has come to `epoll_wait` or has returned: it is destroyed, or
`run` has been stopped before its deletions. -/
def Settled (s₀ s : MainLoop) : Prop :=
  ((s.running = true ∧ s.loop.phase = .poll ∨
      s.running = false ∧ s.returned = some (.idle, s₀.ret)) ∧
    s.loop.delList = [] ∧ ∀ x, Doomed x s₀.loop → x ∈ s.loop.log.map Destruction.event) ∨
  ((s.running = false ∧ s.returned = some (.stopped, s₀.ret)) ∧
    (s₀.cnt = false ∧ handling s₀.loop.phase = true) ∧ ∀ x, Doomed x s₀.loop → Marked x s.loop)

/-- Past the batch, what is doomed is in `del_list` or destroyed. -/
theorem Underway.marked {s₀ s : MainLoop} (h : Underway s₀ s) (hp : handling s.loop.phase = false)
    (hx : Doomed x s₀.loop) : Marked x s.loop := by
  refine (h.loop.doomed x hx).resolve_right (fun hd => ?_)
  cases hq : s.loop.phase with
  | batch y mask stage rest => simp [hq, handling] at hp
  | _ => simp [hq, failing] at hd

theorem Underway.settled {s₀ s : MainLoop} (h : Underway s₀ s)
    (hg : s.running = false ∨ s.loop.phase = .poll) : Settled s₀ s := by
  have hgone : ∀ x, s.loop.delList = [] → Marked x s.loop →
      x ∈ s.loop.log.map Destruction.event := by
    intro x hd hm
    exact hm.resolve_left (by simp [hd])
  cases hr : s.running with
  | true =>
    have hpoll := hg.resolve_left (by simp [hr])
    have hdel := h.loop.emptied hpoll
    refine .inl ⟨.inl ⟨hr, hpoll⟩, hdel, fun x hx => hgone x hdel (h.marked ?_ hx)⟩
    rw [hpoll]
    rfl
  | false =>
    obtain ⟨hret, hphase, hdel⟩ | ⟨hret, hphase, hstop⟩ := h.left hr
    · refine .inl ⟨.inr ⟨hr, hret⟩, hdel, fun x hx => hgone x hdel (h.marked ?_ hx)⟩
      rw [hphase]
      rfl
    · refine .inr ⟨⟨hr, hret⟩, hstop, fun x hx => h.marked ?_ hx⟩
      rw [hphase]
      rfl

/-- Left alone, `run` comes to `epoll_wait` or returns, whatever the system answers, if it meets no
event that has been destroyed and does not abort. Then every event is destroyed that was in
`del_list`, or of which the batch at hand had an error to report, unless `stop` makes `run` return
at the end of the batch. -/
theorem doomed_destroyed (inputs : List Input) (s : MainLoop)
    (h : General.run step (.ret new) inputs = .ret s) (hr : s.running = true)
    (hp : s.loop.phase ≠ .poll) (answers : Nat → Bool × Option Nat) :
    ∃ n, (General.run turn (.ret s) ((List.range n).map answers)).Split (Settled s)
      (fun _ => True) := by
  have hnew : (Exec.ret new).Split (fun s : MainLoop => Filed s.loop) (fun _ => True) := filed_new
  have hfiled := run_invariant_all (Exec.Split (fun s : MainLoop => Filed s.loop) (fun _ => True))
    (fun _ i he => filed_step he i) hnew inputs
  rw [h] at hfiled
  let Inv : Exec MainLoop → Prop := fun e => e.Split (Underway s) (fun _ => True)
  let Goal : Exec MainLoop → Prop := fun e =>
    e.Split (fun s => s.running = false ∨ s.loop.phase = .poll) (fun _ => True)
  have hstep : ∀ e a, Inv e → ¬ Goal e →
      Inv (turn e a) ∧
        (Goal (turn e a) ∨ (turn e a).state.loop.weight < e.state.loop.weight) := by
    intro e a he hg
    cases e with
    | ret s' =>
      have hrun : s'.running = true := by
        by_contra hn
        exact hg (.inl (by simpa using hn))
      have hturn := Underway.turn he hrun (fun hpoll => hg (.inr hpoll)) a
      cases ht : turn (.ret s') a with
      | ret s'' =>
        rw [ht] at hturn
        exact ⟨hturn.1, hturn.2.imp_left .inl⟩
      | hang s'' => exact ⟨trivial, .inl trivial⟩
      | undef s'' => exact ⟨trivial, .inl trivial⟩
    | hang s' => exact absurd trivial hg
    | undef s' => exact absurd trivial hg
  have hloop : EvLoop.Underway s.loop s.loop := ⟨hfiled, fun hn => absurd hn hp, fun _ => id⟩
  have hstart : Inv (.ret s) := ⟨hloop, rfl, rfl, id, fun hn => by simp [hr] at hn⟩
  obtain ⟨n, hinv, hgoal⟩ :=
    run_descends (fun e => e.state.loop.weight) Inv Goal hstep hstart answers
  exact ⟨n, (hinv.and hgoal).mono (fun s' hs => hs.1.settled hs.2) (fun _ _ => trivial)⟩

/-- One event is closed, and another one has an error behind it in the batch. Then `run` returns,
or has been stopped and leaves the two in `del_list`. -/
theorem doomed_destroyed_both :
    let inputs : List Input := [.loop (.create 7 true true), .loop (.create 8 true true),
      .loop (.install 0 none), .loop (.install 1 none), .run, .loop (.next true none),
      .loop (.next true none),
      .loop (.poll [(0, ⟨true, false, false, false, false⟩),
        (1, ⟨false, true, false, true, false⟩)]),
      .loop (.request 0 (.close true) (some 0))]
    let s := (General.run step (.ret new) inputs).state
    let s' := { s with ret := 5, cnt := false }
    let turns := List.replicate 11 (true, some 3)
    ((Doomed 0 s.loop ∧ Doomed 1 s.loop) ∧
      ∃ n, (General.run turn (.ret s) ((List.range n).map (fun _ => (true, some 3)))).Split
        (Settled s) (fun _ => True)) ∧
    (General.run turn (.ret s) turns).state.returned = some (.idle, 0) ∧
    (General.run turn (.ret s') turns).state.returned = some (.stopped, 5) := by
  intro inputs s s' turns
  have h : General.run step (.ret new) inputs = .ret s := rfl
  have hclosed : Doomed 0 s.loop := .inl (.inl (by decide))
  have hfailing : Doomed 1 s.loop := .inr (by decide)
  exact ⟨⟨⟨hclosed, hfailing⟩, doomed_destroyed inputs s h rfl (by decide) _⟩, by decide, by decide⟩

end Evel.MainLoop
