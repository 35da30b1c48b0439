import Evel.Model.EvLoop

namespace Evel.EvLoop
open General Loop

/-- What user code leaves alone: the place of the loop, and the lives of the events. -/
structure Apart (s s' : EvLoop) : Prop where
  phase : s'.phase = s.phase
  log : s'.log = s.log
  alive : ∀ y, s.alive y = true → s'.alive y = true

theorem Apart.refl (s : EvLoop) : Apart s s := ⟨rfl, rfl, fun _ => id⟩

theorem Apart.trans (h : Apart s s') (h' : Apart s' s'') : Apart s s'' :=
  ⟨h'.phase.trans h.phase, h'.log.trans h.log, fun y hy => h'.alive y (h.alive y hy)⟩

theorem apart_create (k : Kind) (e : Event) (s : EvLoop) : Apart s (s.create k e) := by
  refine ⟨rfl, rfl, fun y hy => ?_⟩
  by_cases hn : y = s.nextId <;> simp [EvLoop.create, hn, hy]

theorem apart_checkWaitOut (s : EvLoop) : Apart s s.checkWaitOut := by
  rw [checkWaitOut]
  split
  · exact .refl s
  · exact (apart_create .waitOut { Event.new 3 true with evLoop := true } s).trans
      ⟨rfl, rfl, fun _ => id⟩

theorem apart_register (x : EventId) (t : Event.DelTarget) (s : EvLoop) :
    Apart s (s.register x t) := by
  cases t with
  | waitOutList =>
    simp only [register]
    refine Apart.trans ?_ (apart_checkWaitOut _)
    split <;> exact ⟨rfl, rfl, fun _ => id⟩
  | delList =>
    simp only [register]
    split <;> exact ⟨rfl, rfl, fun _ => id⟩
  | delOnInstall => exact ⟨rfl, rfl, fun _ => id⟩

theorem apart_request (x : EventId) (r : Request) (outq : Option Nat) (s : EvLoop) :
    Apart s (s.request x r outq) := by
  simp only [request]
  split
  · exact ⟨rfl, rfl, fun _ => id⟩
  · have h : Apart s (s.setEvent x ((s.events x).flags r).1) := ⟨rfl, rfl, fun _ => id⟩
    exact h.trans (apart_register _ _ _)

theorem apart_install (x : EventId) (outq : Option Nat) (s : EvLoop) :
    Apart s (s.install x outq) := by
  simp only [install]
  split
  · exact .refl s
  · have h : Apart s (s.setEvent x { s.events x with evLoop := true }) := ⟨rfl, rfl, fun _ => id⟩
    split
    · exact h.trans (apart_request x .del outq _)
    · exact h

theorem apart_regWork (x : EventId) (s : EvLoop) : Apart s (s.regWork x) := by
  simp only [regWork]
  split_ifs <;> exact ⟨rfl, rfl, fun _ => id⟩

theorem apart_addWork (x : EventId) (s : EvLoop) : Apart s (s.addWork x) := by
  simp only [addWork]
  split <;> exact ⟨rfl, rfl, fun _ => id⟩

/-- The inputs of user code. -/
def Input.user : Input → Bool
  | .poll _ | .next _ _ => false
  | _ => true

/-- User code runs to its end, and away from the loop. -/
theorem apply_user (s : EvLoop) (hi : Input.user i = true) :
    ∃ s', s.apply i = .ret s' ∧ Apart s s' := by
  cases i with
  | create fd needWait mayHaveOut => exact ⟨_, rfl, apart_create _ _ s⟩
  | install x outq =>
    refine ⟨_, rfl, ?_⟩
    split
    · exact apart_install x outq s
    · exact .refl s
  | request x r outq =>
    refine ⟨_, rfl, ?_⟩
    split
    · exact apart_request x r outq s
    · exact .refl s
  | regWork x =>
    refine ⟨_, rfl, ?_⟩
    split
    · exact apart_regWork x s
    · exact .refl s
  | addWork x =>
    refine ⟨_, rfl, ?_⟩
    split
    · exact apart_addWork x s
    · exact .refl s
  | poll batch => cases hi
  | next outAreSent outq => cases hi

/-- The events that have a notification of the batch in hand or still to be handled. -/
def notified : Phase → List EventId
  | .batch x _ _ rest => x :: rest.map Prod.fst
  | _ => []

/-- The event that the next turn of `WaitOut::timeout` destroys. -/
def expires (outq : Option Nat) (s : EvLoop) : Option EventId :=
  match s.phase, s.chain with
  | .batch w _ .tick _, x :: _ =>
    if s.alive w && s.alive x && decide (pendingOut outq (s.events x) = 0) then some x else none
  | _, _ => none

/-- A step in a batch that destroys nothing. -/
structure Onward (s s' : EvLoop) : Prop where
  phase : s'.phase ≠ .dels
  notified : ∀ y ∈ notified s'.phase, y ∈ notified s.phase
  log : s'.log = s.log
  alive : ∀ y, s.alive y = true → s'.alive y = true

theorem Apart.onward (h : Apart s s') (hp : p ≠ .dels)
    (hn : ∀ y ∈ EvLoop.notified p, y ∈ EvLoop.notified s.phase) : Onward s (s'.goto p) :=
  ⟨hp, hn, h.log, h.alive⟩

theorem Apart.advance (h : Apart s s')
    (hn : ∀ y ∈ batch.map Prod.fst, y ∈ EvLoop.notified s.phase) :
    Onward s (s'.advance batch) := by
  cases batch with
  | nil => exact h.onward nofun nofun
  | cons p rest => exact h.onward nofun hn

/-- A request of the loop to the event at hand. -/
theorem apart_notify (b : Bool) (x : EventId) (r : Request) (outq : Option Nat) (s : EvLoop) :
    Apart s (if b then s.request x r outq else s) := by
  cases b with
  | true => exact apart_request x r outq s
  | false => exact .refl s

/-- A turn of `WaitOut::timeout` goes on, destroys an event, or meets a destroyed one. -/
theorem tick_cases (hp : s.phase = .batch w mask .tick rest) (ha : s.alive w = true)
    (outq : Option Nat) :
    (∃ s', s.tick w outq (.batch w mask .rdHup rest) = .ret s' ∧ Onward s s' ∧
        s.expires outq = none) ∨
      (∃ y, s.expires outq = some y ∧ s.tick w outq (.batch w mask .rdHup rest) =
        .ret ({ s with chain := s.chain.tail }.destroy y)) ∨
      (s.tick w outq (.batch w mask .rdHup rest) = .undef s ∧ s.expires outq = none) := by
  have hself : s.phase ≠ .dels := by simp [hp]
  unfold tick
  cases hc : s.chain with
  | cons x xs =>
    cases hx : s.alive x with
    | false =>
      exact .inr (.inr ⟨if_neg (by simp [hx]), by simp [expires, hp, hc, hx]⟩)
    | true =>
      simp only [hx, if_true]
      by_cases hpend : pendingOut outq (s.events x) = 0
      · refine .inr (.inl ⟨x, by simp [expires, hp, hc, ha, hx, hpend], ?_⟩)
        simp [hpend]
      · refine .inl ⟨_, if_pos hpend, ?_, by simp [expires, hp, hc, hpend]⟩
        exact ⟨hself, fun _ => id, rfl, fun _ => id⟩
  | nil =>
    have hn : s.expires outq = none := by simp [expires, hp, hc]
    dsimp only
    split
    · refine .inl ⟨_, rfl, ?_, hn⟩
      have h := apart_request w (.close true) none
        { s with
          waitOutList := s.renewed ++ s.waitOutList
          chain := []
          renewed := []
          waitOutTimer := none }
      exact ⟨nofun, by simp [goto, notified, hp], h.log, h.alive⟩
    · exact .inl ⟨_, rfl, ⟨nofun, by simp [goto, notified, hp], rfl, fun _ => id⟩, hn⟩

/-- What a step in a batch can do. -/
theorem next_batch (hp : s.phase = .batch x mask stage rest) (ha : s.alive x = true)
    (outAreSent : Bool) (outq : Option Nat) :
    (∃ s', s.next outAreSent outq = .ret s' ∧ Onward s s' ∧ s.expires outq = none) ∨
      (∃ y, s.expires outq = some y ∧
        s.next outAreSent outq = .ret ({ s with chain := s.chain.tail }.destroy y)) ∨
      (s.next outAreSent outq = .undef s ∧ s.expires outq = none) := by
  have hrest : ∀ y ∈ rest.map Prod.fst, y ∈ notified s.phase := by
    intro y hy
    simp [hp, notified, List.mem_map.mp hy]
  have hsame : ∀ stage', ∀ y ∈ notified (.batch x mask stage' rest), y ∈ notified s.phase := by
    simp [hp, notified]
  have hnext : s.next outAreSent outq = s.handle x mask stage rest outAreSent outq := by
    simp [next, hp, ha]
  rw [hnext]
  cases stage with
  | tick => exact tick_cases hp ha outq
  | want =>
    refine .inl ⟨_, rfl, ?_, by simp [expires, hp]⟩
    split
    · exact (Apart.refl s).advance hrest
    · exact (Apart.refl s).onward nofun (hsame _)
  | out =>
    exact .inl ⟨_, rfl, (apart_notify _ x .del outq s).onward nofun (hsame _),
      by simp [expires, hp]⟩
  | inp =>
    refine .inl ?_
    simp only [handle]
    split
    · exact ⟨_, rfl, ⟨nofun, hsame _, rfl, fun _ => id⟩, by simp [expires, hp]⟩
    · exact ⟨_, rfl, (Apart.refl s).onward nofun (hsame _), by simp [expires, hp]⟩
  | rdHup =>
    exact .inl ⟨_, rfl, (apart_notify _ x .fail outq s).onward nofun (hsame _),
      by simp [expires, hp]⟩
  | hup =>
    exact .inl ⟨_, rfl, (apart_notify _ x .fail outq s).onward nofun (hsame _),
      by simp [expires, hp]⟩
  | err =>
    exact .inl ⟨_, rfl, (apart_notify _ x .fail outq s).advance hrest, by simp [expires, hp]⟩

end Evel.EvLoop
