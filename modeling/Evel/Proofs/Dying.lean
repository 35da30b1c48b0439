import Evel.General.Runs
import Evel.Proofs.LoopLists

namespace Evel.EvLoop
open General Loop

/-- What a turn of `WaitOut::timeout` asks: the event that it destroys has no work, and the
timer, if it closes, is in no list. -/
def TickProper (w : EventId) (outq : Option Nat) (s : EvLoop) : Prop :=
  (∀ x ∈ s.chain.head?, pendingOut outq (s.events x) = 0 → (s.events x).nextWork = false) ∧
    (s.chain = [] → s.renewed ++ s.waitOutList = [] → Exclusive w (.close true) none s)

theorem Orderly.tick (h : Orderly s) (ha : s.alive w = true) (hp : ticking s.phase = true)
    (hd : done ≠ .dels) (hx : TickProper w outq s) :
    ∃ s', s.tick w outq done = .ret s' ∧ Orderly s' := by
  obtain ⟨hwork, hclose⟩ := hx
  unfold EvLoop.tick
  cases hc : s.chain with
  | cons x xs =>
    have hmem : x ∈ s.waiting := by simp [waiting, hc]
    simp only [((h.wait.mem x).mp hmem).1, if_true]
    by_cases hpend : pendingOut outq (s.events x) = 0
    · exact ⟨_, if_neg (by simp [hpend]), h.expire hp hc (hwork x (by simp [hc]) hpend)⟩
    · exact ⟨_, if_pos hpend, h.renew hp hc⟩
  | nil =>
    have hs := h.prepend hc
    rw [hc] at hs
    dsimp only
    split
    · next he =>
      have hs' : Orderly { s with
          waitOutList := s.renewed ++ s.waitOutList
          chain := []
          renewed := []
          waitOutTimer := none } :=
        ⟨{ hs.toOwned with }, hs.toBuried.keeps (.of_eq rfl rfl rfl)⟩
      have hr := hs'.request ha (hclose hc (List.isEmpty_iff.mp he))
      exact ⟨_, rfl, hr.goto (fun _ => request_chain w (.close true) none _)
        (fun hdone => absurd hdone hd)⟩
    · exact ⟨_, rfl, hs.goto (fun _ => ⟨rfl, rfl⟩) (fun hdone => absurd hdone hd)⟩

/-- What the next step of the loop asks, in the phase it is in. -/
def ProperAt (outAreSent : Bool) (outq : Option Nat) (s : EvLoop) : Phase → Prop
  | .batch x mask .out _ =>
    (mask.out && (s.events x).wantCloseFd && outAreSent) = true → Exclusive x .del outq s
  | .batch x _ .tick _ => TickProper x outq s
  | .batch x mask .rdHup _ => mask.rdHup = true → Exclusive x .fail outq s
  | .batch x mask .hup _ => mask.hup = true → Exclusive x .fail outq s
  | .batch x mask .err _ => mask.err = true → Exclusive x .fail outq s
  | _ => True

/-- What a step asks. A request that registers an event finds it in neither of the two other
lists it must not be in, and while the loop deletes, no event of `del_list` gets work. -/
def Proper (s : EvLoop) : Input → Prop
  | .install x outq => s.alive x = true → (s.events x).evLoop = false →
      (s.events x).delOnInstall = true →
      Exclusive x .del outq (s.setEvent x { s.events x with evLoop := true })
  | .request x r outq => s.alive x = true → Exclusive x r outq s
  | .regWork x | .addWork x => s.alive x = true → s.phase = .dels → (s.events x).nextDel = false
  | .next outAreSent outq => ProperAt outAreSent outq s s.phase
  | _ => True

/-- A request of the loop to the event at hand, and what follows it. -/
theorem Orderly.notify (h : Orderly s) (ha : s.alive x = true)
    (hi : s.chain = [] ∧ s.renewed = []) (hx : b = true → Exclusive x r outq s) :
    Orderly (if b then s.request x r outq else s) ∧
      ((if b then s.request x r outq else s).chain = [] ∧
        (if b then s.request x r outq else s).renewed = []) := by
  cases b with
  | true =>
    have := request_chain x r outq s
    exact ⟨h.request ha (hx rfl), by simp [this, hi]⟩
  | false => exact ⟨h, hi⟩

theorem Orderly.handle (h : Orderly s) (ha : s.alive x = true)
    (hp : s.phase = .batch x mask stage rest) (hx : ProperAt outAreSent outq s s.phase) :
    ∃ s', s.handle x mask stage rest outAreSent outq = .ret s' ∧ Orderly s' := by
  rw [hp] at hx
  cases stage with
  | tick => exact h.tick ha (by rw [hp]; rfl) nofun hx
  | want =>
    have hi := h.idle (by rw [hp]; rfl)
    refine ⟨_, rfl, ?_⟩
    split
    · exact h.advance hi rest
    · exact h.goto (fun _ => hi) nofun
  | out =>
    obtain ⟨hs, hi⟩ := h.notify ha (h.idle (by rw [hp]; rfl)) hx
    exact ⟨_, rfl, hs.goto (fun _ => hi) nofun⟩
  | inp =>
    have hi := h.idle (by rw [hp]; rfl)
    simp only [EvLoop.handle]
    split
    · exact ⟨_, rfl, h.disconnect hi rfl⟩
    · exact ⟨_, rfl, h.goto (fun _ => hi) nofun⟩
  | rdHup =>
    obtain ⟨hs, hi⟩ := h.notify ha (h.idle (by rw [hp]; rfl)) hx
    exact ⟨_, rfl, hs.goto (fun _ => hi) nofun⟩
  | hup =>
    obtain ⟨hs, hi⟩ := h.notify ha (h.idle (by rw [hp]; rfl)) hx
    exact ⟨_, rfl, hs.goto (fun _ => hi) nofun⟩
  | err =>
    obtain ⟨hs, hi⟩ := h.notify ha (h.idle (by rw [hp]; rfl)) hx
    exact ⟨_, rfl, hs.advance hi rest⟩

theorem Orderly.next (h : Orderly s) (hx : ProperAt outAreSent outq s s.phase) :
    (s.next outAreSent outq).Split Orderly Orderly := by
  rw [EvLoop.next]
  cases hp : s.phase with
  | work =>
    have hi := h.idle (by rw [hp]; rfl)
    dsimp only
    split
    · next hw => exact h.goto (fun _ => hi) (fun _ x _ => by simp [hw])
    · next x xs hw =>
      rw [if_pos ((h.work.mem x).mp (by simp [hw])).1]
      have hpop := h.popWork hw (by simp [hp])
      rwa [hp] at hpop
  | dels =>
    have hi := h.idle (by rw [hp]; rfl)
    dsimp only
    split
    · exact h.goto (fun _ => hi) nofun
    · next x xs hd =>
      rw [if_pos ((h.del.mem x).mp (by simp [hd])).1]
      have hpop := h.popDel hd hp
      rwa [hp] at hpop
  | poll => exact h
  | batch x mask stage rest =>
    dsimp only
    split
    · next ha =>
      obtain ⟨s', hs, ho⟩ := h.handle ha hp hx
      rw [hs]
      exact ho
    · exact h

theorem Orderly.apply (h : Orderly s) {i : Input} (hx : Proper s i) :
    (s.apply i).Split Orderly Orderly := by
  cases i with
  | create fd needWait mayHaveOut =>
    exact ⟨h.toOwned.create _ _ rfl rfl rfl, h.toBuried.keeps (keeps_create _ _ s)⟩
  | install x outq =>
    simp only [EvLoop.apply]
    split
    · next ha => exact h.install ha (hx ha)
    · exact h
  | request x r outq =>
    simp only [EvLoop.apply]
    split
    · next ha => exact h.request ha (hx ha)
    · exact h
  | regWork x =>
    simp only [EvLoop.apply]
    split
    · next ha => exact h.regWork ha (hx ha)
    · exact h
  | addWork x =>
    simp only [EvLoop.apply]
    split
    · next ha => exact h.addWork ha (hx ha)
    · exact h
  | poll batch =>
    simp only [EvLoop.apply]
    split
    · next hb => exact h.advance (h.idle (by rw [hb.1]; rfl)) batch
    · exact h
  | next outAreSent outq => exact h.next hx

instance (outAreSent : Bool) (outq : Option Nat) (s : EvLoop) :
    (p : Phase) → Decidable (ProperAt outAreSent outq s p)
  | .work | .dels | .poll | .batch _ _ .want _ | .batch _ _ .inp _ => .isTrue trivial
  | .batch x mask .out _ => inferInstanceAs (Decidable
      ((mask.out && (s.events x).wantCloseFd && outAreSent) = true → Exclusive x .del outq s))
  | .batch x _ .tick _ => inferInstanceAs (Decidable
      ((∀ x ∈ s.chain.head?, pendingOut outq (s.events x) = 0 → (s.events x).nextWork = false) ∧
        (s.chain = [] → s.renewed ++ s.waitOutList = [] → Exclusive x (.close true) none s)))
  | .batch x mask .rdHup _ =>
    inferInstanceAs (Decidable (mask.rdHup = true → Exclusive x .fail outq s))
  | .batch x mask .hup _ => inferInstanceAs (Decidable (mask.hup = true → Exclusive x .fail outq s))
  | .batch x mask .err _ => inferInstanceAs (Decidable (mask.err = true → Exclusive x .fail outq s))

instance (s : EvLoop) : DecidablePred (Proper s)
  | .create _ _ _ | .poll _ => .isTrue trivial
  | .install x outq => inferInstanceAs (Decidable (s.alive x = true →
      (s.events x).evLoop = false → (s.events x).delOnInstall = true →
      Exclusive x .del outq (s.setEvent x { s.events x with evLoop := true })))
  | .request x r outq => inferInstanceAs (Decidable (s.alive x = true → Exclusive x r outq s))
  | .regWork x | .addWork x => inferInstanceAs (Decidable
      (s.alive x = true → s.phase = .dels → (s.events x).nextDel = false))
  | .next outAreSent outq => inferInstanceAs (Decidable (ProperAt outAreSent outq s s.phase))

end Evel.EvLoop
