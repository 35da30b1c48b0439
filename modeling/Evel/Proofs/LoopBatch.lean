import Evel.General.Runs
import Evel.Proofs.LoopFrame

namespace Evel.EvLoop
open General Loop

/-- No notification that the loop is still to handle is of a destroyed event. -/
def NoStale (s : EvLoop) : Prop := ∀ x ∈ notified s.phase, s.alive x = true

instance : DecidablePred NoStale := fun s =>
  inferInstanceAs (Decidable (∀ x ∈ notified s.phase, s.alive x = true))

/-- The event that the next step destroys without `del_list`. -/
def expiresAt (e : Exec EvLoop) (i : Input) : Option EventId :=
  match e, i with
  | .ret s, .next _ outq => s.expires outq
  | _, _ => none

/-- `WaitOut::timeout` destroys no event that the batch still refers to. -/
def Spares (e : Exec EvLoop) (i : Input) : Prop :=
  ∀ x ∈ expiresAt e i, x ∉ notified e.state.phase

/-- Only `run` destroys, and only what it takes from `del_list`. -/
def ThroughDelList (e : Exec EvLoop) (i : Input) : Prop :=
  e.state.phase ≠ .dels → (step e i).state.log = e.state.log

instance (e : Exec EvLoop) (i : Input) : Decidable (ThroughDelList e i) :=
  inferInstanceAs (Decidable (e.state.phase ≠ .dels → (step e i).state.log = e.state.log))

theorem NoStale.apart (h : NoStale s) (ha : Apart s s') : NoStale s' := by
  intro x hx
  rw [ha.phase] at hx
  exact ha.alive x (h x hx)

theorem noStale_idle (hp : notified s.phase = []) : NoStale s := by
  simp [NoStale, hp]

theorem NoStale.onward (h : NoStale s) (ho : Onward s s') : NoStale s' :=
  fun x hx => ho.alive x (h x (ho.notified x hx))

/-- The loop between two batches holds no notification. -/
theorem next_unnotified {s : EvLoop} (hn : notified s.phase = []) (outAreSent : Bool)
    (outq : Option Nat) :
    NoStale (s.next outAreSent outq).state ∧ s.expires outq = none := by
  rw [next]
  cases hp : s.phase with
  | work =>
    refine ⟨noStale_idle ?_, by simp [expires, hp]⟩
    dsimp only
    split
    · rfl
    · split
      · rfl
      · exact hn
  | dels =>
    refine ⟨noStale_idle ?_, by simp [expires, hp]⟩
    dsimp only
    split
    · rfl
    · split
      · rfl
      · exact hn
  | poll => exact ⟨noStale_idle hn, by simp [expires, hp]⟩
  | batch x mask stage rest => simp [hp, notified] at hn

theorem noStale_poll (h : NoStale s) (batch : List (EventId × Mask)) :
    NoStale (s.apply (.poll batch)).state := by
  simp only [apply, Exec.state]
  split
  · next hb =>
    cases batch with
    | nil => exact noStale_idle rfl
    | cons p rest =>
      intro x hx
      have hx : x = p.1 ∨ ∃ q ∈ rest, q.1 = x := by simpa [advance, goto, notified] using hx
      rcases hx with rfl | ⟨q, hq, rfl⟩
      · exact (hb.2 p (by simp)).1
      · exact (hb.2 q (by simp [hq])).1
  · exact h

/-- A destruction in a batch. -/
theorem noStale_destroy (h : NoStale s) (y : EventId) :
    NoStale (s.destroy y) ↔ y ∉ notified s.phase := by
  constructor
  · intro hs hy
    have := hs y hy
    simp [destroy] at this
  · intro hy x hx
    have hne : x ≠ y := fun he => hy (he ▸ hx)
    simpa [destroy, hne] using h x hx

/-- A step leaves a stale notification if and only if it destroys an event of the batch. -/
theorem noStale_step {e : Exec EvLoop} (h : NoStale e.state) (i : Input) :
    NoStale (step e i).state ↔ Spares e i := by
  cases e with
  | hang s => exact iff_of_true h (by simp [Spares, expiresAt])
  | undef s => exact iff_of_true h (by simp [Spares, expiresAt])
  | ret s =>
    by_cases hi : Input.user i = true
    · obtain ⟨s', hs, ha⟩ := apply_user s hi
      refine iff_of_true ?_ ?_
      · rw [show step (.ret s) i = s.apply i from rfl, hs]
        exact NoStale.apart h ha
      · cases i <;> simp [Spares, expiresAt, Input.user] at hi ⊢
    · cases i with
      | poll batch => exact iff_of_true (noStale_poll h batch) (by simp [Spares, expiresAt])
      | next outAreSent outq =>
        change NoStale (s.next outAreSent outq).state ↔
          ∀ x ∈ s.expires outq, x ∉ notified s.phase
        by_cases hn : notified s.phase = []
        · obtain ⟨hs, he⟩ := next_unnotified hn outAreSent outq
          exact iff_of_true hs (by simp [he])
        · cases hp : s.phase with
          | batch x mask stage rest =>
            have ha : s.alive x = true := h x (by simp [Exec.state, hp, notified])
            rw [← hp]
            obtain ⟨s', hs, ho, he⟩ | ⟨y, he, hs⟩ | ⟨hs, he⟩ :=
              next_batch hp ha outAreSent outq
            · rw [hs]
              exact iff_of_true (NoStale.onward h ho) (by simp [he])
            · have hd := noStale_destroy (s := { s with chain := s.chain.tail }) h y
              rw [hs, he]
              exact hd.trans ⟨fun hy x hx => Option.mem_some.mp hx ▸ hy, fun hy => hy y rfl⟩
            · rw [hs]
              exact iff_of_true h (by simp [he])
          | _ => simp [hp, notified] at hn
      | _ => simp [Input.user] at hi

/-- Outside the deletions of `run` a step destroys what `WaitOut::timeout` destroys. -/
theorem throughDelList_iff (e : Exec EvLoop) (i : Input) :
    ThroughDelList e i ↔ expiresAt e i = none := by
  cases e with
  | hang s => exact iff_of_true (fun _ => rfl) rfl
  | undef s => exact iff_of_true (fun _ => rfl) rfl
  | ret s =>
    have hstep : step (.ret s) i = s.apply i := rfl
    by_cases hi : Input.user i = true
    · obtain ⟨s', hs, ha⟩ := apply_user s hi
      refine iff_of_true (fun _ => ?_) ?_
      · rw [hstep, hs]
        exact ha.log
      · cases i <;> simp [expiresAt, Input.user] at hi ⊢
    · cases i with
      | poll batch =>
        refine iff_of_true (fun _ => ?_) rfl
        simp only [hstep, apply, Exec.state]
        split
        · cases batch <;> rfl
        · rfl
      | next outAreSent outq =>
        change (s.phase ≠ .dels → (s.next outAreSent outq).state.log = s.log) ↔
          s.expires outq = none
        cases hp : s.phase with
        | work =>
          refine iff_of_true (fun _ => ?_) (by simp [expires, hp])
          simp only [next, hp]
          split
          · rfl
          · split <;> rfl
        | dels => exact iff_of_true (fun hne => absurd rfl hne) (by simp [expires, hp])
        | poll =>
          exact iff_of_true (fun _ => by simp [next, hp, Exec.state]) (by simp [expires, hp])
        | batch x mask stage rest =>
          cases ha : s.alive x with
          | false =>
            refine iff_of_true (fun _ => by simp [next, hp, ha, Exec.state]) ?_
            simp only [expires, hp]
            split <;> simp_all
          | true =>
            obtain ⟨s', hs, ho, he⟩ | ⟨y, he, hs⟩ | ⟨hs, he⟩ := next_batch hp ha outAreSent outq
            · rw [hs]
              exact iff_of_true (fun _ => ho.log) he
            · rw [hs, he]
              refine iff_of_false (fun hl => ?_) (by simp)
              have hlog := hl (by simp)
              simp [Exec.state, destroy] at hlog
            · rw [hs]
              exact iff_of_true (fun _ => rfl) he
      | _ => simp [Input.user] at hi

/-- The batch holds no stale notification if and only if `WaitOut::timeout` destroys no event of
the batch. The loop destroys through `del_list` only if and only if `WaitOut::timeout` destroys
nothing. -/
theorem no_stale_notification_iff (inputs : List Input) :
    ((∀ n, NoStale (run step (.ret new) (inputs.take n)).state) ↔
        Along step Spares (.ret new) inputs) ∧
      (Along step ThroughDelList (.ret new) inputs ↔
        Along step (fun e i => expiresAt e i = none) (.ret new) inputs) := by
  constructor
  · refine along_iff (fun e : Exec EvLoop => NoStale e.state) (fun e i h _ => noStale_step h i) ?_
    exact noStale_idle rfl
  · have h : ThroughDelList = fun e i => expiresAt e i = none :=
      funext fun e => funext fun i => propext (throughDelList_iff e i)
    rw [h]

/-- The timer comes before an event that waits for its output, and whose output has left. -/
theorem stale_notification :
    let inputs : List Input := [.create 7 true true, .install 0 none,
      .request 0 (.close true) (some 5), .next true none, .next true none,
      .poll [(1, ⟨false, true, false, false, false⟩), (0, ⟨false, true, false, false, false⟩)],
      .next true none, .next true none, .next true none, .next true (some 0)]
    ¬ NoStale (run step (.ret new) inputs).state ∧
      ¬ Along step ThroughDelList (.ret new) inputs := by
  decide

end Evel.EvLoop
