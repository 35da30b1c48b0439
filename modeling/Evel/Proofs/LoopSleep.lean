import Evel.General.Runs
import Evel.Proofs.LoopFrame

namespace Evel.EvLoop
open General Loop

/-- `run` goes to `epoll_wait`, or leaves the loop because nothing waits. -/
def sleeps (s : EvLoop) : Input → Bool
  | .next _ _ => s.phase = .dels && s.delList.isEmpty
  | _ => false

/-- The input pushes an event to `work_list`. -/
def pushesWork (s : EvLoop) : Input → Bool
  | .regWork x => s.alive x && (s.events x).evLoop && !(s.events x).nextWork
  | .addWork x => s.alive x && !(s.events x).nextWork
  | _ => false

/-- The loop sleeps with empty lists. -/
def SleepsIdle (e : Exec EvLoop) (i : Input) : Prop :=
  match e with
  | .ret s => sleeps s i = true → s.workList = [] ∧ s.delList = []
  | _ => True

instance : (e : Exec EvLoop) → (i : Input) → Decidable (SleepsIdle e i)
  | .ret s, i => inferInstanceAs (Decidable (sleeps s i = true → s.workList = [] ∧ s.delList = []))
  | .hang _, _ | .undef _, _ => .isTrue trivial

/-- No work is registered while `run` deletes. -/
def Restful (e : Exec EvLoop) (i : Input) : Prop :=
  match e with
  | .ret s => s.phase = .dels → pushesWork s i = false
  | _ => True

instance : (e : Exec EvLoop) → (i : Input) → Decidable (Restful e i)
  | .ret s, i => inferInstanceAs (Decidable (s.phase = .dels → pushesWork s i = false))
  | .hang _, _ | .undef _, _ => .isTrue trivial

/-- `run` deletes while there is work. -/
def Late (s : EvLoop) : Prop := s.phase = .dels ∧ s.workList ≠ []

theorem workList_checkWaitOut (s : EvLoop) : s.checkWaitOut.workList = s.workList := by
  rw [checkWaitOut]
  split <;> rfl

theorem workList_request (x : EventId) (r : Request) (outq : Option Nat) (s : EvLoop) :
    (s.request x r outq).workList = s.workList := by
  simp only [request]
  split
  · rfl
  · next t _ =>
    cases t with
    | waitOutList =>
      simp only [register, workList_checkWaitOut]
      split <;> rfl
    | delList =>
      simp only [register]
      split <;> rfl
    | delOnInstall => rfl

theorem workList_install (x : EventId) (outq : Option Nat) (s : EvLoop) :
    (s.install x outq).workList = s.workList := by
  simp only [install]
  split_ifs
  · rfl
  · exact workList_request x .del outq _
  · rfl

/-- User code lengthens the work list if and only if it pushes an event. -/
theorem workList_user (s : EvLoop) (hi : Input.user i = true) :
    if pushesWork s i then (s.apply i).state.workList ≠ []
    else (s.apply i).state.workList = s.workList := by
  cases i with
  | create fd needWait mayHaveOut => simp [pushesWork, apply, Exec.state, EvLoop.create]
  | install x outq =>
    simp only [pushesWork, apply, Exec.state, Bool.false_eq_true, if_false]
    split
    · exact workList_install x outq s
    · rfl
  | request x r outq =>
    simp only [pushesWork, apply, Exec.state, Bool.false_eq_true, if_false]
    split
    · exact workList_request x r outq s
    · rfl
  | regWork x =>
    cases ha : s.alive x <;> cases hl : (s.events x).evLoop <;> cases hk : (s.events x).nextWork <;>
      simp [pushesWork, apply, Exec.state, regWork, setEvent, ha, hl, hk]
  | addWork x =>
    cases ha : s.alive x <;> cases hk : (s.events x).nextWork <;>
      simp [pushesWork, apply, Exec.state, addWork, setEvent, ha, hk]
  | poll batch => cases hi
  | next outAreSent outq => cases hi

/-- Where there is something to delete, `run` goes on deleting. -/
theorem next_dels {s : EvLoop} (hp : s.phase = .dels) (hd : s.delList ≠ []) (outAreSent : Bool)
    (outq : Option Nat) : (s.next outAreSent outq).state.phase = .dels ∧
      (s.next outAreSent outq).state.workList = s.workList := by
  simp only [next, hp]
  split
  · next hn => exact absurd hn hd
  · split
    · exact ⟨rfl, rfl⟩
    · exact ⟨hp, rfl⟩

/-- `run` comes to its deletions without work. -/
theorem next_not_late (h : ¬ Late s) (outAreSent : Bool) (outq : Option Nat) :
    ¬ Late (s.next outAreSent outq).state := by
  cases hp : s.phase with
  | work =>
    simp only [next, hp]
    split
    · next hw => exact fun hl => hl.2 hw
    · split
      · exact fun hl => absurd hl.1 (by simp [Exec.state, EvLoop.setEvent])
      · exact fun hl => absurd (hp.symm.trans hl.1) (by simp)
  | dels =>
    by_cases hd : s.delList = []
    · simp [next, hp, hd, Late, goto, Exec.state]
    · obtain ⟨-, hw⟩ := next_dels hp hd outAreSent outq
      exact fun hl => h ⟨hp, hw ▸ hl.2⟩
  | poll => simpa [next, hp, Exec.state] using h
  | batch x mask stage rest =>
    cases ha : s.alive x with
    | false => simpa [next, hp, ha, Exec.state] using h
    | true =>
      obtain ⟨s', hs, ho, -⟩ | ⟨y, -, hs⟩ | ⟨hs, -⟩ := next_batch hp ha outAreSent outq
      · rw [hs]
        exact fun hl => ho.phase hl.1
      · rw [hs]
        exact fun hl => absurd (hp.symm.trans hl.1) (by simp)
      · rwa [hs]

/-- Work that user code pushes while `run` deletes comes too late. -/
theorem late_user (h : ¬ Late s) (hi : Input.user i = true) :
    Late (s.apply i).state ↔ s.phase = .dels ∧ pushesWork s i = true := by
  obtain ⟨s', hs, ha⟩ := apply_user s hi
  have hw := workList_user s hi
  rw [hs] at hw ⊢
  simp only [Late, Exec.state, ha.phase] at h hw ⊢
  cases hk : pushesWork s i with
  | true => simpa [hk] using fun _ => (by simpa [hk] using hw : s'.workList ≠ [])
  | false =>
    have hw : s'.workList = s.workList := by simpa [hk] using hw
    simpa [hw] using h

theorem phase_poll (s : EvLoop) (batch : List (EventId × Mask)) :
    (s.apply (.poll batch)).state = s ∨ (s.apply (.poll batch)).state.phase ≠ .dels := by
  simp only [apply, Exec.state]
  split
  · exact .inr (by cases batch <;> simp [advance, goto])
  · exact .inl rfl

/-- `run` is late from the step on that pushes work while it deletes. -/
theorem late_step {e : Exec EvLoop} (h : ¬ Late e.state) (i : Input) :
    Late (step e i).state ↔ ¬ Restful e i := by
  cases e with
  | hang s => exact iff_of_false h (by simp [Restful])
  | undef s => exact iff_of_false h (by simp [Restful])
  | ret s =>
    change Late (s.apply i).state ↔ ¬ (s.phase = .dels → pushesWork s i = false)
    by_cases hi : Input.user i = true
    · simpa using late_user (s := s) h hi
    · refine iff_of_false ?_ ?_
      · cases i with
        | poll batch =>
          rcases phase_poll s batch with hs | hs
          · rwa [hs]
          · exact fun hl => hs hl.1
        | next outAreSent outq => exact next_not_late h outAreSent outq
        | _ => simp [Input.user] at hi
      · cases i <;> simp [pushesWork, Input.user] at hi ⊢

/-- It stays so until it sleeps. -/
theorem Late.step {e : Exec EvLoop} (h : Late e.state) {i : Input} (hi : SleepsIdle e i) :
    Late (EvLoop.step e i).state := by
  cases e with
  | hang s => exact h
  | undef s => exact h
  | ret s =>
    change Late (s.apply i).state
    have h : Late s := h
    by_cases hu : Input.user i = true
    · obtain ⟨s', hs, ha⟩ := apply_user s hu
      have hw := workList_user s hu
      rw [hs] at hw ⊢
      refine ⟨ha.phase.trans h.1, ?_⟩
      split at hw
      · exact hw
      · have hw : s'.workList = s.workList := hw
        exact hw ▸ h.2
    · cases i with
      | poll batch => simpa [apply, Exec.state, h.1] using h
      | next outAreSent outq =>
        have hd : s.delList ≠ [] := by
          intro hd
          exact h.2 (hi (by simp [sleeps, h.1, hd])).1
        obtain ⟨hp, hw⟩ := next_dels h.1 hd outAreSent outq
        exact ⟨hp, fun hn => h.2 (hw ▸ hn)⟩
      | _ => simp [Input.user] at hu

theorem late_run {e : Exec EvLoop} (h : Late e.state)
    (ha : Along step SleepsIdle e inputs) : Late (run step e inputs).state :=
  run_invariant (fun e => Late e.state) (fun _ _ h hi => Late.step h hi) h ha

theorem sleepsIdle_of_rested {e : Exec EvLoop} (h : ¬ Late e.state) (i : Input) :
    SleepsIdle e i := by
  cases e with
  | hang s => trivial
  | undef s => trivial
  | ret s =>
    intro hs
    cases i with
    | next outAreSent outq =>
      simp only [sleeps, Bool.and_eq_true, decide_eq_true_eq, List.isEmpty_iff] at hs
      exact ⟨by_contra fun hw => h ⟨hs.1, hw⟩, hs.2⟩
    | _ => simp [sleeps] at hs

/-- Work that is pushed too late is there at the end, or when the loop sleeps. -/
theorem restful_of_sleeps {e : Exec EvLoop} (h : ¬ Late e.state)
    (hp : (run step e inputs).state.phase ≠ .dels) (ha : Along step SleepsIdle e inputs) :
    Along step Restful e inputs := by
  induction inputs generalizing e with
  | nil => trivial
  | cons i is ih =>
    have hstep : ¬ Late (step e i).state := fun hl => hp (late_run hl ha.2).1
    exact ⟨by_contra fun hr => hstep ((late_step h i).mpr hr), ih hstep hp ha.2⟩

/-- The loop sleeps with empty lists if no work is registered while it deletes, and only then in
a run that does not end there. -/
theorem sleeps_idle_iff (inputs : List Input) :
    (Along step Restful (.ret new) inputs → Along step SleepsIdle (.ret new) inputs) ∧
      ((run step (.ret new) inputs).state.phase ≠ .dels →
        Along step SleepsIdle (.ret new) inputs → Along step Restful (.ret new) inputs) := by
  have hnew : ¬ Late new := fun h => h.2 rfl
  constructor
  · refine Along.imp (fun e => ¬ Late e.state) ?_ ?_ hnew
    · exact fun e i h hr hl => (late_step h i).mp hl hr
    · exact fun e i h _ => sleepsIdle_of_rested h i
  · exact fun hp ha => restful_of_sleeps hnew hp ha

/-- The destructor of an event registers work of another one, and the loop sleeps. -/
theorem sleeps_on_work : ¬ Along step SleepsIdle (.ret new)
    [.create 7 true true, .create 8 true true, .install 0 none, .install 1 none,
      .request 0 (.close true) (some 0), .next true none, .next true none, .regWork 1,
      .next true none] := by
  decide

end Evel.EvLoop
