import Mathlib.Data.List.Basic
import Mathlib.Order.RelClasses

namespace Evel.General

/-- The state a deterministic machine reaches on a list of inputs. -/
def run (step : σ → ι → σ) (s : σ) (is : List ι) : σ := is.foldl step s

/-- Every input satisfies `P` in the state that receives it. -/
def Along (step : σ → ι → σ) (P : σ → ι → Prop) : σ → List ι → Prop
  | _, [] => True
  | s, i :: is => P s i ∧ Along step P (step s i) is

instance Along.decidable (step : σ → ι → σ) (P : σ → ι → Prop) [∀ s i, Decidable (P s i)] :
    (s : σ) → (is : List ι) → Decidable (Along step P s is)
  | _, [] => .isTrue trivial
  | s, i :: is =>
    have := Along.decidable step P (step s i) is
    inferInstanceAs (Decidable (P s i ∧ Along step P (step s i) is))

@[simp] theorem run_nil (step : σ → ι → σ) (s : σ) : run step s [] = s := rfl

@[simp] theorem run_cons (step : σ → ι → σ) (s : σ) (i : ι) (is : List ι) :
    run step s (i :: is) = run step (step s i) is := rfl

theorem run_append (step : σ → ι → σ) (s : σ) (is js : List ι) :
    run step s (is ++ js) = run step (run step s is) js :=
  List.foldl_append

theorem run_snoc (step : σ → ι → σ) (s : σ) (is : List ι) (i : ι) :
    run step s (is ++ [i]) = step (run step s is) i :=
  run_append step s is [i]

/-- Every input satisfies `P` after the inputs before it. -/
def AlongPast (P : List ι → ι → Prop) : List ι → List ι → Prop
  | _, [] => True
  | past, i :: is => P past i ∧ AlongPast P (past ++ [i]) is

/-- The run rule: what every admitted step preserves holds after every admitted run. -/
theorem run_invariant {step : σ → ι → σ} {P : σ → ι → Prop} (Inv : σ → Prop)
    (hstep : ∀ s i, Inv s → P s i → Inv (step s i))
    (hs : Inv s) (ha : Along step P s is) : Inv (run step s is) := by
  induction is generalizing s with
  | nil => exact hs
  | cons i is ih => exact ih (hstep s i hs ha.1) ha.2

/-- The run rule where every step is admitted. -/
theorem run_invariant_all {step : σ → ι → σ} (Inv : σ → Prop)
    (hstep : ∀ s i, Inv s → Inv (step s i)) (hs : Inv s) (is : List ι) : Inv (run step s is) :=
  List.foldlRecOn is step hs (fun s hs i _ => hstep s i hs)

/-- The run rule for an invariant that speaks of the inputs so far. -/
theorem run_history {step : σ → ι → σ} {P : σ → ι → Prop} (Inv : List ι → σ → Prop)
    (hstep : ∀ past s i, Inv past s → P s i → Inv (past ++ [i]) (step s i))
    (hs : Inv past s) (ha : Along step P s is) : Inv (past ++ is) (run step s is) := by
  induction is generalizing past s with
  | nil => rwa [List.append_nil]
  | cons i is ih =>
    have h := ih (hstep past s i hs ha.1) ha.2
    rwa [List.append_assoc] at h

/-- The run rule where the condition on a step speaks of the inputs so far too. -/
theorem alongPast_invariant {P : List ι → ι → Prop} (Inv : List ι → Prop)
    (hstep : ∀ past i, Inv past → P past i → Inv (past ++ [i]))
    (hs : Inv past) (ha : AlongPast P past is) : Inv (past ++ is) := by
  induction is generalizing past with
  | nil => rwa [List.append_nil]
  | cons i is ih =>
    have h := ih (hstep past i hs ha.1) ha.2
    rwa [List.append_assoc] at h

/-- The rule for progress: where every step descends or comes to the goal, the goal is reached,
whatever the inputs. -/
theorem run_descends {step : σ → ι → σ} [LT α] [WellFoundedLT α] (weight : σ → α)
    (Inv Goal : σ → Prop)
    (hstep : ∀ s i, Inv s → ¬ Goal s →
      Inv (step s i) ∧ (Goal (step s i) ∨ weight (step s i) < weight s))
    (hs : Inv s) (inputs : Nat → ι) :
    ∃ n, Inv (run step s ((List.range n).map inputs)) ∧
      Goal (run step s ((List.range n).map inputs)) := by
  induction hw : weight s using WellFoundedLT.induction generalizing s inputs with
  | ind w ih =>
    by_cases hg : Goal s
    · exact ⟨0, hs, hg⟩
    · obtain ⟨hinv, hgoal | hlt⟩ := hstep s (inputs 0) hs hg
      · exact ⟨1, hinv, hgoal⟩
      · obtain ⟨n, hn⟩ := ih _ (hw ▸ hlt) hinv (fun n => inputs (n + 1)) rfl
        refine ⟨n + 1, ?_⟩
        rwa [List.range_succ_eq_map, List.map_cons, List.map_map, run_cons]

/-- Two machines that take the same inputs: what relates their states after each admitted step
relates them after every admitted run. -/
theorem run_simulation {step : σ → ι → σ} {step' : τ → ι → τ} {P : τ → ι → Prop}
    (R : σ → τ → Prop) (hstep : ∀ s t i, R s t → P t i → R (step s i) (step' t i))
    (hs : R s t) (ha : Along step' P t is) : R (run step s is) (run step' t is) := by
  induction is generalizing s t with
  | nil => exact hs
  | cons i is ih => exact ih (hstep s t i hs ha.1) ha.2

/-- A machine may come from one state to the other. -/
def Reaches (step : σ → ι → σ) (s s' : σ) : Prop := ∃ is, run step s is = s'

theorem Reaches.refl (step : σ → ι → σ) (s : σ) : Reaches step s s := ⟨[], rfl⟩

theorem Reaches.trans {step : σ → ι → σ} (h : Reaches step s s') (h' : Reaches step s' s'') :
    Reaches step s s'' := by
  obtain ⟨is, rfl⟩ := h
  obtain ⟨js, rfl⟩ := h'
  exact ⟨is ++ js, run_append step s is js⟩

/-- One machine does in some steps, maybe none, what the other does in one: then it does what the
other does in a run. -/
theorem run_matched {step : σ → ι → σ} {step' : τ → κ → τ} (R : σ → τ → Prop)
    (hstep : ∀ s t i, R s t → ∃ t', Reaches step' t t' ∧ R (step s i) t') (hs : R s t)
    (is : List ι) : ∃ t', Reaches step' t t' ∧ R (run step s is) t' := by
  induction is generalizing s t with
  | nil => exact ⟨t, .refl step' t, hs⟩
  | cons i is ih =>
    obtain ⟨t', ht, hr⟩ := hstep s t i hs
    obtain ⟨t'', ht', hr'⟩ := ih hr
    exact ⟨t'', ht.trans ht', hr'⟩

theorem along_of_mem {step : σ → ι → σ} {P : σ → ι → Prop} (h : ∀ i ∈ is, ∀ s, P s i) (s : σ) :
    Along step P s is := by
  induction is generalizing s with
  | nil => trivial
  | cons i is ih =>
    exact ⟨h i List.mem_cons_self s, ih (fun j hj => h j (List.mem_cons_of_mem i hj)) _⟩

theorem Along.and {step : σ → ι → σ} {P Q : σ → ι → Prop} (hp : Along step P s is)
    (hq : Along step Q s is) : Along step (fun s i => P s i ∧ Q s i) s is := by
  induction is generalizing s with
  | nil => trivial
  | cons i is ih => exact ⟨⟨hp.1, hq.1⟩, ih hp.2 hq.2⟩

/-- What the invariant implies of every admitted step holds along every admitted run. -/
theorem Along.imp {step : σ → ι → σ} {P Q : σ → ι → Prop} (Inv : σ → Prop)
    (hstep : ∀ s i, Inv s → P s i → Inv (step s i)) (hq : ∀ s i, Inv s → P s i → Q s i)
    (hs : Inv s) (ha : Along step P s is) : Along step Q s is := by
  induction is generalizing s with
  | nil => trivial
  | cons i is ih => exact ⟨hq s i hs ha.1, ih (hstep s i hs ha.1) ha.2⟩

/-- Two conditions on steps that agree where the invariant holds admit the same runs. -/
theorem along_congr {step : σ → ι → σ} {P P' : σ → ι → Prop} (Inv : σ → List ι → Prop)
    (hiff : ∀ s i is, Inv s (i :: is) → (P s i ↔ P' s i))
    (hkeep : ∀ s i is, Inv s (i :: is) → P' s i → Inv (step s i) is) (hs : Inv s is) :
    Along step P s is ↔ Along step P' s is := by
  induction is generalizing s with
  | nil => exact Iff.rfl
  | cons i is ih =>
    refine and_congr_left' (hiff s i is hs) |>.trans (and_congr_right fun hp => ?_)
    exact ih (hkeep s i is hs hp)

/-- If a step shows `Q` exactly when it is admitted, and admitted steps keep the invariant, then
`Q` holds in every state of a run exactly when the whole run is admitted. The invariant may count
on what is still to come. -/
theorem along_budget_iff {step : σ → ι → σ} {P : σ → ι → Prop} (Inv : σ → List ι → Prop)
    (Q : σ → Prop) (hstep : ∀ s i is, Inv s (i :: is) → (Q (step s i) ↔ P s i))
    (hkeep : ∀ s i is, Inv s (i :: is) → P s i → Inv (step s i) is) (hs : Inv s is) (hq : Q s) :
    (∀ n, Q (run step s (is.take n))) ↔ Along step P s is := by
  induction is generalizing s with
  | nil => simpa [Along] using hq
  | cons i is ih =>
    have hi := hstep s i is hs
    have hk := hkeep s i is hs
    constructor
    · intro h
      have h1 : Q (step s i) := by simpa using h 1
      have hp := hi.mp h1
      exact ⟨hp, (ih (hk hp) h1).mp (fun n => by simpa using h (n + 1))⟩
    · intro h n
      cases n with
      | zero => simpa using hq
      | succ n => simpa using (ih (hk h.1) (hi.mpr h.1)).mpr h.2 n

/-- The rule where what is still to come does not matter. -/
theorem along_observed_iff {step : σ → ι → σ} {P : σ → ι → Prop} (Inv Q : σ → Prop)
    (hstep : ∀ s i, Inv s → i ∈ is → (Q (step s i) ↔ P s i))
    (hkeep : ∀ s i, Inv s → i ∈ is → P s i → Inv (step s i)) (hs : Inv s) (hq : Q s) :
    (∀ n, Q (run step s (is.take n))) ↔ Along step P s is :=
  along_budget_iff (fun s js => Inv s ∧ ∀ i ∈ js, i ∈ is) Q
    (fun s i _ h => hstep s i h.1 (h.2 i List.mem_cons_self))
    (fun s i _ h hp => ⟨hkeep s i h.1 (h.2 i List.mem_cons_self) hp,
      fun j hj => h.2 j (List.mem_cons_of_mem _ hj)⟩)
    ⟨hs, fun _ h => h⟩ hq

/-- If a step keeps the invariant exactly when it is admitted, then the invariant holds in
every state of a run exactly when the whole run is admitted. -/
theorem along_iff {step : σ → ι → σ} {P : σ → ι → Prop} (Inv : σ → Prop)
    (hstep : ∀ s i, Inv s → i ∈ is → (Inv (step s i) ↔ P s i)) (hs : Inv s) :
    (∀ n, Inv (run step s (is.take n))) ↔ Along step P s is :=
  along_observed_iff Inv Inv hstep (fun s i hi hm hp => (hstep s i hi hm).mpr hp) hs hs

end Evel.General
