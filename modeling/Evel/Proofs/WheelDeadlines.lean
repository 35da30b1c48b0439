import Evel.Proofs.WheelRuns

namespace Evel.ExpIndexed
open General

/-- No item reaches the callback before `index` shifts have followed the one after its add. -/
def NeverEarly [DecidableEq T] (log : List (Event T)) : Prop :=
  EachEntry (fun pre e => ∀ x glob, e = .delivered x glob →
    ∀ s i cs, AddedAt pre x s i cs → s + i ≤ glob) log

/-- An item is added and waits until it is removed or handed to the callback, once and in
time; no shift leaves an item behind that was due; no cascade subtraction underflows. -/
def Conserved [DecidableEq T] (log : List (Event T)) : Prop :=
  EachEntry (fun pre e => match e with
    | .added x _ _ _ => ∀ s i cs, ¬ AddedAt pre x s i cs
    | .removed x => ∃ s i cs, AddedAt pre x s i cs
    | .cascaded _ itemOffset globOffset => globOffset ≤ itemOffset
    | .delivered x glob => ∃ s i cs, AddedAt pre x s i cs ∧ s ≤ glob ∧ glob ≤ s + i
    | .shifted glob => ∀ x s i cs, AddedAt pre x s i cs → glob < s + i) log

/-- The rest of the index within a step of its level still fits into that step after the
lower cursors have moved by `lag`. Level 0 and the last bucket always fit. -/
def Aligned (sa pm of lag : Nat) : List Nat → Nat → Prop
  | [], _ => True
  | c :: cs, index =>
    if of + pm * sa ≤ index then Aligned sa (pm * sa) (of + pm * sa) (lag + c * pm) cs index
    else lag + (index - of) % pm < pm

theorem lead_eq_zero_iff (sa pm of lag index : Nat) (cs : List Nat) (hsa : 0 < sa) (hpm : 0 < pm) :
    lead sa pm of lag cs index = 0 ↔ Aligned sa pm of lag cs index := by
  induction cs generalizing pm of lag with
  | nil => simp [lead, Aligned]
  | cons c cs ih =>
    simp only [lead, Aligned]
    split
    · exact ih _ _ _ (Nat.mul_pos hpm hsa)
    · rw [Nat.mul_eq_zero, or_iff_left (by omega)]
      exact Nat.div_eq_zero_iff_lt hpm

instance decidableNoWrap [DecidableEq T] {g : Geometry} (r : Run T g) (op : Op T) :
    Decidable (NoWrap r op) := by
  cases op <;> unfold NoWrap <;> infer_instance

instance decidableLastClear [DecidableEq T] {g : Geometry} (r : Run T g) (op : Op T) :
    Decidable (LastClear r op) := by
  cases op <;> unfold LastClear <;> infer_instance

variable {T : Type u} [DecidableEq T] {g : Geometry}

/-- A callback comes `lead` ticks before the item is due. -/
theorem delivered_at (hg : g.Fits) (ho : offset < sizeMod) (ops : List (Op T))
    (hw : Along step NoWrap (Run.start T g offset) ops)
    (hlog : (run step (Run.start T g offset) ops).log = pre ++ .delivered x glob :: post)
    (ha : AddedAt pre x s i cs) :
    s ≤ glob ∧ glob + lead g.sa 1 0 0 cs i = s + i := by
  -- an item that stays in the last bucket when the ticks wrap is still not handed over early
  have h : Good False (run step (Run.start T g offset) ops) :=
    run_good hg ho ops (by simpa using hw)
  obtain ⟨s', i', cs', ha', hle, hl⟩ := h.law pre _ post hlog
  obtain ⟨rfl, rfl, rfl⟩ : s' = s ∧ i' = i ∧ cs' = cs := by
    simpa using ha'.symm.trans ha
  exact ⟨hle, hl⟩

/-- An item is on time exactly if the cursors were aligned for its index at its add. -/
theorem delivery_on_time_iff (hg : g.Fits) (ho : offset < sizeMod) (ops : List (Op T))
    (hw : Along step NoWrap (Run.start T g offset) ops) :
    ∀ pre x glob post,
      (run step (Run.start T g offset) ops).log = pre ++ .delivered x glob :: post →
      ∀ s i cs, AddedAt pre x s i cs → (s + i ≤ glob ↔ Aligned g.sa 1 0 0 cs i) := by
  intro pre x glob post hlog s i cs ha
  obtain ⟨_, hl⟩ := delivered_at hg ho ops hw hlog ha
  rw [← lead_eq_zero_iff _ _ _ _ _ _ g.saPos Nat.one_pos]
  omega

/-- Every run of the list keeps its items until their callback, which is never late. -/
theorem run_conserved (hg : g.Fits) (ho : offset < sizeMod) (ops : List (Op T))
    (hw : Along step (fun r op => NoWrap r op ∧ LastClear r op) (Run.start T g offset) ops) :
    Conserved (run step (Run.start T g offset) ops).log := by
  have h : Good True (run step (Run.start T g offset) ops) :=
    run_good hg ho ops (by simpa using hw)
  refine h.law.mono ?_
  intro pre e h
  cases e with
  | added x s i cs => exact h
  | removed x => exact h
  | cascaded x o glob => exact h
  | delivered x glob =>
    obtain ⟨s, i, cs, ha, hle, hl⟩ := h
    exact ⟨s, i, cs, ha, hle, by omega⟩
  | shifted glob => exact h trivial

section Examples

/-- The geometry of the repository's tests. -/
def smallGeometry : Geometry := ⟨4, 3, by decide⟩

/-- Four shifts put the first cursor at the end of its cycle; then one item is added. -/
def cycleEndRun : List (Op Nat) := [.shift, .shift, .shift, .shift, .add 7 4, .shift]

/-- One item in the last bucket of a list whose offset is the largest there is. -/
def topOffsetRun : List (Op Nat) := [.add 7 0, .shift]

theorem smallGeometry_fits : smallGeometry.Fits := ⟨by decide, by decide⟩

theorem delivery_on_time_iff_cycle_end :
    4 + 4 ≤ 4 ↔ Aligned smallGeometry.sa 1 0 0 [4, 0, 0] 4 :=
  delivery_on_time_iff smallGeometry_fits (show 0 < sizeMod by decide) cycleEndRun (by decide)
    [.shifted 0, .shifted 1, .shifted 2, .shifted 3, .added 7 4 4 [4, 0, 0], .cascaded 7 8 4] 7 4
    [.shifted 4] (by decide) 4 4 [4, 0, 0] rfl

/-- Added at offset 4 with index 4, the item is handed over at offset 4. -/
theorem cycle_end_early : smallGeometry.Fits ∧
    Along step NoWrap (Run.start Nat smallGeometry 0) cycleEndRun ∧
    ¬ NeverEarly (run step (Run.start Nat smallGeometry 0) cycleEndRun).log := by
  refine ⟨smallGeometry_fits, by decide, fun h => ?_⟩
  have h := h [.shifted 0, .shifted 1, .shifted 2, .shifted 3, .added 7 4 4 [4, 0, 0],
    .cascaded 7 8 4] (.delivered 7 4) [.shifted 4] (by decide) 7 4 rfl 4 4 [4, 0, 0] rfl
  exact absurd h (by decide)

theorem run_conserved_cycle_end :
    Conserved (run step (Run.start Nat smallGeometry 0) cycleEndRun).log :=
  run_conserved smallGeometry_fits (by decide) cycleEndRun (by decide)

/-- `glob_offset + pm` wraps to 0: the item is still listed after the shift it is due at,
although `offset + index` did not wrap. -/
theorem top_offset_lost : (2 ^ 64 - 1) + 0 < sizeMod ∧
    ¬ Conserved (run step (Run.start Nat ⟨16, 0, by decide⟩ (2 ^ 64 - 1)) topOffsetRun).log := by
  refine ⟨by decide, fun h => ?_⟩
  have h := h [.added 7 (2 ^ 64 - 1) 0 []] (.shifted (2 ^ 64 - 1)) [] (by decide)
  exact absurd (h 7 (2 ^ 64 - 1) 0 [] rfl) (by decide)

end Examples

end Evel.ExpIndexed
