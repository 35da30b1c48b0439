import Evel.General.Exec

namespace Evel.General

/-- What one turn of a loop comes to: the next turn, the end of the call, or a question that is
not answered. -/
inductive Turn (σ : Type u)
  | next (s : σ)
  | done (s : σ)
  | hang (s : σ)
deriving DecidableEq

variable {σ : Type u} {α : Type v} {guard : σ → Bool} {body : α → σ → Turn σ}

/-- `while ( guard ) body`, where every turn takes one item of a script. -/
def loop (guard : σ → Bool) (body : α → σ → Turn σ) : List α → σ → Exec σ
  | [], s => if guard s then .hang s else .ret s
  | a :: as, s =>
    if guard s then
      match body a s with
      | .next s => loop guard body as s
      | .done s => .ret s
      | .hang s => .hang s
    else .ret s

def Turn.map (f : σ → τ) : Turn σ → Turn τ
  | .next s => .next (f s)
  | .done s => .done (f s)
  | .hang s => .hang (f s)

/-- `P` holds at each turn that is made. -/
def Each (guard : σ → Bool) (body : α → σ → Turn σ) (P : α → σ → Prop) : List α → σ → Prop
  | [], _ => True
  | a :: as, s => guard s = true → P a s ∧
    match body a s with
    | .next s => Each guard body P as s
    | _ => True

instance Each.decidable (guard : σ → Bool) (body : α → σ → Turn σ) (P : α → σ → Prop)
    [∀ a s, Decidable (P a s)] : (as : List α) → (s : σ) → Decidable (Each guard body P as s)
  | [], _ => .isTrue trivial
  | a :: as, s =>
    have : Decidable (match body a s with | .next s => Each guard body P as s | _ => True) :=
      match body a s with
      | .next s => Each.decidable guard body P as s
      | .done _ => .isTrue trivial
      | .hang _ => .isTrue trivial
    inferInstanceAs (Decidable (guard s = true → P a s ∧
      match body a s with | .next s => Each guard body P as s | _ => True))

/-- If the call returns in a state of the kind `Q`, then with an answer of the kind `full`. -/
def Drained (Q : σ → Prop) (full : α → Prop) (f : List α → Exec σ) (script : List α) : Prop :=
  ∀ s, f script = .ret s → Q s → ∃ a ∈ (Exec.taken f script).getLast?, full a

section each
variable {P P' : α → σ → Prop}

theorem each_congr (h : ∀ a s, guard s = true → (P a s ↔ P' a s)) (script : List α) (s : σ) :
    Each guard body P script s ↔ Each guard body P' script s := by
  induction script generalizing s with
  | nil => exact Iff.rfl
  | cons a as ih =>
    refine forall_congr' fun hs => and_congr (h a s hs) ?_
    cases body a s with
    | next s' => exact ih s'
    | done s' => exact Iff.rfl
    | hang s' => exact Iff.rfl

theorem each_of (h : ∀ a s, guard s = true → P a s) (script : List α) (s : σ) :
    Each guard body P script s := by
  induction script generalizing s with
  | nil => trivial
  | cons a as ih =>
    refine fun hs => ⟨h a s hs, ?_⟩
    cases body a s with
    | next s' => exact ih s'
    | done s' => trivial
    | hang s' => trivial

end each

/-- What one item of the script leads to. -/
theorem loop_cons_cases (guard : σ → Bool) (body : α → σ → Turn σ) (a : α) (as : List α) (s : σ) :
    (guard s = false ∧ loop guard body (a :: as) s = .ret s) ∨
    guard s = true ∧
      ((∃ s', body a s = .next s' ∧ loop guard body (a :: as) s = loop guard body as s') ∨
       (∃ s', body a s = .done s' ∧ loop guard body (a :: as) s = .ret s') ∨
       (∃ s', body a s = .hang s' ∧ loop guard body (a :: as) s = .hang s')) := by
  cases hs : guard s with
  | false => exact .inl ⟨rfl, by simp [loop, hs]⟩
  | true =>
    refine .inr ⟨rfl, ?_⟩
    simp only [loop, hs, if_true]
    cases body a s with
    | next s' => exact .inl ⟨s', rfl, rfl⟩
    | done s' => exact .inr (.inl ⟨s', rfl, rfl⟩)
    | hang s' => exact .inr (.inr ⟨s', rfl, rfl⟩)

theorem loop_ne_undef (as : List α) (s s' : σ) : loop guard body as s ≠ .undef s' := by
  induction as generalizing s with
  | nil =>
    simp only [loop]
    split <;> simp
  | cons a as ih =>
    obtain ⟨-, h⟩ | ⟨-, ⟨s₁, -, h⟩ | ⟨s₁, -, h⟩ | ⟨s₁, -, h⟩⟩ :=
      loop_cons_cases guard body a as s
    · rw [h]
      exact fun he => by cases he
    · rw [h]
      exact ih s₁
    · rw [h]
      exact fun he => by cases he
    · rw [h]
      exact fun he => by cases he

section answered

/-- A loop whose turns are all answered goes on from where it was when its script ended. -/
theorem loop_append (hb : ∀ a s s', body a s ≠ .hang s') (as bs : List α) (s : σ) :
    loop guard body (as ++ bs) s =
      match loop guard body as s with
      | .hang s => loop guard body bs s
      | e => e := by
  induction as generalizing s with
  | nil =>
    cases hs : guard s with
    | true => simp [loop, hs]
    | false => cases bs <;> simp [loop, hs]
  | cons a as ih =>
    cases hs : guard s with
    | false => simp [loop, hs]
    | true =>
      simp only [List.cons_append, loop, hs, if_true]
      cases h : body a s with
      | next s' => exact ih s'
      | done s' => rfl
      | hang s' => exact absurd h (hb a s s')

/-- Such a loop asks for more where its guard holds, with what no turn changes on its way to the
next one. -/
theorem loop_hang_keeps (Inv : σ → Prop) (hb : ∀ a s s', body a s ≠ .hang s')
    (hnext : ∀ a s s', Inv s → body a s = .next s' → Inv s') (hs : Inv s)
    (h : loop guard body as s = .hang s') : Inv s' ∧ guard s' = true := by
  induction as generalizing s with
  | nil =>
    simp only [loop] at h
    split at h
    · next hg =>
      cases h
      exact ⟨hs, hg⟩
    · cases h
  | cons a as ih =>
    obtain ⟨-, hl⟩ | ⟨-, ⟨s₁, hturn, hl⟩ | ⟨s₁, -, hl⟩ | ⟨s₁, hturn, -⟩⟩ :=
      loop_cons_cases guard body a as s
    · cases hl.symm.trans h
    · exact ih (hnext a s s₁ hs hturn) (hl.symm.trans h)
    · cases hl.symm.trans h
    · exact absurd hturn (hb a s s₁)

end answered

section observed
variable {Inv Q : σ → Prop} {P : α → σ → Prop} {s : σ}

def Turn.state : Turn σ → σ
  | .next s | .done s | .hang s => s

/-- Turns that are all admitted keep what an admitted turn keeps. -/
theorem loop_keeps
    (hkeep : ∀ a s, Inv s → guard s = true → P a s → Inv (body a s).state) (hs : Inv s)
    (h : Each guard body P script s) : Inv (loop guard body script s).state := by
  induction script generalizing s with
  | nil =>
    simp only [loop]
    split <;> exact hs
  | cons a as ih =>
    cases hg : guard s with
    | false => simpa [loop, hg, Exec.state] using hs
    | true =>
      obtain ⟨hp, hrest⟩ := h hg
      have hk := hkeep a s hs hg hp
      simp only [loop, hg, if_true]
      cases hb : body a s with
      | next s' =>
        rw [hb] at hk hrest
        exact ih hk hrest
      | done s' => rwa [hb] at hk
      | hang s' => rwa [hb] at hk

/-- What a turn cannot restore, no loop can. -/
theorem loop_back (hback : ∀ a s, Q (body a s).state → Q s)
    (h : Q (loop guard body script s).state) : Q s := by
  induction script generalizing s with
  | nil =>
    simp only [loop] at h
    split at h <;> exact h
  | cons a as ih =>
    obtain ⟨-, hl⟩ | ⟨-, ⟨s', hb, hl⟩ | ⟨s', hb, hl⟩ | ⟨s', hb, hl⟩⟩ :=
      loop_cons_cases guard body a as s
    · rwa [hl] at h
    · rw [hl] at h
      exact hback a s (hb ▸ ih h)
    · rw [hl] at h
      exact hback a s (hb ▸ h)
    · rw [hl] at h
      exact hback a s (hb ▸ h)

/-- If a turn shows `Q` exactly when it is admitted, then the loop shows `Q` exactly when all
its turns are. -/
theorem loop_observed_iff
    (hstep : ∀ a s, Inv s → guard s = true → (Q (body a s).state ↔ P a s))
    (hkeep : ∀ a s, Inv s → guard s = true → P a s → Inv (body a s).state)
    (hback : ∀ a s, Q (body a s).state → Q s) (hs : Inv s) (hq : Q s) (script : List α) :
    Q (loop guard body script s).state ↔ Each guard body P script s := by
  induction script generalizing s with
  | nil =>
    refine iff_of_true ?_ trivial
    simp only [loop]
    split <;> exact hq
  | cons a as ih =>
    cases hg : guard s with
    | false => simpa [loop, Each, hg, Exec.state] using hq
    | true =>
      have hturn := hstep a s hs hg
      have hk := hkeep a s hs hg
      simp only [loop, Each, hg, if_true, forall_const]
      cases hb : body a s with
      | next s' =>
        rw [hb] at hturn hk
        constructor
        · intro h
          have hp := hturn.mp (loop_back hback h)
          exact ⟨hp, (ih (hk hp) (hturn.mpr hp)).mp h⟩
        · rintro ⟨hp, h⟩
          exact (ih (hk hp) (hturn.mpr hp)).mpr h
      | done s' =>
        rw [hb] at hturn
        simp only [and_true]
        exact hturn
      | hang s' =>
        rw [hb] at hturn
        simp only [and_true]
        exact hturn

end observed

section drained
variable {Q : σ → Prop} {full : α → Prop} {s s' : σ}

/-- A call that ends in the middle of its loop has taken an answer. -/
theorem taken_ne_nil (hs : guard s' = true) (h : loop guard body script s = .ret s') :
    Exec.taken (loop guard body · s) script ≠ [] := by
  have hguard : guard s = true := by
    by_contra hs'
    cases script <;> simp_all [loop]
  cases script with
  | nil => simp [loop, hguard] at h
  | cons a as =>
    rw [Exec.taken_cons (by simp [loop, hguard, Exec.hangs])]
    exact List.cons_ne_nil _ _

theorem mem_getLast_cons {a b : α} {l : List α} (hl : l ≠ []) :
    b ∈ (a :: l).getLast? ↔ b ∈ l.getLast? := by
  obtain ⟨c, l, rfl⟩ := List.exists_cons_of_ne_nil hl
  rw [List.getLast?_cons_cons]

theorem exists_getLast_cons {l : List α} (a : α) (h : ∃ b ∈ l.getLast?, full b) :
    ∃ b ∈ (a :: l).getLast?, full b := by
  obtain ⟨b, hb, hf⟩ := h
  have hl : l ≠ [] := by
    rintro rfl
    cases hb
  exact ⟨b, (mem_getLast_cons hl).mpr hb, hf⟩

/-- The turn that ends the call has taken the last answer. -/
theorem drained_loop_iff (hg : ∀ s, Q s → guard s = true) (script : List α) (s : σ) :
    Drained Q full (loop guard body · s) script ↔
      Each guard body (fun a s => ∀ s', body a s = .done s' → Q s' → full a) script s := by
  induction script generalizing s with
  | nil =>
    refine iff_of_true ?_ trivial
    intro s' hs' hq
    exact absurd rfl (taken_ne_nil (hg s' hq) hs')
  | cons a as ih =>
    cases hs : guard s with
    | false =>
      refine iff_of_true ?_ (by simp [Each, hs])
      intro s' hs' hq
      obtain rfl : s = s' := by simpa [loop, hs] using hs'
      exact absurd (hg s hq) (by simp [hs])
    | true =>
      have htaken : Exec.taken (loop guard body · s) (a :: as) =
          a :: Exec.taken (fun as => loop guard body (a :: as) s) as :=
        Exec.taken_cons (by simp [loop, hs, Exec.hangs]) a as
      simp only [Each, hs, forall_const]
      cases hb : body a s with
      | next s₁ =>
        have hloop : (fun as => loop guard body (a :: as) s) = (loop guard body · s₁) := by
          funext as
          simp [loop, hs, hb]
        rw [hloop] at htaken
        have hret : loop guard body (a :: as) s = loop guard body as s₁ := congrFun hloop as
        simp only [← ih s₁, reduceCtorEq, false_implies, implies_true, true_and, Drained, htaken,
          hret]
        refine forall_congr' fun s' => forall_congr' fun hs' => forall_congr' fun hq => ?_
        simp only [mem_getLast_cons (taken_ne_nil (hg s' hq) hs')]
      | done s₁ =>
        have hret : loop guard body (a :: as) s = .ret s₁ := by simp [loop, hs, hb]
        have hstop : Exec.taken (fun as => loop guard body (a :: as) s) as = [] :=
          Exec.taken_stop (by simp [loop, hs, hb, Exec.hangs]) as
        simp [Drained, htaken, hret, hstop]
      | hang s₁ =>
        have hret : loop guard body (a :: as) s = .hang s₁ := by simp [loop, hs, hb]
        simp [Drained, hret]

end drained

end Evel.General
