import Mathlib.Data.List.Basic

namespace Evel.General

/-- How far a call has come that takes answers from a script: it returned, it asks for an
answer that the script no longer holds, or its behaviour is undefined from here on. -/
inductive Exec (σ : Type u)
  | ret (s : σ)
  | hang (s : σ)
  | undef (s : σ)
deriving DecidableEq

namespace Exec
variable {σ : Type u} {τ : Type v}

def state : Exec σ → σ
  | .ret s | .hang s | .undef s => s

/-- The calls of `f` follow when the first ones have returned. -/
def andThen (e : Exec σ) (f : σ → Exec σ) : Exec σ :=
  match e with
  | .ret s => f s
  | .hang s => .hang s
  | .undef s => .undef s

/-- `andThen` between calls on different states: `g` is what is known of a call that is
stuck. -/
def thenWith (g : σ → τ) (e : Exec σ) (f : σ → Exec τ) : Exec τ :=
  match e with
  | .ret s => f s
  | .hang s => .hang (g s)
  | .undef s => .undef (g s)

def map (f : σ → τ) : Exec σ → Exec τ
  | .ret s => .ret (f s)
  | .hang s => .hang (f s)
  | .undef s => .undef (f s)

/-- `f` completes what has returned, `g` is what is known of a call that is stuck. -/
def bimap (f g : σ → τ) : Exec σ → Exec τ
  | .ret s => .ret (f s)
  | .hang s => .hang (g s)
  | .undef s => .undef (g s)

/-- `P` holds of the state once the call has returned, `Q` of the state it is stuck in. -/
def Split (P Q : σ → Prop) : Exec σ → Prop
  | .ret s => P s
  | .hang s => Q s
  | .undef s => Q s

/-- Nothing undefined happens and `P` holds once the call returns. -/
def Post (P : σ → Prop) : Exec σ → Prop
  | .ret s => P s
  | .hang _ => True
  | .undef _ => False

@[simp] theorem post_ret (P : σ → Prop) (s : σ) : Post P (ret s) ↔ P s := Iff.rfl
@[simp] theorem post_hang (P : σ → Prop) (s : σ) : Post P (hang s) ↔ True := Iff.rfl
@[simp] theorem post_undef (P : σ → Prop) (s : σ) : Post P (undef s) ↔ False := Iff.rfl

@[simp] theorem post_map (f : σ → τ) (P : τ → Prop) (e : Exec σ) :
    (e.map f).Post P ↔ e.Post (fun s => P (f s)) := by
  cases e <;> rfl

@[simp] theorem split_ret (P Q : σ → Prop) (s : σ) : Split P Q (ret s) ↔ P s := Iff.rfl
@[simp] theorem split_hang (P Q : σ → Prop) (s : σ) : Split P Q (hang s) ↔ Q s := Iff.rfl
@[simp] theorem split_undef (P Q : σ → Prop) (s : σ) : Split P Q (undef s) ↔ Q s := Iff.rfl

@[simp] theorem split_map (f : σ → τ) (P Q : τ → Prop) (e : Exec σ) :
    (e.map f).Split P Q ↔ e.Split (fun s => P (f s)) (fun s => Q (f s)) := by
  cases e <;> rfl

@[simp] theorem split_bimap (f g : σ → τ) (P Q : τ → Prop) (e : Exec σ) :
    (e.bimap f g).Split P Q ↔ e.Split (fun s => P (f s)) (fun s => Q (g s)) := by
  cases e <;> rfl

/-- The rule of composition for calls that may get stuck. -/
theorem Split.andThen {P P' Q : σ → Prop} {e : Exec σ} {f : σ → Exec σ} (he : Split P Q e)
    (hf : ∀ s, P s → Split P' Q (f s)) : Split P' Q (e.andThen f) := by
  cases e with
  | ret s => exact hf s he
  | hang s => exact he
  | undef s => exact he

theorem Split.thenWith {P Q : σ → Prop} {P' Q' : τ → Prop} {e : Exec σ} {f : σ → Exec τ}
    {g : σ → τ} (he : Split P Q e) (hf : ∀ s, P s → Split P' Q' (f s))
    (hg : ∀ s, Q s → Q' (g s)) : Split P' Q' (e.thenWith g f) := by
  cases e with
  | ret s => exact hf s he
  | hang s => exact hg s he
  | undef s => exact hg s he

theorem Split.mono {P P' Q Q' : σ → Prop} {e : Exec σ} (he : Split P Q e)
    (hp : ∀ s, P s → P' s) (hq : ∀ s, Q s → Q' s) : Split P' Q' e := by
  cases e with
  | ret s => exact hp s he
  | hang s => exact hq s he
  | undef s => exact hq s he

theorem Split.and {P P' Q Q' : σ → Prop} {e : Exec σ} (he : Split P Q e) (he' : Split P' Q' e) :
    Split (fun s => P s ∧ P' s) (fun s => Q s ∧ Q' s) e := by
  cases e with
  | ret s => exact ⟨he, he'⟩
  | hang s => exact ⟨he, he'⟩
  | undef s => exact ⟨he, he'⟩

/-- What every state satisfies -/
theorem Split.all {P Q : σ → Prop} (hp : ∀ s, P s) (hq : ∀ s, Q s) (e : Exec σ) :
    Split P Q e := by
  cases e with
  | ret s => exact hp s
  | hang s => exact hq s
  | undef s => exact hq s

/-- What holds of the state however far the call has come. -/
theorem Split.state {Q : σ → Prop} {e : Exec σ} (he : Split Q Q e) : Q e.state := by
  cases e <;> exact he

theorem Post.mono {P P' : σ → Prop} {e : Exec σ} (he : Post P e) (hp : ∀ s, P s → P' s) :
    Post P' e := by
  cases e with
  | ret s => exact hp s he
  | hang s => trivial
  | undef s => exact he

/-- Only what a call may return with counts. -/
theorem post_congr {P P' : σ → Prop} {e : Exec σ} (h : ∀ s, e = .ret s → (P s ↔ P' s)) :
    e.Post P ↔ e.Post P' := by
  cases e with
  | ret s => exact h s rfl
  | hang s => exact Iff.rfl
  | undef s => exact Iff.rfl

/-- The call returns and `P` holds then. -/
def Returns (P : σ → Prop) : Exec σ → Prop
  | .ret s => P s
  | .hang _ => False
  | .undef _ => False

@[simp] theorem returns_ret (P : σ → Prop) (s : σ) : Returns P (ret s) ↔ P s := Iff.rfl
@[simp] theorem returns_hang (P : σ → Prop) (s : σ) : Returns P (hang s) ↔ False := Iff.rfl
@[simp] theorem returns_undef (P : σ → Prop) (s : σ) : Returns P (undef s) ↔ False := Iff.rfl

@[simp] theorem returns_map (f : σ → τ) (P : τ → Prop) (e : Exec σ) :
    (e.map f).Returns P ↔ e.Returns (fun s => P (f s)) := by
  cases e <;> rfl

@[simp] theorem returns_andThen (P : σ → Prop) (e : Exec σ) (f : σ → Exec σ) :
    (e.andThen f).Returns P ↔ e.Returns (fun s => (f s).Returns P) := by
  cases e <;> rfl

theorem Returns.mono {P P' : σ → Prop} {e : Exec σ} (he : Returns P e) (hp : ∀ s, P s → P' s) :
    Returns P' e := by
  cases e with
  | ret s => exact hp s he
  | hang s => exact he
  | undef s => exact he

theorem Returns.and {P P' : σ → Prop} {e : Exec σ} (he : Returns P e) (he' : Returns P' e) :
    Returns (fun s => P s ∧ P' s) e := by
  cases e with
  | ret s => exact ⟨he, he'⟩
  | hang s => exact he
  | undef s => exact he

theorem Returns.exists {P : σ → Prop} {e : Exec σ} (he : Returns P e) : ∃ s, e = .ret s ∧ P s := by
  cases e with
  | ret s => exact ⟨s, rfl, he⟩
  | hang s => exact he.elim
  | undef s => exact he.elim

theorem Returns.split {P : σ → Prop} {e : Exec σ} (he : Returns P e) (Q : σ → Prop) :
    Split P Q e := by
  cases e with
  | ret s => exact he
  | hang s => exact he.elim
  | undef s => exact he.elim

def hangs : Exec σ → Bool
  | .hang _ => true
  | _ => false

/-- The answers that the call `f` takes from a script: it goes on as long as it asks for
more. -/
def taken (f : List α → Exec σ) : List α → List α
  | [] => []
  | a :: as => if (f []).hangs then a :: taken (fun as => f (a :: as)) as else []

/-- A call that asks for nothing takes nothing. -/
theorem taken_stop {f : List α → Exec σ} (h : (f []).hangs = false) (as : List α) :
    taken f as = [] := by
  cases as <;> simp [taken, h]

theorem taken_cons {f : List α → Exec σ} (h : (f []).hangs = true) (a : α) (as : List α) :
    taken f (a :: as) = a :: taken (fun as => f (a :: as)) as := by
  simp [taken, h]

instance Split.decidable (P Q : σ → Prop) [DecidablePred P] [DecidablePred Q] :
    (e : Exec σ) → Decidable (Split P Q e)
  | .ret s => inferInstanceAs (Decidable (P s))
  | .hang s => inferInstanceAs (Decidable (Q s))
  | .undef s => inferInstanceAs (Decidable (Q s))

instance Post.decidable (P : σ → Prop) [DecidablePred P] : (e : Exec σ) → Decidable (Post P e)
  | .ret s => inferInstanceAs (Decidable (P s))
  | .hang _ => .isTrue trivial
  | .undef _ => .isFalse id

instance Returns.decidable (P : σ → Prop) [DecidablePred P] :
    (e : Exec σ) → Decidable (Returns P e)
  | .ret s => inferInstanceAs (Decidable (P s))
  | .hang _ => .isFalse id
  | .undef _ => .isFalse id

end Exec

end Evel.General
