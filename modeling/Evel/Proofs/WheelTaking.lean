import Evel.Proofs.WheelKept

namespace Evel.ExpIndexed
open General

variable {T : Type u}

def Act.item : Act T → T
  | .add x _ | .rem x | .destroy x => x

/-- The callbacks of a shift do nothing but take items out. -/
def OnlyTakes (script : List (List (Act T))) : Prop :=
  ∀ a ∈ script.flatten, ∃ x, a = .rem x ∨ a = .destroy x

/-- An item that left its list is not handed over after that. -/
def Entry.Orderly : Entry T → Entry T → Prop
  | .removed x, .handed y => x ≠ y
  | .removed _, .removed _ | .handed _, _ => True

section
variable [DecidableEq T]

instance : (e e' : Entry T) → Decidable (e.Orderly e')
  | .removed x, .handed y => inferInstanceAs (Decidable (x ≠ y))
  | .removed _, .removed _ | .handed _, _ => .isTrue trivial

/-- What the calls of a callback do to the items that the loop has still to pass. The loop has read
the first of them already: when it is taken out, the loop meets its ghost all the same. -/
def takeOut : (as : List (Act T)) → (ghosts todo : List T) → List T × List T
  | [], ghosts, todo => (ghosts, todo)
  | a :: as, ghosts, todo =>
    if todo.head? = some a.item then takeOut as (ghosts ++ [a.item]) todo.tail
    else takeOut as ghosts (todo.erase a.item)

/-- All ghosts that the loop meets are there, and are not due. -/
def Safe (due : T → Bool) : (todo : List T) → List (List (Act T)) → Prop
  | _, [] => True
  | todo, as :: script =>
    match todo.dropWhile (fun x => !due x) with
    | [] => True
    | _ :: rest => (∀ y ∈ (takeOut as [] rest).1, due y = false ∧ Act.destroy y ∉ as) ∧
      Safe due (takeOut as [] rest).2 script

/-- What a removal from a callback is for: who was taken out is not handed over any more, all
others that are due are, once. -/
def Honoured (due : List T) (m : Memory T) : Prop :=
  m.log.Pairwise Entry.Orderly ∧
    ∀ x ∈ due, Entry.removed x ∉ m.log → m.handed.count x = 1

/-- The items that the loop of the outermost shift is going to pass. -/
def Memory.passed (m : Memory T) (g : Geometry) (fuel : Nat) : List T :=
  if g.nb = 0 then m.chain fuel (m.subLists (0, 0)) else m.due g fuel

/-- The condition on a use, before it begins. -/
def SafeUse (g : Geometry) (fuel : Nat) (e : Exec (Memory T)) : Use T → Prop
  | .act _ => True
  | .shift script =>
    Safe (fun x => decide (x ∈ e.state.due g fuel)) (e.state.passed g fuel) script

def HonouredUse (g : Geometry) (fuel : Nat) (e : Exec (Memory T)) (u : Use T) : Prop :=
  match u with
  | .act _ => True
  | .shift script =>
    (useStep g fuel e (.shift script)).Returns (Honoured (e.state.due g fuel))

instance (due : List T) (m : Memory T) : Decidable (Honoured due m) :=
  inferInstanceAs (Decidable (m.log.Pairwise Entry.Orderly ∧ _))

instance Safe.decidable (due : T → Bool) :
    (todo : List T) → (script : List (List (Act T))) → Decidable (Safe due todo script)
  | _, [] => .isTrue trivial
  | todo, as :: script =>
    show Decidable (match todo.dropWhile (fun x => !due x) with
      | [] => True
      | _ :: rest => _ ∧ Safe due (takeOut as [] rest).2 script) from
    match todo.dropWhile (fun x => !due x) with
    | [] => .isTrue trivial
    | _ :: rest =>
      have := Safe.decidable due (takeOut as [] rest).2 script
      inferInstanceAs (Decidable ((∀ y ∈ (takeOut as [] rest).1, _ ∧ _) ∧ _))

instance (g : Geometry) (fuel : Nat) (e : Exec (Memory T)) :
    (u : Use T) → Decidable (SafeUse g fuel e u)
  | .act _ => .isTrue trivial
  | .shift script => Safe.decidable _ (e.state.passed g fuel) script

instance (g : Geometry) (fuel : Nat) (e : Exec (Memory T)) :
    (u : Use T) → Decidable (HonouredUse g fuel e u)
  | .act _ => .isTrue trivial
  | .shift script => Exec.Returns.decidable _ (useStep g fuel e (.shift script))

/-- Which items are there after a call. -/
def Act.after (alive : T → Bool) : Act T → T → Bool
  | .destroy x => Function.update alive x false
  | .add _ _ | .rem _ => alive

/-- The condition in the middle of a callback, that has still to make the calls `as`. -/
def Passes (due alive : T → Bool) (ghosts todo : List T) (as : List (Act T))
    (script : List (List (Act T))) : Prop :=
  (∀ y ∈ (takeOut as ghosts todo).1, due y = false ∧ alive y = true ∧ Act.destroy y ∉ as) ∧
    Safe due (takeOut as ghosts todo).2 script

theorem takeOut_ghosts (as : List (Act T)) (ghosts todo : List T) :
    ∀ y ∈ (takeOut as ghosts todo).1, y ∈ ghosts ∨ y ∈ todo := by
  induction as generalizing ghosts todo with
  | nil => exact fun y hy => .inl hy
  | cons a as ih =>
    intro y hy
    simp only [takeOut] at hy
    split at hy
    · rename_i ha
      rcases ih _ _ y hy with h | h
      · rcases List.mem_append.mp h with h | h
        · exact .inl h
        · rw [List.mem_singleton.mp h]
          exact .inr (List.mem_of_mem_head? ha)
      · exact .inr (List.mem_of_mem_tail h)
    · rcases ih _ _ y hy with h | h
      · exact .inl h
      · exact .inr (List.mem_of_mem_erase h)

theorem safe_nil (due : T → Bool) (script : List (List (Act T))) : Safe due [] script := by
  cases script <;> trivial

/-- An item that is not due is passed. -/
theorem safe_idle {due : T → Bool} (hx : due x = false) (todo : List T)
    (script : List (List (Act T))) : Safe due (x :: todo) script ↔ Safe due todo script := by
  cases script with
  | nil => exact Iff.rfl
  | cons as script => simp [Safe, hx]

/-- For an item that is due a callback begins. -/
theorem safe_due {due alive : T → Bool} (hx : due x = true) (halive : ∀ y ∈ todo, alive y = true)
    (script : List (List (Act T))) :
    Safe due (x :: todo) script ↔ Passes due alive [] todo (script.headD []) script.tail := by
  cases script with
  | nil => simp [Safe, Passes, takeOut]
  | cons as script =>
    have hthere : ∀ y ∈ (takeOut as [] todo).1, alive y = true := fun y hy =>
      halive y ((takeOut_ghosts as [] todo y hy).resolve_left List.not_mem_nil)
    simp only [Safe, hx, Bool.not_true, Bool.false_eq_true, not_false_eq_true,
      List.dropWhile_cons_of_neg, List.headD_cons, List.tail_cons, Passes]
    refine and_congr_left' (forall₂_congr fun y hy => ?_)
    simp [hthere y hy]

theorem passes_done (due alive : T → Bool) (ghosts todo : List T) (script : List (List (Act T))) :
    Passes due alive ghosts todo [] script ↔
      (∀ y ∈ ghosts, due y = false ∧ alive y = true) ∧ Safe due todo script := by
  simp [Passes, takeOut]

/-- From one call of a callback to the next. -/
theorem passes_cons (due alive : T → Bool) (ghosts todo : List T) (a : Act T) (as : List (Act T))
    (script : List (List (Act T))) : Passes due alive ghosts todo (a :: as) script ↔
      if todo.head? = some a.item then
        Passes due (a.after alive) (ghosts ++ [a.item]) todo.tail as script
      else Passes due (a.after alive) ghosts (todo.erase a.item) as script := by
  have hthere : ∀ y, (alive y = true ∧ Act.destroy y ∉ a :: as) ↔
      (a.after alive y = true ∧ Act.destroy y ∉ as) := by
    intro y
    cases a with
    | add x index => simp [Act.after]
    | rem x => simp [Act.after]
    | destroy x => by_cases hy : y = x <;> simp [Act.after, hy]
  simp only [Passes, takeOut, hthere]
  split <;> rfl

/-- What the log of a shift says while `todo` is still to come. -/
structure Told (due todo : List T) (log : List (Entry T)) : Prop where
  fresh : ∀ x ∈ todo, Entry.handed x ∉ log ∧ Entry.removed x ∉ log
  orderly : log.Pairwise Entry.Orderly
  only : ∀ x, Entry.handed x ∈ log → x ∈ due
  served : ∀ x ∈ due, x ∉ todo → Entry.removed x ∉ log → log.count (Entry.handed x) = 1

omit [DecidableEq T] in
theorem told_start [DecidableEq T] {due todo : List T} (h : ∀ x ∈ due, x ∈ todo) :
    Told due todo [] :=
  ⟨fun x _ => by simp, List.Pairwise.nil, fun x hx => absurd hx List.not_mem_nil,
    fun x hx hnot => absurd (h x hx) hnot⟩

/-- An item that is not due is passed. -/
theorem Told.pass {due : List T} (h : Told due (x :: todo) log) (hx : x ∉ due) :
    Told due todo log := by
  refine ⟨fun y hy => h.fresh y (List.mem_cons_of_mem _ hy), h.orderly, h.only,
    fun y hy hnot hrem => h.served y hy ?_ hrem⟩
  simp only [List.mem_cons, not_or]
  exact ⟨fun he => hx (he ▸ hy), hnot⟩

theorem Told.hand {due : List T} (h : Told due (x :: todo) log) (hx : x ∈ due) (hnd : x ∉ todo) :
    Told due todo (log ++ [.handed x]) := by
  obtain ⟨hhanded, hremoved⟩ := h.fresh x List.mem_cons_self
  refine ⟨fun y hy => ?_, ?_, fun y hy => ?_, fun y hy hnot hrem => ?_⟩
  · have hyx : y ≠ x := fun he => hnd (he ▸ hy)
    simpa [hyx] using h.fresh y (List.mem_cons_of_mem _ hy)
  · refine List.pairwise_append.mpr ⟨h.orderly, List.pairwise_singleton _ _, ?_⟩
    intro e he e' he'
    rw [List.mem_singleton.mp he']
    cases e with
    | handed y => trivial
    | removed y =>
      rintro rfl
      exact hremoved he
  · have hy : Entry.handed y ∈ log ∨ y = x := by simpa using hy
    rcases hy with hy | rfl
    · exact h.only y hy
    · exact hx
  · by_cases hyx : y = x
    · subst hyx
      simp [List.count_eq_zero_of_not_mem hhanded]
    · have hrem : Entry.removed y ∉ log := fun hm => hrem (List.mem_append_left _ hm)
      have hold := h.served y hy (by simp [hyx, hnot]) hrem
      simpa [Ne.symm hyx] using hold

/-- An item leaves its list, be it one that is still to come or not. -/
theorem Told.take {due : List T} (h : Told due todo log) (hnd : todo.Nodup) (x : T) :
    Told due (todo.erase x) (log ++ [.removed x]) := by
  refine ⟨fun y hy => ?_, ?_, fun y hy => h.only y (by simpa using hy),
    fun y hy hnot hrem => ?_⟩
  · obtain ⟨hyx, hy⟩ := (List.Nodup.mem_erase_iff hnd).mp hy
    simpa [hyx] using h.fresh y hy
  · refine List.pairwise_append.mpr ⟨h.orderly, List.pairwise_singleton _ _, ?_⟩
    intro e he e' he'
    rw [List.mem_singleton.mp he']
    cases e <;> trivial
  · have hrem : Entry.removed y ∉ log ∧ y ≠ x := by simpa using hrem
    have hout : y ∉ todo := fun hm => hnot ((List.Nodup.mem_erase_iff hnd).mpr ⟨hrem.2, hm⟩)
    simpa using h.served y hy hout hrem.1

theorem Memory.handed_count (m : Memory T) (x : T) :
    m.handed.count x = m.log.count (Entry.handed x) := by
  rw [Memory.handed]
  induction m.log with
  | nil => rfl
  | cons e log ih =>
    cases e with
    | handed y => by_cases hy : y = x <;> simp [hy, ih]
    | removed y => simpa using ih

/-- At the end of the shift. -/
theorem Told.honoured {due : List T} {m : Memory T} (h : Told due [] m.log) : Honoured due m := by
  refine ⟨h.orderly, fun x hx hrem => ?_⟩
  rw [m.handed_count]
  exact h.served x hx List.not_mem_nil hrem

namespace Memory

/-- Whatever the calls do, what is written down stays. -/
def Grows (log : List (Entry T)) (e : Exec (Memory T)) : Prop :=
  e.Split (fun m => log <+: m.log) (fun _ => True)

omit [DecidableEq T] in
theorem Grows.andThen {log : List (Entry T)} {e : Exec (Memory T)}
    {f : Memory T → Exec (Memory T)} (he : Grows log e) (hf : ∀ m, Grows m.log (f m)) :
    Grows log (e.andThen f) :=
  Exec.Split.andThen he (fun m hm => (hf m).mono (fun _ h => hm.trans h) (fun _ h => h))

theorem setNext_grows (m : Memory T) (x : T) (ptr : Option T) : Grows m.log (m.setNext x ptr) := by
  unfold setNext
  split
  · exact List.prefix_refl _
  · trivial

theorem setPrev_grows (m : Memory T) (x : T) (ptr : Option T) : Grows m.log (m.setPrev x ptr) := by
  unfold setPrev
  split
  · exact List.prefix_refl _
  · trivial

theorem bridge_grows (m : Memory T) (b : Bucket) (x : T) : Grows m.log (m.bridge b x) := by
  refine Grows.andThen ?_ (fun m' => ?_)
  · split
    · exact setNext_grows _ _ _
    · exact List.prefix_refl _
  · split
    · exact setPrev_grows _ _ _
    · exact List.prefix_refl _

theorem push_grows (m : Memory T) (b : Bucket) (x : T) : Grows m.log (m.push b x) := by
  unfold push Grows
  rw [Exec.split_map]
  show Grows m.log _
  split
  · exact setPrev_grows _ _ _
  · exact List.prefix_refl _

/-- Whoever has a list and is taken out is written down. -/
theorem act_removes {m : Memory T} (hx : (m.items x).lst = some b) (ha : m.alive x = true)
    {a : Act T} (hact : a = .rem x ∨ a = .destroy x) (g : Geometry) :
    Grows (m.log ++ [.removed x]) (m.act g a) := by
  rcases hact with rfl | rfl
  · simp only [act, ha, ↓reduceIte, rem, hx]
    exact bridge_grows ((m.leaves x).setLst x none) b x
  · simp only [act, ha, ↓reduceIte, destroy, hx, Grows, Exec.split_map]
    exact bridge_grows (m.leaves x) b x

theorem act_grows (g : Geometry) (m : Memory T) (a : Act T) : Grows m.log (m.act g a) := by
  have hout : ∀ x, m.alive x = true → (a = .rem x ∨ a = .destroy x) → Grows m.log (m.act g a) := by
    intro x ha hact
    cases hx : (m.items x).lst with
    | none =>
      rcases hact with rfl | rfl <;>
        simp [act, ha, rem, destroy, hx, Grows, dies]
    | some b =>
      exact (act_removes hx ha hact g).mono (fun m' h => (List.prefix_append _ _).trans h)
        (fun _ h => h)
  cases a with
  | add x index =>
    simp only [act]
    split
    · unfold add
      split
      · exact List.prefix_refl _
      · rw [addFrom_eq]
        exact push_grows (m.dated x index) _ x
    · exact List.prefix_refl _
  | rem x =>
    cases ha : m.alive x with
    | true => exact hout x ha (.inl rfl)
    | false => simp [act, ha, Grows]
  | destroy x =>
    cases ha : m.alive x with
    | true => exact hout x ha (.inr rfl)
    | false => simp [act, ha, Grows]

theorem acts_grow (g : Geometry) (as : List (Act T)) (m : Memory T) :
    Grows m.log (acts g as m) := by
  induction as generalizing m with
  | nil => exact List.prefix_refl _
  | cons a as ih => exact (act_grows g m a).andThen ih

theorem callback_grows (g : Geometry) (x : T) (m : Memory T) :
    Grows (m.log ++ [.handed x]) (callback g x m) :=
  acts_grow g _ _

end Memory

end

end Evel.ExpIndexed
