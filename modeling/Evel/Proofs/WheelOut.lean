import Evel.Proofs.WheelTaking

namespace Evel.ExpIndexed
open General

variable {T : Type u} [DecidableEq T] {g : Geometry}

namespace Memory
variable {m m' : Memory T} {a : Act T} {f : T → Memory T → Exec (Memory T)}

/-- The loop of a level where a callback may spoil what is to come: `J` says what the loop finds at
its pointer, with `n` steps left, and `Q` what is known when it goes astray. -/
theorem walk_split {J : Nat → Option T → Memory T → Prop} {P Q : Memory T → Prop}
    (hend : ∀ n m, J n none m → P m) (hlong : ∀ x m, J 0 (some x) m → Q m)
    (hstep : ∀ n x m, J (n + 1) (some x) m → if m.alive x = true then
      (f x (m.setLst x none)).Split (J n (m.items x).next) Q else Q m)
    (h : J fuel ptr m) : (walk f fuel ptr m).Split P Q := by
  induction fuel generalizing ptr m with
  | zero =>
    cases ptr with
    | none => exact hend _ _ h
    | some x => exact hlong _ _ h
  | succ fuel ih =>
    cases ptr with
    | none => exact hend _ _ h
    | some x =>
      have hx := hstep _ _ _ h
      simp only [walk]
      split
      · rename_i ha
        rw [if_pos ha] at hx
        exact hx.andThen (fun m' hm' => ih hm')
      · rename_i ha
        rwa [if_neg ha] at hx

/-- The same for the loop of the last bucket. -/
theorem lastWalk_split {J : Nat → Option T → Memory T → Prop} {P Q : Memory T → Prop}
    (hend : ∀ n m, J n none m → P m) (hlong : ∀ x m, J 0 (some x) m → Q m)
    (hstep : ∀ n x m, J (n + 1) (some x) m → if m.alive x = true then
      (if (m.items x).offset < bound then
        (((m.setLst x none).bridge (0, 0) x).andThen (f x)).Split (J n (m.items x).next) Q
      else J n (m.items x).next m) else Q m)
    (h : J fuel ptr m) : (lastWalk f bound fuel ptr m).Split P Q := by
  induction fuel generalizing ptr m with
  | zero =>
    cases ptr with
    | none => exact hend _ _ h
    | some x => exact hlong _ _ h
  | succ fuel ih =>
    cases ptr with
    | none => exact hend _ _ h
    | some x =>
      have hx := hstep _ _ _ h
      simp only [lastWalk]
      split
      · rename_i ha
        rw [if_pos ha] at hx
        split
        · rename_i hdue
          rw [if_pos hdue] at hx
          exact hx.andThen (fun m' hm' => ih hm')
        · rename_i hdue
          rw [if_neg hdue] at hx
          exact ih hx
      · rename_i ha
        rwa [if_neg ha] at hx

/-- What a call that takes out leaves of everything but the links. -/
structure Took (m : Memory T) (a : Act T) (m' : Memory T) : Prop where
  alive : m'.alive = a.after m.alive
  script : m'.script = m.script
  log : m'.log = m.log ++ (if (m.items a.item).lst = none then [] else [.removed a.item])
  lst : ∀ x, (m'.items x).lst = if x = a.item then none else (m.items x).lst
  offset : ∀ x, (m'.items x).offset = (m.items x).offset

/-- Nothing happens to the lists when the item is in none. -/
theorem act_free (hx : (m.items a.item).lst = none) (hact : a = .rem x ∨ a = .destroy x)
    (g : Geometry) :
    m.act g a = .ret { m with alive := a.after m.alive } ∧
      Took m a { m with alive := a.after m.alive } := by
  refine ⟨?_, rfl, rfl, by simp [hx], fun y => ?_, fun y => rfl⟩
  · rcases hact with rfl | rfl
    · have hx : (m.items x).lst = none := hx
      simp [act, rem, hx, Act.after]
    · have hx : (m.items x).lst = none := hx
      cases ha : m.alive x with
      | true => simp [act, ha, destroy, hx, Act.after, dies, Exec.map]
      | false =>
        have hsame : Function.update m.alive x false = m.alive := by
          rw [← ha, Function.update_eq_self]
        simp [act, ha, Act.after, hsame]
  · by_cases hy : y = a.item
    · rw [if_pos hy, hy]
      exact hx
    · rw [if_neg hy]

/-- An item that is in no list may go. -/
theorem Held.after {root back : Bucket → Option T} (h : m.Held root back L)
    (hx : (m.items a.item).lst = none) :
    Held { m with alive := a.after m.alive } root back L := by
  have hnot : ∀ c, a.item ∉ L c := h.links.unlisted hx
  refine ⟨h.links, fun c y hy => ?_⟩
  have hya : y ≠ a.item := fun he => hnot c (he ▸ hy)
  have hafter : a.after m.alive y = m.alive y := by
    cases a with
    | add z index => rfl
    | rem z => rfl
    | destroy z => exact Function.update_of_ne hya _ _
  exact hafter.trans (h.alive c y hy)

/-- What a call leaves that takes a member out of its list. -/
structure Out (m : Memory T) (root back : Bucket → Option T) (L : Bucket → List T) (b : Bucket)
    (as : List T) (cs : List T) (a : Act T) (m' : Memory T) : Prop where
  held : m'.Held (headAfter as b cs root) back (Function.update L b (as ++ cs))
  subLists : m'.subLists = headAfter as b cs m.subLists
  data : m'.data = link m.data a.item none
  now : m'.offset = m.offset
  curList : m'.curList = m.curList
  next : ∀ z, z ∉ as → (m'.items z).next = (m.items z).next
  took : Took m a m'

theorem Held.out {root back : Bucket → Option T} (h : m.Held root back L)
    (hx : (m.items x).lst = some b) (hb : L b = as ++ x :: cs)
    (hback : as = [] → back b = none) (hact : a = .rem x ∨ a = .destroy x) (g : Geometry) :
    (m.act g a).Returns (Out m root back L b as cs a) := by
  have ha : m.alive x = true := h.alive b x (by simp [hb])
  have hitem : a.item = x := by rcases hact with rfl | rfl <;> rfl
  have hleaves : (m.leaves x).Held root back L := ⟨h.links, h.alive⟩
  have hout : ∀ m1, Left (m.leaves x) root back L b as x cs m1 →
      Out m root back L b as cs a { m1 with alive := a.after m.alive } := by
    intro m1 hleft
    refine ⟨⟨hleft.held.links, fun c y hy => ?_⟩, hleft.subLists, ?_, hleft.relinked.offset,
      hleft.relinked.curList, hleft.next, rfl, hleft.relinked.script, ?_, fun y => ?_, fun y => ?_⟩
    · have hy1 : m1.alive y = true := hleft.held.alive c y hy
      have hyx : y ≠ x := by
        rintro rfl
        have hhome : (m1.items y).lst = some c := hleft.held.links.home c y hy
        simp [lst_link hleft.data y] at hhome
      have halive1 : m1.alive = m.alive := hleft.relinked.alive
      rw [halive1] at hy1
      rcases hact with rfl | rfl
      · exact hy1
      · simpa [Act.after, hyx] using hy1
    · rw [hitem]
      exact hleft.data
    · rw [hitem, hx]
      exact hleft.relinked.log
    · rw [hitem]
      exact lst_link hleft.data y
    · exact offset_link hleft.data y
  rcases hact with rfl | rfl
  · simp only [act, ha, ↓reduceIte, rem, hx]
    refine (hleaves.unlink_bridge hb hback).mono (fun m1 hleft => ?_)
    have hsame : { m1 with alive := (Act.rem x).after m.alive } = m1 := by
      have halive1 : m1.alive = m.alive := hleft.relinked.alive
      simp only [Act.after, ← halive1]
    have h1 := hout m1 hleft
    rwa [hsame] at h1
  · simp only [act, ha, ↓reduceIte, destroy, hx, Exec.returns_map fun m => dies m x]
    refine (hleaves.bridge_unlink hb hback).mono (fun m1 hleft => ?_)
    have hsame : { m1 with alive := (Act.destroy x).after m.alive } = m1.dies x := by
      have halive1 : m1.alive = m.alive := hleft.relinked.alive
      simp only [Act.after, dies, ← halive1]
    have h1 := hout m1 hleft
    rwa [hsame] at h1

end Memory

/-- A shift between two calls that its callbacks make, as far as removals matter: `ghosts` and then
`todo` is what the loop is going to meet, `as` are the calls still to be made by the callback that
runs. -/
structure Taking (quiet : Prop) (due : List T) (m0 : Memory T) (script : List (List (Act T)))
    (ghosts todo : List T) (as : List (Act T)) (m : Memory T) : Prop where
  quiet : quiet ↔ Passes (fun x => decide (x ∈ due)) m.alive ghosts todo as m.script
  told : Told due todo m.log
  rest : ∀ a ∈ as ++ m.script.flatten, a ∈ script.flatten
  asked : ∀ x, Entry.removed x ∈ m.log → ∃ a ∈ script.flatten, a.item = x
  listed : ∀ x, (m.items x).lst ≠ none → (m0.items x).lst ≠ none
  pending : ∀ x ∈ todo, (m.items x).lst ≠ none ∧ m.alive x = true
  nodup : todo.Nodup

namespace Taking
variable {quiet : Prop} {due : List T} {m0 m m' : Memory T} {script : List (List (Act T))}
  {ghosts todo : List T} {as : List (Act T)} {a : Act T}

/-- What one call does to the items to come. -/
theorem took (h : Taking quiet due m0 script ghosts todo (a :: as) m) (ht : Memory.Took m a m') :
    if todo.head? = some a.item then
      Taking quiet due m0 script (ghosts ++ [a.item]) todo.tail as m'
    else Taking quiet due m0 script ghosts (todo.erase a.item) as m' := by
  have htold : Told due (todo.erase a.item) m'.log := by
    rw [ht.log]
    split
    · rename_i hx
      rw [List.append_nil, List.erase_of_not_mem (fun hm => (h.pending _ hm).1 hx)]
      exact h.told
    · exact h.told.take h.nodup a.item
  have hrest : ∀ b ∈ as ++ m'.script.flatten, b ∈ script.flatten := by
    rw [ht.script]
    exact fun b hb => h.rest b (List.mem_cons_of_mem _ hb)
  have hasked : ∀ x, Entry.removed x ∈ m'.log → ∃ b ∈ script.flatten, b.item = x := by
    intro x hx
    rw [ht.log] at hx
    split at hx
    · exact h.asked x (by simpa using hx)
    · have hx : Entry.removed x ∈ m.log ∨ x = a.item := by simpa using hx
      rcases hx with hx | rfl
      · exact h.asked x hx
      · exact ⟨a, h.rest a List.mem_cons_self, rfl⟩
  have hlisted : ∀ x, (m'.items x).lst ≠ none → (m0.items x).lst ≠ none := by
    intro x hx
    rw [ht.lst] at hx
    split at hx
    · exact absurd rfl hx
    · exact h.listed x hx
  have hpending : ∀ x ∈ todo.erase a.item, (m'.items x).lst ≠ none ∧ m'.alive x = true := by
    intro x hx
    obtain ⟨hxa, hx⟩ := (List.Nodup.mem_erase_iff h.nodup).mp hx
    have hafter : a.after m.alive x = m.alive x := by
      cases a with
      | add y index => rfl
      | rem y => rfl
      | destroy y => exact Function.update_of_ne hxa _ _
    rw [ht.lst, if_neg hxa, ht.alive, hafter]
    exact h.pending x hx
  have hquiet := h.quiet
  rw [passes_cons, ← ht.alive, ← ht.script] at hquiet
  split
  · rename_i hhead
    rw [if_pos hhead] at hquiet
    have herase : todo.erase a.item = todo.tail := by
      cases todo with
      | nil => rfl
      | cons x todo =>
        obtain rfl : x = a.item := by simpa using hhead
        simp
    rw [herase] at htold hpending
    exact ⟨hquiet, htold, hrest, hasked, hlisted, hpending, h.nodup.tail⟩
  · rename_i hhead
    rw [if_neg hhead] at hquiet
    exact ⟨hquiet, htold, hrest, hasked, hlisted, hpending, h.nodup.erase _⟩

/-- A callback begins. -/
theorem hand (h : Taking quiet due m0 script [] (x :: todo) [] m) (hx : x ∈ due)
    (halive : m'.alive = m.alive) (hscript : m'.script = m.script.tail)
    (hlog : m'.log = m.log ++ [.handed x])
    (hlst : ∀ y, (m'.items y).lst = if y = x then none else (m.items y).lst) :
    Taking quiet due m0 script [] todo (m.script.headD []) m' := by
  obtain ⟨hnot, hnd⟩ := List.nodup_cons.mp h.nodup
  have hthere : ∀ y ∈ todo, m.alive y = true :=
    fun y hy => (h.pending y (List.mem_cons_of_mem _ hy)).2
  have hquiet := h.quiet
  rw [passes_done, and_iff_right (fun y hy => by cases hy),
    safe_due (by simpa using hx) hthere] at hquiet
  refine ⟨?_, ?_, ?_, fun y hy => ?_, fun y hy => ?_, fun y hy => ?_, hnd⟩
  · rw [halive, hscript]
    exact hquiet
  · rw [hlog]
    exact h.told.hand hx hnot
  · rw [hscript, headD_append_tail]
    simpa using h.rest
  · rw [hlog] at hy
    exact h.asked y (by simpa using hy)
  · rw [hlst] at hy
    split at hy
    · exact absurd rfl hy
    · exact h.listed y hy
  · have hyx : y ≠ x := fun he => hnot (he ▸ hy)
    rw [hlst, if_neg hyx, halive]
    exact h.pending y (List.mem_cons_of_mem _ hy)

/-- Nothing is left to come. -/
theorem settle (h : Taking quiet due m0 script [] [] [] m) : quiet := by
  have hquiet := h.quiet
  rw [passes_done] at hquiet
  exact hquiet.mpr ⟨fun y hy => (by cases hy), safe_nil _ _⟩

end Taking

/-- The loop is about to hand over an item that was taken out, or has done so already. -/
def Doomed (ptr : Option T) (m : Memory T) : Prop :=
  (∃ x, ptr = some x ∧ Entry.removed x ∈ m.log) ∨ ¬ m.log.Pairwise Entry.Orderly

omit [DecidableEq T] in
theorem Doomed.later {m : Memory T} (h : Doomed none m) (ptr : Option T) : Doomed ptr m :=
  .inr (h.resolve_left (fun ⟨_, hx, _⟩ => by cases hx))

omit [DecidableEq T] in
theorem Doomed.grow {m m' : Memory T} (h : Doomed ptr m) (hlog : m.log <+: m'.log) :
    Doomed ptr m' := by
  rcases h with ⟨x, hx, hm⟩ | hbroken
  · exact .inl ⟨x, hx, hlog.subset hm⟩
  · exact .inr (fun h => hbroken (h.sublist hlog.sublist))

theorem Doomed.acts {m : Memory T} (h : Doomed ptr m) (g : Geometry) (as : List (Act T)) :
    (Memory.acts g as m).Split (Doomed ptr) (fun _ => True) :=
  (Memory.acts_grow g as m).mono (fun _ hm => h.grow hm) (fun _ h => h)

/-- Nothing makes up for it. -/
theorem Doomed.callback {m : Memory T} (h : Doomed (some x) m) (m' : Memory T)
    (hlog : m'.log = m.log) (g : Geometry) (ptr : Option T) :
    (Memory.callback g x m').Split (Doomed ptr) (fun _ => True) := by
  refine (Memory.callback_grows g x m').mono (fun m'' hm => .inr ?_) (fun _ h => h)
  rw [hlog] at hm
  intro hp
  have hp := hp.sublist hm.sublist
  obtain ⟨hold, -, hcross⟩ := List.pairwise_append.mp hp
  rcases h with ⟨y, hy, hrem⟩ | hbroken
  · obtain rfl : x = y := by simpa using hy
    exact hcross _ hrem _ (List.mem_singleton_self _) rfl
  · exact hbroken hold

theorem Doomed.not_honoured {m : Memory T} (h : Doomed none m) (due : List T) :
    ¬ Honoured due m := by
  intro hh
  rcases h with ⟨x, hx, -⟩ | hbroken
  · cases hx
  · exact hbroken hh.1

omit [DecidableEq T] in
theorem subset_takeOut [DecidableEq T] (as : List (Act T)) (ghosts todo : List T) :
    ∀ y ∈ ghosts, y ∈ (takeOut as ghosts todo).1 := by
  induction as generalizing ghosts todo with
  | nil => exact fun y hy => hy
  | cons a as ih =>
    intro y hy
    simp only [takeOut]
    split
    · exact ih _ _ y (List.mem_append_left _ hy)
    · exact ih _ _ y hy

/-- What a shift leaves that has come to a good end. -/
structure Dispatched (g : Geometry) (m : Memory T) (due : List T) (script : List (List (Act T)))
    (m' : Memory T) : Prop where
  told : Told due [] m'.log
  asked : ∀ x, Entry.removed x ∈ m'.log → ∃ a ∈ script.flatten, a.item = x
  listed : ∀ x, (m'.items x).lst ≠ none → (m.items x).lst ≠ none
  shows : ∃ (l' : ExpIndexedList T g) (L' : Bucket → List T), Shows m' l' L'

/-- How a shift ends: well if it is safe; if not it hands over what was taken out, or it does not
come to its end. -/
def Settled (g : Geometry) (safe : Prop) (m : Memory T) (due : List T)
    (script : List (List (Act T))) (e : Exec (Memory T)) : Prop :=
  e.Split (fun m' => (safe ∧ Dispatched g m due script m') ∨ (¬ safe ∧ ¬ Honoured due m'))
    (fun _ => ¬ safe)

end Evel.ExpIndexed
