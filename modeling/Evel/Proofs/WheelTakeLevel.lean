import Evel.Proofs.WheelOut

namespace Evel.ExpIndexed
open General

variable {T : Type u} [DecidableEq T] {g : Geometry}

namespace Midway
variable {m m' : Memory T} {l : ExpIndexedList T g} {L : Bucket → List T}

/-- An item that is in no list may go. -/
theorem after (h : Midway m l b back L todo) {a : Act T} (hx : (m.items a.item).lst = none) :
    Midway { m with alive := a.after m.alive } l b back L todo :=
  ⟨Memory.Held.after h.walked hx, h.rest, h.fills, h.above, h.offset, h.items⟩

/-- A member of the bucket that is walked leaves it, not the first of those that are to come. -/
theorem out_walked {a : Act T} (h : Midway m l b back L todo) (hb : L b = as ++ a.item :: cs)
    (has : as ≠ []) (ho : Memory.Out m (Function.update m.subLists b (L b).head?)
      (Function.update (fun _ => none) b back) L b as cs a m') :
    Midway m' l b back (Function.update L b (as ++ cs)) (todo.erase a.item) := by
  obtain ⟨-, -, hxas, hxcs, -⟩ := h.walked.links.apart hb
  have htodo : todo = as ++ a.item :: cs := h.rest.symm.trans hb
  have herase : todo.erase a.item = as ++ cs := by
    rw [htodo, List.erase_append_right _ hxas, List.erase_cons_head]
  have hhead : (as ++ cs).head? = (L b).head? := by
    rw [hb]
    cases as with
    | nil => exact absurd rfl has
    | cons y as => rfl
  rw [herase]
  have hheld := ho.held
  have hsub := ho.subLists
  simp only [Memory.headAfter, has, ↓reduceIte] at hheld hsub
  refine ⟨?_, by simp, ?_, fun d i hd => ?_, ho.now.trans h.offset, ?_⟩
  · rw [Memory.Walked, hsub, Function.update_self, hhead]
    exact hheld
  · rw [Function.update_idem, ho.curList]
    exact h.fills
  · rw [Function.update_idem]
    exact h.above d i hd
  · rw [← h.items, ho.data, htodo]
    funext y
    by_cases hy : y = a.item
    · subst hy
      simp [unlink, link, hxas, hxcs]
    · simp [unlink, link, hy]

/-- A member of another bucket leaves it. -/
theorem out_other {a : Act T} (h : Midway m l b back L todo) (hx : (m.items a.item).lst = some c)
    (hc : c ≠ b) (hb : L c = as ++ a.item :: cs)
    (ho : Memory.Out m (Function.update m.subLists b (L b).head?)
      (Function.update (fun _ => none) b back) L c as cs a m') :
    Midway m' (l.rem a.item) b back (Function.update L c (as ++ cs)) todo := by
  have hnot : a.item ∉ todo := by
    intro hm
    rw [h.pending hm] at hx
    exact hc (by simpa using hx.symm)
  obtain ⟨-, -, hxas, -, -⟩ := h.walked.links.apart hb
  have hcb : Function.update L b [] c = as ++ a.item :: cs := by
    rw [Function.update_of_ne hc]
    exact hb
  have hdepth : c.1 ≤ g.nb := by
    by_contra hlt
    have habove := h.above c.1 c.2 (Nat.not_le.mp hlt)
    rw [hcb] at habove
    simp at habove
  have hrem : l.rem a.item = { l with
      list := l.list.erase c a.item, items := link l.items a.item none } := by
    simp [ExpIndexedList.rem, h.lst hnot, hx]
  rw [hrem]
  have hsub := ho.subLists
  refine ⟨?_, ?_, ?_, fun d i hd => ?_, ho.now.trans h.offset, ?_⟩
  · have hheads : Memory.headAfter as c cs (Function.update m.subLists b (L b).head?) =
        Function.update m'.subLists b (L b).head? := by
      rw [hsub]
      unfold Memory.headAfter
      split
      · exact Function.update_comm hc.symm _ _ _
      · rfl
    have hheld := ho.held
    rw [hheads] at hheld
    rwa [Memory.Walked, Function.update_of_ne hc.symm]
  · rw [Function.update_of_ne hc.symm]
    exact h.rest
  · rw [Function.update_comm hc, ho.curList]
    exact Levels.erase_fills h.fills hdepth hcb hxas
  · have hne : ((d, i) : Bucket) ≠ c := by
      rintro rfl
      exact absurd hdepth (Nat.not_le.mpr hd)
    rw [Function.update_comm hc, Function.update_of_ne hne]
    exact h.above d i hd
  · rw [ho.data, ← h.items]
    funext y
    by_cases hy : y = a.item
    · subst hy
      simp [unlink, link, hnot]
    · by_cases hm : y ∈ todo <;> simp [unlink, link, hy, hm]

/-- A call of a callback that does not take out the item the loop has already read. -/
theorem takes (h : Midway m l b back L todo) (hact : a = .rem x ∨ a = .destroy x)
    (hhead : todo.head? ≠ some x) :
    (m.act g a).Returns fun m' => Memory.Took m a m' ∧
      ∃ (l' : ExpIndexedList T g) (L' : Bucket → List T),
        Midway m' l' b back L' (todo.erase x) := by
  have hitem : a.item = x := by rcases hact with rfl | rfl <;> rfl
  cases hx : (m.items x).lst with
  | none =>
    obtain ⟨he, htook⟩ := Memory.act_free (hitem ▸ hx) hact g
    rw [he, List.erase_of_not_mem (h.not_pending hx)]
    exact ⟨htook, l, L, h.after (hitem ▸ hx)⟩
  | some c =>
    obtain ⟨as, cs, hb⟩ := List.append_of_mem (h.walked.links.mem x c hx)
    by_cases hc : c = b
    · subst hc
      have has : as ≠ [] := by
        rintro rfl
        rw [← h.rest, hb] at hhead
        exact hhead rfl
      refine (Memory.Held.out h.walked hx hb (fun he => absurd he has) hact g).mono ?_
      intro m' ho
      subst hitem
      exact ⟨ho.took, l, _, h.out_walked hb has ho⟩
    · refine (Memory.Held.out h.walked hx hb (fun _ => Function.update_of_ne hc _ _) hact
        g).mono ?_
      intro m' ho
      subst hitem
      have hnot : a.item ∉ todo := by
        intro hm
        rw [h.pending hm] at hx
        exact hc (by simpa using hx.symm)
      rw [List.erase_of_not_mem hnot]
      exact ⟨ho.took, _, _, h.out_other hx hc hb ho⟩

end Midway

/-- Bucket `b` of a level is walked, and all is well so far: the loop stands at `ptr`. -/
def LevelTaking (g : Geometry) (quiet : Prop) (due : List T) (m0 : Memory T)
    (script : List (List (Act T))) (b : Bucket) (n : Nat) (ptr : Option T) (as : List (Act T))
    (m : Memory T) : Prop :=
  ∃ todo, ptr = todo.head? ∧ todo.length ≤ n ∧ (∀ x ∈ todo, x ∈ due) ∧
    Taking quiet due m0 script [] todo as m ∧
    ∃ (l : ExpIndexedList T g) (back : Option T) (L : Bucket → List T), Midway m l b back L todo

section level
variable {quiet : Prop} {due : List T} {m0 m m' : Memory T} {script : List (List (Act T))}
  {b : Bucket} {n : Nat} {ptr : Option T} {as : List (Act T)}

/-- All calls of a callback. -/
theorem level_acts (hscript : OnlyTakes script)
    (h : LevelTaking g quiet due m0 script b n ptr as m ∨ (¬ quiet ∧ Doomed ptr m)) :
    (Memory.acts g as m).Split (fun m' =>
      LevelTaking g quiet due m0 script b n ptr [] m' ∨ (¬ quiet ∧ Doomed ptr m'))
      (fun _ => ¬ quiet) := by
  induction as generalizing m with
  | nil => exact h
  | cons a as ih =>
    rcases h with h | ⟨hnot, h⟩
    · obtain ⟨todo, rfl, hlen, hdue, htaking, l, back, L, hmid⟩ := h
      obtain ⟨x, hact⟩ := hscript a (htaking.rest a List.mem_cons_self)
      have hitem : a.item = x := by rcases hact with rfl | rfl <;> rfl
      rw [Memory.acts]
      by_cases hhead : todo.head? = some x
      · -- the loop holds a pointer to the item that is taken out
        have hx : x ∈ todo := List.mem_of_mem_head? hhead
        have hnot : ¬ quiet := by
          intro hq
          have hp := htaking.quiet.mp hq
          rw [passes_cons, if_pos (hitem ▸ hhead), hitem] at hp
          have hghost := (hp.1 x (subset_takeOut _ _ _ x (by simp))).1
          simp [hdue x hx] at hghost
        have hgrows := Memory.act_removes (hmid.pending hx) (htaking.pending x hx).2 hact g
        refine Exec.Split.andThen (P := fun m' => Doomed todo.head? m') ?_
          (fun m' hm' => ih (.inr ⟨hnot, hm'⟩))
        refine Exec.Split.mono hgrows (fun m' hm' => .inl ⟨x, hhead, ?_⟩) (fun _ _ => hnot)
        exact hm'.subset (by simp)
      · obtain ⟨m', hm', htook, l', L', hmid'⟩ := (hmid.takes hact hhead).exists
        have htaking' := htaking.took htook
        rw [hitem, if_neg hhead] at htaking'
        rw [hm']
        refine ih (.inl ⟨todo.erase x, ?_, ?_, fun y hy => hdue y (List.mem_of_mem_erase hy),
          htaking', l', back, L', hmid'⟩)
        · cases todo with
          | nil => rfl
          | cons z todo =>
            have hzx : z ≠ x := by simpa using hhead
            simp [List.erase_cons_tail, hzx]
        · exact Nat.le_trans (List.length_erase_le) hlen
    · refine (h.acts g (a :: as)).mono (fun m' hm' => .inr ⟨hnot, hm'⟩) (fun _ _ => hnot)

/-- From one callback to the next. -/
theorem level_callback (hscript : OnlyTakes script)
    (h : LevelTaking g quiet due m0 script b (n + 1) (some x) [] m ∨
      (¬ quiet ∧ Doomed (some x) m)) :
    if m.alive x = true then
      (Memory.callback g x (m.setLst x none)).Split (fun m' =>
        LevelTaking g quiet due m0 script b n (m.items x).next [] m' ∨
          (¬ quiet ∧ Doomed (m.items x).next m')) (fun _ => ¬ quiet)
    else ¬ quiet := by
  rcases h with ⟨todo, hptr, hlen, hdue, htaking, l, back, L, hmid⟩ | ⟨hnot, hdoom⟩
  · cases todo with
    | nil => cases hptr
    | cons y todo =>
      obtain rfl : x = y := by simpa using hptr
      obtain ⟨halive, hnext, hmid'⟩ := hmid.hand
      rw [if_pos halive]
      refine level_acts hscript (.inl ⟨todo, hnext, by simpa using hlen,
        fun y hy => hdue y (List.mem_cons_of_mem _ hy), ?_, l, some x, _,
        hmid'.congr rfl rfl rfl rfl rfl⟩)
      refine htaking.hand (hdue x List.mem_cons_self) rfl rfl rfl (fun y => ?_)
      by_cases hy : y = x <;> simp [hy]
  · split
    · exact (hdoom.callback (m.setLst x none) rfl g _).mono
        (fun m' hm' => .inr ⟨hnot, hm'⟩) (fun _ _ => hnot)
    · exact hnot

end level

theorem level_settled {m : Memory T} {l : ExpIndexedList T g} {L : Bucket → List T}
    (h : Shows m l L) (hroomy : m.Roomy fuel) (hpos : g.nb ≠ 0) {script : List (List (Act T))}
    (hscript : OnlyTakes script) :
    Settled g (Safe (fun x => decide (x ∈ l.shifted.out)) l.shifted.out script) m l.shifted.out
      script (m.shift g fuel script) := by
  obtain ⟨m1, b, L1, hstart, hshift⟩ := shift_walks h hroomy hpos script
  have hmid := hstart.midway
  have htaking : Taking (Safe (fun x => decide (x ∈ l.shifted.out)) l.shifted.out script)
      l.shifted.out m script [] l.shifted.out [] m1 := by
    refine ⟨?_, ?_, ?_, fun x hx => ?_, fun x hx => mt (hstart.listed x).mpr hx, fun x hx => ?_,
      hmid.nodup⟩
    · rw [passes_done, hstart.script, and_iff_right (fun y hy => by cases hy)]
    · rw [hstart.log]
      exact told_start (fun x hx => hx)
    · rw [hstart.script]
      exact fun a ha => ha
    · rw [hstart.log] at hx
      cases hx
    · refine ⟨by simp [hmid.pending hx], hmid.walked.alive b x ?_⟩
      rwa [hmid.rest]
  rw [Settled, hshift, Exec.split_map]
  refine Memory.walk_split (J := fun n ptr m' =>
      LevelTaking g (Safe (fun x => decide (x ∈ l.shifted.out)) l.shifted.out script)
        l.shifted.out m script b n ptr [] m' ∨
      (¬ Safe (fun x => decide (x ∈ l.shifted.out)) l.shifted.out script ∧ Doomed ptr m'))
    ?_ ?_ (fun n x m' hm' => level_callback hscript hm')
    (.inl ⟨_, rfl, hstart.short hroomy, fun x hx => hx, htaking, _, _, _, hmid⟩)
  · rintro n m' (⟨todo, hptr, hlen, hdue, ht, l', back, L', hmid'⟩ | ⟨hnot, hdoom⟩)
    · obtain rfl : todo = [] := List.head?_eq_none_iff.mp hptr.symm
      exact .inl ⟨ht.settle, ht.told, ht.asked, ht.listed, l', L', hmid'.finish⟩
    · exact .inr ⟨hnot, hdoom.not_honoured (m := m'.setHead b none) _⟩
  · rintro x m' (⟨todo, hptr, hlen, -⟩ | ⟨hnot, -⟩)
    · obtain rfl : todo = [] := List.length_eq_zero_iff.mp (Nat.le_zero.mp hlen)
      cases hptr
    · exact hnot

end Evel.ExpIndexed
