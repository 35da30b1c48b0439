import Evel.Proofs.WheelOut

namespace Evel.ExpIndexed
open General

variable {T : Type u} [DecidableEq T] {g : Geometry}

/-- The items that the loop of the last bucket is going to meet, in memory: ghosts lead on to the
rest of the list as they did when they left it. -/
structure LastMet (g : Geometry) (due : List T) (bound : Nat) (ghosts todo : List T)
    (m : Memory T) : Prop where
  lists : ∃ (l : ExpIndexedList T g) (L : Bucket → List T) (kept : List T), Shows m l L ∧
    L (0, 0) = kept ++ todo
  chain : Fwd (fun x => (m.items x).next) todo.head? ghosts
  gone : ∀ x ∈ ghosts, (m.items x).lst = none ∧ Entry.removed x ∈ m.log
  date : ∀ x ∈ ghosts ++ todo, x ∈ due ↔ (m.items x).offset < bound

namespace LastMet
variable {due : List T} {m m' : Memory T} {ghosts todo : List T} {a : Act T}

omit [DecidableEq T] in
/-- A wheel without levels has one bucket. -/
theorem bucket (hnb : g.nb = 0) {l : ExpIndexedList T g} {L : Bucket → List T} (h : Shows m l L)
    (hx : x ∈ L b) : b = (0, 0) := by
  obtain ⟨d, i⟩ := b
  have hd := h.depth hx
  rcases mem_bucketsFrom.mp (h.fills.bucket hd hx) with he | hpos
  · exact he
  · omega

/-- The first item to come stays the first one. -/
theorem keep (h : LastMet g due bound ghosts todo m) (ht : Memory.Took m a m')
    (hnext : ∀ y ∈ ghosts, (m'.items y).next = (m.items y).next)
    (hhead : todo'.head? = todo.head?) (hsub : ∀ x ∈ todo', x ∈ todo)
    (hlists : ∃ (l : ExpIndexedList T g) (L : Bucket → List T) (kept : List T), Shows m' l L ∧
      L (0, 0) = kept ++ todo') : LastMet g due bound ghosts todo' m' := by
  refine ⟨hlists, ?_, fun y hy => ⟨?_, ?_⟩, fun y hy => ?_⟩
  · rw [hhead]
    exact h.chain.congr hnext
  · rw [ht.lst]
    split
    · rfl
    · exact (h.gone y hy).1
  · rw [ht.log]
    exact List.mem_append_left _ (h.gone y hy).2
  · rw [ht.offset]
    refine h.date y ?_
    rcases List.mem_append.mp hy with hy | hy
    · exact List.mem_append_left _ hy
    · exact List.mem_append_right _ (hsub y hy)

/-- The first item to come becomes a ghost. -/
theorem ghost (h : LastMet g due bound ghosts (x :: todo) m) (ht : Memory.Took m a m')
    (hitem : a.item = x) (hx : (m.items x).lst ≠ none)
    (hnext : ∀ y ∈ ghosts, (m'.items y).next = (m.items y).next)
    (hnextx : (m'.items x).next = todo.head?)
    (hlists : ∃ (l : ExpIndexedList T g) (L : Bucket → List T) (kept : List T), Shows m' l L ∧
      L (0, 0) = kept ++ todo) : LastMet g due bound (ghosts ++ [x]) todo m' := by
  refine ⟨hlists, ?_, fun y hy => ?_, fun y hy => ?_⟩
  · rw [fwd_append]
    refine ⟨?_, ?_⟩
    · simpa using h.chain.congr hnext
    · simpa [Fwd] using hnextx
  · rw [ht.lst, ht.log]
    rcases List.mem_append.mp hy with hy | hy
    · obtain ⟨hfree, hlog⟩ := h.gone y hy
      refine ⟨?_, List.mem_append_left _ hlog⟩
      split
      · rfl
      · exact hfree
    · obtain rfl : y = x := by simpa using hy
      rw [hitem, if_pos rfl, if_neg hx]
      exact ⟨rfl, by simp⟩
  · rw [ht.offset]
    exact h.date y (by simpa using hy)

/-- The item that `a` takes out of the last bucket leaves the others there, and the ghosts keep
their successors. -/
theorem leaves (h : LastMet g due bound ghosts todo m) {l : ExpIndexedList T g}
    {L : Bucket → List T} (hshows : Shows m l L) (hx : (m.items x).lst = some (0, 0))
    (hact : a = .rem x ∨ a = .destroy x) (hb : L (0, 0) = as ++ x :: cs) :
    (m.act g a).Returns fun m' =>
      Memory.Took m a m' ∧ (∀ y ∈ ghosts, (m'.items y).next = (m.items y).next) ∧
      (m'.items x).next = cs.head? ∧
      ∃ L' : Bucket → List T, Shows m' (l.rem x) L' ∧ L' (0, 0) = as ++ cs := by
  have hitem : a.item = x := by rcases hact with rfl | rfl <;> rfl
  obtain ⟨-, -, hxas, -, -⟩ := hshows.held.links.apart hb
  have hnextx : (m.items x).next = cs.head? := (hshows.held.links.around hb).2
  refine (hshows.held.out hx hb (fun _ => rfl) hact g).mono (fun m' ho => ?_)
  refine ⟨ho.took, fun y hy => ho.next y (fun hyas => ?_), (ho.next x hxas).trans hnextx, _,
    hshows.out hx hb ho.held ho.subLists (hitem ▸ ho.data) ho.curList ho.now, by simp⟩
  have hhome : (m.items y).lst = some (0, 0) :=
    hshows.held.links.home (0, 0) y (by simp [hb, hyas])
  simp [(h.gone y hy).1] at hhome

/-- One call of a callback. -/
theorem takes (h : LastMet g due bound ghosts todo m) (hnb : g.nb = 0)
    (hpending : ∀ x ∈ todo, (m.items x).lst ≠ none) (hact : a = .rem x ∨ a = .destroy x) :
    (m.act g a).Returns fun m' => Memory.Took m a m' ∧
      if todo.head? = some x then LastMet g due bound (ghosts ++ [x]) todo.tail m'
      else LastMet g due bound ghosts (todo.erase x) m' := by
  have hitem : a.item = x := by rcases hact with rfl | rfl <;> rfl
  have hfirst : x ∉ todo → todo.head? ≠ some x := fun hnot hh =>
    hnot (List.mem_of_mem_head? hh)
  obtain ⟨l, L, kept, hshows, hlast⟩ := h.lists
  cases hx : (m.items x).lst with
  | none =>
    have hnot : x ∉ todo := fun hm => hpending x hm hx
    obtain ⟨he, htook⟩ := Memory.act_free (hitem ▸ hx) hact g
    rw [he, Exec.returns_ret, if_neg (hfirst hnot), List.erase_of_not_mem hnot]
    refine ⟨htook, h.keep htook (fun y _ => rfl) rfl (fun y hy => hy) ⟨l, L, kept, ?_, hlast⟩⟩
    exact ⟨hshows.held.after (hitem ▸ hx), hshows.fills, hshows.above, hshows.offset, hshows.data⟩
  | some c =>
    have hm : x ∈ L c := hshows.held.links.mem x c hx
    obtain rfl : c = (0, 0) := bucket hnb hshows hm
    by_cases hmt : x ∈ todo
    · obtain ⟨as, cs, rfl⟩ := List.append_of_mem hmt
      have hb : L (0, 0) = (kept ++ as) ++ x :: cs := by simp [hlast]
      refine (h.leaves hshows hx hact hb).mono ?_
      intro m' hm'
      obtain ⟨htook, hnext, hnextx, L', hshows', hlast'⟩ := hm'
      refine ⟨htook, ?_⟩
      cases as with
      | nil =>
        simp only [List.nil_append, List.head?_cons, ↓reduceIte, List.tail_cons]
        exact h.ghost htook hitem (by simp [hx]) hnext hnextx
          ⟨_, L', kept, hshows', by simpa using hlast'⟩
      | cons z as =>
        obtain ⟨-, -, hxas, -, -⟩ := hshows.held.links.apart hb
        have hxz : x ∉ z :: as := fun hm => hxas (List.mem_append_right _ hm)
        have hzx : z ≠ x := fun he => hxz (by simp [he])
        rw [if_neg (by simpa using hzx), List.erase_append_right _ hxz, List.erase_cons_head]
        refine h.keep htook hnext (by simp) (fun y hy => ?_)
          ⟨_, L', kept, hshows', by simpa using hlast'⟩
        simp only [List.mem_append, List.mem_cons] at hy ⊢
        tauto
    · have hmk : x ∈ kept := by
        rw [hlast] at hm
        exact (List.mem_append.mp hm).resolve_right hmt
      obtain ⟨as, cs, rfl⟩ := List.append_of_mem hmk
      have hb : L (0, 0) = as ++ x :: (cs ++ todo) := by simp [hlast]
      refine (h.leaves hshows hx hact hb).mono ?_
      intro m' hm'
      obtain ⟨htook, hnext, hnextx, L', hshows', hlast'⟩ := hm'
      rw [if_neg (hfirst hmt), List.erase_of_not_mem hmt]
      exact ⟨htook, h.keep htook hnext rfl (fun y hy => hy)
        ⟨_, L', as ++ cs, hshows', by simpa using hlast'⟩⟩

end LastMet

/-- The last bucket is walked, and all is well so far: the loop stands at `ptr`. -/
def LastTaking (g : Geometry) (quiet : Prop) (due : List T) (m0 : Memory T)
    (script : List (List (Act T))) (bound n : Nat) (ptr : Option T) (as : List (Act T))
    (m : Memory T) : Prop :=
  ∃ ghosts todo, ptr = (ghosts ++ todo).head? ∧ (ghosts ++ todo).length ≤ n ∧
    Taking quiet due m0 script ghosts todo as m ∧ LastMet g due bound ghosts todo m

section last
variable {quiet : Prop} {due : List T} {m0 m m' : Memory T} {script : List (List (Act T))}
  {bound n : Nat} {ptr : Option T} {as : List (Act T)}

/-- All calls of a callback. -/
theorem last_acts (hnb : g.nb = 0) (hscript : OnlyTakes script)
    (h : LastTaking g quiet due m0 script bound n ptr as m) :
    (Memory.acts g as m).Returns (LastTaking g quiet due m0 script bound n ptr []) := by
  induction as generalizing m with
  | nil => exact h
  | cons a as ih =>
    obtain ⟨ghosts, todo, rfl, hlen, htaking, hmet⟩ := h
    obtain ⟨x, hact⟩ := hscript a (htaking.rest a List.mem_cons_self)
    have hitem : a.item = x := by rcases hact with rfl | rfl <;> rfl
    rw [Memory.acts, Exec.returns_andThen]
    refine (hmet.takes hnb (fun y hy => (htaking.pending y hy).1) hact).mono ?_
    intro m' hm'
    obtain ⟨htook, hmet'⟩ := hm'
    have htaking' := htaking.took htook
    rw [hitem] at htaking'
    by_cases hhead : todo.head? = some x
    · rw [if_pos hhead] at hmet' htaking'
      have hsame : ghosts ++ [x] ++ todo.tail = ghosts ++ todo := by
        cases todo with
        | nil => cases hhead
        | cons y todo =>
          obtain rfl : y = x := by simpa using hhead
          simp
      exact ih ⟨_, _, by rw [hsame], by rwa [hsame], htaking', hmet'⟩
    · rw [if_neg hhead] at hmet' htaking'
      refine ih ⟨_, _, ?_, ?_, htaking', hmet'⟩
      · cases todo with
        | nil => rfl
        | cons y todo =>
          have hyx : y ≠ x := by simpa using hhead
          cases ghosts <;> simp [List.erase_cons_tail, hyx]
      · have herase : (todo.erase x).length ≤ todo.length := List.length_erase_le
        simp only [List.length_append] at hlen ⊢
        omega

/-- A ghost under the pointer is passed, or it is the end of all good. -/
theorem last_ghost
    (htaking : Taking quiet due m0 script (x :: ghosts) todo [] m)
    (hmet : LastMet g due bound (x :: ghosts) todo m) (hlen : (ghosts ++ todo).length ≤ n) :
    if m.alive x = true then
      (if (m.items x).offset < bound then
        (((m.setLst x none).bridge (0, 0) x).andThen (Memory.callback g x)).Split
          (fun m' => LastTaking g quiet due m0 script bound n (m.items x).next [] m' ∨
            (¬ quiet ∧ Doomed none m')) (fun _ => ¬ quiet)
      else LastTaking g quiet due m0 script bound n (m.items x).next [] m ∨
        (¬ quiet ∧ Doomed none m))
    else ¬ quiet := by
  have hquiet := htaking.quiet
  simp only [passes_done, List.forall_mem_cons] at hquiet
  obtain ⟨hfree, hremoved⟩ := hmet.gone x List.mem_cons_self
  have hdate := hmet.date x (by simp)
  split
  · rename_i halive
    split
    · rename_i hdue
      have hnot : ¬ quiet := by
        intro hq
        have hlate := (hquiet.mp hq).1.1.1
        simp [hdate.mpr hdue] at hlate
      refine Exec.Split.andThen (P := fun m' => Doomed (some x) m')
        ((Memory.bridge_grows (m.setLst x none) (0, 0) x).mono (fun m' hm' => ?_)
          (fun _ _ => hnot)) (fun m' hm' => ?_)
      · exact Doomed.grow (m := m) (.inl ⟨x, rfl, hremoved⟩) hm'
      · exact (hm'.callback _ rfl g none).mono (fun m'' hm'' => .inr ⟨hnot, hm''⟩) (fun _ _ => hnot)
    · rename_i hlate
      have hx : x ∉ due := mt hdate.mp hlate
      refine .inl ⟨ghosts, todo, ?_, hlen, ⟨?_, htaking.told, htaking.rest, htaking.asked,
        htaking.listed, htaking.pending, htaking.nodup⟩, hmet.lists, hmet.chain.2,
        fun y hy => hmet.gone y (List.mem_cons_of_mem _ hy),
        fun y hy => hmet.date y (List.mem_cons_of_mem _ hy)⟩
      · have hnext : (m.items x).next = ghosts.head?.or todo.head? := hmet.chain.1
        rw [hnext, List.head?_append]
      · rw [hquiet, passes_done]
        simp [hx, halive]
  · rename_i hdead
    intro hq
    exact hdead (hquiet.mp hq).1.1.2

/-- An item of the list is under the pointer. -/
theorem last_item (hnb : g.nb = 0) (hscript : OnlyTakes script)
    (htaking : Taking quiet due m0 script [] (x :: todo) [] m)
    (hmet : LastMet g due bound [] (x :: todo) m) (hlen : todo.length ≤ n) :
    m.alive x = true ∧ if (m.items x).offset < bound then
      (((m.setLst x none).bridge (0, 0) x).andThen (Memory.callback g x)).Returns
        (LastTaking g quiet due m0 script bound n (m.items x).next [])
    else LastTaking g quiet due m0 script bound n (m.items x).next [] m := by
  obtain ⟨l, L, kept, hshows, hlast⟩ := hmet.lists
  have hnext : (m.items x).next = todo.head? := (hshows.held.links.around hlast).2
  have hdate := hmet.date x (by simp)
  refine ⟨(htaking.pending x List.mem_cons_self).2, ?_⟩
  rw [hnext]
  split
  · rename_i hdue
    have hx : (m.items x).lst = some (0, 0) := hshows.held.links.home (0, 0) x (by simp [hlast])
    rw [Exec.returns_andThen]
    refine (hshows.held.unlink_bridge hlast (fun _ => rfl)).mono (fun m1 hleft => ?_)
    have hshows1 := hshows.left hx hlast hleft
    refine last_acts hnb hscript ⟨[], todo, rfl, by simpa using hlen, ?_,
      ⟨_, _, kept, ⟨⟨hshows1.held.links, hshows1.held.alive⟩, hshows1.fills, hshows1.above,
        hshows1.offset, hshows1.data⟩, by simp⟩, trivial, fun y hy => (by cases hy), fun y hy => ?_⟩
    · have hsame : m1.script = m.script := hleft.relinked.script
      rw [hsame]
      refine htaking.hand (hdate.mpr hdue) hleft.relinked.alive rfl ?_
        (Memory.lst_link hleft.data)
      show m1.log ++ [Entry.handed x] = m.log ++ [Entry.handed x]
      rw [hleft.relinked.log]
    · have hsame : (m1.items y).offset = (m.items y).offset :=
        Memory.offset_link hleft.data y
      have hy := hmet.date y (by simp at hy; simp [hy])
      simpa [hsame] using hy
  · rename_i hlate
    have hx : x ∉ due := mt hdate.mp hlate
    refine ⟨[], todo, rfl, by simpa using hlen, ⟨?_, htaking.told.pass hx, htaking.rest,
      htaking.asked, htaking.listed, fun y hy => htaking.pending y (List.mem_cons_of_mem _ hy),
      htaking.nodup.tail⟩, ⟨l, L, kept ++ [x], hshows, by simp [hlast]⟩, trivial,
      fun y hy => (by cases hy), fun y hy => hmet.date y (by simp at hy; simp [hy])⟩
    have hquiet := htaking.quiet
    rw [passes_done, safe_idle (by simpa using hx)] at hquiet
    rw [passes_done]
    exact hquiet

/-- From one item to the next. -/
theorem last_callback (hnb : g.nb = 0) (hscript : OnlyTakes script)
    (h : LastTaking g quiet due m0 script bound (n + 1) (some x) [] m ∨
      (¬ quiet ∧ Doomed none m)) :
    if m.alive x = true then
      (if (m.items x).offset < bound then
        (((m.setLst x none).bridge (0, 0) x).andThen (Memory.callback g x)).Split
          (fun m' => LastTaking g quiet due m0 script bound n (m.items x).next [] m' ∨
            (¬ quiet ∧ Doomed none m')) (fun _ => ¬ quiet)
      else LastTaking g quiet due m0 script bound n (m.items x).next [] m ∨
        (¬ quiet ∧ Doomed none m))
    else ¬ quiet := by
  rcases h with ⟨ghosts, todo, hptr, hlen, ht, hm⟩ | ⟨hnot, hdoom⟩
  · cases ghosts with
    | cons y ghosts =>
      obtain rfl : x = y := by simpa using hptr
      exact last_ghost ht hm (by simpa using hlen)
    | nil =>
      cases todo with
      | nil => cases hptr
      | cons y todo =>
        obtain rfl : x = y := by simpa using hptr
        obtain ⟨halive, hstep⟩ := last_item hnb hscript ht hm (by simpa using hlen)
        rw [if_pos halive]
        split
        · rename_i hx
          rw [if_pos hx] at hstep
          exact (hstep.mono (fun _ h' => .inl h')).split _
        · rename_i hx
          rw [if_neg hx] at hstep
          exact .inl hstep
  · split
    · split
      · refine Exec.Split.andThen (P := fun m' => Doomed (some x) m')
          ((Memory.bridge_grows (m.setLst x none) (0, 0) x).mono (fun m' hm' => ?_)
            (fun _ _ => hnot)) (fun m' hm' => ?_)
        · exact (hdoom.later (some x)).grow hm'
        · exact (hm'.callback _ rfl g none).mono (fun _ h' => .inr ⟨hnot, h'⟩) (fun _ _ => hnot)
      · exact .inr ⟨hnot, hdoom⟩
    · exact hnot

end last

theorem last_settled {m : Memory T} {l : ExpIndexedList T g} {L : Bucket → List T}
    (h : Shows m l L) (hroomy : m.Roomy fuel) (hnb : g.nb = 0) {script : List (List (Act T))}
    (hscript : OnlyTakes script) :
    Settled g (Safe (fun x => decide (x ∈ l.shifted.out)) (L (0, 0)) script) m l.shifted.out
      script (m.shift g fuel script) := by
  obtain ⟨sa, nb, saPos⟩ := g
  obtain rfl : nb = 0 := hnb
  obtain ⟨offset, list, items⟩ := l
  cases list with
  | last xs =>
    have hfirst : L (0, 0) = xs := by simpa [Levels.Fills] using h.fills 0
    have hhead : m.subLists (0, 0) = xs.head? := by
      rw [← hfirst]
      exact h.held.links.root (0, 0)
    have hoff : m.offset = offset := h.offset
    have hdate : ∀ x, (m.items x).offset = (items x).offset :=
      fun x => congrArg ItemData.offset (congrFun h.data x)
    have hdue : ∀ x ∈ xs, x ∈ (ExpIndexedList.mk (g := ⟨sa, 0, saPos⟩) offset (.last xs)
        items).shifted.out ↔ (m.items x).offset < (m.offset + 1) % sizeMod := by
      intro x hx
      have hout : (ExpIndexedList.mk (g := ⟨sa, 0, saPos⟩) offset (.last xs) items).shifted.out =
          xs.filter (fun x => decide ((items x).offset < (offset + 1) % sizeMod)) := rfl
      simp [hout, hx, hdate, hoff]
    have hxs : ∀ x ∈ (ExpIndexedList.mk (g := ⟨sa, 0, saPos⟩) offset (.last xs)
        items).shifted.out, x ∈ xs := fun x hx => (List.mem_filter.mp hx).1
    rw [hfirst]
    generalize (ExpIndexedList.mk (g := ⟨sa, 0, saPos⟩) offset (.last xs) items).shifted.out = due
      at hdue hxs
    let m1 : Memory T := { m with offset := (m.offset + 1) % sizeMod, script := script, log := [] }
    have htaking : Taking (Safe (fun x => decide (x ∈ due)) xs script) due m script [] xs []
        m1 := by
      refine ⟨?_, told_start hxs, fun a ha => ha, fun x hx => (by cases hx), fun x hx => hx,
        fun x hx => ?_, hfirst ▸ h.held.links.nodup (0, 0)⟩
      · rw [passes_done, and_iff_right (fun y hy => by cases hy)]
      · have hx : x ∈ L (0, 0) := hfirst.symm ▸ hx
        have hhome : (m.items x).lst = some (0, 0) := h.held.links.home (0, 0) x hx
        exact ⟨by simp [m1, hhome], h.held.alive (0, 0) x hx⟩
    have hshows : Shows m1 (ExpIndexedList.mk (g := ⟨sa, 0, saPos⟩) ((m.offset + 1) % sizeMod)
        (.last xs) items) L :=
      ⟨⟨h.held.links, h.held.alive⟩, h.fills, h.above, rfl, h.data⟩
    have hmet : LastMet ⟨sa, 0, saPos⟩ due ((m.offset + 1) % sizeMod) [] xs m1 :=
      ⟨⟨_, L, [], hshows, hfirst⟩, trivial, fun x hx => (by cases hx), hdue⟩
    have hshift : m.shift ⟨sa, 0, saPos⟩ fuel script =
        Memory.lastWalk (Memory.callback ⟨sa, 0, saPos⟩) ((m.offset + 1) % sizeMod) fuel
          (m.subLists (0, 0)) m1 := rfl
    rw [Settled, hshift, hhead]
    refine Memory.lastWalk_split (J := fun n ptr m' =>
        LastTaking ⟨sa, 0, saPos⟩ (Safe (fun x => decide (x ∈ due)) xs script) due m script
          ((m.offset + 1) % sizeMod) n ptr [] m' ∨
        (¬ Safe (fun x => decide (x ∈ due)) xs script ∧ Doomed none m'))
      ?_ ?_ ?_ (.inl ⟨[], xs, rfl, ?_, htaking, hmet⟩)
    · rintro n m' (⟨ghosts, todo, hptr, -, ht, hm⟩ | ⟨hnot, hdoom⟩)
      · obtain ⟨rfl, rfl⟩ := List.append_eq_nil_iff.mp (List.head?_eq_none_iff.mp hptr.symm)
        obtain ⟨l', L', kept, hshows', -⟩ := hm.lists
        exact .inl ⟨ht.settle, ht.told, ht.asked, ht.listed, l', L', hshows'⟩
      · exact .inr ⟨hnot, hdoom.not_honoured _⟩
    · rintro x m' (⟨ghosts, todo, hptr, hlen, -⟩ | ⟨hnot, -⟩)
      · rw [List.length_eq_zero_iff.mp (Nat.le_zero.mp hlen)] at hptr
        cases hptr
      · exact hnot
    · exact fun n x m' hm' => last_callback rfl hscript hm'
    · rw [← hfirst]
      exact h.held.roomy hroomy _

end Evel.ExpIndexed
