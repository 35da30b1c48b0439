import Evel.Proofs.WheelMidway

namespace Evel.ExpIndexed
open General

variable {T : Type u} [DecidableEq T] {g : Geometry}

namespace Memory

/-- What the callbacks of the last shift got. -/
def handed (m : Memory T) : List T :=
  m.log.filterMap (fun e => match e with | .handed x => some x | .removed _ => none)

/-- What a shift hands over if the callbacks leave the list alone. -/
def due (m : Memory T) (g : Geometry) (fuel : Nat) : List T := (m.shift g fuel []).state.handed

/-- An item that `add` accepts. -/
def free (m : Memory T) (x : T) : Bool := m.alive x && (m.items x).lst.isNone

end Memory

/-- Which items `add` accepts after these calls. -/
def freeAfter (free : T → Bool) (as : List (Act T)) : T → Bool :=
  as.foldl (fun free a => match a with
    | .add x _ => Function.update free x false
    | .rem _ | .destroy _ => free) free

/-- No item that is accepted goes to the bucket behind the cursor. -/
def Calm (sa : Nat) : (free : T → Bool) → List (Act T) → Prop
  | _, [] => True
  | free, .add x index :: as =>
    (free x = true → index + 1 ≠ sa) ∧ Calm sa (Function.update free x false) as
  | free, _ :: as => Calm sa free as

/-- The same for the callbacks of the items `out`, one after the other. -/
def CalmShift (sa : Nat) : (free : T → Bool) → (out : List T) → List (List (Act T)) → Prop
  | _, [], _ => True
  | free, x :: out, script =>
    Calm sa (Function.update free x true) (script.headD []) ∧
      CalmShift sa (freeAfter (Function.update free x true) (script.headD [])) out script.tail

instance Calm.decidable (sa : Nat) :
    (free : T → Bool) → (as : List (Act T)) → Decidable (Calm sa free as)
  | _, [] => .isTrue trivial
  | free, .add x index :: as =>
    have := Calm.decidable sa (Function.update free x false) as
    inferInstanceAs (Decidable ((free x = true → index + 1 ≠ sa) ∧ _))
  | free, .rem _ :: as | free, .destroy _ :: as => Calm.decidable sa free as

instance CalmShift.decidable (sa : Nat) : (free : T → Bool) → (out : List T) →
    (script : List (List (Act T))) → Decidable (CalmShift sa free out script)
  | _, [], _ => .isTrue trivial
  | free, x :: out, script =>
    have := CalmShift.decidable sa
      (freeAfter (Function.update free x true) (script.headD [])) out script.tail
    inferInstanceAs (Decidable (Calm sa _ (script.headD []) ∧ CalmShift sa _ out script.tail))

/-- The callbacks of a shift do nothing but add items. -/
def OnlyAdds (script : List (List (Act T))) : Prop :=
  ∀ a ∈ script.flatten, ∃ x index, a = .add x index

/-- The calls that the lists get to see: the accepted ones. -/
def addAll (l : ExpIndexedList T g) (adds : List (T × Nat)) : ExpIndexedList T g :=
  adds.foldl (fun l e => l.add e.1 e.2) l

/-- The calls of the next callback and those that follow it. -/
theorem headD_append_tail {α : Type*} (script : List (List α)) :
    script.headD [] ++ script.tail.flatten = script.flatten := by
  cases script <;> simp

/-- A bucket behind the cursor is found for one index only. -/
theorem target_walked_iff (hsa : g.sa < 2 ^ 31) (hnb : g.nb ≠ 0) (hc : c < g.sa)
    (hcur : cur g.nb = c + 1) :
    target g.sa cur g.nb 1 0 index = (g.nb, c) ↔ index + 1 = g.sa := by
  obtain ⟨n, hn⟩ := Nat.exists_eq_succ_of_ne_zero hnb
  have hnext : nextIndex g.sa 1 0 = g.sa := by
    unfold nextIndex sizeMod
    rw [Nat.mod_eq_of_lt (by omega)]
    omega
  rw [hn] at hcur ⊢
  simp only [target, hnext]
  split
  · rename_i hge
    have hdepth := target_depth g.sa cur n (nextPm g.sa 1) g.sa index
    refine ⟨fun he => ?_, fun he => by omega⟩
    rw [he] at hdepth
    exact absurd hdepth (by simp)
  · rename_i hlt
    have hlt := Nat.not_le.mp hlt
    have hsub : sizeSub index 0 = index := sizeSub_eq (Nat.zero_le _) (by unfold sizeMod; omega)
    simp only [hsub, Nat.div_one, hcur, Prod.mk.injEq, true_and]
    have hmod : (c + 1 + index) % sizeMod = c + 1 + index :=
      Nat.mod_eq_of_lt (by unfold sizeMod; omega)
    rw [hmod]
    rcases Nat.lt_or_ge (c + 1 + index) g.sa with h | h
    · rw [Nat.mod_eq_of_lt h]
      omega
    · rw [Nat.mod_eq_sub_mod h, Nat.mod_eq_of_lt (by omega)]
      omega

/-- The state of a shift between two calls that its callbacks make: `as` are still to be made by
the callback that runs, `todo` are the items that are still to be handed over. -/
structure Rearming (quiet : Prop) (m0 : Memory T) (l : ExpIndexedList T g)
    (script : List (List (Act T))) (b : Bucket) (todo : List T) (as : List (Act T))
    (m : Memory T) : Prop where
  lists : ∃ adds back L, Midway m (addAll l.shift adds) b back L todo ∧
    (adds.map (fun e => Act.add e.1 e.2) ++ (as ++ m.script.flatten)).Sublist script.flatten ∧
    ∀ x, (m.items x).lst ≠ none → (m0.items x).lst ≠ none ∨ x ∈ adds.map Prod.fst
  calm : quiet ↔ Calm g.sa m.free as ∧ CalmShift g.sa (freeAfter m.free as) todo m.script
  cur : m.curList g.nb = b.2 + 1
  alive : m.alive = m0.alive
  handed : m.handed ++ todo = l.shifted.out
  head : ∀ x, m.subLists b = some x → m.alive x = true

/-- An item was added to the bucket that is walked: nothing leads to it any more. -/
structure Stranded (quiet : Prop) (b : Bucket) (todo : List T) (m : Memory T) : Prop where
  calm : ¬ quiet
  lists : ∃ L y, (m.seen (Function.update m.subLists b todo.head?) (fun _ => none)).Shows L ∧
    L b = todo ∧ (∀ c, ∀ x ∈ L c, m.alive x = true) ∧ (m.items y).lst ≠ none ∧ ∀ c, y ∉ L c
  head : ∀ x, m.subLists b = some x → m.alive x = true
  adds : OnlyAdds m.script

omit [DecidableEq T] in
theorem Memory.Relinked.handed {m m' : Memory T} (h : Memory.Relinked m m') :
    m'.handed = m.handed := by
  rw [Memory.handed, h.log]
  rfl

/-- An item that is not accepted stays what it is. -/
theorem calm_ignored (free : T → Bool) {x : T} (hx : free x = false) :
    Function.update free x false = free := by
  rw [← hx, Function.update_eq_self]

/-- What `add` writes when it accepts an item. -/
structure Memory.Added (m : Memory T) (c : Bucket) (x : T) (m' : Memory T) : Prop where
  subLists : m'.subLists = Function.update m.subLists c (some x)
  lst : ∀ z, (m'.items z).lst = if z = x then some c else (m.items z).lst
  next : ∀ z, (m'.items z).next = if z = x then m.subLists c else (m.items z).next
  relinked : Memory.Relinked m m'

theorem Memory.add_added (g : Geometry) (m : Memory T) (hx : (m.items x).lst = none) (index : Nat)
    (hfirst : ∀ z, m.subLists (target g.sa m.curList g.nb 1 0 index) = some z →
      m.alive z = true) :
    (m.add g x index).Returns (m.Added (target g.sa m.curList g.nb 1 0 index) x) := by
  rw [m.add_push g hx]
  generalize target g.sa m.curList g.nb 1 0 index = c at hfirst
  refine (Memory.push_writes c x (m.dated x index).subLists (fun _ => none) rfl hfirst).mono ?_
  intro m' hm'
  obtain ⟨hseen, hsub, hdata, hrel⟩ := hm'
  refine ⟨hsub, fun z => ?_, fun z => ?_, (Memory.setItem_relinked m x _).trans hrel⟩
  · rw [Memory.lst_link hdata z]
    by_cases hz : z = x <;> simp [hz, Memory.dated]
  · have hd := congrFun (congrArg Links.next hseen) z
    by_cases hz : z = x
    · subst hz
      simpa [Memory.seen, Links.push, Memory.dated] using hd
    · simpa [Memory.seen, Links.push, hz, Memory.dated] using hd

/-- One more item behind the walk is lost like the first. -/
theorem Stranded.added_behind {m m' : Memory T} (h : Stranded quiet b todo m)
    (hx : (m.items x).lst = none) (ha : m.alive x = true) (hadd : m.Added b x m') :
    Stranded quiet b todo m' := by
  obtain ⟨L, y, hshows, hb, halive, hy, hnot⟩ := h.lists
  have hsame : m'.alive = m.alive := hadd.relinked.alive
  refine ⟨h.calm, ⟨L, y, ?_, hb, fun d z hz => ?_, ?_, hnot⟩, fun z hz => ?_,
    hadd.relinked.script ▸ h.adds⟩
  · refine hshows.stray (hshows.unlisted hx) (fun d => ?_) (fun z hz => ?_) (fun z hz => ?_)
    · simp [Memory.seen, hadd.subLists]
    · simp [Memory.seen, hadd.next z, hz]
    · simp [Memory.seen, hadd.lst z, hz]
  · rw [hsame]
    exact halive d z hz
  · rw [hadd.lst]
    split
    · simp
    · exact hy
  · rw [hadd.subLists, Function.update_self] at hz
    obtain rfl : x = z := by simpa using hz
    rw [hsame]
    exact ha

/-- Elsewhere items are added as ever. -/
theorem Stranded.added_elsewhere {m m' : Memory T} (h : Stranded quiet b todo m)
    (hx : (m.items x).lst = none) (ha : m.alive x = true) (hc : c ≠ b) (hadd : m.Added c x m') :
    Stranded quiet b todo m' := by
  obtain ⟨L, y, hshows, hb, halive, hy, hnot⟩ := h.lists
  have hsame : m'.alive = m.alive := hadd.relinked.alive
  have hyx : y ≠ x := by
    rintro rfl
    exact hy hx
  refine ⟨h.calm, ⟨Function.update L c (x :: L c), y, ?_, ?_, fun d z hz => ?_, ?_, fun d hm => ?_⟩,
    fun z hz => ?_, hadd.relinked.script ▸ h.adds⟩
  · have hroot : Function.update m.subLists b todo.head? c = m.subLists c :=
      Function.update_of_ne hc _ _
    refine (hshows.push hx c).congr ?_ (funext fun z => ?_) (funext fun z => ?_)
    · simp only [Memory.seen, Links.push, hadd.subLists]
      exact Function.update_comm hc _ _ _
    · by_cases hz : z = x <;> simp [Memory.seen, Links.push, hadd.next, hroot, hz]
    · by_cases hz : z = x <;> simp [Memory.seen, Links.push, hadd.lst, hz]
  · rwa [Function.update_of_ne (Ne.symm hc)]
  · rw [hsame]
    by_cases hd : d = c
    · subst hd
      rcases List.mem_cons.mp (by simpa using hz) with rfl | hz
      · exact ha
      · exact halive d z hz
    · exact halive d z (by simpa [hd] using hz)
  · rwa [hadd.lst, if_neg hyx]
  · by_cases hd : d = c
    · subst hd
      rcases List.mem_cons.mp (by simpa using hm) with rfl | hm
      · exact hyx rfl
      · exact hnot d hm
    · exact hnot d (by simpa [hd] using hm)
  · rw [hadd.subLists, Function.update_of_ne (Ne.symm hc)] at hz
    rw [hsame]
    exact h.head z hz

/-- What a stray item does not change: the lists that lead elsewhere. -/
theorem Stranded.add {m : Memory T} (h : Stranded quiet b todo m) (x : T)
    (ha : m.alive x = true) (index : Nat) :
    (m.add g x index).Returns (Stranded quiet b todo) := by
  cases hx : (m.items x).lst with
  | some c =>
    simpa [Memory.add, hx] using h
  | none =>
    obtain ⟨L, y, hshows, -, halive, -⟩ := h.lists
    have hadd := m.add_added g hx index
    generalize target g.sa m.curList g.nb 1 0 index = c at hadd
    refine (hadd fun z hz => ?_).mono (fun m' hm' => ?_)
    · by_cases hc : c = b
      · exact h.head z (hc ▸ hz)
      · have hroot := hshows.root c
        simp only [Memory.seen, Function.update_of_ne hc] at hroot
        exact halive c z (List.mem_of_mem_head? (hroot ▸ hz))
    · by_cases hc : c = b
      · subst hc
        exact h.added_behind hx ha hm'
      · exact h.added_elsewhere hx ha hc hm'

/-- An item that is added to the bucket that is walked. -/
theorem Midway.strand {m : Memory T} {l : ExpIndexedList T g} (h : Midway m l b back L todo)
    (hx : (m.items x).lst = none) (ha : m.alive x = true)
    (ht : target g.sa m.curList g.nb 1 0 index = b) (hquiet : ¬ quiet)
    (hhead : ∀ x, m.subLists b = some x → m.alive x = true) (hadds : OnlyAdds m.script) :
    (m.add g x index).Returns (Stranded quiet b todo) := by
  have hadd := m.add_added g hx index
  rw [ht] at hadd
  refine (hadd hhead).mono (fun m' hadd => ?_)
  have hlinks : (m.seen (Function.update m.subLists b todo.head?)
      (Function.update (fun _ => none) b back)).Shows L := by
    have hw := h.walked.links.toShows
    rwa [h.rest] at hw
  have hnot := hlinks.unlisted hx
  have hsame : m'.alive = m.alive := hadd.relinked.alive
  refine ⟨hquiet, ⟨L, x, ?_, h.rest, fun c z hz => ?_, ?_, hnot⟩, fun z hz => ?_,
    hadd.relinked.script ▸ hadds⟩
  · refine hlinks.stray hnot (fun d => ?_) (fun z hz => ?_) (fun z hz => ?_)
    · simp [Memory.seen, hadd.subLists]
    · simp [Memory.seen, hadd.next z, hz]
    · simp [Memory.seen, hadd.lst z, hz]
  · rw [hsame]
    exact h.walked.alive c z hz
  · simp [hadd.lst x]
  · rw [hadd.subLists, Function.update_self] at hz
    obtain rfl : x = z := by simpa using hz
    rw [hsame]
    exact ha

section walk
variable {quiet : Prop} {m0 m : Memory T} {l : ExpIndexedList T g} {script : List (List (Act T))}

omit [DecidableEq T] in
/-- What the callbacks have still to do is part of the script. -/
theorem Rearming.onlyAdds [DecidableEq T] (h : Rearming quiet m0 l script b todo as m)
    (hadds : OnlyAdds script) : OnlyAdds m.script := by
  obtain ⟨adds, back, L, hmid, hsub, hlisted⟩ := h.lists
  intro a ha
  exact hadds a (hsub.subset (by simp [ha]))

/-- A call that is not accepted is over at once. -/
theorem Rearming.ignore (h : Rearming quiet m0 l script b todo (.add x index :: as) m)
    (hx : m.free x = false) : Rearming quiet m0 l script b todo as m := by
  obtain ⟨adds, back, L, hmid, hsub, hlisted⟩ := h.lists
  have hcalm := h.calm
  simp only [Calm, freeAfter, List.foldl_cons, calm_ignored _ hx] at hcalm
  refine ⟨⟨adds, back, L, hmid, ?_, hlisted⟩, ?_, h.cur, h.alive, h.handed, h.head⟩
  · refine List.Sublist.trans ?_ hsub
    exact List.Sublist.append (List.Sublist.refl _) (List.sublist_cons_self _ _)
  · simpa [hx, freeAfter] using hcalm

/-- A call of a callback that adds. -/
theorem Rearming.act (h : Rearming quiet m0 l script b todo (.add x index :: as) m)
    (hsa : g.sa < 2 ^ 31) (hnb : b.1 = g.nb) (hpos : g.nb ≠ 0) (hb : b.2 < g.sa)
    (hadds : OnlyAdds script) :
    (m.act g (.add x index)).Returns fun m' =>
      Rearming quiet m0 l script b todo as m' ∨ Stranded quiet b todo m' := by
  cases ha : m.alive x with
  | false =>
    have hfree : m.free x = false := by simp [Memory.free, ha]
    simpa [Memory.act, ha] using .inl (h.ignore hfree)
  | true =>
    simp only [Memory.act, ha, ↓reduceIte]
    cases hx : (m.items x).lst with
    | some c =>
      have hfree : m.free x = false := by simp [Memory.free, hx]
      simpa [Memory.add, hx] using .inl (h.ignore hfree)
    | none =>
      have hfree : m.free x = true := by simp [Memory.free, ha, hx]
      obtain ⟨adds, back, L, hmid, hsub, hlisted⟩ := h.lists
      have htarget : target g.sa m.curList g.nb 1 0 index = b ↔ index + 1 = g.sa := by
        have hbucket : b = (g.nb, b.2) := Prod.ext hnb rfl
        rw [hbucket]
        exact target_walked_iff hsa hpos hb h.cur
      have hcalm := h.calm
      simp only [Calm, hfree, forall_const] at hcalm
      by_cases hindex : index + 1 = g.sa
      · have hquiet : ¬ quiet := fun hq => (hcalm.mp hq).1.1 hindex
        exact (hmid.strand hx ha (htarget.mpr hindex) hquiet h.head
          (h.onlyAdds hadds)).mono (fun m' hm' => .inr hm')
      · refine (hmid.add hx ha (mt htarget.mp hindex)).mono ?_
        intro m' hm'
        obtain ⟨⟨L', hmid'⟩, hrel, hhead, hxlst, hlst⟩ := hm'
        have hfree' : m'.free = Function.update m.free x false := by
          funext y
          by_cases hy : y = x
          · subst hy
            cases hy' : (m'.items y).lst with
            | none => exact absurd hy' hxlst
            | some c => simp [Memory.free, hy']
          · simp [Memory.free, hy, hlst y hy, hrel.alive]
        refine .inl ⟨⟨adds ++ [(x, index)], back, L', ?_, ?_, fun y hy => ?_⟩, ?_, ?_,
          hrel.alive.trans h.alive, hrel.handed ▸ h.handed, ?_⟩
        · simpa [addAll] using hmid'
        · simpa [hrel.script] using hsub
        · by_cases hyx : y = x
          · simp [hyx]
          · rcases hlisted y (hlst y hyx ▸ hy) with hy | hy
            · exact .inl hy
            · simp only [List.map_append, List.mem_append]
              exact .inr (.inl hy)
        · simpa [hindex, hfree', hrel.script, freeAfter] using hcalm
        · rw [hrel.curList]
          exact h.cur
        · rw [hhead, hrel.alive]
          exact h.head

/-- All calls of a callback. -/
theorem acts_rearm (hsa : g.sa < 2 ^ 31) (hnb : b.1 = g.nb) (hpos : g.nb ≠ 0) (hb : b.2 < g.sa)
    (hscript : OnlyAdds script) (hadds : ∀ a ∈ as, ∃ x index, a = .add x index)
    (h : Rearming quiet m0 l script b todo as m ∨ Stranded quiet b todo m) :
    (Memory.acts g as m).Returns fun m' =>
      Rearming quiet m0 l script b todo [] m' ∨ Stranded quiet b todo m' := by
  induction as generalizing m with
  | nil => exact h
  | cons a as ih =>
    obtain ⟨x, index, rfl⟩ := hadds a List.mem_cons_self
    have hrest := fun a ha => hadds a (List.mem_cons_of_mem _ ha)
    rw [Memory.acts, Exec.returns_andThen]
    rcases h with h | h
    · exact (h.act hsa hnb hpos hb hscript).mono (fun m' hm' => ih hrest hm')
    · simp only [Memory.act]
      split
      · rename_i ha
        exact (h.add x ha index).mono (fun m' hm' => ih hrest (.inr hm'))
      · exact ih hrest (.inr h)

/-- What the callback of `x` finds, if the shift is quiet so far. -/
theorem Rearming.hand (h : Rearming quiet m0 l script b (x :: todo) [] m) :
    m.alive x = true ∧ (m.items x).next = todo.head? ∧
      Rearming quiet m0 l script b todo (m.script.headD [])
        { m.setLst x none with script := m.script.tail, log := m.log ++ [.handed x] } := by
  obtain ⟨adds, back, L, hmid, hsub, hlisted⟩ := h.lists
  obtain ⟨halive, hnext, hmid'⟩ := hmid.hand
  refine ⟨halive, hnext, ⟨adds, some x, _, hmid'.congr rfl rfl rfl rfl rfl, ?_, fun y hy => ?_⟩,
    ?_, h.cur, h.alive, ?_, h.head⟩
  · rw [headD_append_tail]
    simpa using hsub
  · by_cases hyx : y = x
    · subst hyx
      simp at hy
    · refine hlisted y ?_
      simpa [hyx] using hy
  · have hfree : Memory.free { m.setLst x none with
        script := m.script.tail, log := m.log ++ [.handed x] } =
        Function.update m.free x true := by
      funext y
      by_cases hy : y = x
      · subst hy
        simp [Memory.free, halive]
      · simp [Memory.free, hy]
    rw [hfree]
    simpa [Calm, freeAfter, CalmShift] using h.calm
  · have hlog := h.handed
    simp only [Memory.handed, List.filterMap_append] at hlog ⊢
    rw [← hlog, List.append_assoc]
    rfl

theorem Stranded.hand (h : Stranded quiet b (x :: todo) m) :
    m.alive x = true ∧ (m.items x).next = todo.head? ∧
      Stranded quiet b todo
        { m.setLst x none with script := m.script.tail, log := m.log ++ [.handed x] } := by
  obtain ⟨L, y, hshows, hb, halive, hy, hnot⟩ := h.lists
  have hnext : (m.items x).next = todo.head? := hshows.next_head hb
  have hpass := hshows.pass hb
  have hyx : y ≠ x := by
    rintro rfl
    exact hnot b (by simp [hb])
  refine ⟨halive b x (by simp [hb]), hnext, h.calm, ⟨Function.update L b todo, y, ?_, by simp,
    fun c z hz => ?_, by simpa [hyx] using hy, fun c hm => ?_⟩, h.head, fun a ha => ?_⟩
  · refine ⟨fun c => ?_, fun c => ?_, hpass.nodup, fun c z hz => ?_⟩
    · have hroot := hpass.root c
      simpa [Memory.seen, Links.pass, hnext] using hroot
    · refine (hpass.next c).congr (fun z _ => ?_)
      by_cases hz : z = x <;> simp [Memory.seen, hz]
    · have hhome := hpass.home c z hz
      have hzx : z ≠ x := by
        rintro rfl
        simp [Links.pass] at hhome
      simpa [Memory.seen, Links.pass, hzx] using hhome
  · refine halive c z ?_
    by_cases hc : c = b
    · subst hc
      rw [hb]
      exact List.mem_cons_of_mem _ (by simpa using hz)
    · simpa [hc] using hz
  · by_cases hc : c = b
    · subst hc
      exact hnot c (by rw [hb]; exact List.mem_cons_of_mem _ (by simpa using hm))
    · exact hnot c (by simpa [hc] using hm)
  · refine h.adds a ?_
    rw [← headD_append_tail]
    exact List.mem_append_right _ ha

/-- From one callback of the outermost shift to the next. -/
theorem callback_rearms (hsa : g.sa < 2 ^ 31) (hnb : b.1 = g.nb) (hpos : g.nb ≠ 0)
    (hb : b.2 < g.sa) (hadds : OnlyAdds script)
    (h : Rearming quiet m0 l script b (x :: todo) [] m ∨ Stranded quiet b (x :: todo) m) :
    m.alive x = true ∧ (m.items x).next = todo.head? ∧
      (Memory.callback g x (m.setLst x none)).Returns fun m' =>
        Rearming quiet m0 l script b todo [] m' ∨ Stranded quiet b todo m' := by
  have hscript : OnlyAdds m.script := by
    rcases h with h | h
    · exact h.onlyAdds hadds
    · exact h.adds
  have hhead : ∀ a ∈ m.script.headD [], ∃ x index, a = .add x index := by
    intro a ha
    refine hscript a ?_
    rw [← headD_append_tail]
    exact List.mem_append_left _ ha
  rcases h with h | h
  · obtain ⟨halive, hnext, h⟩ := h.hand
    exact ⟨halive, hnext, acts_rearm hsa hnb hpos hb hadds hhead (.inl h)⟩
  · obtain ⟨halive, hnext, h⟩ := h.hand
    exact ⟨halive, hnext, acts_rearm hsa hnb hpos hb hadds hhead (.inr h)⟩

end walk

/-- What a quiet shift leaves: the lists after the shift and the accepted adds. -/
structure Rearmed (m : Memory T) (l : ExpIndexedList T g) (script : List (List (Act T)))
    (adds : List (T × Nat)) (m' : Memory T) : Prop where
  shows : ∃ L, Shows m' (addAll l.shift adds) L
  accepted : (adds.map (fun e => Act.add e.1 e.2)).Sublist script.flatten
  listed : ∀ x, (m'.items x).lst ≠ none → (m.items x).lst ≠ none ∨ x ∈ adds.map Prod.fst
  alive : m'.alive = m.alive
  handed : m'.handed = l.shifted.out

/-- A shift whose callbacks add comes to its end. If it is quiet, the lists are as if all adds had
come after it; if not, some item has a list but is in none. -/
theorem shift_rearms {m : Memory T} {l : ExpIndexedList T g} (h : Shows m l L)
    (hroomy : m.Roomy fuel) (hsa : g.sa < 2 ^ 31) (hpos : g.nb ≠ 0) (hadds : OnlyAdds script) :
    (m.shift g fuel script).Returns fun m' =>
      (CalmShift g.sa m.free l.shifted.out script ∧ ∃ adds, Rearmed m l script adds m') ∨
      (¬ CalmShift g.sa m.free l.shifted.out script ∧ ∃ L' y,
        (m'.seen m'.subLists (fun _ => none)).Shows L' ∧ (m'.items y).lst ≠ none ∧
          ∀ c, y ∉ L' c) := by
  obtain ⟨m1, b, L1, hstart, hshift⟩ := shift_walks h hroomy hpos script
  have hfree : m1.free = m.free := by
    funext x
    have hl := hstart.listed x
    simp only [Memory.free, hstart.alive]
    cases hx : (m.items x).lst with
    | none => simp [hl.mpr hx]
    | some c =>
      have hne : (m1.items x).lst ≠ none := fun hn => by simp [hl.mp hn] at hx
      obtain ⟨d, hd⟩ := Option.ne_none_iff_exists'.mp hne
      simp [hd]
  have hinit : Rearming (CalmShift g.sa m.free l.shifted.out script) m l script b l.shifted.out []
      m1 := by
    refine ⟨⟨[], none, L1, hstart.midway, by simp [hstart.script], fun x hx => ?_⟩, ?_, hstart.cur,
      hstart.alive, by simp [Memory.handed, hstart.log], fun x hx => ?_⟩
    · exact .inl (mt (hstart.listed x).mpr hx)
    · simp [Calm, freeAfter, hfree, hstart.script]
    · rw [hstart.head] at hx
      refine hstart.midway.walked.alive b x ?_
      rw [hstart.midway.rest]
      exact List.mem_of_mem_head? hx
  rw [hshift, Exec.returns_map]
  refine (Memory.walk_rule (fun x todo m' hm' =>
    callback_rearms hsa hstart.level hpos hstart.below hadds hm') (.inl hinit)
      (hstart.short hroomy)).mono ?_
  rintro m2 (h2 | h2)
  · obtain ⟨adds, back, L2, hmid, hsub, hlisted⟩ := h2.lists
    refine .inl ⟨h2.calm.mpr ⟨trivial, trivial⟩, adds, ⟨L2, hmid.finish⟩, ?_, hlisted, h2.alive, ?_⟩
    · exact (List.sublist_append_left _ _).trans hsub
    · have hlog := h2.handed
      rwa [List.append_nil] at hlog
  · obtain ⟨L2, y, hshows, hb, halive, hy, hnot⟩ := h2.lists
    exact .inr ⟨h2.calm, L2, y, hshows, hy, hnot⟩

end Evel.ExpIndexed
