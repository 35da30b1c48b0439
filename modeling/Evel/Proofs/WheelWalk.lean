import Evel.Proofs.WheelShows

namespace Evel.ExpIndexed
open General

variable {T : Type u} [DecidableEq T]

namespace Memory
variable {m : Memory T} {L : Bucket → List T}

/-- The loop of a level: what each callback keeps for the items that follow holds at the end. The
loop ends after the items that were there. -/
theorem walk_rule {I : List T → Memory T → Prop} {f : T → Memory T → Exec (Memory T)}
    (hstep : ∀ x todo m, I (x :: todo) m → m.alive x = true ∧ (m.items x).next = todo.head? ∧
      (f x (m.setLst x none)).Returns (I todo))
    (h : I todo m) (hfuel : todo.length ≤ fuel) :
    (walk f fuel todo.head? m).Returns (I []) := by
  induction todo generalizing m fuel with
  | nil =>
    cases fuel <;> exact h
  | cons x todo ih =>
    obtain ⟨fuel, rfl⟩ : ∃ n, fuel = n + 1 := ⟨fuel - 1, by simp at hfuel; omega⟩
    obtain ⟨halive, hnext, hf⟩ := hstep x todo m h
    simp only [List.head?_cons, walk, halive, ↓reduceIte, hnext, Exec.returns_andThen]
    exact hf.mono (fun m' hm' => ih hm' (by simpa using hfuel))

/-- The loop of the last bucket. -/
theorem lastWalk_rule {I : List T → Memory T → Prop} {f : T → Memory T → Exec (Memory T)}
    (hstep : ∀ x todo m, I (x :: todo) m → m.alive x = true ∧ (m.items x).next = todo.head? ∧
      if (m.items x).offset < bound then
        (((m.setLst x none).bridge (0, 0) x).andThen (f x)).Returns
          (I todo)
      else I todo m)
    (h : I todo m) (hfuel : todo.length ≤ fuel) :
    (lastWalk f bound fuel todo.head? m).Returns (I []) := by
  induction todo generalizing m fuel with
  | nil =>
    cases fuel <;> exact h
  | cons x todo ih =>
    obtain ⟨fuel, rfl⟩ : ∃ n, fuel = n + 1 := ⟨fuel - 1, by simp at hfuel; omega⟩
    obtain ⟨halive, hnext, hf⟩ := hstep x todo m h
    simp only [List.head?_cons, lastWalk, halive, ↓reduceIte, hnext]
    split at hf
    · rename_i hdue
      simp only [hdue, ↓reduceIte, Exec.returns_andThen]
      rw [Exec.returns_andThen] at hf
      exact hf.mono (fun m' hm' => hm'.mono (fun m'' h'' => ih h'' (by simpa using hfuel)))
    · rename_i hdue
      simp only [hdue, ↓reduceIte]
      exact ih hf (by simpa using hfuel)

/-- Bucket `b` is walked: its list starts at the pointer of the loop, behind the item that the
callback has. -/
def Walked (m : Memory T) (b : Bucket) (back : Option T) (L : Bucket → List T) : Prop :=
  m.Held (Function.update m.subLists b (L b).head?) (Function.update (fun _ => none) b back) L

omit [DecidableEq T] in
theorem Held.walked (h : m.Held m.subLists (fun _ => none) L) (b : Bucket) :
    m.Walked b none L := by
  have hroot : m.subLists b = (L b).head? := h.links.root b
  rw [Walked, ← hroot, Function.update_eq_self]
  simpa using h

/-- The item under the pointer goes to the callback. -/
theorem Walked.hand (h : m.Walked b back L) (hb : L b = x :: todo) :
    m.alive x = true ∧ (m.items x).next = todo.head? ∧
      (m.setLst x none).Walked b (some x) (Function.update L b todo) ∧
      (m.setLst x none).data = link m.data x none := by
  have hnext : (m.items x).next = todo.head? := h.links.next_head hb
  refine ⟨h.alive b x (by simp [hb]), hnext, ⟨?_, fun c y hy => ?_⟩, ?_⟩
  · have hseen : (m.setLst x none).seen
        (Function.update m.subLists b (Function.update L b todo b).head?)
        (Function.update (fun _ => none) b (some x)) =
        (m.seen (Function.update m.subLists b (L b).head?)
          (Function.update (fun _ => none) b back)).pass b x := by
      simp only [seen, Links.pass, Links.mk.injEq, Function.update_self, Function.update_idem,
        true_and, hnext, setLst_items]
      refine ⟨?_, ?_, ?_⟩ <;> funext y <;> by_cases hy : y = x <;> simp [hy, hnext]
    rw [setLst_subLists, hseen]
    exact h.links.pass hb
  · refine h.alive c y ?_
    by_cases hc : c = b
    · subst hc
      rw [hb]
      exact List.mem_cons_of_mem _ (by simpa using hy)
    · simpa [hc] using hy
  · funext y
    by_cases hy : y = x <;> simp [data, link, hy]

/-- While a bucket is walked, items may be added to the others. -/
theorem Walked.push (h : m.Walked b back L) (hx : (m.items x).lst = none)
    (ha : m.alive x = true) (hc : c ≠ b) :
    (m.push c x).Returns fun m' =>
      m'.Walked b back (Function.update L c (x :: L c)) ∧
      m'.data = link m.data x (some c) ∧ m'.subLists b = m.subLists b ∧ Relinked m m' := by
  refine (Held.push h hx ha (Function.update_of_ne hc _ _) (Function.update_of_ne hc _ _)).mono ?_
  intro m' hm'
  obtain ⟨hheld, hsub, hdata, hrel⟩ := hm'
  refine ⟨?_, hdata, ?_, hrel⟩
  · rw [Walked, hsub, Function.update_of_ne hc.symm, Function.update_comm hc]
    exact hheld
  · rw [hsub, Function.update_of_ne hc.symm]

omit [DecidableEq T] in
/-- When the loop has come to the end, the head of its bucket is reset. -/
theorem Walked.finish (h : m.Walked b back L) (hb : L b = []) :
    (m.setHead b none).Held (m.setHead b none).subLists (fun _ => none) L := by
  have hroot : (m.setHead b none).subLists = Function.update m.subLists b (L b).head? := by
    simp [hb]
  rw [hroot]
  refine ⟨⟨⟨h.links.root, h.links.next, h.links.nodup, h.links.home⟩, fun c => ?_, h.links.mem⟩,
    h.alive⟩
  by_cases hc : c = b
  · subst hc
    rw [hb]
    trivial
  · have hprev := h.links.prev c
    simpa [seen, hc] using hprev

/-- No walk meets more items than `fuel`. -/
def Roomy (m : Memory T) (fuel : Nat) : Prop :=
  ∀ xs : List T, xs.Nodup → (∀ x ∈ xs, (m.items x).lst ≠ none) → xs.length ≤ fuel

omit [DecidableEq T] in
theorem Roomy.mono (h : m.Roomy k) (hk : k ≤ n) : m.Roomy n :=
  fun xs hnd hxs => Nat.le_trans (h xs hnd hxs) hk

omit [DecidableEq T] in
/-- What takes items out leaves room. -/
theorem Roomy.shrink {m' : Memory T} (h : m.Roomy k)
    (hlisted : ∀ x, (m'.items x).lst ≠ none → (m.items x).lst ≠ none) : m'.Roomy k :=
  fun xs hnd hxs => h xs hnd (fun x hx => hlisted x (hxs x hx))

omit [DecidableEq T] in
theorem new_roomy (T : Type u) (offset : Nat) : (Memory.new T offset).Roomy 0 := by
  intro xs _ hxs
  cases xs with
  | nil => exact Nat.le_refl _
  | cons x xs => exact absurd rfl (hxs x List.mem_cons_self)

omit [DecidableEq T] in
theorem Held.roomy {root back : Bucket → Option T} (h : m.Held root back L) (hf : m.Roomy fuel)
    (b : Bucket) : (L b).length ≤ fuel := by
  refine hf _ (h.links.nodup b) (fun x hx => ?_)
  have hhome : (m.items x).lst = some b := h.links.home b x hx
  simp [hhome]

end Memory

/-- The cascade lambda of a level on the lists of that level. -/
def pour (sa depth pm globOffset : Nat) (s : Store T) (x : T) : Store T :=
  addLoc sa depth pm 0 s x (sizeSub (s.items x).offset globOffset)

omit [DecidableEq T] in
theorem unlink_cons [DecidableEq T] (items : T → ItemData) (x : T) (out : List T) :
    unlink (link items x none) out = unlink items (x :: out) := by
  funext y
  by_cases hy : y = x
  · subst hy
    by_cases ho : y ∈ out <;> simp [unlink, link, ho]
  · by_cases ho : y ∈ out <;> simp [unlink, link, hy, ho]

/-- The items that are still to come do not matter for the one that is moved. -/
theorem pour_unlink (sub : Nat → List T) (items : T → ItemData) {out : List T} (hx : x ∉ out) :
    pour sa depth pm glob ⟨sub, unlink items out⟩ x =
      ⟨(pour sa depth pm glob ⟨sub, items⟩ x).subLists,
        unlink (pour sa depth pm glob ⟨sub, items⟩ x).items out⟩ := by
  have hoff : (unlink items out x).offset = (items x).offset := unlink_offset _ _ _
  simp only [pour, addLoc, hoff, Store.mk.injEq, true_and]
  funext y
  by_cases hy : y = x
  · subst hy
    simp [unlink, link, hx]
  · by_cases ho : y ∈ out <;> simp [unlink, link, hy, ho]

/-- The level of depth `d` holds these buckets. -/
def LevelIs (L : Bucket → List T) (sa d : Nat) (sub : Nat → List T) : Prop :=
  ∀ b, L (d, b) = if b < sa then sub b else []

/-- One item of a cascade: it goes to the bucket that the lists say. -/
theorem pour_step {m : Memory T} {root back : Bucket → Option T} {L : Bucket → List T}
    (h : m.Held root back L) (saPos : 0 < sa)
    (hlevel : LevelIs L sa d sub) (hx : (m.items x).lst = none) (ha : m.alive x = true)
    (hcur : m.curList d = 0) (hroot : ∀ b, root (d, b) = m.subLists (d, b))
    (hback : ∀ b, back (d, b) = none) (pm glob : Nat) :
    (Memory.addLoc sa d pm m x (sizeSub (m.items x).offset glob)).Returns fun m' =>
      ∃ b, m'.Held (Function.update root (d, b) (some x)) back
          (Function.update L (d, b) (x :: L (d, b))) ∧
        m'.subLists = Function.update m.subLists (d, b) (some x) ∧
        m'.data = (pour sa d pm glob ⟨sub, m.data⟩ x).items ∧
        LevelIs (Function.update L (d, b) (x :: L (d, b))) sa d
          (pour sa d pm glob ⟨sub, m.data⟩ x).subLists ∧ Memory.Relinked m m' := by
  have hb : (0 + sizeSub (m.items x).offset glob / pm) % sizeMod % sa < sa := Nat.mod_lt _ saPos
  have hpush : Memory.addLoc sa d pm m x (sizeSub (m.items x).offset glob) =
      m.push (d, (0 + sizeSub (m.items x).offset glob / pm) % sizeMod % sa) x := by
    rw [Memory.addLoc, hcur]
  rw [hpush]
  refine (h.push hx ha (hback _) (hroot _)).mono ?_
  intro m' hm'
  obtain ⟨hheld, hsub, hdata, hrel⟩ := hm'
  exact ⟨_, hheld, hsub, hdata, store_push hlevel hb x, hrel⟩

/-- What a cascade into the level of depth `d` leaves behind: the levels after it as the lists
say, the items it moved in their buckets, and everything else where it was. -/
structure Poured (sa pm glob : Nat) (m : Memory T) (L : Bucket → List T) (sub : Nat → List T)
    (r : Shifted T sa nb) (m' : Memory T) (L' : Bucket → List T) : Prop where
  held : m'.Held m'.subLists (fun _ => none) L'
  fills : r.levels.Fills L' m'.curList
  level : LevelIs L' sa (nb + 1) (r.out.foldl (pour sa (nb + 1) pm glob) ⟨sub, r.items⟩).subLists
  data : m'.data = (r.out.foldl (pour sa (nb + 1) pm glob) ⟨sub, r.items⟩).items
  above : ∀ d b, nb + 1 < d → L' (d, b) = L (d, b)
  curAbove : ∀ d, nb < d → m'.curList d = m.curList d
  offset : m'.offset = m.offset
  alive : m'.alive = m.alive
  script : m'.script = m.script
  log : m'.log = m.log
  listed : ∀ x, (m'.items x).lst = none ↔ (m.items x).lst = none

/-- The last bucket while its items go down to the level before: those that stay, and those that
the loop has still to see. -/
structure LastPouring (sa pm glob bound : Nat) (m : Memory T) (L : Bucket → List T)
    (xs : List T) (final : Store T) (todo : List T) (m' : Memory T) : Prop where
  offset : ∀ y, (m'.items y).offset = (m.items y).offset
  relinked : Memory.Relinked m m'
  listed : ∀ x, (m'.items x).lst = none ↔ (m.items x).lst = none
  lists : ∃ done sub L', xs = done ++ todo ∧ m'.Held m'.subLists (fun _ => none) L' ∧
    (∀ b, L' (0, b) = if b = 0 then
      done.filter (fun x => !decide ((m.items x).offset < bound)) ++ todo else []) ∧
    LevelIs L' sa 1 sub ∧
    (todo.filter (fun x => decide ((m.items x).offset < bound))).foldl (pour sa 1 pm glob)
      ⟨sub, unlink m'.data (todo.filter (fun x => decide ((m.items x).offset < bound)))⟩ = final ∧
    ∀ d b, 1 < d → L' (d, b) = L (d, b)

/-- An item that is due goes down to the level before. -/
theorem LastPouring.pours {m m' : Memory T} (saPos : 0 < sa) (hcur : m.curList 1 = 0)
    (h : LastPouring sa pm glob bound m L xs final (x :: todo) m')
    (hdue : (m.items x).offset < bound) :
    (((m'.setLst x none).bridge (0, 0) x).andThen fun m =>
      Memory.addLoc sa 1 pm m x (sizeSub (m.items x).offset glob)).Returns
        (LastPouring sa pm glob bound m L xs final todo) := by
  obtain ⟨hoff, hrel, hlisted, done, sub, L', hxs, hheld, hlast, hlevel, hrest, habove⟩ := h
  have hbucket : L' (0, 0) = done.filter (fun x => !decide ((m.items x).offset < bound)) ++
      x :: todo := hlast 0
  obtain ⟨-, -, hxas, hxcs, -⟩ := hheld.links.apart hbucket
  have hmem : x ∈ L' (0, 0) := by simp [hbucket]
  rw [Exec.returns_andThen]
  refine (hheld.unlink_bridge hbucket (fun _ => rfl)).mono ?_
  intro m1 hleft
  have hroot : m1.subLists = Memory.headAfter _ (0, 0) todo m'.subLists := hleft.subLists
  have hheld1 := hleft.held
  rw [← hroot] at hheld1
  have hx1 : (m1.items x).lst = none := by
    simp [Memory.lst_link hleft.data x]
  have hlevel1 : LevelIs (Function.update L' (0, 0)
      (done.filter (fun x => !decide ((m.items x).offset < bound)) ++ todo)) sa 1 sub := by
    intro b
    rw [Function.update_of_ne (by simp)]
    exact hlevel b
  have halive1 : m1.alive x = true := by
    rw [hleft.relinked.alive]
    exact hheld.alive _ x hmem
  have hcur1 : m1.curList 1 = 0 := by
    rw [hleft.relinked.curList, hrel.curList]
    exact hcur
  refine (pour_step hheld1 saPos hlevel1 hx1 halive1 hcur1 (fun _ => rfl) (fun _ => rfl)
    pm glob).mono ?_
  intro m2 hm2
  obtain ⟨b, hheld2, hsub2, hdata2, hlevel2, hrel2⟩ := hm2
  rw [← hsub2] at hheld2
  refine ⟨fun y => ?_, (hrel.trans hleft.relinked).trans hrel2,
    fun y => ?_, done ++ [x], _, _, by simp [hxs], hheld2, fun c => ?_, hlevel2, ?_,
    fun e c he => ?_⟩
  · rw [Memory.offset_link hdata2, Memory.offset_link hleft.data]
    exact hoff y
  · rw [← hlisted y]
    exact Memory.listed_link hleft.data hdata2 (hheld.links.home _ x hmem) y
  · rw [Function.update_of_ne (by simp)]
    by_cases hc : c = 0
    · subst hc
      simp [hdue]
    · have hne : ((0, c) : Bucket) ≠ (0, 0) := by simpa using hc
      rw [Function.update_of_ne hne, hlast c]
      simp [hc]
  · have hxdue : x ∉ todo.filter (fun x => decide ((m.items x).offset < bound)) :=
      fun hm => hxcs (List.mem_filter.mp hm).1
    rw [← hrest, List.filter_cons_of_pos (by simpa using hdue), List.foldl_cons,
      ← unlink_cons, ← hleft.data, pour_unlink sub m1.data hxdue, hdata2]
  · rw [Function.update_of_ne (by simp; omega), Function.update_of_ne (by simp; omega)]
    exact habove e c he

/-- An item that is not due stays in the last bucket. -/
theorem LastPouring.stays {m m' : Memory T}
    (h : LastPouring sa pm glob bound m L xs final (x :: todo) m')
    (hdue : ¬ (m.items x).offset < bound) :
    LastPouring sa pm glob bound m L xs final todo m' := by
  obtain ⟨hoff, hrel, hlisted, done, sub, L', hxs, hheld, hlast, hlevel, hrest, habove⟩ := h
  refine ⟨hoff, hrel, hlisted, done ++ [x], sub, L', by simp [hxs], hheld, fun c => ?_, hlevel,
    ?_, habove⟩
  · rw [hlast c]
    simp [hdue]
  · rw [← hrest, List.filter_cons_of_neg (by simpa using hdue)]

theorem lastPouring_step {m m' : Memory T} (saPos : 0 < sa) (hcur : m.curList 1 = 0)
    (h : LastPouring sa pm glob bound m L xs final (x :: todo) m') :
    m'.alive x = true ∧ (m'.items x).next = todo.head? ∧
      if (m'.items x).offset < bound then
        (((m'.setLst x none).bridge (0, 0) x).andThen fun m =>
          Memory.addLoc sa 1 pm m x (sizeSub (m.items x).offset glob)).Returns
            (LastPouring sa pm glob bound m L xs final todo)
      else LastPouring sa pm glob bound m L xs final todo m' := by
  obtain ⟨_, _, L', _, hheld, hlast, -⟩ := h.lists
  have hbucket := hlast 0
  refine ⟨hheld.alive (0, 0) x (by simp [hbucket]), (hheld.links.around hbucket).2, ?_⟩
  rw [h.offset x]
  split
  · next hdue => exact h.pours saPos hcur hdue
  · next hdue => exact h.stays hdue

/-- The cascade lambda of a level. -/
def lambda (sa depth pm glob : Nat) (x : T) (m : Memory T) : Exec (Memory T) :=
  Memory.addLoc sa depth pm m x (sizeSub (m.items x).offset glob)

/-- What a cascade out of the levels `w` does. -/
def Pours (saPos : 0 < sa) (fuel glob : Nat) (w : Levels T sa nb) : Prop :=
  ∀ (m : Memory T) (L : Bucket → List T) (sub : Nat → List T) (pm pm' : Nat),
    m.Held m.subLists (fun _ => none) L → w.Fills L m.curList → LevelIs L sa (nb + 1) sub →
    m.curList (nb + 1) = 0 → m.Roomy fuel →
    (Memory.shiftFrom sa fuel glob nb pm (lambda sa (nb + 1) pm' glob) m).Returns fun m' =>
      ∃ L', Poured sa pm' glob m L sub (w.shift saPos glob pm m.data) m' L'

theorem last_pours (saPos : 0 < sa) (fuel glob : Nat) (xs : List T) :
    Pours saPos fuel glob (.last xs : Levels T sa 0) := by
  intro m L sub pm pm' hheld hfills hlevel hcur hroomy
  have hfills : ∀ b, L (0, b) = if b = 0 then xs else [] := hfills
  have hfirst : L (0, 0) = xs := by simpa using hfills 0
  have hhead : m.subLists (0, 0) = xs.head? := by
    rw [← hfirst]
    exact hheld.links.root (0, 0)
  have hstart : LastPouring sa pm' glob ((glob + pm) % sizeMod) m L xs
      ((xs.filter (fun x => decide ((m.items x).offset < (glob + pm) % sizeMod))).foldl
        (pour sa 1 pm' glob) ⟨sub, unlink m.data
          (xs.filter (fun x => decide ((m.items x).offset < (glob + pm) % sizeMod)))⟩) xs m :=
    ⟨fun _ => rfl, .rfl, fun _ => Iff.rfl, [], sub, L, rfl, hheld, by simpa using hfills, hlevel,
      rfl,      fun _ _ _ => rfl⟩
  rw [Memory.shiftFrom, hhead]
  refine (Memory.lastWalk_rule (f := lambda sa 1 pm' glob)
    (fun x todo m' h => lastPouring_step saPos hcur h) hstart ?_).mono ?_
  · rw [← hfirst]
    exact hheld.roomy hroomy _
  · intro m' hm'
    obtain ⟨hoff, hrel, hlisted, done, sub', L', hxs, hheld', hlast, hlevel', hrest, habove⟩ := hm'
    rw [List.append_nil] at hxs
    subst hxs
    simp only [List.filter_nil, List.foldl_nil] at hrest
    rw [unlink_nil] at hrest
    have hresult : (Levels.last xs : Levels T sa 0).shift saPos glob pm m.data =
      { levels := .last (xs.filter (fun x => !decide ((m.items x).offset < (glob + pm) % sizeMod)))
        items := unlink m.data
          (xs.filter (fun x => decide ((m.items x).offset < (glob + pm) % sizeMod)))
        out := xs.filter (fun x => decide ((m.items x).offset < (glob + pm) % sizeMod)) } := rfl
    refine ⟨L', hheld', ?_, ?_, ?_, habove, fun d _ => by rw [hrel.curList], hrel.offset,
      hrel.alive, hrel.script, hrel.log, hlisted⟩
    · rw [hresult]
      intro b
      simpa using hlast b
    · rw [hresult]
      simp only [← hrest]
      exact hlevel'
    · rw [hresult]
      simp only [← hrest]

/-- A bucket of a level while its items go down to the level before. -/
structure LevelPouring (sa pm glob : Nat) (b : Bucket) (m : Memory T) (L : Bucket → List T)
    (final : Store T) (todo : List T) (m' : Memory T) : Prop where
  relinked : Memory.Relinked m m'
  listed : ∀ x, (m'.items x).lst = none ↔ (m.items x).lst = none
  lists : ∃ back sub L', m'.Walked b back L' ∧ L' b = todo ∧ LevelIs L' sa (b.1 + 1) sub ∧
    todo.foldl (pour sa (b.1 + 1) pm glob) ⟨sub, unlink m'.data todo⟩ = final ∧
    ∀ c, c ≠ b → c.1 ≠ b.1 + 1 → L' c = L c

theorem levelPouring_step {m m' : Memory T} (saPos : 0 < sa) (hcur : m.curList (b.1 + 1) = 0)
    (h : LevelPouring sa pm glob b m L final (x :: todo) m') :
    m'.alive x = true ∧ (m'.items x).next = todo.head? ∧
      (lambda sa (b.1 + 1) pm glob x (m'.setLst x none)).Returns
        (LevelPouring sa pm glob b m L final todo) := by
  obtain ⟨hrel, hlisted, back, sub, L', hwalk, hb, hlevel, hrest, hother⟩ := h
  obtain ⟨halive, hnext, hwalk1, hdata1⟩ := hwalk.hand hb
  have hx : x ∉ todo := by
    have hnd := hwalk.links.nodup b
    rw [hb] at hnd
    exact (List.nodup_cons.mp hnd).1
  have hne : ∀ i, ((b.1 + 1, i) : Bucket) ≠ b := by
    intro i he
    have := congrArg Prod.fst he
    simp at this
  have hlevel1 : LevelIs (Function.update L' b todo) sa (b.1 + 1) sub := by
    intro i
    rw [Function.update_of_ne (hne i)]
    exact hlevel i
  have hcur1 : (m'.setLst x none).curList (b.1 + 1) = 0 := by
    have hsame : (m'.setLst x none).curList = m'.curList := rfl
    rw [hsame, hrel.curList]
    exact hcur
  refine ⟨halive, hnext, ?_⟩
  refine (pour_step hwalk1 saPos hlevel1 (by simp) halive hcur1
    (fun i => Function.update_of_ne (hne i) _ _) (fun i => Function.update_of_ne (hne i) _ _)
    pm glob).mono ?_
  intro m2 hm2
  obtain ⟨i, hheld2, hsub2, hdata2, hlevel2, hrel2⟩ := hm2
  refine ⟨⟨hrel2.offset.trans hrel.offset, hrel2.curList.trans hrel.curList,
    hrel2.alive.trans hrel.alive, hrel2.script.trans hrel.script, hrel2.log.trans hrel.log⟩,
    fun y => ?_, some x, _, _, ?_, ?_, hlevel2, ?_, fun c hc hc' => ?_⟩
  · rw [← hlisted y]
    exact Memory.listed_link hdata1 hdata2 (hwalk.links.home b x (by simp [hb])) y
  · rw [Memory.Walked, hsub2, Function.update_of_ne (hne i).symm,
      Function.update_comm (hne i)]
    exact hheld2
  · rw [Function.update_of_ne (hne i).symm, Function.update_self]
  · rw [← hrest, List.foldl_cons, ← unlink_cons, ← hdata1, pour_unlink sub _ hx, hdata2]
  · have hci : c ≠ (b.1 + 1, i) := fun he => hc' (by rw [he])
    rw [Function.update_of_ne hci, Function.update_of_ne hc]
    exact hother c hc hc'

/-- A level whose cursor stands at the bucket it empties next, as `st`, `c` and `next` say. -/
structure Ready (m : Memory T) (L : Bucket → List T) (st : Store T) (c : Nat)
    (next : Levels T sa nb) (m' : Memory T) (L' : Bucket → List T) : Prop where
  held : m'.Held m'.subLists (fun _ => none) L'
  level : LevelIs L' sa (nb + 1) st.subLists
  data : m'.data = st.items
  cur : m'.curList (nb + 1) = c
  fills : next.Fills L' m'.curList
  above : ∀ d b, nb + 1 < d → L' (d, b) = L (d, b)
  curAbove : ∀ d, nb + 1 < d → m'.curList d = m.curList d
  offset : m'.offset = m.offset
  alive : m'.alive = m.alive
  script : m'.script = m.script
  log : m'.log = m.log
  listed : ∀ x, (m'.items x).lst = none ↔ (m.items x).lst = none

/-- Lines 82 to 88: at the end of a cycle the level is filled from the next one. -/
theorem dispatch_ready {m : Memory T} (saPos : 0 < sa) {subLists : Nat → List T} {curList : Nat}
    (curLe : curList ≤ sa) {next : Levels T sa nb} (hheld : m.Held m.subLists (fun _ => none) L)
    (hfills : (Levels.level subLists curList curLe next).Fills L m.curList)
    (hroomy : m.Roomy fuel) (pm glob : Nat) (hpours : Pours saPos fuel glob next) :
    (if m.curList (nb + 1) = sa then
      Memory.shiftFrom sa fuel glob nb (nextPm sa pm) (lambda sa (nb + 1) pm glob)
        (m.setCur (nb + 1) 0)
    else .ret m).Returns fun m' => ∃ st c next' L', ∃ hc : c < sa,
      (Levels.level subLists curList curLe next).shift saPos glob pm m.data =
        takeBucket st c hc next' ∧ Ready m L st c next' m' L' := by
  obtain ⟨hlevel, hcur, hnext⟩ := hfills
  rw [hcur]
  split
  · rename_i hend
    have hbelow : ∀ d, d ≤ nb → (m.setCur (nb + 1) 0).curList d = m.curList d :=
      fun d hd => Function.update_of_ne (by omega) _ _
    refine (hpours (m.setCur (nb + 1) 0) L subLists (nextPm sa pm) pm ⟨hheld.links, hheld.alive⟩
      (hnext.congr (fun _ _ _ => rfl) hbelow) hlevel (by simp [Memory.setCur]) hroomy).mono ?_
    intro m' hm'
    obtain ⟨L', h⟩ := hm'
    refine ⟨_, 0, _, L', saPos, ?_, h.held, h.level, h.data, ?_, h.fills, h.above,
      fun d hd => ?_, h.offset, h.alive, h.script, h.log, h.listed⟩
    · simp only [Levels.shift, hend, ↓reduceDIte]
      rfl
    · rw [h.curAbove (nb + 1) (by omega)]
      simp [Memory.setCur]
    · rw [h.curAbove d (by omega)]
      exact Function.update_of_ne (by omega) _ _
  · rename_i hne
    have hlt : curList < sa := Nat.lt_of_le_of_ne curLe hne
    refine ⟨⟨subLists, m.data⟩, curList, next, L, hlt, ?_, hheld, hlevel, rfl, hcur, hnext,
      fun _ _ _ => rfl, fun _ _ => rfl, rfl, rfl, rfl, rfl, fun _ => Iff.rfl⟩
    simp only [Levels.shift, hne, ↓reduceDIte]

omit [DecidableEq T] in
/-- What a walk of the bucket under the cursor starts from. -/
theorem Ready.walked {m m' : Memory T} {st : Store T} {next : Levels T sa nb}
    (h : Ready m L st c next m' L') (hc : c < sa) :
    L' (nb + 1, c) = st.subLists c ∧ m'.subLists (nb + 1, c) = (st.subLists c).head? ∧
      (m'.setCur (nb + 1) (c + 1)).Walked (nb + 1, c) none L' := by
  have hbucket : L' (nb + 1, c) = st.subLists c := by
    rw [h.level c, if_pos hc]
  refine ⟨hbucket, ?_, ?_⟩
  · rw [← hbucket]
    exact h.held.links.root (nb + 1, c)
  · have hheld : (m'.setCur (nb + 1) (c + 1)).Held (m'.setCur (nb + 1) (c + 1)).subLists
        (fun _ => none) L' := ⟨h.held.links, h.held.alive⟩
    exact hheld.walked (nb + 1, c)

omit [DecidableEq T] in
/-- The bucket that was walked is empty, the others of its level are as before. -/
theorem level_emptied {L L' : Bucket → List T} (h : LevelIs L sa d sub) (hc : L' (d, c) = [])
    (hother : ∀ b, b ≠ c → L' (d, b) = L (d, b)) :
    LevelIs L' sa d (Function.update sub c []) := by
  intro b
  by_cases hb : b = c
  · subst hb
    simp [hc]
  · rw [hother b hb, h b]
    simp [hb]

theorem level_pours (saPos : 0 < sa) {subLists : Nat → List T} {curList : Nat}
    (curLe : curList ≤ sa) {next : Levels T sa nb} (hpours : Pours saPos fuel glob next) :
    Pours saPos fuel glob (.level subLists curList curLe next) := by
  intro m L sub pm pm' hheld hfills hlevel hcur hroomy
  rw [Memory.shiftFrom, Exec.returns_andThen]
  refine (dispatch_ready saPos curLe hheld hfills hroomy pm glob hpours).mono ?_
  intro m1 hm1
  obtain ⟨st, c, next1, L1, hc, hshift, hready⟩ := hm1
  obtain ⟨hbucket, hhead, hwalk⟩ := hready.walked hc
  rw [hshift]
  simp only [hready.cur, hhead, Exec.returns_map]
  have hcur1 : (m1.setCur (nb + 1) (c + 1)).curList (nb + 1 + 1) = 0 := by
    have hsame : (m1.setCur (nb + 1) (c + 1)).curList (nb + 1 + 1) = m1.curList (nb + 1 + 1) :=
      Function.update_of_ne (by omega) _ _
    rw [hsame, hready.curAbove _ (by omega)]
    exact hcur
  have hlevel1 : LevelIs L1 sa (nb + 1 + 1) sub := by
    intro b
    rw [hready.above _ b (by omega)]
    exact hlevel b
  have hroomy1 : m1.Roomy fuel := hroomy.shrink (fun x hx => mt (hready.listed x).mpr hx)
  have hstart : LevelPouring sa pm' glob (nb + 1, c) (m1.setCur (nb + 1) (c + 1)) L1
      ((st.subLists c).foldl (pour sa (nb + 1 + 1) pm' glob)
        ⟨sub, unlink m1.data (st.subLists c)⟩) (st.subLists c) (m1.setCur (nb + 1) (c + 1)) :=
    ⟨.rfl, fun _ => Iff.rfl, none, sub, L1, hwalk, hbucket, hlevel1, rfl, fun _ _ _ => rfl⟩
  refine (Memory.walk_rule (f := lambda sa (nb + 1 + 1) pm' glob)
    (fun x todo m' h => levelPouring_step saPos hcur1 h) hstart ?_).mono ?_
  · rw [← hbucket]
    exact hready.held.roomy hroomy1 _
  · intro m2 hm2
    obtain ⟨hrel, hlisted, back, sub', L2, hwalk2, hb2, hlevel2, hrest, hother⟩ := hm2
    simp only [List.foldl_nil] at hrest
    rw [unlink_nil] at hrest
    have hkeep : ∀ d b, d ≤ nb → L2 (d, b) = L1 (d, b) := by
      intro d b hd
      exact hother (d, b) (by simp; omega) (by simp; omega)
    have hcur2 : m2.curList = Function.update m1.curList (nb + 1) (c + 1) := hrel.curList
    refine ⟨L2, hwalk2.finish hb2, ⟨?_, ?_, ?_⟩, ?_, ?_, fun d b hd => ?_, fun d hd => ?_,
      hrel.offset.trans hready.offset, hrel.alive.trans hready.alive,
      hrel.script.trans hready.script, hrel.log.trans hready.log, fun x => ?_⟩
    · refine level_emptied hready.level hb2 (fun b hb => ?_)
      exact hother (nb + 1, b) (by simpa using hb) (by simp)
    · have hsame : (m2.setHead (nb + 1, c) none).curList = m2.curList := rfl
      rw [hsame, hcur2]
      simp
    · refine hready.fills.congr hkeep (fun d hd => ?_)
      have hsame : (m2.setHead (nb + 1, c) none).curList = m2.curList := rfl
      rw [hsame, hcur2]
      exact Function.update_of_ne (by omega) _ _
    · simp only [takeBucket, ← hready.data]
      rw [← hrest]
      exact hlevel2
    · simp only [takeBucket, ← hready.data]
      rw [← hrest]
      rfl
    · rw [hother (d, b) (by simp; omega) (by simp; omega)]
      exact hready.above d b (by omega)
    · have hsame : (m2.setHead (nb + 1, c) none).curList = m2.curList := rfl
      rw [hsame, hcur2, Function.update_of_ne (by omega)]
      exact hready.curAbove d (by omega)
    · exact (hlisted x).trans (hready.listed x)

/-- Every part of the wheel does in memory what it does to the lists. -/
theorem levels_pour (saPos : 0 < sa) (fuel glob : Nat) (w : Levels T sa nb) :
    Pours saPos fuel glob w := by
  induction w with
  | last xs => exact last_pours saPos fuel glob xs
  | level subLists curList curLe next ih => exact level_pours saPos curLe ih

end Evel.ExpIndexed
