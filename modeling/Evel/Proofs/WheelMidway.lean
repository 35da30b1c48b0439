import Evel.Proofs.WheelWalk

namespace Evel.ExpIndexed
open General

variable {T : Type u} [DecidableEq T] {g : Geometry}

/-- In the middle of a shift: bucket `b` is walked and `todo` is to come. The lists are those of
`l`, where the whole bucket has been taken out before the first callback. -/
structure Midway (m : Memory T) (l : ExpIndexedList T g) (b : Bucket) (back : Option T)
    (L : Bucket → List T) (todo : List T) : Prop where
  walked : m.Walked b back L
  rest : L b = todo
  fills : l.list.Fills (Function.update L b []) m.curList
  above : ∀ d c, g.nb < d → Function.update L b [] (d, c) = []
  offset : m.offset = l.offset
  items : unlink m.data todo = l.items

namespace Midway
variable {m m' : Memory T} {l : ExpIndexedList T g} {L : Bucket → List T}

/-- What still is to come has its `lst`. -/
theorem pending (h : Midway m l b back L todo) (hx : x ∈ todo) : (m.items x).lst = some b :=
  h.walked.links.home b x (h.rest ▸ hx)

theorem not_pending (h : Midway m l b back L todo) (hx : (m.items x).lst = none) : x ∉ todo := by
  intro hm
  rw [h.pending hm] at hx
  contradiction

theorem nodup (h : Midway m l b back L todo) : todo.Nodup :=
  h.rest ▸ h.walked.links.nodup b

/-- An item that is not to come is for the memory what it is for the lists. -/
theorem lst (h : Midway m l b back L todo) (hx : x ∉ todo) : (l.items x).lst = (m.items x).lst := by
  rw [← h.items, unlink_not_mem hx]
  rfl

/-- The next item goes to its callback. -/
theorem hand (h : Midway m l b back L (x :: todo)) :
    m.alive x = true ∧ (m.items x).next = todo.head? ∧
      Midway (m.setLst x none) l b (some x) (Function.update L b todo) todo := by
  obtain ⟨halive, hnext, hwalk, hdata⟩ := h.walked.hand h.rest
  refine ⟨halive, hnext, hwalk, by simp, ?_, ?_, h.offset, ?_⟩
  · simpa using h.fills
  · simpa using h.above
  · rw [hdata, unlink_cons]
    exact h.items

/-- The rest of the memory: what is written down changes no list. -/
theorem congr (h : Midway m l b back L todo) (hsub : m'.subLists = m.subLists)
    (hitems : m'.items = m.items) (halive : m'.alive = m.alive) (hcur : m'.curList = m.curList)
    (hoff : m'.offset = m.offset) : Midway m' l b back L todo := by
  obtain ⟨o, sub, cur, items, alive, script, log⟩ := m
  obtain ⟨o', sub', cur', items', alive', script', log'⟩ := m'
  simp only at hsub hitems halive hcur hoff
  subst hsub hitems halive hcur hoff
  exact ⟨⟨h.walked.links, h.walked.alive⟩, h.rest, h.fills, h.above, h.offset, h.items⟩

/-- At the end the memory shows the lists. -/
theorem finish (h : Midway m l b back L []) : Shows (m.setHead b none) l L := by
  have hb : Function.update L b [] = L := by
    rw [← h.rest, Function.update_eq_self]
  have hfills := h.fills
  have habove := h.above
  rw [hb] at hfills habove
  refine ⟨h.walked.finish h.rest, hfills, habove, h.offset, ?_⟩
  have hitems := h.items
  rwa [unlink_nil] at hitems

/-- A callback adds an item to a bucket that is not walked. -/
theorem add (h : Midway m l b back L todo) (hx : (m.items x).lst = none) (ha : m.alive x = true)
    (ht : target g.sa m.curList g.nb 1 0 index ≠ b) :
    (m.add g x index).Returns fun m' =>
      (∃ L', Midway m' (l.add x index) b back L' todo) ∧ Memory.Relinked m m' ∧
        m'.subLists b = m.subLists b ∧ (m'.items x).lst ≠ none ∧
        ∀ y, y ≠ x → (m'.items y).lst = (m.items y).lst := by
  have hxt := h.not_pending hx
  have hl : (l.items x).lst = none := (h.lst hxt).trans hx
  have hpush := m.add_push g hx index
  have hdata : unlink (m.dated x index).data todo = l.dated x index := by
    funext y
    by_cases hy : y = x
    · subst hy
      rw [unlink_not_mem hxt, Memory.dated_data]
      simp [ExpIndexedList.dated, h.offset, h.lst hxt]
    · have hsame : (m.dated x index).data y = m.data y := by
        rw [Memory.dated_data, if_neg hy]
      have hl : l.dated x index y = l.items y := Function.update_of_ne hy _ _
      rw [hl, ← h.items]
      simp [unlink, hsame]
  obtain ⟨hfills, hitems⟩ := Levels.add_fills g.saPos h.fills (l.dated x index) x 1 0 index
  have hdepth := target_depth g.sa m.curList g.nb 1 0 index
  generalize target g.sa m.curList g.nb 1 0 index = c at ht hpush hfills hitems hdepth
  rw [Function.update_of_ne ht, Function.update_comm ht.symm] at hfills
  rw [hpush]
  refine (Memory.Walked.push (h.walked.dated x index) (by simpa [Memory.dated] using hx)
    ha ht).mono ?_
  intro m' hm'
  obtain ⟨hwalk, hdata', hsub, hrel⟩ := hm'
  have hrel : Memory.Relinked m m' := (Memory.setItem_relinked m x _).trans hrel
  refine ⟨⟨_, hwalk, ?_, ?_, fun d i hd => ?_, ?_, ?_⟩, hrel, hsub, ?_, fun y hy => ?_⟩
  · rw [Function.update_of_ne ht.symm]
    exact h.rest
  · rw [l.add_free hl, hrel.curList]
    exact hfills
  · have hne : ((d, i) : Bucket) ≠ c := by
      rintro rfl
      exact absurd hdepth (Nat.not_le.mpr hd)
    rw [Function.update_comm ht, Function.update_of_ne hne]
    exact h.above d i hd
  · rw [l.add_free hl, hrel.offset]
    exact h.offset
  · rw [l.add_free hl, hdata', hitems, ← hdata]
    funext y
    by_cases hy : y = x
    · subst hy
      simp [unlink, link, hxt]
    · by_cases hm : y ∈ todo <;> simp [unlink, link, hy, hm]
  · simp [Memory.lst_link hdata' x]
  · simpa [hy, Memory.dated] using Memory.lst_link hdata' y

end Midway

/-- How far a shift gets before its first callback. -/
structure Started (m : Memory T) (l : ExpIndexedList T g) (script : List (List (Act T)))
    (b : Bucket) (m' : Memory T) (L' : Bucket → List T) : Prop where
  midway : Midway m' l.shift b none L' l.shifted.out
  head : m'.subLists b = l.shifted.out.head?
  cur : m'.curList g.nb = b.2 + 1
  level : b.1 = g.nb
  below : b.2 < g.sa
  alive : m'.alive = m.alive
  script : m'.script = script
  log : m'.log = []
  listed : ∀ x, (m'.items x).lst = none ↔ (m.items x).lst = none

/-- The walk does not outlast its fuel. -/
theorem Started.short {m m' : Memory T} {l : ExpIndexedList T g} {script : List (List (Act T))}
    (h : Started m l script b m' L') (hroomy : m.Roomy fuel) : l.shifted.out.length ≤ fuel := by
  refine hroomy _ h.midway.nodup (fun x hx => ?_)
  rw [ne_eq, ← h.listed x, h.midway.pending hx]
  simp

/-- When the cascades are done, the bucket under the cursor is walked. Its items are those that
the lists hand over. -/
theorem shift_walks {m : Memory T} {l : ExpIndexedList T g} {L : Bucket → List T}
    (h : Shows m l L) (hroomy : m.Roomy fuel) (hnb : g.nb ≠ 0) (script : List (List (Act T))) :
    ∃ m' b L', Started m l script b m' L' ∧
      m.shift g fuel script = (Memory.walk (Memory.callback g) fuel l.shifted.out.head? m').map
        (fun m => m.setHead b none) := by
  obtain ⟨n, hn⟩ := Nat.exists_eq_succ_of_ne_zero hnb
  obtain ⟨sa, nb, saPos⟩ := g
  simp only at hn
  subst hn
  obtain ⟨offset, list, items⟩ := l
  cases list with
  | level subLists curList curLe next =>
    let m0 : Memory T := { m with
      offset := (m.offset + 1) % sizeMod, script := script, log := [] }
    have hready := dispatch_ready (m := m0) saPos curLe ⟨h.held.links, h.held.alive⟩ h.fills
      hroomy 1 m.offset (levels_pour saPos fuel m.offset next)
    obtain ⟨m1, hm1, st, c, next1, L1, hc, hshift, hready⟩ := hready.exists
    obtain ⟨hbucket, hhead, hwalk⟩ := hready.walked hc
    have hdata : m0.data = items := h.data
    have hoff : m.offset = offset := h.offset
    rw [hdata, hoff] at hshift
    have hout : (ExpIndexedList.mk (g := ⟨sa, n + 1, saPos⟩) offset
        (.level subLists curList curLe next) items).shifted = takeBucket st c hc next1 := hshift
    refine ⟨m1.setCur (n + 1) (c + 1), (n + 1, c), L1, ⟨?_, ?_, ?_, rfl, hc,
      hready.alive, hready.script, hready.log, hready.listed⟩, ?_⟩
    · refine ⟨hwalk, ?_, ?_, fun d i hd => ?_, ?_, ?_⟩
      · rw [hout]
        exact hbucket
      · simp only [ExpIndexedList.shift, hout]
        refine ⟨level_emptied hready.level (by simp) (fun b hb => ?_), by simp [Memory.setCur],
          hready.fills.congr (fun d b hd => ?_) (fun d hd => ?_)⟩
        · exact Function.update_of_ne (by simpa using hb) _ _
        · exact Function.update_of_ne (by simp; omega) _ _
        · exact Function.update_of_ne (by omega) _ _
      · have hd : n + 1 < d := hd
        rw [Function.update_of_ne (by simp; omega), hready.above d i hd]
        exact h.above d i hd
      · have hsame : (m1.setCur (n + 1) (c + 1)).offset = m1.offset := rfl
        rw [hsame, hready.offset, ExpIndexedList.shift, ← hoff]
      · simp only [ExpIndexedList.shift, hout, takeBucket, ← hready.data]
        rfl
    · rw [hout]
      exact hhead
    · simp [Memory.setCur]
    · have hsame : m.shift ⟨sa, n + 1, saPos⟩ fuel script =
          Memory.shiftFrom sa fuel m.offset (n + 1) 1 (Memory.callback ⟨sa, n + 1, saPos⟩) m0 := rfl
      rw [hsame, Memory.shiftFrom]
      have hlambda : lambda sa (n + 1) 1 m.offset = fun (item : T) m' =>
        Memory.addLoc sa (n + 1) 1 m' item (sizeSub (m'.items item).offset m.offset) := rfl
      rw [hlambda] at hm1
      rw [hm1]
      simp only [Exec.andThen, hready.cur, hhead, hout, takeBucket]

end Evel.ExpIndexed
