import Evel.Proofs.WheelMemory
import Evel.Proofs.WheelRuns

namespace Evel.ExpIndexed
open General

variable {T : Type u}

namespace Levels

/-- The levels hold the lists `L`, with the cursors `cur`. -/
def Fills (L : Bucket → List T) (cur : Nat → Nat) : {nb : Nat} → Levels T sa nb → Prop
  | 0, .last subList => ∀ b, L (0, b) = if b = 0 then subList else []
  | nb + 1, .level subLists curList _ next =>
    (∀ b, L (nb + 1, b) = if b < sa then subLists b else []) ∧ cur (nb + 1) = curList ∧
      next.Fills L cur

/-- Only the buckets and cursors of the levels count. -/
theorem Fills.congr {w : Levels T sa nb} (h : w.Fills L cur)
    (hL : ∀ d b, d ≤ nb → L' (d, b) = L (d, b)) (hcur : ∀ d, d ≤ nb → cur' d = cur d) :
    w.Fills L' cur' := by
  induction w with
  | last subList =>
    intro b
    rw [hL 0 b (Nat.le_refl _)]
    exact h b
  | @level nb subLists curList curLe next ih =>
    obtain ⟨hsub, hc, hnext⟩ := h
    refine ⟨fun b => ?_, ?_, ih hnext (fun d b hd => hL d b (Nat.le_succ_of_le hd))
      (fun d hd => hcur d (Nat.le_succ_of_le hd))⟩
    · rw [hL (nb + 1) b (Nat.le_refl _)]
      exact hsub b
    · rw [hcur (nb + 1) (Nat.le_refl _)]
      exact hc

end Levels

/-- The bucket that `add` finds for an index. -/
def target (sa : Nat) (cur : Nat → Nat) : (depth pm of index : Nat) → Bucket
  | 0, _, _, _ => (0, 0)
  | depth + 1, pm, of, index =>
    if nextIndex sa pm of ≤ index then
      target sa cur depth (nextPm sa pm) (nextIndex sa pm of) index
    else (depth + 1, (cur (depth + 1) + sizeSub index of / pm) % sizeMod % sa)

theorem target_depth (sa : Nat) (cur : Nat → Nat) (depth pm of index : Nat) :
    (target sa cur depth pm of index).1 ≤ depth := by
  induction depth generalizing pm of with
  | zero => exact Nat.le_refl _
  | succ depth ih =>
    simp only [target]
    split
    · exact Nat.le_succ_of_le (ih _ _)
    · exact Nat.le_refl _

variable [DecidableEq T]

theorem addFrom_eq (sa depth pm of : Nat) (m : Memory T) (x : T) (index : Nat) :
    Memory.addFrom sa depth pm of m x index =
      m.push (target sa m.curList depth pm of index) x := by
  induction depth generalizing pm of with
  | zero => rfl
  | succ depth ih =>
    simp only [Memory.addFrom, target, ih]
    split <;> rfl

theorem Memory.add_push (g : Geometry) (m : Memory T) {x : T} (hx : (m.items x).lst = none)
    (index : Nat) :
    m.add g x index = (m.dated x index).push (target g.sa m.curList g.nb 1 0 index) x := by
  unfold Memory.add
  rw [if_neg (by simp [hx]), addFrom_eq]
  rfl

omit [DecidableEq T] in
/-- A new first item in a bucket of one level. -/
theorem store_push {L : Bucket → List T} {subLists : Nat → List T}
    (h : ∀ b, L (d, b) = if b < sa then subLists b else []) (hb : b < sa) (x : T) :
    ∀ c, Function.update L (d, b) (x :: L (d, b)) (d, c) =
      if c < sa then Function.update subLists b (x :: subLists b) c else [] := by
  intro c
  by_cases hc : c = b
  · subst hc
    simp [h, hb]
  · have hne : ((d, c) : Bucket) ≠ (d, b) := by simpa using hc
    simp [hne, hc, h]

namespace Levels

theorem add_fills (saPos : 0 < sa) {w : Levels T sa nb} (h : w.Fills L cur)
    (items : T → ItemData) (x : T) (pm of index : Nat) :
    (w.add pm of items x index).1.Fills
        (Function.update L (target sa cur nb pm of index)
          (x :: L (target sa cur nb pm of index))) cur ∧
      (w.add pm of items x index).2 = link items x (some (target sa cur nb pm of index)) := by
  induction w generalizing pm of with
  | last subList =>
    refine ⟨fun b => ?_, rfl⟩
    by_cases hb : b = 0
    · subst hb
      simp [target, h 0]
    · have hne : ((0, b) : Bucket) ≠ (0, 0) := by simpa using hb
      simp [target, hne, hb, h b]
  | @level nb subLists curList curLe next ih =>
    obtain ⟨hsub, hc, hnext⟩ := h
    simp only [Levels.add, target]
    split
    · obtain ⟨hfills, hitems⟩ := ih hnext (nextPm sa pm) (nextIndex sa pm of)
      refine ⟨⟨fun b => ?_, hc, hfills⟩, hitems⟩
      have hdepth := target_depth sa cur nb (nextPm sa pm) (nextIndex sa pm of) index
      rw [Function.update_of_ne]
      · exact hsub b
      · rintro he
        rw [← he] at hdepth
        exact absurd hdepth (by simp)
    · rw [hc]
      refine ⟨⟨store_push hsub (Nat.mod_lt _ saPos) x, hc, ?_⟩, rfl⟩
      refine hnext.congr (fun d b hd => Function.update_of_ne ?_ _ _) (fun _ _ => rfl)
      simp only [ne_eq, Prod.mk.injEq, not_and]
      omega

theorem erase_fills {w : Levels T sa nb} (h : w.Fills L cur) (hd : b.1 ≤ nb)
    (hb : L b = as ++ x :: cs) (hx : x ∉ as) :
    (w.erase b x).Fills (Function.update L b (as ++ cs)) cur := by
  have herase : (as ++ x :: cs).erase x = as ++ cs := by
    rw [List.erase_append_right _ hx, List.erase_cons_head]
  induction w with
  | last subList =>
    obtain ⟨d, i⟩ := b
    obtain rfl : d = 0 := Nat.le_zero.mp hd
    have hi : i = 0 := by
      by_contra hne
      have := h i
      rw [hb, if_neg hne] at this
      simp at this
    subst hi
    have hl : subList = as ++ x :: cs := by
      have := h 0
      rwa [hb, if_pos rfl, eq_comm] at this
    intro c
    by_cases hc : c = 0
    · subst hc
      simp [hl, herase]
    · have hne : ((0, c) : Bucket) ≠ (0, 0) := by simpa using hc
      simp [hne, hc, h c]
  | @level nb subLists curList curLe next ih =>
    obtain ⟨d, i⟩ := b
    obtain ⟨hsub, hc, hnext⟩ := h
    simp only [Levels.erase]
    split
    · rename_i he
      subst he
      have hi : i < sa := by
        by_contra hge
        have := hsub i
        rw [hb, if_neg hge] at this
        simp at this
      have hl : subLists i = as ++ x :: cs := by
        have := hsub i
        rwa [hb, if_pos hi, eq_comm] at this
      refine ⟨fun c => ?_, hc, ?_⟩
      · by_cases hci : c = i
        · subst hci
          simp [hl, herase, hi]
        · have hne : ((nb + 1, c) : Bucket) ≠ (nb + 1, i) := by simpa using hci
          simp [hne, hci, hsub c]
      · refine hnext.congr (fun d b hd => Function.update_of_ne ?_ _ _) (fun _ _ => rfl)
        simp only [ne_eq, Prod.mk.injEq, not_and]
        omega
    · rename_i hne
      have hd : d ≤ nb := by
        have : d ≤ nb + 1 := hd
        omega
      refine ⟨fun c => ?_, hc, ih hnext hd⟩
      have hne' : ((nb + 1, c) : Bucket) ≠ (d, i) := by
        simp only [ne_eq, Prod.mk.injEq, not_and]
        omega
      rw [Function.update_of_ne hne']
      exact hsub c

end Levels

/-- The memory holds what the list-level model says, in the lists `L`. -/
structure Shows (m : Memory T) (l : ExpIndexedList T g) (L : Bucket → List T) : Prop where
  held : m.Held m.subLists (fun _ => none) L
  fills : l.list.Fills L m.curList
  above : ∀ d b, g.nb < d → L (d, b) = []
  offset : m.offset = l.offset
  data : m.data = l.items

namespace Shows
variable {g : Geometry} {m m' : Memory T} {l : ExpIndexedList T g} {L : Bucket → List T}

omit [DecidableEq T] in
theorem lst (h : Shows m l L) (x : T) : (l.items x).lst = (m.items x).lst := by
  rw [← h.data]
  rfl

omit [DecidableEq T] in
theorem depth (h : Shows m l L) (hx : x ∈ L b) : b.1 ≤ g.nb := by
  by_contra hlt
  have := h.above b.1 b.2 (Nat.not_le.mp hlt)
  rw [this] at hx
  cases hx

theorem new (T : Type u) [DecidableEq T] (g : Geometry) (offset : Nat) :
    Shows (Memory.new T offset) (ExpIndexedList.new T g offset) (fun _ => []) := by
  have hfills : ∀ nb, (Levels.empty T g.sa nb).Fills (fun _ => []) (fun _ => 0) := by
    intro nb
    induction nb with
    | zero => simp [Levels.empty, Levels.Fills]
    | succ nb ih => exact ⟨by simp, rfl, ih⟩
  refine ⟨⟨⟨⟨fun _ => rfl, fun _ => trivial, fun _ => List.nodup_nil, ?_⟩, fun _ => trivial, ?_⟩,
    ?_⟩, hfills g.nb, fun _ _ _ => rfl, rfl, rfl⟩
  · intro b x hx
    cases hx
  · intro x b hx
    cases hx
  · intro b x hx
    cases hx

/-- `add` in memory does what `add` does to the lists. -/
theorem add (h : Shows m l L) (x : T) (ha : m.alive x = true) (index : Nat) :
    (m.add g x index).Returns fun m' => (∃ L', Shows m' (l.add x index) L') ∧
      Memory.Relinked m m' := by
  cases hx : (m.items x).lst with
  | some b =>
    have hl : (l.items x).lst ≠ none := by simp [h.lst, hx]
    simp only [Memory.add, hx, Option.isSome_some, ↓reduceIte, Exec.returns_ret, l.add_held hl]
    exact ⟨⟨L, h⟩, .rfl⟩
  | none =>
    have hl : (l.items x).lst = none := by simp [h.lst, hx]
    have hdata : (m.dated x index).data = l.dated x index := by
      funext y
      rw [Memory.dated_data]
      by_cases hy : y = x <;> simp [ExpIndexedList.dated, Memory.data, hy, ← h.data, h.offset]
    have hxd : ((m.dated x index).items x).lst = none := by
      simpa [Memory.dated] using hx
    have hpush := m.add_push g hx index
    obtain ⟨hfills, hitems⟩ := Levels.add_fills g.saPos h.fills (l.dated x index) x 1 0 index
    have hdepth := target_depth g.sa m.curList g.nb 1 0 index
    generalize target g.sa m.curList g.nb 1 0 index = b at hpush hfills hitems hdepth
    rw [hpush]
    refine ((h.held.dated x index).push hxd ha rfl rfl).mono ?_
    intro m' hm'
    obtain ⟨hheld, hsub, hdata', hrel⟩ := hm'
    have hrel : Memory.Relinked m m' := (Memory.setItem_relinked m x _).trans hrel
    refine ⟨⟨Function.update L b (x :: L b), ⟨?_, ?_, fun d c hd => ?_, ?_, ?_⟩⟩, hrel⟩
    · rwa [hsub]
    · rw [l.add_free hl, hrel.curList]
      exact hfills
    · rw [Function.update_of_ne]
      · exact h.above d c hd
      · rintro rfl
        exact absurd hdepth (Nat.not_le.mpr hd)
    · rw [l.add_free hl, hrel.offset]
      exact h.offset
    · rw [l.add_free hl, hdata', hdata, hitems]

omit [DecidableEq T] in
/-- An item with a bucket stands in the list of that bucket. -/
theorem split (h : Shows m l L) (hx : (m.items x).lst = some b) :
    ∃ as cs, L b = as ++ x :: cs ∧ x ∉ as ∧ b.1 ≤ g.nb := by
  have hm : x ∈ L b := h.held.links.mem x b hx
  obtain ⟨as, cs, hb⟩ := List.append_of_mem hm
  exact ⟨as, cs, hb, (h.held.links.apart hb).2.2.1, h.depth hm⟩

/-- Taking an item out in memory takes it out of its list. -/
theorem out (h : Shows m l L) (hx : (m.items x).lst = some b) (hb : L b = as ++ x :: cs)
    (hheld : m'.Held (Memory.headAfter as b cs m.subLists) (fun _ => none)
      (Function.update L b (as ++ cs)))
    (hsub : m'.subLists = Memory.headAfter as b cs m.subLists)
    (hdata : m'.data = link m.data x none) (hcur : m'.curList = m.curList)
    (hoff : m'.offset = m.offset) : Shows m' (l.rem x) (Function.update L b (as ++ cs)) := by
  obtain ⟨-, -, hxas, -, -⟩ := h.held.links.apart hb
  have hdepth := h.depth (x := x) (b := b) (by simp [hb])
  have hrem : l.rem x = { l with list := l.list.erase b x, items := link l.items x none } := by
    simp [ExpIndexedList.rem, h.lst, hx]
  rw [hrem]
  refine ⟨?_, ?_, fun d c hd => ?_, ?_, ?_⟩
  · rwa [hsub]
  · rw [hcur]
    exact Levels.erase_fills h.fills hdepth hb hxas
  · rw [Function.update_of_ne]
    · exact h.above d c hd
    · rintro rfl
      exact absurd hdepth (Nat.not_le.mpr hd)
  · rw [hoff]
    exact h.offset
  · rw [hdata, h.data]

theorem left (h : Shows m l L) (hx : (m.items x).lst = some b) (hb : L b = as ++ x :: cs)
    (hleft : Memory.Left m m.subLists (fun _ => none) L b as x cs m') :
    Shows m' (l.rem x) (Function.update L b (as ++ cs)) :=
  h.out hx hb hleft.held hleft.subLists hleft.data hleft.relinked.curList hleft.relinked.offset

omit [DecidableEq T] in
/-- What is only written down changes nothing. -/
theorem leaves (h : Shows m l L) (x : T) : Shows (m.leaves x) l L :=
  ⟨⟨h.held.links, h.held.alive⟩, h.fills, h.above, h.offset, h.data⟩

theorem rem_none (h : Shows m l L) (hx : (m.items x).lst = none) : l.rem x = l := by
  simp [ExpIndexedList.rem, h.lst, hx]

theorem rem (h : Shows m l L) (x : T) :
    (m.rem x).Returns fun m' => (∃ L', Shows m' (l.rem x) L') ∧ m'.alive = m.alive := by
  cases hx : (m.items x).lst with
  | none =>
    simp only [Memory.rem, hx, Exec.returns_ret, h.rem_none hx]
    exact ⟨⟨L, h⟩, trivial⟩
  | some b =>
    obtain ⟨as, cs, hb, -, -⟩ := h.split hx
    simp only [Memory.rem, hx]
    refine ((h.leaves x).held.unlink_bridge hb (fun _ => rfl)).mono ?_
    intro m' hleft
    exact ⟨⟨_, (h.leaves x).left hx hb hleft⟩, hleft.relinked.alive⟩

/-- An item that is in no list may go. -/
theorem dies (h : Shows m l L) (hx : (m.items x).lst = none) : Shows (m.dies x) l L := by
  have hnot : ∀ b, x ∉ L b := h.held.links.unlisted hx
  refine ⟨⟨h.held.links, fun b y hy => ?_⟩, h.fills, h.above, h.offset, h.data⟩
  have hyx : y ≠ x := fun he => hnot b (he ▸ hy)
  have hkeep : (m.dies x).alive y = m.alive y := Function.update_of_ne hyx _ _
  rw [hkeep]
  exact h.held.alive b y hy

theorem destroy (h : Shows m l L) (x : T) :
    (m.destroy x).Returns fun m' => (∃ L', Shows m' (l.rem x) L') ∧
      m'.alive = Function.update m.alive x false := by
  cases hx : (m.items x).lst with
  | none =>
    simp only [Memory.destroy, hx, Exec.map, Exec.returns_ret, h.rem_none hx]
    exact ⟨⟨L, h.dies hx⟩, rfl⟩
  | some b =>
    obtain ⟨as, cs, hb, -, -⟩ := h.split hx
    simp only [Memory.destroy, hx, Exec.returns_map fun m => Memory.dies m x]
    refine ((h.leaves x).held.bridge_unlink hb (fun _ => rfl)).mono ?_
    intro m' hleft
    have hs := (h.leaves x).left hx hb hleft
    have hnone : (m'.items x).lst = none := by
      simp [Memory.lst_link hleft.data x]
    refine ⟨⟨_, hs.dies hnone⟩, ?_⟩
    rw [Memory.dies, hleft.relinked.alive]
    rfl

end Shows

end Evel.ExpIndexed
