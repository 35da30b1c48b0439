import Evel.Proofs.WheelRearm

namespace Evel.ExpIndexed
open General

variable {T : Type u} {g : Geometry}

namespace Memory

/-- Every item that has a list stands in one bucket, once, and `size` counts it. -/
def Kept [DecidableEq T] (g : Geometry) (fuel : Nat) (m : Memory T) : Prop :=
  (∀ x, (m.items x).lst ≠ none → (m.linked g fuel).count x = 1) ∧
    m.size g fuel = (m.linked g fuel).length

theorem size_eq (m : Memory T) (g : Geometry) (fuel : Nat) :
    m.size g fuel = (m.linked g fuel).length := by
  simp [size, linked, List.length_flatMap]

/-- Following `next` shows the list, if there is fuel for it. -/
theorem chain_eq {m : Memory T} {xs : List T} (h : Fwd (fun x => (m.items x).next) none xs)
    (hfuel : xs.length ≤ fuel) : m.chain fuel xs.head? = xs := by
  induction xs generalizing fuel with
  | nil =>
    cases fuel <;> rfl
  | cons x xs ih =>
    obtain ⟨fuel, rfl⟩ : ∃ n, fuel = n + 1 := ⟨fuel - 1, by simp at hfuel; omega⟩
    have hnext : (m.items x).next = xs.head? := by simpa using h.1
    simp only [List.head?_cons, chain, hnext, ih h.2 (by simpa using hfuel)]

theorem chain_subset {m : Memory T} {xs : List T} (h : Fwd (fun x => (m.items x).next) none xs) :
    ∀ y ∈ m.chain fuel xs.head?, y ∈ xs := by
  induction xs generalizing fuel with
  | nil =>
    cases fuel <;> simp [chain]
  | cons x xs ih =>
    cases fuel with
    | zero => simp [chain]
    | succ fuel =>
      intro y hy
      have hnext : (m.items x).next = xs.head? := by simpa using h.1
      simp only [List.head?_cons, chain, hnext, List.mem_cons] at hy
      rcases hy with rfl | hy
      · exact List.mem_cons_self
      · exact List.mem_cons_of_mem _ (ih h.2 y hy)

/-- What has room keeps it when few items are added. -/
theorem Roomy.grow {m m' : Memory T} (h : m.Roomy k) [DecidableEq T] (ys : List T)
    (hlisted : ∀ x, (m'.items x).lst ≠ none → (m.items x).lst ≠ none ∨ x ∈ ys) :
    m'.Roomy (k + ys.length) := by
  intro xs hnd hxs
  have hold : (xs.filter (fun x => !decide (x ∈ ys))).length ≤ k := by
    refine h _ (hnd.filter _) (fun x hx => ?_)
    obtain ⟨hx, hnot⟩ := List.mem_filter.mp hx
    exact (hlisted x (hxs x hx)).resolve_right (by simpa using hnot)
  have hnew : (xs.filter (fun x => decide (x ∈ ys))).length ≤ ys.length := by
    refine (List.subperm_of_subset (hnd.filter _) (fun x hx => ?_)).length_le
    simpa using (List.mem_filter.mp hx).2
  have hsum := List.length_eq_length_filter_add (l := xs) (fun x => decide (x ∈ ys))
  omega

end Memory

theorem mem_bucketsFrom : b ∈ bucketsFrom sa depth ↔
    b = (0, 0) ∨ (0 < b.1 ∧ b.1 ≤ depth ∧ b.2 < sa) := by
  obtain ⟨d, i⟩ := b
  induction depth with
  | zero => simp [bucketsFrom]; omega
  | succ depth ih =>
    simp only [bucketsFrom, List.mem_append, List.mem_map, List.mem_range, ih, Prod.mk.injEq]
    constructor
    · rintro (⟨j, hj, rfl, rfl⟩ | (h | h))
      · exact .inr ⟨by omega, by omega, hj⟩
      · exact .inl h
      · exact .inr ⟨h.1, by omega, h.2.2⟩
    · rintro (h | ⟨hpos, hd, hi⟩)
      · exact .inr (.inl h)
      · by_cases he : d = depth + 1
        · exact .inl ⟨i, hi, he.symm, rfl⟩
        · exact .inr (.inr ⟨hpos, by omega, hi⟩)

theorem bucketsFrom_nodup (sa depth : Nat) : (bucketsFrom sa depth).Nodup := by
  induction depth with
  | zero => simp [bucketsFrom]
  | succ depth ih =>
    rw [bucketsFrom, List.nodup_append']
    refine ⟨?_, ih, ?_⟩
    · exact List.nodup_range.map (fun i j h => by simpa using h)
    · intro b hb hb'
      obtain ⟨i, -, rfl⟩ := List.mem_map.mp hb
      rcases mem_bucketsFrom.mp hb' with h | h
      · simp at h
      · exact absurd h.2.1 (by simp)

/-- Only the buckets of the wheel hold items. -/
theorem Levels.Fills.bucket {w : Levels T sa nb} (h : w.Fills L cur) (hd : b.1 ≤ nb)
    (hx : x ∈ L b) : b ∈ bucketsFrom sa nb := by
  obtain ⟨d, i⟩ := b
  rw [mem_bucketsFrom]
  induction w with
  | last subList =>
    have hi := h i
    obtain rfl : d = 0 := Nat.le_zero.mp hd
    rw [hi] at hx
    split at hx
    · rename_i h0
      exact .inl (by rw [h0])
    · cases hx
  | @level nb subLists curList curLe next ih =>
    obtain ⟨hsub, hc, hnext⟩ := h
    by_cases he : d = nb + 1
    · subst he
      rw [hsub i] at hx
      split at hx
      · rename_i hi
        exact .inr ⟨by simp, Nat.le_refl _, hi⟩
      · cases hx
    · have hd : d ≤ nb + 1 := hd
      rcases ih hnext (by show d ≤ nb; omega) with h | h
      · exact .inl h
      · exact .inr ⟨h.1, Nat.le_succ_of_le h.2.1, h.2.2⟩

/-- The loops over a bucket meet its list. -/
theorem Shows.chain_eq {m : Memory T} {l : ExpIndexedList T g} (h : Shows m l L)
    (hroomy : m.Roomy fuel) (b : Bucket) : m.chain fuel (m.subLists b) = L b := by
  have hroot : m.subLists b = (L b).head? := h.held.links.root b
  rw [hroot]
  exact Memory.chain_eq (h.held.links.next b) (h.held.roomy hroomy b)

theorem Shows.buckets_nodup {m : Memory T} {l : ExpIndexedList T g} (h : Shows m l L) :
    (g.buckets.flatMap L).Nodup := by
  refine List.nodup_flatMap.mpr ⟨fun b _ => h.held.links.nodup b, ?_⟩
  refine (bucketsFrom_nodup g.sa g.nb).imp_of_mem (fun _ _ hne y hy hy' => ?_)
  exact hne (h.held.links.unique hy hy')

theorem Shows.kept [DecidableEq T] {m : Memory T} {l : ExpIndexedList T g} (h : Shows m l L)
    (hroomy : m.Roomy fuel) : m.Kept g fuel := by
  refine ⟨fun x hx => ?_, m.size_eq g fuel⟩
  obtain ⟨b, hb⟩ := Option.ne_none_iff_exists'.mp hx
  have hm : x ∈ L b := h.held.links.mem x b hb
  simp only [Memory.linked, h.chain_eq hroomy]
  refine List.count_eq_one_of_mem h.buckets_nodup ?_
  exact List.mem_flatMap.mpr ⟨b, h.fills.bucket (h.depth hm) hm, hm⟩

/-- An item that is in none of the lists is not kept. -/
theorem stranded_not_kept [DecidableEq T] {m : Memory T} {L : Bucket → List T}
    (h : (m.seen m.subLists (fun _ => none)).Shows L) (hy : (m.items y).lst ≠ none)
    (hnot : ∀ b, y ∉ L b) : ¬ m.Kept g fuel := by
  intro hk
  have hcount := hk.1 y hy
  have hm : y ∈ m.linked g fuel := List.count_pos_iff.mp (by omega)
  obtain ⟨b, -, hb⟩ := List.mem_flatMap.mp hm
  have hroot : m.subLists b = (L b).head? := h.root b
  rw [hroot] at hb
  exact hnot b (Memory.chain_subset (h.next b) y hb)

variable [DecidableEq T]

/-- How many items a use of the list may add. -/
def Use.adds : Use T → Nat
  | .act _ => 1
  | .shift script => script.flatten.length

/-- What the lists get to see of a use: what is not accepted is not seen. -/
def Use.Means : Use T → List (Op T) → Prop
  | .act (.add x index), ops => ops = [] ∨ ops = [.add x index]
  | .act (.rem x), ops | .act (.destroy x), ops => ops = [] ∨ ops = [.rem x]
  | .shift script, ops => ∃ adds : List (T × Nat),
      (adds.map (fun e => Act.add e.1 e.2)).Sublist script.flatten ∧
      ops = .shift :: adds.map (fun e => .add e.1 e.2)

theorem addAll_eq (l : ExpIndexedList T g) (adds : List (T × Nat)) :
    addAll l adds = (adds.map (fun e => Op.add e.1 e.2)).foldl apply l := by
  rw [addAll, List.foldl_map]
  rfl

theorem add_items_other (l : ExpIndexedList T g) (hy : y ≠ x) :
    (l.add x index).items y = l.items y := by
  have hadd : ∀ {nb : Nat} (w : Levels T g.sa nb) (pm of : Nat) (items : T → ItemData),
      (w.add pm of items x index).2 y = items y := by
    intro nb w
    induction w with
    | last subList => intro pm of items; exact link_of_ne hy
    | level subLists curList curLe next ih =>
      intro pm of items
      simp only [Levels.add]
      split
      · exact ih _ _ _
      · exact link_of_ne hy
  by_cases hl : (l.items x).lst = none
  · rw [l.add_free hl]
    exact (hadd _ _ _ _).trans (Function.update_of_ne hy _ _)
  · rw [l.add_held hl]

theorem rem_items_other (l : ExpIndexedList T g) (hy : y ≠ x) : (l.rem x).items y = l.items y := by
  simp only [ExpIndexedList.rem]
  split
  · rfl
  · exact link_of_ne hy

theorem rem_lst (l : ExpIndexedList T g) (x : T) : ((l.rem x).items x).lst = none := by
  simp only [ExpIndexedList.rem]
  split
  · assumption
  · exact link_self _ _ _

namespace Shows
variable {m m' : Memory T} {l : ExpIndexedList T g}

/-- A call from outside. -/
theorem act (h : Shows m l L) (hroomy : m.Roomy k) (a : Act T) :
    (m.act g a).Returns fun m' => ∃ ops L', Shows m' (ops.foldl apply l) L' ∧
      m'.Roomy (k + 1) ∧ Use.Means (.act a) ops := by
  have hsame : m.Roomy (k + 1) := hroomy.mono (Nat.le_succ k)
  have hrem : ∀ x m', (∃ L', Shows m' (l.rem x) L') → m'.Roomy (k + 1) := by
    intro x m' hm'
    obtain ⟨L', h'⟩ := hm'
    refine hroomy.grow [x] (fun y hy => ?_)
    rw [← h'.lst] at hy
    by_cases hyx : y = x
    · subst hyx
      exact absurd (rem_lst l y) hy
    · rw [rem_items_other l hyx, h.lst] at hy
      exact .inl hy
  cases a with
  | add x index =>
    simp only [Memory.act]
    split
    · rename_i ha
      refine (h.add x ha index).mono ?_
      intro m' hm'
      obtain ⟨⟨L', h'⟩, -⟩ := hm'
      refine ⟨[.add x index], L', h', hroomy.grow [x] (fun y hy => ?_), .inr rfl⟩
      rw [← h'.lst] at hy
      by_cases hyx : y = x
      · exact .inr (by simp [hyx])
      · rw [add_items_other l hyx, h.lst] at hy
        exact .inl hy
    · exact ⟨[], L, h, hsame, .inl rfl⟩
  | rem x =>
    simp only [Memory.act]
    split
    · refine (h.rem x).mono ?_
      intro m' hm'
      obtain ⟨⟨L', h'⟩, -⟩ := hm'
      exact ⟨[.rem x], L', h', hrem x m' ⟨L', h'⟩, .inr rfl⟩
    · exact ⟨[], L, h, hsame, .inl rfl⟩
  | destroy x =>
    simp only [Memory.act]
    split
    · refine (h.destroy x).mono ?_
      intro m' hm'
      obtain ⟨⟨L', h'⟩, -⟩ := hm'
      exact ⟨[.rem x], L', h', hrem x m' ⟨L', h'⟩, .inr rfl⟩
    · exact ⟨[], L, h, hsame, .inl rfl⟩

/-- The items that a shift hands over are those that the lists hand over. -/
theorem due_eq (h : Shows m l L) (hroomy : m.Roomy fuel) (hpos : g.nb ≠ 0) :
    m.due g fuel = l.shifted.out := by
  obtain ⟨m1, b, L1, hstart, hshift⟩ := shift_walks h hroomy hpos []
  have hstep : ∀ x todo m', (∃ back L', Midway m' l.shift b back L' (x :: todo) ∧
      m'.script = [] ∧ m'.handed ++ x :: todo = l.shifted.out) →
      m'.alive x = true ∧ (m'.items x).next = todo.head? ∧
      (Memory.callback g x (m'.setLst x none)).Returns fun m' =>
        ∃ back L', Midway m' l.shift b back L' todo ∧ m'.script = [] ∧
          m'.handed ++ todo = l.shifted.out := by
    intro x todo m' hm'
    obtain ⟨back, L', hmid, hscript, hhanded⟩ := hm'
    obtain ⟨halive, hnext, hmid'⟩ := hmid.hand
    have hidle : (m'.setLst x none).script = [] := hscript
    simp only [Memory.callback, hidle, List.headD_nil, Memory.acts, Exec.returns_ret]
    refine ⟨halive, hnext, some x, _, hmid'.congr rfl rfl rfl rfl rfl, rfl, ?_⟩
    have hlog : (m'.setLst x none).log = m'.log := rfl
    rw [← hhanded]
    simp [Memory.handed, hlog]
  obtain ⟨m2, hm2, back, L2, -, -, hhanded⟩ := (Memory.walk_rule
    (I := fun todo m' => ∃ back L', Midway m' l.shift b back L' todo ∧ m'.script = [] ∧
      m'.handed ++ todo = l.shifted.out) hstep
    ⟨none, L1, hstart.midway, hstart.script, by simp [Memory.handed, hstart.log]⟩
    (hstart.short hroomy)).exists
  rw [Memory.due, hshift, hm2]
  exact (List.append_nil _).symm.trans hhanded

end Shows

/-- No callback of a shift adds an item, that is in no list then, for the end of the cycle. -/
def CalmUse (g : Geometry) (fuel : Nat) (e : Exec (Memory T)) : Use T → Prop
  | .act _ => True
  | .shift script => CalmShift g.sa e.state.free (e.state.due g fuel) script

instance (g : Geometry) (fuel : Nat) (e : Exec (Memory T)) :
    (u : Use T) → Decidable (CalmUse g fuel e u)
  | .act _ => .isTrue trivial
  | .shift script =>
    inferInstanceAs (Decidable (CalmShift g.sa e.state.free (e.state.due g fuel) script))

/-- The state of a run, and how many items it may still add. -/
def Budgeted (g : Geometry) (fuel : Nat) (e : Exec (Memory T)) (us : List (Use T)) : Prop :=
  ∃ m, e = .ret m ∧ ∃ (l : ExpIndexedList T g) (L : Bucket → List T) (k : Nat), Shows m l L ∧
    m.Roomy k ∧ k + (us.map Use.adds).sum ≤ fuel

section uses
variable {m : Memory T} {l : ExpIndexedList T g} {fuel : Nat}

theorem Rearmed.roomy {m' : Memory T} (h : Rearmed m l script adds m') (hroomy : m.Roomy k) :
    m'.Roomy (k + script.flatten.length) := by
  have hgrow := hroomy.grow _ h.listed
  have hlen := h.accepted.length_le
  simp only [List.length_map] at hgrow hlen
  exact hgrow.mono (by omega)

/-- A use that is calm shows on the lists as what they get to see of it. -/
theorem use_shows (h : Shows m l L) (hroomy : m.Roomy k) (hk : k ≤ fuel) (hsa : g.sa < 2 ^ 31)
    (hpos : g.nb ≠ 0) {u : Use T} (hadds : ∀ script, u = .shift script → OnlyAdds script)
    (hcalm : CalmUse g fuel (.ret m) u) :
    (m.use g fuel u).Returns fun m' => ∃ ops L', Shows m' (ops.foldl apply l) L' ∧
      m'.Roomy (k + u.adds) ∧ u.Means ops ∧ ∀ script, u = .shift script →
        m'.handed = l.shifted.out := by
  cases u with
  | act a =>
    refine (h.act hroomy a).mono ?_
    intro m' hm'
    obtain ⟨ops, L', h', hroomy', hmeans⟩ := hm'
    exact ⟨ops, L', h', hroomy', hmeans, fun script he => by cases he⟩
  | shift script =>
    have hfuel : m.Roomy fuel := hroomy.mono hk
    have hcalm : CalmShift g.sa m.free (m.due g fuel) script := hcalm
    rw [h.due_eq hfuel hpos] at hcalm
    refine (shift_rearms h hfuel hsa hpos (hadds script rfl)).mono ?_
    rintro m' (⟨-, adds, h'⟩ | ⟨hnot, -⟩)
    · obtain ⟨L', hshows⟩ := h'.shows
      rw [addAll_eq] at hshows
      have hops : Shows m' ((Op.shift :: adds.map (fun e => Op.add e.1 e.2)).foldl apply l) L' :=
        hshows
      exact ⟨_, L', hops, h'.roomy hroomy, ⟨adds, h'.accepted, rfl⟩, fun _ _ => h'.handed⟩
    · exact absurd hcalm hnot

/-- A use keeps every item exactly if it is calm. -/
theorem use_kept_iff (h : Shows m l L) (hroomy : m.Roomy k) (hsa : g.sa < 2 ^ 31) (hpos : g.nb ≠ 0)
    {u : Use T} (hk : k + u.adds ≤ fuel) (hadds : ∀ script, u = .shift script → OnlyAdds script) :
    (m.use g fuel u).Returns (Memory.Kept g fuel) ↔ CalmUse g fuel (.ret m) u := by
  have hfuel : m.Roomy fuel := hroomy.mono (by omega)
  constructor
  · intro hkept
    cases u with
    | act a => trivial
    | shift script =>
      show CalmShift g.sa m.free (m.due g fuel) script
      rw [h.due_eq hfuel hpos]
      obtain ⟨m', hm', hk', h'⟩ := (hkept.and (shift_rearms h hfuel hsa hpos
        (hadds script rfl))).exists
      rcases h' with ⟨hcalm, -⟩ | ⟨-, L', y, hshows, hy, hnot⟩
      · exact hcalm
      · exact absurd hk' (stranded_not_kept hshows hy hnot)
  · intro hcalm
    refine (use_shows h hroomy (by omega) hsa hpos hadds hcalm).mono ?_
    intro m' hm'
    obtain ⟨ops, L', h', hroomy', -⟩ := hm'
    exact h'.kept (hroomy'.mono hk)

end uses

theorem new_budgeted (g : Geometry) (offset : Nat) (us : List (Use T))
    (hfuel : (us.map Use.adds).sum ≤ fuel) :
    Budgeted g fuel (.ret (Memory.new T offset)) us :=
  ⟨_, rfl, _, _, 0, Shows.new T g offset, Memory.new_roomy T offset, by simpa using hfuel⟩

theorem useStep_budgeted {e : Exec (Memory T)} {u : Use T} {us : List (Use T)}
    (hsa : g.sa < 2 ^ 31) (hpos : g.nb ≠ 0) (h : Budgeted g fuel e (u :: us))
    (hadds : ∀ script, u = .shift script → OnlyAdds script) (hcalm : CalmUse g fuel e u) :
    Budgeted g fuel (useStep g fuel e u) us := by
  obtain ⟨m, rfl, l, L, k, hshows, hroomy, hk⟩ := h
  simp only [List.map_cons, List.sum_cons] at hk
  obtain ⟨m', hm', ops, L', h', hroomy', -⟩ :=
    (use_shows hshows hroomy (by omega) hsa hpos hadds hcalm).exists
  exact ⟨m', hm', _, L', k + u.adds, h', hroomy', by omega⟩

/-- In every state of a run all items that have a list are kept, exactly if all shifts of the run
are calm. -/
theorem run_kept_iff (hsa : g.sa < 2 ^ 31) (hpos : g.nb ≠ 0) (offset : Nat) (us : List (Use T))
    (hadds : ∀ script, .shift script ∈ us → OnlyAdds script)
    (hfuel : (us.map Use.adds).sum ≤ fuel) :
    (∀ n, (run (useStep g fuel) (.ret (Memory.new T offset)) (us.take n)).Returns
        (Memory.Kept g fuel)) ↔
      Along (useStep g fuel) (CalmUse g fuel) (.ret (Memory.new T offset)) us := by
  refine along_budget_iff
    (fun e vs => Budgeted g fuel e vs ∧ ∀ script, .shift script ∈ vs → OnlyAdds script)
    (Exec.Returns (Memory.Kept g fuel)) ?_ ?_ ⟨new_budgeted g offset us hfuel, hadds⟩ ?_
  · intro e u vs hvs
    obtain ⟨⟨m, rfl, l, L, k, hshows, hroomy, hk⟩, hadds⟩ := hvs
    simp only [List.map_cons, List.sum_cons] at hk
    exact use_kept_iff hshows hroomy hsa hpos (by omega)
      (fun script he => hadds script (by simp [he]))
  · rintro e u vs ⟨hbudget, hadds⟩ hcalm
    exact ⟨useStep_budgeted hsa hpos hbudget (fun script he => hadds script (by simp [he])) hcalm,
      fun script hm => hadds script (List.mem_cons_of_mem _ hm)⟩
  · exact (Shows.new T g offset).kept ((Memory.new_roomy T offset).mono (Nat.zero_le _))

end Evel.ExpIndexed
