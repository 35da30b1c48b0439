import Evel.Proofs.Wheel

namespace Evel.ExpIndexed
open General Finset

variable {T : Type u} [DecidableEq T] {sa nb : Nat}

theorem sizeSub_eq (hb : b ≤ a) (ha : a < sizeMod) : sizeSub a b = a - b := by
  unfold sizeSub
  rw [Nat.add_comm, Nat.add_sub_assoc hb, Nat.add_mod_left, Nat.mod_eq_of_lt (by omega)]

@[simp] theorem link_offset (items : T → ItemData) (x y : T) (lst : Option Bucket) :
    (link items x lst y).offset = (items y).offset := by
  unfold link
  by_cases h : y = x
  · subst h; simp
  · rw [Function.update_of_ne h]

@[simp] theorem link_self (items : T → ItemData) (x : T) (lst : Option Bucket) :
    (link items x lst x).lst = lst := by
  simp [link]

theorem link_of_ne {x y : T} (h : y ≠ x) : link items x lst y = items y :=
  Function.update_of_ne h _ _

@[simp] theorem unlink_offset (items : T → ItemData) (out : List T) (y : T) :
    (unlink items out y).offset = (items y).offset := by
  unfold unlink
  split <;> rfl

@[simp] theorem unlink_nil (items : T → ItemData) : unlink items [] = items := by
  funext y
  simp [unlink]

theorem unlink_mem {y : T} (h : y ∈ out) : (unlink items out y).lst = none := by
  simp [unlink, h]

theorem unlink_not_mem {y : T} (h : y ∉ out) : unlink items out y = items y := by
  simp [unlink, h]

@[simp] theorem addLoc_offset (s : Store T) (x y : T) :
    ((addLoc sa depth pm c s x i).items y).offset = (s.items y).offset := by
  simp [addLoc]

/-- A new item is scheduled by the bucket it lands in; the others stay scheduled. -/
theorem addLoc_slots (hb : (c + i / pm) % sizeMod % sa = b) (hlt : b < sa)
    (due : T → Nat) (s : Store T) (x : T) :
    storeSlots sa due pm t c (addLoc sa depth pm c s x i).subLists =
      (x, settle pm (due x) (exitTick sa pm t c b)) ::ₘ storeSlots sa due pm t c s.subLists := by
  have h := sum_update_add (fun b xs => bucketSlots due pm (exitTick sa pm t c b) xs)
    s.subLists (x :: s.subLists b) hlt
  simp only [bucketSlots, List.map_cons, ← Multiset.cons_coe] at h
  simp only [addLoc, hb, storeSlots, bucketSlots]
  rw [Multiset.add_cons, ← Multiset.cons_add] at h
  exact add_right_cancel h

theorem mem_addLoc (hb : (c + i / pm) % sizeMod % sa = b) {s : Store T} (y : T) (b' : Nat) :
    y ∈ (addLoc sa depth pm c s x i).subLists b' ↔ (b' = b ∧ y = x) ∨ y ∈ s.subLists b' := by
  simp only [addLoc, hb]
  by_cases h : b' = b
  · subst h; simp
  · rw [Function.update_of_ne h]; simp [h]

/-- What the cascade makes of one level: its items keep their places and each moved
item gets the bucket of its rest. -/
structure Cascaded (sa depth pm t : Nat) (due : T → Nat) (moved : List T) (s r : Store T) :
    Prop where
  slots : storeSlots sa due pm t 0 r.subLists =
    ↑(moved.map (fun x => (x, settle (pm * sa) (due x) t))) + storeSlots sa due pm t 0 s.subLists
  offset : ∀ y, (r.items y).offset = (s.items y).offset
  frame : ∀ y, y ∉ moved → r.items y = s.items y
  mem : ∀ b < sa, ∀ y ∈ r.subLists b, y ∈ s.subLists b ∨
    (y ∈ moved ∧ exitTick sa pm t 0 b ≤ due y ∧ (r.items y).lst = some (depth, b))

theorem cascade_spec (depth pm t : Nat) (saPos : 0 < sa) (hnd : moved.Nodup) (s : Store T)
    (hdue : ∀ x ∈ moved, t ≤ (s.items x).offset ∧ (s.items x).offset < sizeMod) :
    Cascaded sa depth pm t (fun x => (s.items x).offset) moved s
      (moved.foldl (fun s item => addLoc sa depth pm 0 s item
        (sizeSub (s.items item).offset t)) s) := by
  induction moved generalizing s with
  | nil => exact ⟨by simp, fun _ => rfl, fun _ _ => rfl, fun b _ y hy => .inl hy⟩
  | cons x moved ih =>
    obtain ⟨hle, hlt⟩ := hdue x List.mem_cons_self
    obtain ⟨hx, hnd⟩ := List.nodup_cons.mp hnd
    have hsub := sizeSub_eq hle hlt
    have hsmall : ((s.items x).offset - t) / pm < sizeMod :=
      Nat.lt_of_le_of_lt (Nat.div_le_self _ _) (by omega)
    have hb : (0 + sizeSub (s.items x).offset t / pm) % sizeMod % sa =
        ((s.items x).offset - t) / pm % sa := by
      rw [hsub, Nat.zero_add, Nat.mod_eq_of_lt hsmall]
    have hlt' : ((s.items x).offset - t) / pm % sa < sa := Nat.mod_lt _ saPos
    have hexit : exitTick sa pm t 0 (((s.items x).offset - t) / pm % sa) =
        t + ((s.items x).offset - t) / pm % sa * pm := by
      simp [exitTick, cyclicDist]
    have h := ih hnd (addLoc sa depth pm 0 s x (sizeSub (s.items x).offset t))
      (fun y hy => by simpa using hdue y (List.mem_cons_of_mem _ hy))
    simp only [addLoc_offset] at h
    refine ⟨?_, fun y => ?_, fun y hy => ?_, fun b hbs y hy => ?_⟩
    · simp only [List.foldl_cons]
      rw [h.slots, addLoc_slots hb hlt', hexit, settle_split hle, Multiset.add_cons,
        List.map_cons, ← Multiset.cons_coe, Multiset.cons_add]
    · simpa using h.offset y
    · simp only [List.mem_cons, not_or] at hy
      simp only [List.foldl_cons]
      rw [h.frame y hy.2]
      exact link_of_ne hy.1
    · rcases h.mem b hbs y hy with hy' | ⟨hy', hd, hl⟩
      · rcases (mem_addLoc hb y b).mp hy' with ⟨rfl, rfl⟩ | hy'
        · refine .inr ⟨List.mem_cons_self, ?_, ?_⟩
          · rw [hexit]
            exact split_le hle sa
          · simp only [List.foldl_cons]
            rw [h.frame y hx]
            simp only [addLoc, hb]
            exact link_self _ _ _
        · exact .inl hy'
      · exact .inr ⟨List.mem_cons_of_mem _ hy', hd, hl⟩

/-- What a call of `shift` at tick `t` does to a sound stack of levels. -/
structure ShiftSpec (clear : Prop) (pm t : Nat) (w : Levels T sa nb) (items : T → ItemData)
    (r : Shifted T sa nb) : Prop where
  slots : w.slots (fun x => (items x).offset) pm t =
    r.levels.slots (fun x => (items x).offset) pm (t + pm) +
      ↑(r.out.map (fun x => (x, settle pm (items x).offset t)))
  sound : r.levels.Sound clear r.items pm (t + pm)
  due : ∀ x ∈ r.out, t ≤ (items x).offset
  offset : ∀ x, (r.items x).offset = (items x).offset
  out : ∀ x ∈ r.out, (r.items x).lst = none
  frame : ∀ x, x ∉ w.contents → r.items x = items x

omit [DecidableEq T] in
/-- Nothing is lost: what leaves the levels is handed to the callback. -/
theorem ShiftSpec.contents {w : Levels T sa nb} (h : ShiftSpec clear pm t w items r) :
    w.contents = r.levels.contents + ↑r.out := by
  have h := congrArg (Multiset.map Prod.fst) h.slots
  simpa [Levels.slots_contents, Function.comp_def] using h

/-- The items handed to the callback are unlinked, and no others are touched. -/
theorem ShiftSpec.of_unlink {w levels : Levels T sa nb} {out : List T}
    (hslots : w.slots (fun x => (items x).offset) pm t =
      levels.slots (fun x => (items x).offset) pm (t + pm) +
        ↑(out.map (fun x => (x, settle pm (items x).offset t))))
    (hsound : levels.Sound clear (unlink items out) pm (t + pm))
    (hdue : ∀ x ∈ out, t ≤ (items x).offset) (hout : ∀ x ∈ out, x ∈ w.contents) :
    ShiftSpec clear pm t w items ⟨levels, unlink items out, out⟩ where
  slots := hslots
  sound := hsound
  due := hdue
  offset := unlink_offset items out
  out := fun _ hx => unlink_mem hx
  frame := fun x hx => unlink_not_mem (fun hm => hx (hout x hm))

theorem exitTick_self (sa pm t c : Nat) : exitTick sa pm t c c = t := by
  simp [exitTick]

/-- Passing over one bucket brings the others one step nearer. -/
theorem exitTick_succ (hc : c < sa) (hb : b < sa) (hne : b ≠ c) :
    exitTick sa pm (t + pm) (c + 1) b = exitTick sa pm t c b := by
  unfold exitTick
  rw [cyclicDist_succ hc hb hne, Nat.add_mul, Nat.one_mul]
  omega

theorem next_tick_succ (hc : c < sa) (t pm : Nat) :
    t + pm + (sa - (c + 1)) * pm = t + (sa - c) * pm := by
  obtain ⟨d, hd⟩ : ∃ d, sa - c = d + 1 := ⟨sa - c - 1, by omega⟩
  rw [show sa - (c + 1) = d by omega, hd, Nat.add_mul, Nat.one_mul]
  omega

theorem takeBucket_spec (s : Store T) (h : c < sa) (next : Levels T sa nb)
    (hnd : (Levels.level s.subLists c (Nat.le_of_lt h) next).contents.Nodup)
    (hs : (Levels.level s.subLists c (Nat.le_of_lt h) next).Sound clear s.items pm t) :
    ShiftSpec clear pm t (.level s.subLists c (Nat.le_of_lt h) next) s.items
      (takeBucket s c h next) := by
  obtain ⟨hnd, -, hdis⟩ := Multiset.nodup_add.mp hnd
  have hout : ∀ b < sa, ∀ x ∈ s.subLists b, x ∈ s.subLists c → b = c := fun b hb x hx hx' =>
    bucket_unique hnd hb h (by simpa using hx) (by simpa using hx')
  have hin : ∀ x ∈ s.subLists c, x ∈ ∑ b ∈ range sa, (↑(s.subLists b) : Multiset T) :=
    fun x hx => mem_bucket_sum.mpr ⟨c, h, by simpa using hx⟩
  refine .of_unlink ?_ ⟨?_, ?_⟩ ?_ (fun x hx => Multiset.mem_add.mpr (.inl (hin x hx)))
  · have hsum := sum_update_add (fun b xs => bucketSlots (fun x => (s.items x).offset) pm
      (exitTick sa pm t c b) xs) s.subLists [] h
    have hstore : storeSlots sa (fun x => (s.items x).offset) pm (t + pm) (c + 1)
        (Function.update s.subLists c []) = ∑ b ∈ range sa,
          bucketSlots (fun x => (s.items x).offset) pm (exitTick sa pm t c b)
            (Function.update s.subLists c [] b) := by
      apply sum_congr rfl
      intro b hb
      by_cases hbc : b = c
      · subst hbc
        simp [bucketSlots]
      · rw [exitTick_succ h (mem_range.mp hb) hbc]
    simp only [Levels.slots, hstore, next_tick_succ h]
    simp only [exitTick_self, bucketSlots, List.map_nil, Multiset.coe_nil, add_zero] at hsum
    simp only [storeSlots, bucketSlots] at hsum ⊢
    rw [← hsum]
    ac_rfl
  · intro b hb x hx
    by_cases hbc : b = c
    · subst hbc
      simp at hx
    · rw [Function.update_of_ne hbc] at hx
      have hx' : x ∉ s.subLists c := fun hm => hbc (hout b hb x hx hm)
      rw [exitTick_succ h hb hbc]
      simp only [unlink_not_mem hx']
      exact hs.1 b hb x hx
  · rw [next_tick_succ h]
    refine hs.2.congr _ (fun x hx => unlink_not_mem (fun hm => ?_))
    exact Multiset.disjoint_left.mp hdis (hin x hm) hx
  · intro x hx
    have := (hs.1 c h x hx).1
    rwa [exitTick_self] at this

omit [DecidableEq T] in
/-- A cursor at the end of its cycle stands for the cursor at 0 of the next one. -/
theorem storeSlots_wrap (due : T → Nat) (pm t : Nat) (subLists : Nat → List T) :
    storeSlots sa due pm t sa subLists = storeSlots sa due pm t 0 subLists := by
  apply sum_congr rfl
  intro b hb
  simp only [exitTick, cyclicDist_wrap (mem_range.mp hb)]

theorem last_spec (subList : List T) (saPos : 0 < sa) (ht : t < sizeMod)
    (hs : (Levels.last subList : Levels T sa 0).Sound clear items pm t) :
    ShiftSpec clear pm t (.last subList : Levels T sa 0) items
      ((Levels.last subList).shift saPos t pm items) := by
  have hle : ∀ x ∈ subList, t ≤ (items x).offset := fun x hx => by
    have := (hs x hx).1
    rwa [Nat.mod_eq_of_lt ht] at this
  have hmod := Nat.mod_le (t + pm) sizeMod
  have hin : ∀ x ∈ subList.filter (fun x => decide ((items x).offset < (t + pm) % sizeMod)),
      x ∈ subList := fun x hx => (List.mem_filter.mp hx).1
  refine .of_unlink ?_ ?_ (fun x hx => hle x (hin x hx)) (fun x hx => hin x hx)
  · simp only [Levels.slots, Multiset.coe_add, Multiset.coe_eq_coe]
    have hsettle : (subList.filter (fun x => decide ((items x).offset < (t + pm) % sizeMod))).map
          (fun x => (x, settle pm (items x).offset t)) =
        (subList.filter (fun x => decide ((items x).offset < (t + pm) % sizeMod))).map
          (fun x => (x, (items x).offset)) := by
      apply List.map_congr_left
      intro x hx
      obtain ⟨hm, hd⟩ := List.mem_filter.mp hx
      have hlt : (items x).offset < (t + pm) % sizeMod := by simpa using hd
      have hle := hle x hm
      rw [settle, Nat.mod_eq_of_lt (by omega), Nat.add_sub_cancel' hle]
    rw [hsettle, ← List.map_append]
    refine List.Perm.map _ (List.Perm.symm ?_)
    exact (List.perm_append_comm).trans (List.filter_append_perm _ _)
  · intro x hx
    obtain ⟨hm, hd⟩ := List.mem_filter.mp hx
    have hge : (t + pm) % sizeMod ≤ (items x).offset := by simpa using hd
    have hnot : x ∉ subList.filter
        (fun x => decide ((items x).offset < (t + pm) % sizeMod)) := by
      intro hx'
      simp [(List.mem_filter.mp hx').2] at hd
    simp only [unlink_not_mem hnot]
    obtain ⟨-, hclear, hl⟩ := hs x hm
    refine ⟨hge, fun hc => ?_, hl⟩
    -- nothing wraps: the step of the bucket ends where it should
    obtain ⟨h, hroom⟩ := hclear hc
    rw [Nat.mod_eq_of_lt (by omega)] at hge
    exact ⟨hge, hroom⟩

omit [DecidableEq T] in
/-- The level that the cascade leaves behind stands for the same schedule. -/
theorem cascade_level {subLists : Nat → List T} {next : Levels T sa nb}
    {r : Shifted T sa nb} {s : Store T}
    (hnd : (Levels.level subLists sa (Nat.le_refl sa) next).contents.Nodup)
    (hs : (Levels.level subLists sa (Nat.le_refl sa) next).Sound clear items pm t)
    (hr : ShiftSpec clear (pm * sa) t next items r)
    (hc : Cascaded sa (nb + 1) pm t (fun x => (items x).offset) r.out ⟨subLists, r.items⟩ s) :
    (Levels.level subLists sa (Nat.le_refl sa) next).slots (fun x => (items x).offset) pm t =
      (Levels.level s.subLists 0 (Nat.zero_le sa) r.levels).slots
        (fun x => (items x).offset) pm t ∧
    (Levels.level s.subLists 0 (Nat.zero_le sa) r.levels).Sound clear s.items pm t := by
  obtain ⟨-, hnn, hdis⟩ := Multiset.nodup_add.mp hnd
  have hcontents := hr.contents
  rw [hcontents] at hnn hdis
  obtain ⟨-, -, hdis'⟩ := Multiset.nodup_add.mp hnn
  refine ⟨?_, ⟨?_, ?_⟩⟩
  · simp only [Levels.slots, storeSlots_wrap, Nat.sub_self, Nat.zero_mul, Nat.add_zero,
      Nat.sub_zero, hr.slots, hc.slots, Nat.mul_comm sa pm]
    ac_rfl
  · intro b hb x hx
    rcases hc.mem b hb x hx with hx | ⟨-, hd, hl⟩
    · have hin : x ∈ ∑ b ∈ range sa, (↑(subLists b) : Multiset T) :=
        mem_bucket_sum.mpr ⟨b, hb, by simpa using hx⟩
      have hnot := Multiset.disjoint_left.mp hdis hin
      have hitem : s.items x = items x := by
        rw [hc.frame x (fun hm => hnot (Multiset.mem_add.mpr (.inr (by simpa using hm))))]
        exact hr.frame x (fun hm => hnot (hcontents ▸ hm))
      obtain ⟨hd, hl⟩ := hs.1 b hb x hx
      rw [hitem]
      refine ⟨?_, hl⟩
      simpa only [exitTick, cyclicDist_wrap hb] using hd
    · refine ⟨?_, hl⟩
      rw [hc.offset, hr.offset]
      exact hd
  · rw [Nat.sub_zero, Nat.mul_comm sa pm]
    refine hr.sound.congr _ (fun x hx => hc.frame x (fun hm => ?_))
    exact Multiset.disjoint_left.mp hdis' hx (by simpa using hm)

/-- A call that finds the cursor at the end: cascade, then empty the first bucket. -/
theorem wrap_spec {subLists : Nat → List T} {next : Levels T sa nb}
    {r : Shifted T sa nb} {s : Store T} (saPos : 0 < sa)
    (hnd : (Levels.level subLists sa (Nat.le_refl sa) next).contents.Nodup)
    (hs : (Levels.level subLists sa (Nat.le_refl sa) next).Sound clear items pm t)
    (hr : ShiftSpec clear (pm * sa) t next items r)
    (hc : Cascaded sa (nb + 1) pm t (fun x => (items x).offset) r.out ⟨subLists, r.items⟩ s) :
    ShiftSpec clear pm t (.level subLists sa (Nat.le_refl sa) next) items
      (takeBucket s 0 saPos r.levels) := by
  obtain ⟨hslots, hsound⟩ := cascade_level hnd hs hr hc
  have hcontents := congrArg (Multiset.map Prod.fst) hslots
  rw [Levels.slots_contents, Levels.slots_contents] at hcontents
  have htake := takeBucket_spec s saPos r.levels (hcontents ▸ hnd) hsound
  have hoff : ∀ x, (s.items x).offset = (items x).offset :=
    fun x => (hc.offset x).trans (hr.offset x)
  refine ⟨?_, htake.sound, ?_, ?_, htake.out, ?_⟩
  · rw [hslots]
    simpa only [hoff] using htake.slots
  · intro x hx
    rw [← hoff x]
    exact htake.due x hx
  · intro x
    rw [htake.offset, hoff]
  · intro x hx
    have hn : x ∉ next.contents := fun hm => hx (Multiset.mem_add.mpr (.inr hm))
    have hout : x ∉ r.out := by
      intro hm
      rw [hr.contents] at hn
      exact hn (Multiset.mem_add.mpr (.inr (by simpa using hm)))
    rw [htake.frame x (hcontents ▸ hx), hc.frame x hout]
    exact hr.frame x hn

theorem nextPm_eq (saPos : 0 < sa) (h : pm * sa ^ (nb + 1) < sizeMod) :
    nextPm sa pm = pm * sa ∧ pm * sa * sa ^ nb < sizeMod := by
  have he : pm * sa * sa ^ nb = pm * sa ^ (nb + 1) := by
    rw [Nat.mul_assoc, ← Nat.pow_succ']
  have hle : pm * sa ≤ pm * sa * sa ^ nb := Nat.le_mul_of_pos_right _ (Nat.pow_pos saPos)
  exact ⟨Nat.mod_eq_of_lt (by omega), by omega⟩

/-- One call of `shift`, at every depth: the flat schedule loses exactly what is handed
to the callback. The induction follows the levels. -/
theorem shift_spec (saPos : 0 < sa) (w : Levels T sa nb) (hpm : pm * sa ^ nb < sizeMod)
    (ht : t < sizeMod) (hnd : w.contents.Nodup) (hlt : ∀ x ∈ w.contents, (items x).offset < sizeMod)
    (hs : w.Sound clear items pm t) : ShiftSpec clear pm t w items (w.shift saPos t pm items) := by
  induction w generalizing pm items with
  | last subList => exact last_spec subList saPos ht hs
  | @level nb subLists curList curLe next ih =>
    by_cases hc : curList = sa
    · subst hc
      obtain ⟨hnm, hpm'⟩ := nextPm_eq saPos hpm
      have hnn := (Multiset.nodup_add.mp hnd).2.1
      have hr : ShiftSpec clear (pm * curList) t next items
          (next.shift saPos t (pm * curList) items) :=
        ih hpm' hnn (fun x hx => hlt x (Multiset.mem_add.mpr (.inr hx)))
          (by simpa only [Nat.sub_self, Nat.zero_mul, Nat.add_zero] using hs.2)
      have hout : ∀ x ∈ (next.shift saPos t (pm * curList) items).out, x ∈ next.contents := by
        intro x hx
        rw [hr.contents]
        exact Multiset.mem_add.mpr (.inr (by simpa using hx))
      have hnd' : (next.shift saPos t (pm * curList) items).out.Nodup := by
        rw [hr.contents] at hnn
        simpa using (Multiset.nodup_add.mp hnn).2.1
      have hcas := cascade_spec (nb + 1) pm t saPos hnd'
        ⟨subLists, (next.shift saPos t (pm * curList) items).items⟩ (by
          intro x hx
          rw [hr.offset]
          exact ⟨hr.due x hx, hlt x (Multiset.mem_add.mpr (.inr (hout x hx)))⟩)
      simp only [hr.offset] at hcas
      simp only [Levels.shift, ↓reduceDIte, hnm]
      exact wrap_spec saPos hnd hs hr hcas
    · simp only [Levels.shift, hc, ↓reduceDIte]
      exact takeBucket_spec ⟨subLists, items⟩ (Nat.lt_of_le_of_ne curLe hc) next hnd hs

/-- Every item that a cascade passes on was still listed and not yet due. -/
theorem cascaded_spec (saPos : 0 < sa) (w : Levels T sa nb) (hpm : pm * sa ^ nb < sizeMod)
    (ht : t < sizeMod) (hnd : w.contents.Nodup) (hlt : ∀ x ∈ w.contents, (items x).offset < sizeMod)
    (hs : w.Sound clear items pm t) : ∀ x ∈ w.cascaded saPos t pm items, t ≤ (items x).offset := by
  induction w generalizing pm with
  | last subList => simp [Levels.cascaded]
  | @level nb subLists curList curLe next ih =>
    intro x hx
    simp only [Levels.cascaded] at hx
    split at hx
    · rename_i hc
      subst hc
      obtain ⟨hnm, hpm'⟩ := nextPm_eq saPos hpm
      have hnn := (Multiset.nodup_add.mp hnd).2.1
      have hln : ∀ x ∈ next.contents, (items x).offset < sizeMod :=
        fun x hx => hlt x (Multiset.mem_add.mpr (.inr hx))
      have hsn : next.Sound clear items (pm * curList) t := by
        simpa only [Nat.sub_self, Nat.zero_mul, Nat.add_zero] using hs.2
      rw [hnm] at hx
      rcases List.mem_append.mp hx with hx | hx
      · exact ih hpm' hnn hln hsn x hx
      · exact (shift_spec saPos next hpm' ht hnn hln hsn).due x hx
    · simp at hx

end Evel.ExpIndexed
