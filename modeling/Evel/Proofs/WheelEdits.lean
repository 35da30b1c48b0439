import Evel.Proofs.WheelOps

namespace Evel.ExpIndexed
open General Finset

variable {T : Type u} [DecidableEq T] {sa nb : Nat}

/-- The index from which on items go to the last bucket. -/
def lastIndex (sa : Nat) : (nb pm of : Nat) → Nat
  | 0, _, of => of
  | nb + 1, pm, of => lastIndex sa nb (pm * sa) (of + pm * sa)

/-- How many ticks early the callback of an added item comes. `lag` is how far the
cursors of the levels passed over have moved into their cycles. -/
def lead (sa pm of lag : Nat) : List Nat → Nat → Nat
  | [], _ => 0
  | c :: cs, index =>
    if of + pm * sa ≤ index then lead sa (pm * sa) (of + pm * sa) (lag + c * pm) cs index
    else (lag + (index - of) % pm) / pm * pm

theorem le_lastIndex (sa nb pm of : Nat) : of ≤ lastIndex sa nb pm of := by
  induction nb generalizing pm of with
  | zero => exact Nat.le_refl _
  | succ nb ih => exact Nat.le_trans (Nat.le_add_right _ _) (ih _ _)

theorem lastIndex_pow (sa nb pm of : Nat) :
    of + pm * sa ^ (nb + 1) ≤ lastIndex sa (nb + 1) pm of := by
  induction nb generalizing pm of with
  | zero => simp [lastIndex]
  | succ nb ih =>
    have h := ih (pm * sa) (of + pm * sa)
    have he : pm * sa * sa ^ (nb + 1) = pm * sa ^ (nb + 1 + 1) := by
      rw [Nat.mul_assoc, ← Nat.pow_succ']
    rw [he] at h
    exact Nat.le_trans (by omega) h

/-- What `add` does to a sound stack of levels: one more scheduled item. -/
structure AddSpec (clear : Prop) (pm t : Nat) (w : Levels T sa nb) (items : T → ItemData)
    (x : T) (f : Nat) (r : Levels T sa nb × (T → ItemData)) : Prop where
  slots : r.1.slots (fun x => (items x).offset) pm t =
    (x, f) ::ₘ w.slots (fun x => (items x).offset) pm t
  ahead : t ≤ f
  sound : r.1.Sound clear r.2 pm t
  offset : ∀ y, (r.2 y).offset = (items y).offset
  frame : ∀ y, y ≠ x → r.2 y = items y

omit [DecidableEq T] in
theorem AddSpec.contents {w : Levels T sa nb} {r : Levels T sa nb × (T → ItemData)}
    (h : AddSpec clear pm t w items x f r) : r.1.contents = x ::ₘ w.contents := by
  have hc := congrArg (Multiset.map Prod.fst) h.slots
  rwa [Multiset.map_cons, Levels.slots_contents, Levels.slots_contents] at hc

/-- The bucket of a new item `j` steps ahead of the cursor. -/
theorem bucket_ahead (hc : c ≤ sa) (hsa : sa < 2 ^ 31) (hj : j < sa) :
    (c + j) % sizeMod % sa < sa ∧ cyclicDist sa c ((c + j) % sizeMod % sa) = j := by
  have hm : (c + j) % sizeMod = c + j := Nat.mod_eq_of_lt (by unfold sizeMod; omega)
  rw [hm]
  exact ⟨Nat.mod_lt _ (by omega), cyclicDist_ahead hc hj⟩

theorem addLoc_spec (hc : c ≤ sa) (hsa : sa < 2 ^ 31) (next : Levels T sa nb)
    (hof : of ≤ i) (hi : i < of + pm * sa) (hlag : n + of = t + lag)
    (hx : x ∉ (Levels.level subLists c hc next).contents)
    (hdue : (items x).offset = n + i)
    (hs : (Levels.level subLists c hc next).Sound clear items pm t) :
    ∃ f, f + (lag + (i - of) % pm) / pm * pm = n + i ∧
      AddSpec clear pm t (.level subLists c hc next) items x f
        (.level (addLoc sa (nb + 1) pm c ⟨subLists, items⟩ x (i - of)).subLists c hc next,
          (addLoc sa (nb + 1) pm c ⟨subLists, items⟩ x (i - of)).items) := by
  have hj : (i - of) / pm < sa := Nat.div_lt_of_lt_mul (by omega)
  obtain ⟨hb, hd⟩ := bucket_ahead hc hsa hj
  have hdm := Nat.div_add_mod (i - of) pm
  rw [Nat.mul_comm] at hdm
  have hexit : exitTick sa pm t c ((c + (i - of) / pm) % sizeMod % sa) =
      t + (i - of) / pm * pm := by
    rw [exitTick, hd]
  have hle : t + (i - of) / pm * pm ≤ n + i := by omega
  have hwait : n + i - (t + (i - of) / pm * pm) = lag + (i - of) % pm := by omega
  refine ⟨settle pm (n + i) (t + (i - of) / pm * pm), ?_, ?_, ?_, ⟨?_, ?_⟩, ?_, ?_⟩
  · have h := settle_lost (p := pm) hle
    rwa [hwait] at h
  · simp only [Levels.slots]
    rw [addLoc_slots rfl hb, hexit, hdue, Multiset.cons_add]
  · exact Nat.le_trans (Nat.le_add_right t _) (le_settle _ _ _)
  · intro b hbs y hy
    rcases (mem_addLoc rfl y b).mp hy with ⟨rfl, rfl⟩ | hy'
    · simp only [addLoc_offset, hexit, hdue]
      exact ⟨hle, link_self _ _ _⟩
    · have hne : y ≠ x := by
        rintro rfl
        exact hx (Multiset.mem_add.mpr (.inl (mem_bucket_sum.mpr ⟨b, hbs, by simpa using hy'⟩)))
      simp only [addLoc, link_of_ne hne]
      exact hs.1 b hbs y hy'
  · refine hs.2.congr _ (fun y hy => link_of_ne ?_)
    rintro rfl
    exact hx (Multiset.mem_add.mpr (.inr hy))
  · intro y
    exact addLoc_offset _ _ _
  · intro y hy
    exact link_of_ne hy

/-- The recursion of `add` passes over the levels whose range the index exceeds. -/
theorem add_spec (pm of lag : Nat) (w : Levels T sa nb) (hsa : sa < 2 ^ 31)
    (hfit : lastIndex sa nb pm of < sizeMod) (hof : of ≤ i) (hi : i < sizeMod)
    (hlag : n + of = t + lag) (hx : x ∉ w.contents) (hdue : (items x).offset = n + i)
    (hroom : clear → lastIndex sa nb pm of ≤ i → n + i + pm * sa ^ nb < sizeMod)
    (hs : w.Sound clear items pm t) :
    ∃ f, f + lead sa pm of lag w.cursors i = n + i ∧
      AddSpec clear pm t w items x f (w.add pm of items x i) := by
  induction w generalizing pm of lag t with
  | last subList =>
    have hle : t ≤ n + i := by omega
    refine ⟨n + i, rfl, ?_, hle, ?_, ?_, ?_⟩
    · simp [Levels.add, Levels.slots, hdue]
    · intro y hy
      by_cases hy' : y = x
      · subst hy'
        simp only [Levels.add, link_offset, link_self, hdue]
        exact ⟨Nat.le_trans (Nat.mod_le _ _) hle,
          fun hc => ⟨hle, by simpa using hroom hc hof⟩, trivial⟩
      · simp only [Levels.add, link_of_ne hy'] at hy ⊢
        exact hs y (by simpa [hy'] using hy)
    · intro y
      exact link_offset _ _ _ _
    · intro y hy
      exact link_of_ne hy
  | @level nb subLists curList curLe next ih =>
    have hnext : of + pm * sa < sizeMod :=
      Nat.lt_of_le_of_lt (le_lastIndex sa nb (pm * sa) (of + pm * sa)) hfit
    have hni : nextIndex sa pm of = of + pm * sa := Nat.mod_eq_of_lt hnext
    have hnm : nextPm sa pm = pm * sa := Nat.mod_eq_of_lt (by omega)
    simp only [Levels.add, lead, Levels.cursors, hni, hnm]
    split
    · rename_i hge
      have hlag' : n + (of + pm * sa) = t + (sa - curList) * pm + (lag + curList * pm) := by
        have h : (sa - curList) * pm + curList * pm = pm * sa := by
          rw [← Nat.add_mul, Nat.sub_add_cancel curLe, Nat.mul_comm]
        omega
      obtain ⟨f, hf, h⟩ := ih (pm * sa) _ _ hfit hge hlag'
        (fun hm => hx (Multiset.mem_add.mpr (.inr hm)))
        (by rwa [Nat.mul_assoc, ← Nat.pow_succ']) hs.2
      refine ⟨f, hf, ?_, Nat.le_trans (Nat.le_add_right t _) h.ahead, ⟨?_, h.sound⟩, h.offset,
        h.frame⟩
      · simp only [Levels.slots, h.slots]
        rw [Multiset.add_cons]
      · intro b hb y hy
        have hne : y ≠ x := by
          rintro rfl
          exact hx (Multiset.mem_add.mpr (.inl (mem_bucket_sum.mpr ⟨b, hb, by simpa using hy⟩)))
        rw [h.frame y hne]
        exact hs.1 b hb y hy
    · rename_i hlt
      rw [sizeSub_eq hof hi]
      exact addLoc_spec curLe hsa next hof (Nat.not_le.mp hlt) hlag hx hdue hs

omit [DecidableEq T] in
/-- The bucket an item knows lies in the part of the wheel that holds the item. -/
theorem sound_depth (w : Levels T sa nb) (hs : w.Sound clear items pm t) (hx : x ∈ w.contents) :
    ∃ d b, (items x).lst = some (d, b) ∧ d ≤ nb := by
  induction w generalizing pm t with
  | last subList => exact ⟨0, 0, (hs x (by simpa [Levels.contents] using hx)).2.2, Nat.le_refl _⟩
  | level subLists curList curLe next ih =>
    rcases Multiset.mem_add.mp hx with hx | hx
    · obtain ⟨b, hb, hx⟩ := mem_bucket_sum.mp hx
      exact ⟨_, b, (hs.1 b hb x (by simpa using hx)).2, Nat.le_refl _⟩
    · obtain ⟨d, b, hl, hd⟩ := ih hs.2 hx
      exact ⟨d, b, hl, Nat.le_succ_of_le hd⟩

/-- What `rem` does to a sound stack of levels: one scheduled item less. -/
structure EraseSpec (clear : Prop) (due : T → Nat) (pm t : Nat) (w : Levels T sa nb)
    (items : T → ItemData) (x : T) (w' : Levels T sa nb) : Prop where
  slots : ∃ f, w.slots due pm t = (x, f) ::ₘ w'.slots due pm t
  sound : ∀ items', (∀ y, y ≠ x → items' y = items y) → w'.Sound clear items' pm t

omit [DecidableEq T] in
theorem EraseSpec.contents {w w' : Levels T sa nb} (h : EraseSpec clear due pm t w items x w') :
    w.contents = x ::ₘ w'.contents := by
  obtain ⟨f, hf⟩ := h.slots
  have hc := congrArg (Multiset.map Prod.fst) hf
  rwa [Multiset.map_cons, Levels.slots_contents, Levels.slots_contents] at hc

/-- Taking an item out of its bucket takes its entry out of the schedule of the store. -/
theorem storeSlots_erase (due : T → Nat) (pm t curList : Nat) (hb : b < sa)
    (hm : x ∈ subLists b) :
    storeSlots sa due pm t curList subLists =
      (x, settle pm (due x) (exitTick sa pm t curList b)) ::ₘ
        storeSlots sa due pm t curList (Function.update subLists b ((subLists b).erase x)) := by
  have hsum := sum_update_add (fun b xs => bucketSlots due pm
    (exitTick sa pm t curList b) xs) subLists ((subLists b).erase x) hb
  have hbucket : bucketSlots due pm (exitTick sa pm t curList b) (subLists b) =
      (x, settle pm (due x) (exitTick sa pm t curList b)) ::ₘ
        bucketSlots due pm (exitTick sa pm t curList b) ((subLists b).erase x) := by
    simp only [bucketSlots, Multiset.cons_coe, Multiset.coe_eq_coe]
    exact (List.perm_cons_erase hm).map
      (fun x => (x, settle pm (due x) (exitTick sa pm t curList b)))
  rw [hbucket, Multiset.add_cons, ← Multiset.cons_add] at hsum
  exact (add_right_cancel hsum).symm

/-- The item is in a bucket of this level. -/
theorem erase_own (due : T → Nat) (hc : c ≤ sa) (next : Levels T sa nb)
    (hnd : (Levels.level subLists c hc next).contents.Nodup)
    (hs : (Levels.level subLists c hc next).Sound clear items pm t) (hb : b < sa)
    (hm : x ∈ subLists b) :
    EraseSpec clear due pm t (.level subLists c hc next) items x
      (.level (Function.update subLists b ((subLists b).erase x)) c hc next) := by
  obtain ⟨hnb, -, hdis⟩ := Multiset.nodup_add.mp hnd
  have hx : x ∈ ∑ b ∈ range sa, (↑(subLists b) : Multiset T) :=
    mem_bucket_sum.mpr ⟨b, hb, by simpa using hm⟩
  refine ⟨⟨settle pm (due x) (exitTick sa pm t c b), ?_⟩,
    fun items' hi => ⟨?_, hs.2.congr _ (fun y hy => hi y ?_)⟩⟩
  · simp only [Levels.slots]
    rw [storeSlots_erase due pm t c hb hm, Multiset.cons_add]
  · intro b' hb' y hy
    obtain ⟨hne, hmem⟩ := mem_update_erase hnb hb hm hb' hy
    rw [hi y hne]
    exact hs.1 b' hb' y hmem
  · rintro rfl
    exact Multiset.disjoint_left.mp hdis hx hy

omit [DecidableEq T] in
/-- The item is in a level above. -/
theorem erase_next (due : T → Nat) (hc : c ≤ sa) {next next' : Levels T sa nb}
    (hnd : (Levels.level subLists c hc next).contents.Nodup)
    (hs : (Levels.level subLists c hc next).Sound clear items pm t) (hx : x ∈ next.contents)
    (h : EraseSpec clear due (pm * sa) (t + (sa - c) * pm) next items x next') :
    EraseSpec clear due pm t (.level subLists c hc next) items x (.level subLists c hc next') := by
  obtain ⟨-, -, hdis⟩ := Multiset.nodup_add.mp hnd
  obtain ⟨f, hf⟩ := h.slots
  refine ⟨⟨f, ?_⟩, fun items' hi => ⟨?_, h.sound items' hi⟩⟩
  · simp only [Levels.slots, hf]
    rw [Multiset.add_cons]
  · intro b hb y hy
    have hne : y ≠ x := by
      rintro rfl
      exact Multiset.disjoint_left.mp hdis (mem_bucket_sum.mpr ⟨b, hb, by simpa using hy⟩) hx
    rw [hi y hne]
    exact hs.1 b hb y hy

/-- `rem` drops exactly its item from the schedule. The bucket that the item knows is the one
that holds it. -/
theorem erase_spec (due : T → Nat) (w : Levels T sa nb) (hnd : w.contents.Nodup)
    (hs : w.Sound clear items pm t) (hx : x ∈ w.contents) (hl : (items x).lst = some a) :
    EraseSpec clear due pm t w items x (w.erase a x) := by
  induction w generalizing pm t with
  | last subList =>
    have hx : x ∈ subList := by simpa [Levels.contents] using hx
    have hnd : subList.Nodup := by simpa [Levels.contents] using hnd
    refine ⟨⟨due x, ?_⟩, fun items' hi y hy => ?_⟩
    · simp only [Levels.slots, Levels.erase, Multiset.cons_coe, Multiset.coe_eq_coe]
      exact (List.perm_cons_erase hx).map (fun x => (x, due x))
    · obtain ⟨hne, hm⟩ := (List.Nodup.mem_erase_iff hnd).mp hy
      rw [hi y hne]
      exact hs y hm
  | @level nb subLists curList curLe next ih =>
    obtain ⟨depth, b⟩ := a
    rcases Multiset.mem_add.mp hx with hx | hx
    · obtain ⟨c, hc, hm⟩ := mem_bucket_sum.mp hx
      have hm : x ∈ subLists c := by simpa using hm
      obtain ⟨rfl, rfl⟩ : depth = nb + 1 ∧ b = c := by
        simpa [hl] using (hs.1 c hc x hm).2
      simp only [Levels.erase, ↓reduceIte]
      exact erase_own due curLe next hnd hs hc hm
    · obtain ⟨d, b', hl', hd⟩ := sound_depth next hs.2 hx
      have hne : depth ≠ nb + 1 := by
        rw [hl] at hl'
        simp only [Option.some.injEq, Prod.mk.injEq] at hl'
        omega
      simp only [Levels.erase, hne, ↓reduceIte]
      exact erase_next due curLe hnd hs hx (ih (Multiset.nodup_add.mp hnd).2.1 hs.2 hx)

end Evel.ExpIndexed
