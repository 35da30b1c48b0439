import Evel.Proofs.WheelRuns

namespace Evel.ExpIndexed
open General Finset

/-- What a list is for: a map from each item to the number of shifts before its own. -/
structure Flat (T : Type u) where
  entries : List (T × Nat)
  tick : Nat
  single : (entries.map Prod.fst).Nodup

namespace Flat
variable {T : Type u} [DecidableEq T]

def new (T : Type u) : Flat T := ⟨[], 0, List.nodup_nil⟩

omit [DecidableEq T] in
theorem single_filter (f : Flat T) (p : T × Nat → Bool) :
    ((f.entries.filter p).map Prod.fst).Nodup :=
  f.single.sublist (List.filter_sublist.map Prod.fst)

def put (f : Flat T) (item : T) (index : Nat) : Flat T :=
  if h : item ∈ f.entries.map Prod.fst then f
  else ⟨(item, index) :: f.entries, f.tick, List.nodup_cons.mpr ⟨h, f.single⟩⟩

def drop (f : Flat T) (item : T) : Flat T :=
  ⟨f.entries.filter (fun e => e.1 ≠ item), f.tick, f.single_filter _⟩

def due (f : Flat T) : List T := (f.entries.filter (fun e => e.2 = f.tick)).map Prod.fst

def shift (f : Flat T) : Flat T :=
  ⟨f.entries.filter (fun e => e.2 ≠ f.tick), f.tick + 1, f.single_filter _⟩

def call (f : Flat T) : Call T → Flat T × Seen T
  | .add item index => (f.put item index, .nothing)
  | .rem item => (f.drop item, .nothing)
  | .destroy item => (f.drop item, .nothing)
  | .size => (f, .size f.entries.length)
  | .shift => (f.shift, .handed f.due)

def observe : Flat T → List (Call T) → List (Seen T)
  | _, [] => []
  | f, c :: cs => (f.call c).2 :: (f.call c).1.observe cs

end Flat

/-- The same but for the order in which a shift hands its items over. -/
inductive Seen.Same : Seen T → Seen T → Prop
  | nothing : Same .nothing .nothing
  | size (n : Nat) : Same (.size n) (.size n)
  | handed (h : out.Perm out') : Same (.handed out) (.handed out')

variable {T : Type u} {g : Geometry}

theorem Seen.Same.symm {s s' : Seen T} (h : s.Same s') : s'.Same s := by
  cases h with
  | nothing => exact .nothing
  | size n => exact .size n
  | handed h => exact .handed h.symm

theorem Seen.Same.trans {s s' s'' : Seen T} (h : s.Same s') (h' : s'.Same s'') : s.Same s'' := by
  cases h with
  | nothing => exact h'
  | size n => exact h'
  | handed h =>
    cases h' with
    | handed h' => exact .handed (h.trans h')

/-- The loops of `size` count what is listed. -/
theorem Levels.size_eq (w : Levels T sa nb) : w.size = w.contents.card := by
  induction w with
  | last subList => simp [size, contents]
  | level subLists curList curLe next ih =>
    simp only [size, contents, Multiset.card_add, ih, Multiset.card_sum, Multiset.coe_card]
    rfl

/-- The list shows what the flat map shows: its schedule is the map's, counted from the offset
of the first shift. -/
structure Agrees [DecidableEq T] (offset : Nat) (l : ExpIndexedList T g) (f : Flat T) : Prop where
  good : ∃ log, Good True ⟨l, log⟩
  tick : l.offset = (offset + f.tick) % sizeMod
  slots : l.slots = ↑(f.entries.map (fun e => (e.1, offset + e.2)))
  ahead : ∀ e ∈ f.entries, f.tick ≤ e.2 ∧ offset + e.2 < sizeMod

/-- No cursor has moved. -/
def Fresh (l : ExpIndexedList T g) : Prop := ∀ c ∈ l.list.cursors, c = 0

theorem lead_fresh (cs : List Nat) (h : ∀ c ∈ cs, c = 0) (sa pm of index : Nat) :
    lead sa pm of 0 cs index = 0 := by
  induction cs generalizing pm of with
  | nil => rfl
  | cons c cs ih =>
    obtain rfl := h c List.mem_cons_self
    have hrest := ih (fun c hc => h c (List.mem_cons_of_mem _ hc)) (pm * sa) (of + pm * sa)
    simp only [lead, Nat.zero_mul, Nat.add_zero, Nat.zero_add, hrest]
    split
    · rfl
    · rcases Nat.eq_zero_or_pos pm with rfl | hpm
      · simp
      · rw [Nat.div_eq_of_lt (Nat.mod_lt _ hpm), Nat.zero_mul]

section agrees
variable [DecidableEq T] {l : ExpIndexedList T g} {f : Flat T}

theorem Agrees.contents (h : Agrees offset l f) : l.list.contents = ↑(f.entries.map Prod.fst) := by
  rw [← Levels.slots_contents (fun x => (l.items x).offset) 1 l.offset]
  have hs := h.slots
  rw [ExpIndexedList.slots] at hs
  rw [hs]
  simp [Function.comp_def]

/-- The items with a bucket are the keys of the map. -/
theorem Agrees.held (h : Agrees offset l f) :
    (l.items x).lst ≠ none ↔ x ∈ f.entries.map Prod.fst := by
  obtain ⟨log, hg⟩ := h.good
  have hmem : x ∈ l.list.contents ↔ x ∈ f.entries.map Prod.fst := by
    rw [h.contents, Multiset.mem_coe]
  rw [← hmem]
  refine ⟨hg.listed x, fun hx hn => ?_⟩
  exact hg.unlisted hn hx

theorem new_agrees (g : Geometry) (ho : offset < sizeMod) :
    Agrees offset (ExpIndexedList.new T g offset) (Flat.new T) := by
  refine ⟨⟨[], start_good T g ho⟩, ?_, ?_, ?_⟩
  · exact (Nat.mod_eq_of_lt ho).symm
  · simpa [ExpIndexedList.slots, ExpIndexedList.new, Flat.new] using
      slots_empty _ (empty_contents T g.sa g.nb)
  · intro e he
    cases he

/-- Before the first shift an added item keeps its index. -/
theorem put_agrees (hg : g.Fits) (h : Agrees offset l f) (hfresh : Fresh l) (ht : f.tick = 0)
    (hroom : Room g offset index) : Agrees offset (l.add x index) (f.put x index) := by
  obtain ⟨log, hgood⟩ := h.good
  by_cases hx : x ∈ f.entries.map Prod.fst
  · rw [l.add_held (h.held.mpr hx)]
    simpa [Flat.put, hx] using h
  · have hl : (l.items x).lst = none := by
      by_contra hne
      exact hx (h.held.mp hne)
    have ho : l.offset = offset := by
      rw [h.tick, ht, Nat.add_zero, Nat.mod_eq_of_lt]
      exact Nat.lt_of_le_of_lt (Nat.le_add_right _ _) hroom.1
    have hw : NoWrap ⟨l, log⟩ (.add x index) := by
      simpa [NoWrap, ho] using hroom.1
    have hc : True → LastClear ⟨l, log⟩ (.add x index) := by
      intro _
      simpa [LastClear, ho] using hroom.2
    obtain ⟨t, hlead, hs, hold⟩ := hgood.addSpec hg hw hc hl
    rw [lead_fresh _ hfresh, Nat.add_zero] at hlead
    refine ⟨⟨_, add_good hg hgood hw hc⟩, ?_, ?_, ?_⟩
    · simpa [l.add_free hl, Flat.put, hx] using h.tick
    · have hslots := hs.slots
      rw [hold] at hslots
      simp only [l.add_free hl, ExpIndexedList.slots, hs.offset, hslots, Flat.put, hx,
        ↓reduceDIte, List.map_cons, ← Multiset.cons_coe, ← h.slots]
      rw [hlead, ho]
    · intro e he
      simp only [Flat.put, hx, ↓reduceDIte, List.mem_cons, ht] at he ⊢
      rcases he with rfl | he
      · exact ⟨Nat.zero_le _, hroom.1⟩
      · exact ⟨Nat.zero_le _, (h.ahead e he).2⟩

theorem add_fresh (h : Fresh l) : Fresh (l.add x index) := by
  have hcursors : ∀ (pm of : Nat) (items : T → ItemData) {nb : Nat} (w : Levels T g.sa nb),
      (w.add pm of items x index).1.cursors = w.cursors := by
    intro pm of items nb w
    induction w generalizing pm of with
    | last subList => rfl
    | level subLists curList curLe next ih =>
      simp only [Levels.add]
      split
      · simp only [Levels.cursors, ih]
      · rfl
  by_cases hl : (l.items x).lst = none
  · simpa [Fresh, l.add_free hl, hcursors] using h
  · rwa [l.add_held hl]

/-- Taking an item out of its bucket takes its key out of the map. -/
theorem drop_agrees (h : Agrees offset l f) : Agrees offset (l.rem x) (f.drop x) := by
  obtain ⟨log, hgood⟩ := h.good
  have hahead : ∀ e ∈ (f.drop x).entries, (f.drop x).tick ≤ e.2 ∧ offset + e.2 < sizeMod :=
    fun e he => h.ahead e (List.mem_filter.mp he).1
  refine ⟨⟨_, rem_good hgood⟩, ?_, ?_, hahead⟩
  · simp only [ExpIndexedList.rem]
    split <;> exact h.tick
  · have hkeys : ((f.drop x).entries.map (fun e => (e.1, offset + e.2)) : Multiset (T × Nat)) =
        l.slots.filter (fun s => s.1 ≠ x) := by
      rw [h.slots, Multiset.filter_coe, List.filter_map]
      rfl
    rw [hkeys]
    cases hl : (l.items x).lst with
    | none =>
      have hold : l.rem x = l := by
        simp [ExpIndexedList.rem, hl]
      rw [hold]
      refine (Multiset.filter_eq_self.mpr (fun s hs => ?_)).symm
      rintro rfl
      exact hgood.unlisted hl (Levels.mem_contents hs)
    | some a =>
      have hx := hgood.listed x (by simp [hl])
      have hspec := erase_spec (fun y => (l.items y).offset) l.list hgood.nodup hgood.sound hx hl
      obtain ⟨t, ht⟩ := hspec.slots
      have hnd := hgood.nodup
      have hcontents : l.list.contents = x ::ₘ (l.list.erase a x).contents := hspec.contents
      rw [hcontents, Multiset.nodup_cons] at hnd
      have hnew : (l.rem x).slots =
          (l.list.erase a x).slots (fun y => (l.items y).offset) 1 l.offset := by
        simp [ExpIndexedList.rem, hl, ExpIndexedList.slots]
      rw [hnew, ExpIndexedList.slots, ht, Multiset.filter_cons_of_neg _ (by simp)]
      refine (Multiset.filter_eq_self.mpr (fun s hs => ?_)).symm
      rintro rfl
      exact hnd.1 (Levels.mem_contents hs)

omit [DecidableEq T] in
/-- What satisfies `p` of a whole whose parts satisfy it throughout and nowhere. -/
theorem filter_parts {whole left out : Multiset (T × Nat)} {p : T × Nat → Prop} [DecidablePred p]
    (h : left + out = whole) (hleft : ∀ s ∈ left, ¬ p s) (hout : ∀ s ∈ out, p s) :
    whole.filter p = out ∧ whole.filter (fun s => ¬ p s) = left := by
  subst h
  have hnot : ∀ s ∈ out, ¬ ¬ p s := fun s hs hn => hn (hout s hs)
  rw [Multiset.filter_add, Multiset.filter_add, Multiset.filter_eq_nil.mpr hleft,
    Multiset.filter_eq_self.mpr hout, Multiset.filter_eq_self.mpr hleft,
    Multiset.filter_eq_nil.mpr hnot]
  exact ⟨zero_add _, add_zero _⟩

/-- A shift takes what is scheduled for its tick and leaves what is scheduled later. -/
theorem shift_agrees (hg : g.Fits) (h : Agrees offset l f) :
    Agrees offset l.shift f.shift ∧ l.shifted.out.Perm f.due := by
  obtain ⟨log, hgood⟩ := h.good
  have hspec : ShiftSpec True 1 l.offset l.list l.items l.shifted := hgood.shiftSpec hg
  have hslots : l.slots = l.shifted.levels.slots (fun x => (l.items x).offset) 1 (l.offset + 1) +
      ↑(l.shifted.out.map (fun x => (x, l.offset))) := hgood.shift_slots hg
  have hleft : ∀ s ∈ l.shifted.levels.slots (fun x => (l.items x).offset) 1 (l.offset + 1),
      s.2 ≠ l.offset := by
    intro s hs
    have hlater := hspec.sound.slot_ge _ trivial (x := s.1) (f := s.2)
      (by simpa only [hspec.offset] using hs)
    omega
  have hout : ∀ s ∈ (↑(l.shifted.out.map (fun x => (x, l.offset))) : Multiset (T × Nat)),
      s.2 = l.offset := by
    intro s hs
    obtain ⟨x, _, rfl⟩ := List.mem_map.mp (Multiset.mem_coe.mp hs)
    rfl
  -- while there are entries, the offset has not wrapped
  have hnow : ∀ e ∈ f.entries, (offset + e.2 = l.offset ↔ e.2 = f.tick) := by
    intro e he
    obtain ⟨hle, hlt⟩ := h.ahead e he
    rw [h.tick, Nat.mod_eq_of_lt (by omega)]
    omega
  obtain ⟨hdue, hrest⟩ := filter_parts (hslots.symm.trans h.slots) hleft hout
  rw [Multiset.filter_coe, List.filter_map] at hdue hrest
  have hdueKeys : f.entries.filter ((fun s => s.2 = l.offset) ∘ fun e => (e.1, offset + e.2)) =
      f.entries.filter (fun e => e.2 = f.tick) :=
    List.filter_congr (fun e he => by simpa using hnow e he)
  have hrestKeys : f.entries.filter ((fun s => s.2 ≠ l.offset) ∘ fun e => (e.1, offset + e.2)) =
      f.entries.filter (fun e => e.2 ≠ f.tick) :=
    List.filter_congr (fun e he => by simpa using hnow e he)
  rw [hdueKeys] at hdue
  rw [hrestKeys] at hrest
  refine ⟨⟨⟨_, shift_good hg hgood⟩, ?_, ?_, ?_⟩, ?_⟩
  · rw [ExpIndexedList.shift, h.tick, Nat.mod_add_mod]
    rfl
  · have hturn : l.shift.slots =
        l.shifted.levels.slots (fun x => (l.items x).offset) 1 (l.offset + 1) :=
      (hgood.shift_turn hg).2
    rw [hturn, ← hrest]
    rfl
  · intro e he
    obtain ⟨he, hne⟩ := List.mem_filter.mp he
    obtain ⟨hle, hlt⟩ := h.ahead e he
    have hne : e.2 ≠ f.tick := by simpa using hne
    exact ⟨by simp only [Flat.shift]; omega, hlt⟩
  · have hfst := congrArg (Multiset.map Prod.fst) hdue
    have hkeys : f.due.Perm l.shifted.out := by
      simpa [Function.comp_def, Flat.due] using hfst
    exact hkeys.symm

/-- Once nothing is added any more, each call shows the same and keeps the agreement. -/
theorem call_agrees (hg : g.Fits) (h : Agrees offset l f) {c : Call T}
    (hc : ∀ x i, c ≠ .add x i) :
    Agrees offset (l.call c).1 (f.call c).1 ∧ (l.call c).2.Same (f.call c).2 := by
  cases c with
  | add x i => exact absurd rfl (hc x i)
  | rem x => exact ⟨drop_agrees h, .nothing⟩
  | destroy x => exact ⟨drop_agrees h, .nothing⟩
  | size =>
    refine ⟨h, ?_⟩
    have hcard : l.list.size = f.entries.length := by
      rw [Levels.size_eq, h.contents, Multiset.coe_card, List.length_map]
    simp only [ExpIndexedList.call, Flat.call, hcard]
    exact .size _
  | shift => exact ⟨(shift_agrees hg h).1, .handed (shift_agrees hg h).2⟩

theorem observe_agrees (hg : g.Fits) (h : Agrees offset l f) (cs : List (Call T))
    (hcs : ∀ x i, .add x i ∉ cs) : List.Forall₂ Seen.Same (l.observe cs) (f.observe cs) := by
  induction cs generalizing l f with
  | nil => exact .nil
  | cons c cs ih =>
    have hc : ∀ x i, c ≠ .add x i := fun x i he => hcs x i (by simp [he])
    obtain ⟨hnext, hsame⟩ := call_agrees hg h hc
    exact .cons hsame (ih hnext (fun x i hm => hcs x i (List.mem_cons_of_mem _ hm)))

theorem rem_fresh (h : Fresh l) : Fresh (l.rem x) := by
  have hcursors : ∀ {nb : Nat} (w : Levels T g.sa nb) (b : Bucket),
      (w.erase b x).cursors = w.cursors := by
    intro nb w b
    induction w with
    | last subList => rfl
    | level subLists curList curLe next ih =>
      obtain ⟨depth, b⟩ := b
      simp only [Levels.erase]
      split
      · rfl
      · simp only [Levels.cursors, ih]
  cases hl : (l.items x).lst with
  | none => simpa [ExpIndexedList.rem, hl] using h
  | some a => simpa [Fresh, ExpIndexedList.rem, hl, hcursors] using h

/-- Until the first shift every call keeps the cursors where they are. -/
theorem lay_agrees (hg : g.Fits) (h : Agrees offset l f) (hfresh : Fresh l) (ht : f.tick = 0)
    {c : Call T} (hc : c ≠ .shift) (hroom : ∀ x i, c = .add x i → Room g offset i) :
    Agrees offset (l.call c).1 (f.call c).1 ∧ (l.call c).2.Same (f.call c).2 ∧
      Fresh (l.call c).1 ∧ (f.call c).1.tick = 0 := by
  cases c with
  | add x i =>
    refine ⟨put_agrees hg h hfresh ht (hroom x i rfl), .nothing, add_fresh hfresh, ?_⟩
    simp only [Flat.call, Flat.put]
    split <;> exact ht
  | rem x => exact ⟨drop_agrees h, .nothing, rem_fresh hfresh, ht⟩
  | destroy x => exact ⟨drop_agrees h, .nothing, rem_fresh hfresh, ht⟩
  | size =>
    obtain ⟨hnext, hsame⟩ := call_agrees hg h (c := .size) (by simp)
    exact ⟨hnext, hsame, hfresh, ht⟩
  | shift => exact absurd rfl hc

theorem observe_laid (hg : g.Fits) (h : Agrees offset l f) (hfresh : Fresh l) (ht : f.tick = 0)
    (pre post : List (Call T)) (hpre : .shift ∉ pre) (hpost : ∀ x i, .add x i ∉ post)
    (hroom : ∀ x i, .add x i ∈ pre → Room g offset i) :
    List.Forall₂ Seen.Same (l.observe (pre ++ post)) (f.observe (pre ++ post)) := by
  induction pre generalizing l f with
  | nil => exact observe_agrees hg h post hpost
  | cons c pre ih =>
    have hc : c ≠ .shift := fun he => hpre (by simp [he])
    obtain ⟨hnext, hsame, hfresh, ht⟩ := lay_agrees hg h hfresh ht hc
      (fun x i he => hroom x i (by simp [he]))
    exact .cons hsame (ih hnext hfresh ht (fun hm => hpre (List.mem_cons_of_mem _ hm))
      (fun x i hm => hroom x i (List.mem_cons_of_mem _ hm)))

end agrees

theorem new_fresh (T : Type u) (g : Geometry) (offset : Nat) :
    Fresh (ExpIndexedList.new T g offset) := by
  have hcursors : ∀ nb, ∀ c ∈ (Levels.empty T g.sa nb).cursors, c = 0 := by
    intro nb
    induction nb with
    | zero => simp [Levels.empty, Levels.cursors]
    | succ nb ih => simpa [Levels.empty, Levels.cursors] using ih
  exact hcursors g.nb

theorem forall₂_same_trans {as bs cs : List (Seen T)} (hab : List.Forall₂ Seen.Same as bs)
    (hcb : List.Forall₂ Seen.Same cs bs) : List.Forall₂ Seen.Same as cs := by
  induction hab generalizing cs with
  | nil =>
    cases hcb
    exact .nil
  | cons h _ ih =>
    cases hcb with
    | cons h' hcb => exact .cons (h.trans h'.symm) (ih hcb)

end Evel.ExpIndexed
