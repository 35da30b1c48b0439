import Evel.Proofs.WheelTranslation

namespace Evel.ExpIndexed
open General

namespace Flat
variable {T : Type u} [DecidableEq T]

/-- A call, with the index of an add counted from now on. -/
def callNow (f : Flat T) : Call T → Flat T × Seen T
  | .add item index => (f.put item (f.tick + index), .nothing)
  | c => f.call c

def observeNow : Flat T → List (Call T) → List (Seen T)
  | _, [] => []
  | f, c :: cs => (f.callNow c).2 :: (f.callNow c).1.observeNow cs

theorem callNow_tick (f : Flat T) (c : Call T) :
    (f.callNow c).1.tick = f.tick + [c].count .shift := by
  cases c with
  | add item index =>
    simp only [callNow, put]
    split <;> rfl
  | _ => rfl

end Flat

variable {T : Type u} [DecidableEq T] {g : Geometry} {l : ExpIndexedList T g} {f : Flat T}

/-- An index of the first level is handed over on its tick, wherever the cursors are. -/
theorem lead_short (cs : List Nat) (h : index < sa) : lead sa 1 0 0 cs index = 0 := by
  cases cs with
  | nil => rfl
  | cons c cs => simp [lead, h, Nat.mod_one]

theorem lastIndex_ge (sa nb : Nat) (hnb : nb ≠ 0) : sa ≤ lastIndex sa nb 1 0 := by
  cases nb with
  | zero => exact absurd rfl hnb
  | succ nb => simpa [lastIndex] using le_lastIndex sa nb (1 * sa) (0 + 1 * sa)

/-- Also after shifts, an add with an index of the first level lays it as a map would. -/
theorem put_agrees_short (hg : g.Fits) (hnb : g.nb ≠ 0) (h : Agrees offset l f)
    (hshort : index < g.sa) (hroom : offset + f.tick + index < sizeMod) :
    Agrees offset (l.add x index) (f.put x (f.tick + index)) := by
  obtain ⟨log, hgood⟩ := h.good
  by_cases hx : x ∈ f.entries.map Prod.fst
  · rw [l.add_held (h.held.mpr hx)]
    simpa [Flat.put, hx] using h
  · have hl : (l.items x).lst = none := by
      by_contra hne
      exact hx (h.held.mp hne)
    have ho : l.offset = offset + f.tick := by
      rw [h.tick, Nat.mod_eq_of_lt]
      exact Nat.lt_of_le_of_lt (Nat.le_add_right _ _) hroom
    have hw : NoWrap ⟨l, log⟩ (.add x index) := by
      simpa [NoWrap, ho] using hroom
    have hc : True → LastClear ⟨l, log⟩ (.add x index) := by
      intro _ hlast
      exact absurd (Nat.le_trans (lastIndex_ge g.sa g.nb hnb) hlast) (Nat.not_le_of_lt hshort)
    obtain ⟨t, hlead, hs, hold⟩ := hgood.addSpec hg hw hc hl
    rw [lead_short _ hshort, Nat.add_zero] at hlead
    refine ⟨⟨_, add_good hg hgood hw hc⟩, ?_, ?_, ?_⟩
    · simpa [l.add_free hl, Flat.put, hx] using h.tick
    · have hslots := hs.slots
      rw [hold] at hslots
      simp only [l.add_free hl, ExpIndexedList.slots, hs.offset, hslots, Flat.put, hx,
        ↓reduceDIte, List.map_cons, ← Multiset.cons_coe, ← h.slots]
      rw [hlead, ho, Nat.add_assoc]
    · intro e he
      simp only [Flat.put, hx, ↓reduceDIte, List.mem_cons] at he ⊢
      rcases he with rfl | he
      · exact ⟨Nat.le_add_right _ _, by simpa [Nat.add_assoc] using hroom⟩
      · exact h.ahead e he

theorem callNow_agrees (hg : g.Fits) (hnb : g.nb ≠ 0) (h : Agrees offset l f) {c : Call T}
    (hshort : ∀ x i, c = .add x i → i < g.sa ∧ offset + f.tick + i < sizeMod) :
    Agrees offset (l.call c).1 (f.callNow c).1 ∧ (l.call c).2.Same (f.callNow c).2 := by
  cases c with
  | add x i =>
    obtain ⟨hi, hroom⟩ := hshort x i rfl
    exact ⟨put_agrees_short hg hnb h hi hroom, .nothing⟩
  | rem x => exact call_agrees hg h (by simp)
  | destroy x => exact call_agrees hg h (by simp)
  | size => exact call_agrees hg h (by simp)
  | shift => exact call_agrees hg h (by simp)

theorem observeNow_agrees (hg : g.Fits) (hnb : g.nb ≠ 0) (h : Agrees offset l f)
    (cs : List (Call T)) (hshort : ∀ x i, .add x i ∈ cs → i < g.sa)
    (hroom : offset + f.tick + cs.count .shift + g.sa ≤ sizeMod) :
    List.Forall₂ Seen.Same (l.observe cs) (f.observeNow cs) := by
  induction cs generalizing l f with
  | nil => exact .nil
  | cons c cs ih =>
    have hcount : (c :: cs).count .shift = [c].count .shift + cs.count .shift := by
      rw [List.count_cons, List.count_singleton, Nat.add_comm]
    obtain ⟨hnext, hsame⟩ := callNow_agrees hg hnb h (c := c) (fun x i he => by
      have hi := hshort x i (by simp [he])
      exact ⟨hi, by omega⟩)
    refine .cons hsame (ih hnext (fun x i hm => hshort x i (List.mem_cons_of_mem _ hm)) ?_)
    rw [Flat.callNow_tick]
    omega

/-- With indices of the first level only, the list is a flat map from item to index in every run,
wherever its cursors are when an item is added and wherever its offset wraps: nothing comes early
and nothing comes late. -/
theorem short_schedule_exact (hg : g.Fits) (hnb : g.nb ≠ 0) (offset : Nat)
    (ho : offset < sizeMod) (cs : List (Call T)) (hshort : ∀ x i, .add x i ∈ cs → i < g.sa)
    (hroom : cs.count .shift + g.sa ≤ sizeMod) :
    List.Forall₂ Seen.Same ((ExpIndexedList.new T g offset).observe cs)
      ((Flat.new T).observeNow cs) := by
  have hlevel : ∀ x i, .add x i ∈ cs → i < lastIndex g.sa g.nb 1 0 := fun x i hmem =>
    Nat.lt_of_lt_of_le (hshort x i hmem) (lastIndex_ge g.sa g.nb hnb)
  rw [(translated_new T g ho).observe hg cs hlevel]
  have hstart : Agrees 0 (ExpIndexedList.new T g 0) (Flat.new T) := new_agrees g (by decide)
  refine observeNow_agrees hg hnb hstart cs hshort ?_
  simpa [Flat.new] using hroom

/-- The cursor of the first level is at the end of its cycle when the item is added, and the offset
has wrapped. -/
theorem short_schedule_exact_cycle_end :
    List.Forall₂ Seen.Same
      ((ExpIndexedList.new Nat ⟨4, 3, by decide⟩ (2 ^ 64 - 2)).observe
        [.shift, .shift, .shift, .shift, .add 7 3, .shift, .add 8 2, .shift, .shift, .shift])
      ((Flat.new Nat).observeNow
        [.shift, .shift, .shift, .shift, .add 7 3, .shift, .add 8 2, .shift, .shift, .shift]) := by
  refine short_schedule_exact ⟨by decide, by decide⟩ (by decide) (2 ^ 64 - 2) (by decide) _
    (fun x i h => ?_) (by decide)
  have hi : i ≤ 3 := by
    simp only [List.mem_cons, Call.add.injEq, List.not_mem_nil, or_false, reduceCtorEq,
      false_or] at h
    omega
  exact Nat.lt_succ_of_le hi

end Evel.ExpIndexed
