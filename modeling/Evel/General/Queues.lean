import Mathlib.Data.List.Nodup
import Mathlib.Data.Set.Insert
import Mathlib.Logic.Function.Basic

namespace Evel.General

/-- An item is added to a queue that it is not in. -/
def enqueue [DecidableEq α] (xs : List α) (x : α) : List α := if x ∈ xs then xs else xs ++ [x]

theorem mem_enqueue [DecidableEq α] {xs : List α} : y ∈ enqueue xs x ↔ y ∈ xs ∨ y = x := by
  by_cases hx : x ∈ xs
  · rw [enqueue, if_pos hx]
    exact ⟨.inl, fun h => h.elim id fun he => he ▸ hx⟩
  · simp [enqueue, hx]

/-- Queues over the same items. The items of a disconnected queue are `loose` until they are reset,
and a queue that has been prepended to another one is `gone`. -/
structure Queues (ι : Type u) (α : Type v) where
  queue : ι → List α
  loose : Set α
  gone : Set ι

namespace Queues
open Classical
variable {ι : Type u} {α : Type v} {q : Queues ι α} {l : ι} {x : α}

def Member (q : Queues ι α) (x : α) : Prop := ∃ l, x ∈ q.queue l

/-- A member of a queue is not added to another one. -/
noncomputable def push (l : ι) (x : α) (q : Queues ι α) : Queues ι α :=
  if q.Member x then q
  else { q with queue := Function.update q.queue l (q.queue l ++ [x]) }

noncomputable def pop (l : ι) (q : Queues ι α) : Queues ι α :=
  { q with queue := Function.update q.queue l (q.queue l).tail }

/-- The items of `a` come before those of `b`. -/
noncomputable def prepend (b a : ι) (q : Queues ι α) : Queues ι α :=
  { q with queue := Function.update (Function.update q.queue b (q.queue a ++ q.queue b)) a [],
           gone := insert a q.gone }

noncomputable def disconnect (l : ι) (q : Queues ι α) : Queues ι α :=
  { q with queue := Function.update q.queue l [], loose := q.loose ∪ {x | x ∈ q.queue l} }

def reset (x : α) (q : Queues ι α) : Queues ι α := { q with loose := q.loose \ {x} }

theorem push_member (hm : q.Member x) : q.push l x = q := if_pos hm

@[simp] theorem push_loose : (q.push l x).loose = q.loose := by
  rw [push]
  split <;> rfl

@[simp] theorem push_gone : (q.push l x).gone = q.gone := by
  rw [push]
  split <;> rfl

theorem push_self (hm : ¬ q.Member x) : (q.push l x).queue l = q.queue l ++ [x] := by
  simp [push, hm]

theorem push_of_ne (hl : l' ≠ l) : (q.push l x).queue l' = q.queue l' := by
  rw [push]
  split
  · rfl
  · exact Function.update_of_ne hl _ _

/-- An item that is in no other queue. -/
theorem push_enqueue [DecidableEq α] (h : ∀ l', x ∈ q.queue l' → l' = l) :
    (q.push l x).queue l = enqueue (q.queue l) x := by
  by_cases hx : x ∈ q.queue l
  · rw [push_member ⟨l, hx⟩, enqueue, if_pos hx]
  · have hm : ¬ q.Member x := by
      intro hm
      obtain ⟨l', hl'⟩ := hm
      exact hx (h l' hl' ▸ hl')
    rw [push_self hm, enqueue, if_neg hx]

theorem mem_push (hm : ¬ q.Member x) :
    y ∈ (q.push l x).queue l' ↔ y ∈ q.queue l' ∨ (l' = l ∧ y = x) := by
  by_cases hl : l' = l
  · subst hl
    simp [push_self hm]
  · simp [push_of_ne hl, hl]

theorem member_push (hm : ¬ q.Member x) : (q.push l x).Member y ↔ q.Member y ∨ y = x := by
  simp only [Member, mem_push hm, exists_or, exists_eq_left]

@[simp] theorem pop_loose : (q.pop l).loose = q.loose := rfl
@[simp] theorem pop_gone : (q.pop l).gone = q.gone := rfl
@[simp] theorem prepend_loose : (q.prepend b a).loose = q.loose := rfl
@[simp] theorem prepend_gone : (q.prepend b a).gone = insert a q.gone := rfl

@[simp] theorem disconnect_gone : (q.disconnect l).gone = q.gone := rfl

@[simp] theorem mem_disconnect_loose :
    x ∈ (q.disconnect l).loose ↔ x ∈ q.loose ∨ x ∈ q.queue l := Iff.rfl

@[simp] theorem reset_gone : (q.reset x).gone = q.gone := rfl
@[simp] theorem member_reset : (q.reset x).Member y ↔ q.Member y := Iff.rfl

@[simp] theorem mem_reset_loose : y ∈ (q.reset x).loose ↔ y ∈ q.loose ∧ y ≠ x := Iff.rfl

theorem pop_self : (q.pop l).queue l = (q.queue l).tail := by simp [pop]

theorem pop_of_ne (hl : l' ≠ l) : (q.pop l).queue l' = q.queue l' := by simp [pop, hl]

theorem disconnect_self : (q.disconnect l).queue l = [] := by simp [disconnect]

theorem disconnect_of_ne (hl : l' ≠ l) : (q.disconnect l).queue l' = q.queue l' := by
  simp [disconnect, hl]

theorem prepend_queue (b a l : ι) : (q.prepend b a).queue l =
    if l = a then [] else if l = b then q.queue a ++ q.queue b else q.queue l := by
  simp only [prepend, Function.update_apply]

theorem mem_prepend (hy : y ∈ (q.prepend b a).queue l) :
    l ≠ a ∧ (y ∈ q.queue l ∨ (l = b ∧ y ∈ q.queue a)) := by
  rw [prepend_queue] at hy
  split_ifs at hy with hla hlb
  · cases hy
  · subst hlb
    exact ⟨hla, (List.mem_append.mp hy).symm.imp id fun hy => ⟨rfl, hy⟩⟩
  · exact ⟨hla, .inl hy⟩

theorem member_prepend (hab : a ≠ b) : (q.prepend b a).Member y ↔ q.Member y := by
  constructor
  · intro hy
    obtain ⟨l, hl⟩ := hy
    obtain ⟨-, hl | ⟨-, hl⟩⟩ := mem_prepend hl
    · exact ⟨l, hl⟩
    · exact ⟨a, hl⟩
  · intro hy
    obtain ⟨l, hl⟩ := hy
    by_cases hlb : l = a ∨ l = b
    · refine ⟨b, ?_⟩
      rw [prepend_queue, if_neg hab.symm, if_pos rfl, List.mem_append]
      obtain rfl | rfl := hlb
      · exact .inl hl
      · exact .inr hl
    · refine ⟨l, ?_⟩
      rw [not_or] at hlb
      rwa [prepend_queue, if_neg hlb.1, if_neg hlb.2]

/-- No item is twice in the queues. -/
structure Apart (q : Queues ι α) : Prop where
  nodup : ∀ l, (q.queue l).Nodup
  unique : ∀ l l' x, x ∈ q.queue l → x ∈ q.queue l' → l = l'
  loose : ∀ x ∈ q.loose, ¬ q.Member x
  gone : ∀ l ∈ q.gone, q.queue l = []

theorem Apart.push (h : q.Apart) (hl : l ∉ q.gone) (hx : x ∉ q.loose) : (q.push l x).Apart := by
  by_cases hm : q.Member x
  · rwa [push_member hm]
  · refine ⟨fun l' => ?_, fun l₁ l₂ y h₁ h₂ => ?_, fun y hy hmy => ?_, fun l' hl' => ?_⟩
    · by_cases hl' : l' = l
      · subst hl'
        have hnot : x ∉ q.queue l' := fun hxl => hm ⟨l', hxl⟩
        simpa [push_self hm, List.nodup_append', h.nodup l'] using hnot
      · rw [push_of_ne hl']
        exact h.nodup l'
    · rw [mem_push hm] at h₁ h₂
      obtain h₁ | ⟨rfl, rfl⟩ := h₁
      · obtain h₂ | ⟨rfl, rfl⟩ := h₂
        · exact h.unique l₁ l₂ y h₁ h₂
        · exact absurd ⟨l₁, h₁⟩ hm
      · obtain h₂ | ⟨rfl, -⟩ := h₂
        · exact absurd ⟨l₂, h₂⟩ hm
        · rfl
    · rw [push_loose] at hy
      obtain hmy | rfl := (member_push hm).mp hmy
      · exact h.loose y hy hmy
      · exact hx hy
    · rw [push_gone] at hl'
      have hne : l' ≠ l := fun he => hl (he ▸ hl')
      rw [push_of_ne hne]
      exact h.gone l' hl'

/-- Queues that have lost members. -/
theorem Apart.shrink {q' : Queues ι α} (h : q.Apart)
    (hsub : ∀ l, (q'.queue l).Sublist (q.queue l))
    (hloose : ∀ x ∈ q'.loose, x ∈ q.loose ∨ ¬ q'.Member x) (hgone : q'.gone = q.gone) :
    q'.Apart := by
  refine ⟨fun l => (h.nodup l).sublist (hsub l), fun l l' x hx hx' => ?_, fun x hx hm => ?_,
    fun l hl => ?_⟩
  · exact h.unique l l' x ((hsub l).subset hx) ((hsub l').subset hx')
  · obtain hx | hx := hloose x hx
    · obtain ⟨l, hl⟩ := hm
      exact h.loose x hx ⟨l, (hsub l).subset hl⟩
    · exact hx hm
  · rw [hgone] at hl
    exact List.sublist_nil.mp (h.gone l hl ▸ hsub l)

theorem Apart.pop (h : q.Apart) (l : ι) : (q.pop l).Apart := by
  refine h.shrink (fun l' => ?_) (fun x hx => .inl hx) rfl
  by_cases hl' : l' = l
  · subst hl'
    rw [pop_self]
    exact List.tail_sublist _
  · rw [pop_of_ne hl']

theorem pop_nil (hq : q.queue l = []) : q.pop l = q := by
  have hsame : Function.update q.queue l (q.queue l).tail = q.queue := by simp [hq]
  rw [pop, hsame]

/-- The item that is taken is in no queue. -/
theorem Apart.member_pop (h : q.Apart) (hq : q.queue l = x :: xs) :
    (q.pop l).Member y ↔ q.Member y ∧ y ≠ x := by
  have hself : (q.pop l).queue l = xs := by rw [pop_self, hq, List.tail_cons]
  have hd := h.nodup l
  rw [hq] at hd
  constructor
  · intro hm
    obtain ⟨l', hl'⟩ := hm
    by_cases he : l' = l
    · subst he
      rw [hself] at hl'
      refine ⟨⟨l', by simp [hq, hl']⟩, ?_⟩
      rintro rfl
      exact (List.nodup_cons.mp hd).1 hl'
    · rw [pop_of_ne he] at hl'
      refine ⟨⟨l', hl'⟩, ?_⟩
      rintro rfl
      exact he (h.unique l' l y hl' (by simp [hq]))
  · intro hm
    obtain ⟨⟨l', hl'⟩, hyx⟩ := hm
    refine ⟨l', ?_⟩
    by_cases he : l' = l
    · subst he
      rw [hself]
      exact (List.mem_cons.mp (hq ▸ hl')).resolve_left hyx
    · rwa [pop_of_ne he]

theorem Apart.disconnect (h : q.Apart) (l : ι) : (q.disconnect l).Apart := by
  refine h.shrink (fun l' => ?_) (fun x hx => hx.imp id fun hxl hm => ?_) rfl
  · by_cases hl' : l' = l
    · subst hl'
      rw [disconnect_self]
      exact List.nil_sublist _
    · rw [disconnect_of_ne hl']
  · obtain ⟨l', hl'⟩ := hm
    by_cases he : l' = l
    · subst he
      rw [disconnect_self] at hl'
      cases hl'
    · rw [disconnect_of_ne he] at hl'
      exact he (h.unique l' l x hl' hxl)

/-- The items of the chain are still used. -/
theorem used_disconnect :
    (q.disconnect l).Member y ∨ y ∈ (q.disconnect l).loose ↔ q.Member y ∨ y ∈ q.loose := by
  constructor
  · intro hy
    obtain ⟨l', hl'⟩ | hy | hy := hy
    · by_cases he : l' = l
      · subst he
        rw [disconnect_self] at hl'
        cases hl'
      · exact .inl ⟨l', disconnect_of_ne he ▸ hl'⟩
    · exact .inr hy
    · exact .inl ⟨l, hy⟩
  · intro hy
    obtain ⟨l', hl'⟩ | hy := hy
    · by_cases he : l' = l
      · subst he
        exact .inr (.inr hl')
      · exact .inl ⟨l', (disconnect_of_ne he).symm ▸ hl'⟩
    · exact .inr (.inl hy)

theorem Apart.reset (h : q.Apart) (x : α) : (q.reset x).Apart :=
  h.shrink (fun _ => List.Sublist.refl _) (fun _ hy => .inl hy.1) rfl

theorem Apart.prepend (h : q.Apart) (hab : a ≠ b) (hb : b ∉ q.gone) : (q.prepend b a).Apart := by
  refine ⟨fun l => ?_, fun l l' y hy hy' => ?_, fun y hy hm => ?_, fun l hl => ?_⟩
  · rw [prepend_queue]
    split_ifs with hla hlb
    · exact List.nodup_nil
    · refine List.nodup_append'.mpr ⟨h.nodup a, h.nodup b, fun y hya hyb => ?_⟩
      exact hab (h.unique a b y hya hyb)
    · exact h.nodup l
  · obtain ⟨hla, hold | ⟨rfl, hold⟩⟩ := mem_prepend hy
    · obtain ⟨-, hold' | ⟨rfl, hold'⟩⟩ := mem_prepend hy'
      · exact h.unique l l' y hold hold'
      · exact absurd (h.unique l a y hold hold') hla
    · obtain ⟨hla', hold' | ⟨rfl, -⟩⟩ := mem_prepend hy'
      · exact absurd (h.unique l' a y hold' hold) hla'
      · rfl
  · exact h.loose y hy ((member_prepend hab).mp hm)
  · rw [prepend_queue]
    obtain rfl | hl := hl
    · rw [if_pos rfl]
    · split_ifs with hla hlb
      · rfl
      · exact absurd (hlb ▸ hl) hb
      · exact h.gone l hl

end Queues

end Evel.General
