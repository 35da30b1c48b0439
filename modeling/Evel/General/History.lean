import Mathlib.Data.List.Induction

namespace Evel.General

/-- The last entry of a log that concerns the key `x`. -/
def lastOf [DecidableEq κ] (key : ε → Option κ) (log : List ε) (x : κ) : Option ε :=
  (log.filter (fun e => key e = some x)).getLast?

variable [DecidableEq κ] {key : ε → Option κ}

@[simp] theorem lastOf_nil (key : ε → Option κ) (x : κ) : lastOf key [] x = none := rfl

theorem lastOf_append_self (key : ε → Option κ) (h : key e = some x) :
    lastOf key (log ++ [e]) x = some e := by
  simp [lastOf, List.filter_append, h]

/-- Entries about other keys do not move the last entry about `x`. -/
theorem lastOf_append_other (h : ∀ e ∈ es, key e ≠ some x) :
    lastOf key (log ++ es) x = lastOf key log x := by
  have he : es.filter (fun e => key e = some x) = [] :=
    List.filter_eq_nil_iff.mpr (fun e hm => by simpa using h e hm)
  simp only [lastOf, List.filter_append, he, List.append_nil]

/-- If later entries concern `x`, the last entry about `x` is one of them. -/
theorem lastOf_append_mem (h : ∃ e ∈ es, key e = some x) (log : List ε) :
    ∃ e ∈ es, lastOf key (log ++ es) x = some e := by
  obtain ⟨d, hd, hk⟩ := h
  have hne : es.filter (fun e => key e = some x) ≠ [] :=
    List.ne_nil_of_mem (List.mem_filter.mpr ⟨hd, by simpa using hk⟩)
  refine ⟨_, (List.mem_filter.mp (List.getLast_mem hne)).1, ?_⟩
  rw [lastOf, List.filter_append, List.getLast?_append, List.getLast?_eq_some_getLast hne]
  rfl

/-- `Q prefix entry` holds of every entry of the log and of the log before it. -/
def EachEntry (Q : List ε → ε → Prop) (log : List ε) : Prop :=
  ∀ pre e post, log = pre ++ e :: post → Q pre e

theorem eachEntry_nil (Q : List ε → ε → Prop) : EachEntry Q [] := by
  intro pre e post h
  simp at h

theorem eachEntry_snoc {Q : List ε → ε → Prop} (hl : EachEntry Q log) (he : Q log e) :
    EachEntry Q (log ++ [e]) := by
  intro pre d post h
  rcases List.eq_nil_or_concat post with rfl | ⟨ps, p, rfl⟩
  · obtain ⟨rfl, hd⟩ := List.append_inj' h rfl
    obtain rfl : e = d := by simpa using hd
    exact he
  · rw [List.concat_eq_append, ← List.cons_append, ← List.append_assoc] at h
    exact hl pre d ps (List.append_inj' h rfl).1

theorem eachEntry_append {Q : List ε → ε → Prop} (hl : EachEntry Q log)
    (h : ∀ pre e post, es = pre ++ e :: post → Q (log ++ pre) e) :
    EachEntry Q (log ++ es) := by
  induction es using List.reverseRecOn with
  | nil => simpa using hl
  | append_singleton es e ih =>
    rw [← List.append_assoc]
    apply eachEntry_snoc
    · apply ih
      intro pre d post he
      exact h pre d (post ++ [e]) (by simp [he])
    · exact h es e [] (by simp)

theorem EachEntry.mono {Q R : List ε → ε → Prop} (h : ∀ pre e, Q pre e → R pre e)
    (hq : EachEntry Q log) : EachEntry R log :=
  fun pre e post he => h pre e (hq pre e post he)

end Evel.General
