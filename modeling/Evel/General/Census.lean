import Mathlib.Data.List.Count
import Mathlib.Logic.Function.Basic

namespace Evel.General

theorem countP_erase_add [DecidableEq κ] {keys : List κ} (p : κ → Bool) (hk : k ∈ keys) :
    (keys.erase k).countP p + (if p k then 1 else 0) = keys.countP p := by
  rw [(List.perm_cons_erase hk).countP_eq p, List.countP_cons]

/-- The keys of a part, counted apart from the others. -/
theorem countP_part [DecidableEq κ] {keys part : List κ} (p : κ → Bool) (hn : keys.Nodup)
    (hp : part.Nodup) (hsub : part ⊆ keys) :
    keys.countP (fun k => p k && !part.contains k) + part.countP p = keys.countP p := by
  have hpart : List.Perm (keys.filter part.contains) part := by
    refine (List.perm_ext_iff_of_nodup (hn.filter _) hp).mpr (fun k => ?_)
    simpa using fun hk => hsub hk
  rw [List.countP_eq_countP_filter_add keys p part.contains, hpart.countP_eq p, List.countP_filter,
    Nat.add_comm]

/-- How many of the keys have a value that satisfies `p`. -/
def census (p : β → Bool) (keys : List κ) (val : κ → β) : Nat := keys.countP (fun k => p (val k))

section
variable {p : β → Bool} {keys : List κ} {val : κ → β}

theorem census_congr {val' : κ → β} (h : ∀ k ∈ keys, p (val' k) = p (val k)) :
    census p keys val' = census p keys val :=
  List.countP_congr fun k hk => by rw [h k hk]

theorem census_cons : census p (k :: keys) val =
    census p keys val + if p (val k) then 1 else 0 := List.countP_cons

variable [DecidableEq κ]

/-- A value that is as good as the old one -/
theorem census_update_same (h : p b = p (val k)) :
    census p keys (Function.update val k b) = census p keys val :=
  census_congr fun j _ => by
    by_cases hj : j = k
    · subst hj
      simpa using h
    · rw [Function.update_of_ne hj]

theorem census_update_of_notMem (hk : k ∉ keys) :
    census p keys (Function.update val k b) = census p keys val :=
  census_congr fun j hj => by
    have hj : j ≠ k := fun h => hk (h ▸ hj)
    rw [Function.update_of_ne hj]

theorem census_erase (hk : k ∈ keys) :
    census p (keys.erase k) val + (if p (val k) then 1 else 0) = census p keys val :=
  countP_erase_add _ hk

/-- A new value at one of the keys. -/
theorem census_update (hn : keys.Nodup) (hk : k ∈ keys) :
    census p keys (Function.update val k b) + (if p (val k) then 1 else 0) =
      census p keys val + if p b then 1 else 0 := by
  have hnot : k ∉ keys.erase k := hn.not_mem_erase
  have h : census p (keys.erase k) (Function.update val k b) +
      (if p (Function.update val k b k) then 1 else 0) =
        census p keys (Function.update val k b) := census_erase hk
  have h' : census p (keys.erase k) val + (if p (val k) then 1 else 0) = census p keys val :=
    census_erase hk
  rw [census_update_of_notMem hnot, Function.update_self] at h
  omega

/-- A key stops to satisfy `p`. -/
theorem census_update_drop (hn : keys.Nodup) (hk : k ∈ keys) (ho : p (val k) = true)
    (hb : p b = false) : census p keys (Function.update val k b) + 1 = census p keys val := by
  have h : census p keys (Function.update val k b) + (if p (val k) then 1 else 0) =
      census p keys val + if p b then 1 else 0 := census_update hn hk
  simpa [ho, hb] using h

end

end Evel.General
