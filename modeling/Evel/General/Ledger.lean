import Mathlib.Data.List.Nodup
import Mathlib.Logic.Function.Basic

namespace Evel.General

/-- Tickets are numbered as they are issued. A ticket waits in at most one queue, and is served
once. -/
structure Ledger (next : Nat) (queue : κ → List Nat) (served : List Nat) : Prop where
  once : served.Nodup
  servedOld : ∀ c ∈ served, c < next
  nodup : ∀ k, (queue k).Nodup
  old : ∀ k, ∀ c ∈ queue k, c < next
  unserved : ∀ k, ∀ c ∈ queue k, c ∉ served
  apart : ∀ j k, ∀ c ∈ queue j, c ∈ queue k → j = k

namespace Ledger
variable {queue : κ → List Nat}

theorem empty : Ledger 0 (fun _ : κ => []) [] :=
  ⟨List.nodup_nil, nofun, fun _ => List.nodup_nil, nofun, nofun, nofun⟩

theorem snoc_nodup {xs : List α} (hs : xs.Nodup) (hc : c ∉ xs) : (xs ++ [c]).Nodup :=
  (List.nodup_append_comm.mp (List.nodup_cons.mpr ⟨hc, hs⟩))

/-- A new ticket is served without a queue. -/
theorem direct (h : Ledger next queue served) : Ledger (next + 1) queue (served ++ [next]) where
  once := snoc_nodup h.once (fun hm => Nat.lt_irrefl _ (h.servedOld _ hm))
  servedOld c hc := by
    rcases List.mem_append.mp hc with hc | hc
    · exact Nat.lt_succ_of_lt (h.servedOld c hc)
    · exact List.mem_singleton.mp hc ▸ Nat.lt_succ_self _
  nodup := h.nodup
  old k c hc := Nat.lt_succ_of_lt (h.old k c hc)
  unserved k c hc hs := by
    rcases List.mem_append.mp hs with hs | hs
    · exact h.unserved k c hc hs
    · exact Nat.lt_irrefl _ (List.mem_singleton.mp hs ▸ h.old k c hc)
  apart := h.apart

section Queues
variable [DecidableEq κ]

theorem mem_snoc {k j : κ} (hc : c ∈ Function.update queue k (queue k ++ [x]) j) :
    c ∈ queue j ∨ (j = k ∧ c = x) := by
  by_cases hj : j = k
  · subst hj
    simpa using hc
  · exact .inl (by rwa [Function.update_of_ne hj] at hc)

/-- A new ticket goes to the end of a queue. -/
theorem enqueue (h : Ledger next queue served) (k : κ) :
    Ledger (next + 1) (Function.update queue k (queue k ++ [next])) served where
  once := h.once
  servedOld c hc := Nat.lt_succ_of_lt (h.servedOld c hc)
  nodup j := by
    by_cases hj : j = k
    · subst hj
      rw [Function.update_self]
      exact snoc_nodup (h.nodup j) (fun hm => Nat.lt_irrefl _ (h.old j _ hm))
    · rw [Function.update_of_ne hj]
      exact h.nodup j
  old j c hc := by
    rcases mem_snoc hc with hc | ⟨-, rfl⟩
    · exact Nat.lt_succ_of_lt (h.old j c hc)
    · exact Nat.lt_succ_self c
  unserved j c hc hs := by
    rcases mem_snoc hc with hc | ⟨-, rfl⟩
    · exact h.unserved j c hc hs
    · exact Nat.lt_irrefl _ (h.servedOld c hs)
  apart i j c hi hj := by
    rcases mem_snoc hi with hci | ⟨hik, hc⟩ <;> rcases mem_snoc hj with hcj | ⟨hjk, hc'⟩
    · exact h.apart i j c hci hcj
    · exact absurd (h.old i c hci) (hc' ▸ Nat.lt_irrefl c)
    · exact absurd (h.old j c hcj) (hc ▸ Nat.lt_irrefl c)
    · exact hik.trans hjk.symm

/-- The first ticket of a queue is served. -/
theorem serve {k : κ} (h : Ledger next queue served) (hk : queue k = c :: cs) :
    Ledger next (Function.update queue k cs) (served ++ [c]) := by
  have hnodup := List.nodup_cons.mp (hk ▸ h.nodup k)
  have hmem : c ∈ queue k := hk ▸ List.mem_cons_self
  have hsub : ∀ j, ∀ x ∈ Function.update queue k cs j, x ∈ queue j ∧ x ≠ c := by
    intro j x hx
    by_cases hj : j = k
    · subst hj
      rw [Function.update_self] at hx
      exact ⟨hk ▸ List.mem_cons_of_mem c hx, fun he => hnodup.1 (he ▸ hx)⟩
    · rw [Function.update_of_ne hj] at hx
      exact ⟨hx, fun he => hj (h.apart j k x hx (he ▸ hmem))⟩
  refine ⟨snoc_nodup h.once (h.unserved k c hmem), ?_, ?_, fun j x hx => h.old j x (hsub j x hx).1,
    ?_, fun i j x hi hj => h.apart i j x (hsub i x hi).1 (hsub j x hj).1⟩
  · intro x hx
    rcases List.mem_append.mp hx with hx | hx
    · exact h.servedOld x hx
    · exact List.mem_singleton.mp hx ▸ h.old k c hmem
  · intro j
    by_cases hj : j = k
    · subst hj
      rw [Function.update_self]
      exact hnodup.2
    · rw [Function.update_of_ne hj]
      exact h.nodup j
  · intro j x hx hs
    rcases List.mem_append.mp hs with hs | hs
    · exact h.unserved j x (hsub j x hx).1 hs
    · exact (hsub j x hx).2 (List.mem_singleton.mp hs)

end Queues

end Ledger

end Evel.General
