import Mathlib.Data.Nat.Basic

namespace Evel.General

/-- How many steps a cursor at `c`, which wraps after `n`, makes before position `b`. -/
def cyclicDist (n c b : Nat) : Nat := if c ≤ b then b - c else b + n - c

@[simp] theorem cyclicDist_self (n c : Nat) : cyclicDist n c c = 0 := by
  simp [cyclicDist]

/-- The wrapped cursor is as far from every position as the cursor at the end. -/
theorem cyclicDist_wrap (hb : b < n) : cyclicDist n n b = cyclicDist n 0 b := by
  simp [cyclicDist, Nat.not_le.mpr hb]

theorem cyclicDist_succ (hc : c < n) (hb : b < n) (hne : b ≠ c) :
    cyclicDist n c b = cyclicDist n (c + 1) b + 1 := by
  unfold cyclicDist
  split <;> split <;> omega

/-- The position `j` steps ahead of the cursor is `j` steps away. -/
theorem cyclicDist_ahead (hc : c ≤ n) (hj : j < n) : cyclicDist n c ((c + j) % n) = j := by
  have hm : (c + j) % n = if c + j < n then c + j else c + j - n := by
    split
    · exact Nat.mod_eq_of_lt (by assumption)
    · rw [Nat.mod_eq_sub_mod (by omega), Nat.mod_eq_of_lt (by omega)]
  rw [hm]
  unfold cyclicDist
  split <;> split <;> omega

/-- Something that is due at `due` and leaves a period of length `p` when it starts, at
`e`, ends up at its rest within the period. -/
def settle (p due e : Nat) : Nat := e + (due - e) % p

theorem settle_one (due e : Nat) : settle 1 due e = e := by
  simp [settle, Nat.mod_one]

theorem settle_le (h : e ≤ due) : settle p due e ≤ due := by
  have := Nat.mod_le (due - e) p
  unfold settle
  omega

theorem le_settle (p due e : Nat) : e ≤ settle p due e := Nat.le_add_right _ _

/-- The part of the wait that whole periods make up is lost. -/
theorem settle_lost (h : e ≤ due) : settle p due e + (due - e) / p * p = due := by
  have := Nat.mod_add_div (due - e) p
  rw [Nat.mul_comm] at this
  unfold settle
  omega

/-- Splitting a period into `n` shorter ones does not move the place of rest. -/
theorem settle_split (h : e ≤ due) (n : Nat) :
    settle p due (e + (due - e) / p % n * p) = settle (p * n) due e := by
  have hq : (due - e) / p % n = (due - e) % (p * n) / p := (Nat.mod_mul_right_div_self ..).symm
  have hr := Nat.mod_add_div ((due - e) % (p * n)) p
  have hw := Nat.mod_add_div (due - e) (p * n)
  have hmod : (due - (e + (due - e) % (p * n) / p * p)) % p = (due - e) % (p * n) % p := by
    have : due - (e + (due - e) % (p * n) / p * p) =
        (due - e) % (p * n) % p + p * (n * ((due - e) / (p * n))) := by
      rw [← Nat.mul_assoc, Nat.mul_comm ((due - e) % (p * n) / p) p]
      omega
    rw [this, Nat.add_mul_mod_self_left, Nat.mod_mod]
  unfold settle
  rw [hq, hmod, Nat.mul_comm ((due - e) % (p * n) / p) p]
  omega

theorem split_le (h : e ≤ due) (n : Nat) : e + (due - e) / p % n * p ≤ due := by
  have h1 : (due - e) / p % n ≤ (due - e) / p := Nat.mod_le _ _
  have h2 := Nat.mul_le_mul_right p h1
  have h3 := Nat.div_mul_le_self (due - e) p
  omega

end Evel.General
