import Evel.Proofs.TcpStream

namespace Evel.TcpConnection
open General Tcp
variable {c : TcpConnection} {script : List SysAnswer}

section calls

/-- `drain` with the sizes that it offers to `sendmsg`, one for each call. -/
def drainCalls (tot : Nat) : List SysAnswer → List (List Byte) → TcpConnection →
    List Nat × Exec TcpConnection
  | [], iov, c => ([iov.flatten.length], .hang c)
  | a :: as, iov, c =>
    let size := iov.flatten.length
    let real := a.real size
    let r : List Nat × Exec TcpConnection :=
      if real ≤ 0 then
        if a.intr then drainCalls tot as iov c
        else if real < 0 ∧ a.again then ([], .ret c)
        else ([], .ret c.onHup)
      else
        let c := { c with accepted := c.accepted ++ iov.flatten.take real.toNat }
        if real.toNat = tot then
          ([], .ret { c with
            freed := c.freed ++ c.waitingSends.map SendItem.allo, waitingSends := [] })
        else
          match partlySent real.toNat iov c with
          | none => ([], .undef c)
          | some (iov, c) => drainCalls tot as iov c
    (size :: r.1, r.2)

/-- The sizes are only looked at. -/
theorem drainCalls_snd (tot : Nat) (script : List SysAnswer) (iov : List (List Byte))
    (c : TcpConnection) : (drainCalls tot script iov c).2 = drain tot script iov c := by
  induction script generalizing iov c with
  | nil => rfl
  | cons a as ih =>
    simp only [drainCalls, drain]
    split
    · split
      · exact ih iov c
      split <;> rfl
    split
    · rfl
    · generalize partlySent (a.real iov.flatten.length).toNat iov { c with
        accepted := c.accepted ++ iov.flatten.take (a.real iov.flatten.length).toNat } = left
      cases left with
      | none => rfl
      | some left => exact ih left.1 left.2

def onOutCalls (script : List SysAnswer) (c : TcpConnection) : List Nat × Exec TcpConnection :=
  let iov := c.waitingSends.map SendItem.data
  let tot := iov.flatten.length
  if tot = 0 then ([], .ret c) else drainCalls tot script iov c

theorem onOutCalls_snd (script : List SysAnswer) (c : TcpConnection) :
    (c.onOutCalls script).2 = c.onOut script := by
  simp only [onOutCalls, onOut]
  split
  · rfl
  · exact drainCalls_snd _ _ _ _

/-- As long as something waits, something is offered. -/
theorem drainCalls_sizes (tot : Nat) (script : List SysAnswer) (hpos : 0 < c.queued.length) :
    0 ∉ (drainCalls tot script (c.waitingSends.map SendItem.data) c).1 := by
  have hq : (c.waitingSends.map SendItem.data).flatten = c.queued := rfl
  induction script generalizing c with
  | nil =>
    simp only [drainCalls, hq, List.mem_singleton]
    omega
  | cons a as ih =>
    simp only [drainCalls, hq, List.mem_cons, not_or]
    refine ⟨by omega, ?_⟩
    split
    · split
      · exact ih hpos rfl
      split <;> exact List.not_mem_nil
    split
    · exact List.not_mem_nil
    · by_cases hlt : (a.real c.queued.length).toNat < c.queued.length
      · obtain ⟨f, hs⟩ := partlySent_spec
          { c with accepted := c.accepted ++ c.queued.take (a.real c.queued.length).toNat } hlt
        rw [show partlySent _ (c.waitingSends.map SendItem.data) _ = _ from hs]
        refine ih (c := c.tookPart _ f) ?_ rfl
        rw [queued_tookPart, List.length_drop]
        omega
      · have hall : (a.real c.queued.length).toNat = c.queued.length := by
          rw [SysAnswer.real_toNat] at hlt ⊢
          omega
        have hnone := partlySent_all { c with accepted := c.accepted ++ c.queued }
        rw [hall, List.take_of_length_le (Nat.le_refl _),
          show partlySent c.queued.length (c.waitingSends.map SendItem.data) _ = none from hnone]
        exact List.not_mem_nil

end calls

/-- Each call of `sendmsg` takes 1 byte at least, and no more than it is offered, until there are
none left or the socket is full. -/
def Accepting : List SysAnswer → Nat → Prop
  | [], n => n = 0
  | a :: as, n => 0 < n ∧
    ((0 < a.count ∧ a.count ≤ n ∧ Accepting as (n - a.count.toNat)) ∨
      (a.count < 0 ∧ a.again = true ∧ as = []))

instance Accepting.decidable :
    (script : List SysAnswer) → (n : Nat) → Decidable (Accepting script n)
  | [], n => inferInstanceAs (Decidable (n = 0))
  | a :: as, n =>
    have := Accepting.decidable as (n - a.count.toNat)
    inferInstanceAs (Decidable (0 < n ∧
      ((0 < a.count ∧ a.count ≤ n ∧ Accepting as (n - a.count.toNat)) ∨
        (a.count < 0 ∧ a.again = true ∧ as = []))))

/-- The call returns with what is left of the queue when its first `n` bytes have been sent, and
nothing happens to the event. -/
def Returns (e : Exec TcpConnection) (n : Nat) (c : TcpConnection) : Prop :=
  ∃ c', e = .ret c' ∧ c'.waitingSends = unsent n c.waitingSends ∧ c'.event = c.event

/-- `on_out` returns with what the kernel has not taken, without an undefined step and without a
call of `sendmsg` for nothing. -/
structure Drains (script : List SysAnswer) (c : TcpConnection) : Prop where
  returns : Returns (c.onOut script) (counts script).sum c
  sizes : 0 ∉ (c.onOutCalls script).1

theorem unsent_unsent (m n : Nat) (sends : List SendItem) :
    unsent m (unsent n sends) = unsent (n + m) sends := by
  induction sends generalizing m n with
  | nil => rfl
  | cons si rest ih =>
    by_cases hn : si.data.length ≤ n
    · have hnm : si.data.length ≤ n + m := by omega
      simp only [unsent, if_pos hn, if_pos hnm, ih]
      congr 1
      omega
    · by_cases hnm : si.data.length ≤ n + m
      · have hm : si.data.length - n ≤ m := by omega
        simp only [unsent, if_neg hn, if_pos hnm, List.length_drop, if_pos hm]
        congr 1
        omega
      · have hm : ¬ si.data.length - n ≤ m := by omega
        simp only [unsent, if_neg hn, if_neg hnm, List.length_drop, if_neg hm, List.drop_drop]

theorem unsent_zero (h : ∀ si ∈ sends, si.data ≠ []) : unsent 0 sends = sends := by
  cases sends with
  | nil => rfl
  | cons si rest =>
    have hne : si.data ≠ [] := h si List.mem_cons_self
    simp [unsent, hne]

theorem unsent_all (h : (sends.map SendItem.data).flatten.length ≤ n) : unsent n sends = [] := by
  induction sends generalizing n with
  | nil => rfl
  | cons si rest ih =>
    simp only [List.map_cons, List.flatten_cons, List.length_append] at h
    have hle : si.data.length ≤ n := by omega
    rw [unsent, if_pos hle]
    exact ih (by omega)

theorem unsent_nonempty (n : Nat) (h : ∀ si ∈ sends, si.data ≠ []) :
    ∀ si ∈ unsent n sends, si.data ≠ [] := by
  induction sends generalizing n with
  | nil => exact nofun
  | cons si rest ih =>
    have hrest : ∀ sj ∈ rest, sj.data ≠ [] := fun sj hj => h sj (List.mem_cons_of_mem si hj)
    simp only [unsent]
    split
    · exact ih _ hrest
    · next hle =>
      intro sj hj
      rcases List.mem_cons.mp hj with rfl | hj
      · simpa using Nat.lt_of_not_le hle
      · exact hrest sj hj

/-- A full socket ends the loop, with the queue as it is. -/
theorem returns_full (hc : a.count < 0) (hag : a.again = true)
    (hne : ∀ si ∈ c.waitingSends, si.data ≠ []) (hpos : 0 < c.queued.length) :
    Returns (drain tot [a] (c.waitingSends.map SendItem.data) c) (counts [a]).sum c := by
  have hle : a.count ≤ 0 := by omega
  have hi := SysAnswer.intr_of_again hag
  have he : drain tot [a] (c.waitingSends.map SendItem.data) c = .ret c := by
    rw [drain_wait (.inr ⟨hc, .inr hag⟩) hle hpos, hi]
    rfl
  have hcounts : (counts [a]).sum = 0 := by simp [counts, hle, hi]
  rw [hcounts]
  exact ⟨c, he, (unsent_zero hne).symm, rfl⟩

/-- With `tot` past reach, the loop must not take all that is left. -/
theorem returns_partial (tot : Nat) (ha : Accepting script c.queued.length)
    (hne : ∀ si ∈ c.waitingSends, si.data ≠ []) (hpos : 0 < c.queued.length)
    (htot : c.queued.length < tot) :
    Returns (drain tot script (c.waitingSends.map SendItem.data) c) (counts script).sum c ↔
      (counts script).sum < c.queued.length := by
  induction script generalizing c with
  | nil => exact absurd ha (Nat.ne_of_gt hpos)
  | cons a as ih =>
    obtain ⟨-, ⟨hc, hle, has⟩ | ⟨hc, hag, rfl⟩⟩ := ha
    · have hgt : ¬ a.count ≤ 0 := by omega
      rw [counts, if_neg hgt, List.sum_cons]
      by_cases hlt : a.count.toNat < c.queued.length
      · obtain ⟨f, he⟩ := drain_short tot hgt hlt (by omega)
        have hl : (c.tookPart a.count.toNat f).queued.length =
            c.queued.length - a.count.toNat := by simp
        have ih := ih (c := c.tookPart a.count.toNat f) (by rwa [hl]) (unsent_nonempty _ hne)
          (by omega) (by omega)
        rw [he, Returns, ← unsent_unsent]
        refine ih.trans ?_
        rw [hl]
        omega
      · have hge := Nat.le_of_not_lt hlt
        rw [drain_past tot as hgt hge hpos (by omega)]
        refine iff_of_false ?_ (by omega)
        intro hboth
        obtain ⟨c', he, -⟩ := hboth
        cases he
    · refine iff_of_true (returns_full hc hag hne hpos) ?_
      simpa [counts, Int.le_of_lt hc, SysAnswer.intr_of_again hag] using hpos

theorem returns_first (ha : Accepting script c.queued.length)
    (hne : ∀ si ∈ c.waitingSends, si.data ≠ []) (hpos : 0 < c.queued.length) :
    Returns (drain c.queued.length script (c.waitingSends.map SendItem.data) c)
        (counts script).sum c ↔
      c.queued.length ≤ (counts script).headD 0 ∨ (counts script).sum < c.queued.length := by
  cases script with
  | nil => exact absurd ha (Nat.ne_of_gt hpos)
  | cons a as =>
    obtain ⟨-, ⟨hc, hle, has⟩ | ⟨hc, hag, rfl⟩⟩ := ha
    · have hgt : ¬ a.count ≤ 0 := by omega
      rw [counts, if_neg hgt, List.sum_cons, List.headD_cons]
      by_cases hlt : a.count.toNat < c.queued.length
      · obtain ⟨f, he⟩ := drain_short _ hgt hlt (Nat.ne_of_lt hlt)
        have hl : (c.tookPart a.count.toNat f).queued.length =
            c.queued.length - a.count.toNat := by simp
        have hrest := returns_partial (c := c.tookPart a.count.toNat f) c.queued.length
          (by rwa [hl]) (unsent_nonempty _ hne) (by omega) (by omega)
        rw [he, Returns, ← unsent_unsent]
        refine hrest.trans ?_
        rw [hl]
        omega
      · have hge := Nat.le_of_not_lt hlt
        have hall : unsent (a.count.toNat + (counts as).sum) c.waitingSends = [] :=
          unsent_all (Nat.le_add_right_of_le hge)
        rw [drain_whole as hgt hge hpos]
        exact iff_of_true ⟨_, rfl, hall.symm, rfl⟩ (.inl hge)
    · refine iff_of_true (returns_full hc hag hne hpos) (.inr ?_)
      simpa [counts, Int.le_of_lt hc, SysAnswer.intr_of_again hag] using hpos

/-- With messages that are not empty, and a kernel that takes them in any parts, `on_out` drains
the queue exactly if it is taken whole by the first call or not to its end. -/
theorem onOut_drains_iff (c : TcpConnection) (script : List SysAnswer)
    (hne : ∀ si ∈ c.waitingSends, si.data ≠ []) (ha : Accepting script c.queued.length) :
    Drains script c ↔
      c.queued.length ≤ (counts script).headD 0 ∨ (counts script).sum < c.queued.length := by
  have hq : (c.waitingSends.map SendItem.data).flatten.length = c.queued.length := rfl
  by_cases h0 : c.queued.length = 0
  · obtain rfl : script = [] := by
      cases script with
      | nil => rfl
      | cons a as => exact absurd ha.1 (by omega)
    have hret : Returns (c.onOut []) 0 c := by
      simp only [onOut, hq, h0, if_true]
      exact ⟨c, rfl, (unsent_zero hne).symm, rfl⟩
    refine iff_of_true ⟨hret, ?_⟩ (.inl (by omega))
    simp [onOutCalls, hq, h0]
  · have hpos := Nat.pos_of_ne_zero h0
    have hsizes : 0 ∉ (c.onOutCalls script).1 := by
      simp only [onOutCalls, hq, if_neg h0]
      exact drainCalls_sizes _ script hpos
    have hfirst := returns_first ha hne hpos
    constructor
    · intro hboth
      obtain ⟨hret, -⟩ := hboth
      simp only [onOut, hq, if_neg h0] at hret
      exact hfirst.mp hret
    · intro h
      refine ⟨?_, hsizes⟩
      simp only [onOut, hq, if_neg h0]
      exact hfirst.mpr h

/-- Two messages wait. -/
def twoWaiting : TcpConnection :=
  { new 5 true with waitingSends := [⟨[97, 98], 0, 8, false⟩, ⟨[99], 1, 8, false⟩], nextPtr := 2 }

theorem onOut_drains_then_full :
    Drains [⟨1, .zero⟩, ⟨1, .zero⟩, ⟨-1, .again⟩] twoWaiting ↔
      twoWaiting.queued.length ≤
          (counts [⟨1, .zero⟩, ⟨1, .zero⟩, ⟨-1, .again⟩]).headD 0 ∨
        (counts [⟨1, .zero⟩, ⟨1, .zero⟩, ⟨-1, .again⟩]).sum < twoWaiting.queued.length :=
  onOut_drains_iff twoWaiting _ (by decide) (by decide)

/-- The second call takes all that the first one has left: the loop looks for a third message. -/
theorem rest_taken_past_end :
    Accepting [⟨1, .zero⟩, ⟨2, .zero⟩] twoWaiting.queued.length ∧
      (twoWaiting.onOut [⟨1, .zero⟩, ⟨2, .zero⟩] =
        .undef { twoWaiting with
          waitingSends := [⟨[98], 0, 8, false⟩, ⟨[99], 1, 8, false⟩], accepted := [97, 98, 99] }) ∧
      ¬ Drains [⟨1, .zero⟩, ⟨2, .zero⟩] twoWaiting := by
  have he : twoWaiting.onOut [⟨1, .zero⟩, ⟨2, .zero⟩] = .undef { twoWaiting with
      waitingSends := [⟨[98], 0, 8, false⟩, ⟨[99], 1, 8, false⟩], accepted := [97, 98, 99] } := by
    decide
  refine ⟨by decide, he, ?_⟩
  intro hboth
  obtain ⟨⟨c', hret, -⟩, -⟩ := hboth
  rw [he] at hret
  cases hret

end Evel.TcpConnection
