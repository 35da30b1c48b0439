import Mathlib.Algebra.Ring.Nat
import Mathlib.Data.List.TakeDrop
import Evel.General.Runs
import Evel.Model.TcpConnection

namespace Evel.TcpConnection
open General Tcp

/-- The bytes still in `waiting_sends`. -/
def queued (c : TcpConnection) : List Byte := (c.waitingSends.map SendItem.data).flatten

/-- An answer of `sendmsg` that is no fatal error. -/
def Mild (a : SysAnswer) : Prop := 0 < a.count ∨ a.count < 0 ∧ (a.intr = true ∨ a.again = true)

instance : DecidablePred Mild := fun a =>
  inferInstanceAs (Decidable (0 < a.count ∨ a.count < 0 ∧ (a.intr = true ∨ a.again = true)))

/-- The counts that one call of `on_out` takes, up to the answer that makes it return. -/
def counts : List SysAnswer → List Nat
  | [] => []
  | a :: as => if a.count ≤ 0 then if a.intr then counts as else [] else a.count.toNat :: counts as

/-- What is left of the messages when their first `n` bytes have been sent. -/
def unsent : Nat → List SendItem → List SendItem
  | _, [] => []
  | n, si :: rest =>
    if si.data.length ≤ n then unsent (n - si.data.length) rest
    else { si with data := si.data.drop n } :: rest

theorem flatten_unsent (n : Nat) (sends : List SendItem) :
    ((unsent n sends).map SendItem.data).flatten = (sends.map SendItem.data).flatten.drop n := by
  induction sends generalizing n with
  | nil => simp [unsent]
  | cons si rest ih =>
    simp only [unsent]
    split
    · next hle => simp [ih, List.drop_append, List.drop_eq_nil_of_le hle]
    · next hle => simp [List.drop_append, Nat.sub_eq_zero_of_le (Nat.le_of_not_le hle)]

/-- What the inner loop does as long as it does not take all that is left. -/
theorem partlySent_spec (c : TcpConnection) (h : n < c.queued.length) :
    ∃ f, partlySent n (c.waitingSends.map SendItem.data) c =
      some ((unsent n c.waitingSends).map SendItem.data,
        { c with freed := f, waitingSends := unsent n c.waitingSends }) := by
  obtain ⟨e, w, sends, p, f, acc⟩ := c
  induction sends generalizing n f with
  | nil => simp [queued] at h
  | cons si rest ih =>
    simp only [List.map_cons, partlySent, unsent]
    by_cases hle : si.data.length ≤ n
    · rw [if_pos hle, if_pos hle]
      have hlt : n - si.data.length < (queued ⟨e, w, rest, p, f ++ [si.allo], acc⟩).length := by
        simp [queued] at h ⊢
        omega
      exact ih (f ++ [si.allo]) hlt
    · rw [if_neg hle, if_neg hle]
      exact ⟨f, rfl⟩

/-- Taking all that is left runs past the last entry of `viovec`. -/
theorem partlySent_all (c : TcpConnection) :
    partlySent c.queued.length (c.waitingSends.map SendItem.data) c = none := by
  obtain ⟨e, w, sends, p, f, acc⟩ := c
  induction sends generalizing f with
  | nil => simp [partlySent]
  | cons si rest ih =>
    have hle : si.data.length ≤ (queued ⟨e, w, si :: rest, p, f, acc⟩).length := by
      simp [queued]
    simp only [List.map_cons, partlySent, if_pos hle]
    rw [← ih (f ++ [si.allo])]
    simp [queued]

/-- The bytes accepted and then the bytes that wait are those passed to `send`. -/
def Carries (sent : List Byte) (c : TcpConnection) : Prop := c.accepted ++ c.queued = sent

instance (sent : List Byte) : DecidablePred (Carries sent) :=
  fun c => inferInstanceAs (Decidable (c.accepted ++ c.queued = sent))

/-- A mild answer that is neither a count nor an interruption says that the socket is full. -/
theorem Mild.again (hm : Mild a) (hc : a.count ≤ 0) (hi : a.intr = false) :
    a.count < 0 ∧ a.again = true := by
  rcases hm with h | ⟨h, h' | h'⟩
  · omega
  · simp [h'] at hi
  · exact ⟨h, h'⟩

/-- An answer without a count: an interruption is passed over, and a full socket ends the call. -/
theorem drain_wait (ha : Mild a) (hle : a.count ≤ 0) (hpos : 0 < c.queued.length) :
    drain tot (a :: as) (c.waitingSends.map SendItem.data) c =
      if a.intr then drain tot as (c.waitingSends.map SendItem.data) c else .ret c := by
  have hl : (c.waitingSends.map SendItem.data).flatten.length = c.queued.length := rfl
  simp only [drain, hl, SysAnswer.real_nonpos (Nat.ne_of_gt hpos), if_pos hle]
  cases hi : a.intr with
  | true => rfl
  | false =>
    obtain ⟨hneg, hag⟩ := ha.again hle hi
    have hr : a.real c.queued.length < 0 := by
      simp only [SysAnswer.real]
      omega
    simp [hr, hag]

/-- The connection when the kernel has taken `n` bytes, and the buffers in `f` are freed. -/
def tookPart (n : Nat) (f : List Ptr) (c : TcpConnection) : TcpConnection :=
  { c with freed := f, waitingSends := unsent n c.waitingSends,
           accepted := c.accepted ++ c.queued.take n }

@[simp] theorem queued_tookPart : (tookPart n f c).queued = c.queued.drop n :=
  flatten_unsent n c.waitingSends

theorem Carries.tookPart (hc : Carries sent c) : Carries sent (c.tookPart n f) := by
  rw [Carries, queued_tookPart]
  simp only [TcpConnection.tookPart, List.append_assoc, List.take_append_drop]
  exact hc

/-- A count that leaves something behind: the loop goes on with the rest. -/
theorem drain_short (tot : Nat) (hle : ¬ a.count ≤ 0)
    (hlt : a.count.toNat < c.queued.length) (htot : a.count.toNat ≠ tot) :
    ∃ f, ∀ as, drain tot (a :: as) (c.waitingSends.map SendItem.data) c =
      drain tot as ((c.tookPart a.count.toNat f).waitingSends.map SendItem.data)
        (c.tookPart a.count.toNat f) := by
  have hq : (c.waitingSends.map SendItem.data).flatten = c.queued := rfl
  have hn : min a.count.toNat c.queued.length = a.count.toNat := Nat.min_eq_left (Nat.le_of_lt hlt)
  have hpos : c.queued.length ≠ 0 := Nat.ne_of_gt (Nat.zero_lt_of_lt hlt)
  obtain ⟨f, hs⟩ := partlySent_spec
    { c with accepted := c.accepted ++ c.queued.take a.count.toNat } hlt
  refine ⟨f, fun as => ?_⟩
  simp only [drain, hq, SysAnswer.real_nonpos hpos, if_neg hle, SysAnswer.real_toNat, hn,
    if_neg htot]
  rw [show partlySent a.count.toNat (c.waitingSends.map SendItem.data) _ = _ from hs]
  rfl

/-- A count that takes all that is left is the end of the call if it is `tot`. -/
theorem drain_whole (as : List SysAnswer) (hle : ¬ a.count ≤ 0)
    (hge : c.queued.length ≤ a.count.toNat) (hpos : 0 < c.queued.length) :
    drain c.queued.length (a :: as) (c.waitingSends.map SendItem.data) c =
      .ret { c with
        accepted := c.accepted ++ c.queued
        freed := c.freed ++ c.waitingSends.map SendItem.allo
        waitingSends := [] } := by
  have hq : (c.waitingSends.map SendItem.data).flatten = c.queued := rfl
  have htake : c.queued.take c.queued.length = c.queued := List.take_of_length_le (Nat.le_refl _)
  simp only [drain, hq, SysAnswer.real_nonpos (Nat.ne_of_gt hpos), if_neg hle,
    SysAnswer.real_toNat, Nat.min_eq_right hge, htake, if_true]

/-- Otherwise the loop goes past the end of what it has prepared. -/
theorem drain_past (tot : Nat) (as : List SysAnswer) (hle : ¬ a.count ≤ 0)
    (hge : c.queued.length ≤ a.count.toNat) (hpos : 0 < c.queued.length)
    (htot : c.queued.length ≠ tot) :
    drain tot (a :: as) (c.waitingSends.map SendItem.data) c =
      .undef { c with accepted := c.accepted ++ c.queued } := by
  have hq : (c.waitingSends.map SendItem.data).flatten = c.queued := rfl
  have htake : c.queued.take c.queued.length = c.queued := List.take_of_length_le (Nat.le_refl _)
  have hall := partlySent_all { c with accepted := c.accepted ++ c.queued }
  simp only [drain, hq, SysAnswer.real_nonpos (Nat.ne_of_gt hpos), if_neg hle,
    SysAnswer.real_toNat, Nat.min_eq_right hge, htake, if_neg htot]
  rw [show partlySent c.queued.length (c.waitingSends.map SendItem.data) _ = none from hall]

theorem drain_all (tot : Nat) (as : List SysAnswer) (hc : Carries sent c) (hle : ¬ a.count ≤ 0)
    (hge : c.queued.length ≤ a.count.toNat) (hpos : 0 < c.queued.length) :
    (drain tot (a :: as) (c.waitingSends.map SendItem.data) c).Post (Carries sent) ↔
      c.queued.length = tot := by
  by_cases htot : c.queued.length = tot
  · rw [← htot, drain_whole as hle hge hpos]
    exact iff_of_true (by simpa [Carries, queued] using hc) rfl
  · rw [drain_past tot as hle hge hpos htot]
    exact iff_of_false id htot

/-- After a partial count the total of the first round is out of reach. -/
theorem drain_partial (hm : ∀ a ∈ script, Mild a) (hc : Carries sent c)
    (hpos : 0 < c.queued.length) (htot : c.queued.length < tot) :
    (drain tot script (c.waitingSends.map SendItem.data) c).Post (Carries sent) ↔
      (counts script).sum < c.queued.length := by
  induction script generalizing c with
  | nil => simpa [drain, counts] using hpos
  | cons a as ih =>
    have has : ∀ b ∈ as, Mild b := fun b hb => hm b (List.mem_cons_of_mem a hb)
    by_cases hle : a.count ≤ 0
    · rw [drain_wait (hm a List.mem_cons_self) hle hpos, counts, if_pos hle]
      cases a.intr with
      | true => exact ih has hc hpos htot
      | false => simpa [hpos] using hc
    · rw [counts, if_neg hle, List.sum_cons]
      by_cases hlt : a.count.toNat < c.queued.length
      · obtain ⟨f, he⟩ := drain_short tot hle hlt (by omega)
        have hl : (c.tookPart a.count.toNat f).queued.length =
            c.queued.length - a.count.toNat := by simp
        rw [he, ih has hc.tookPart (by omega) (by omega), hl]
        omega
      · rw [drain_all tot as hc hle (Nat.le_of_not_lt hlt) hpos]
        omega

theorem drain_first (hm : ∀ a ∈ script, Mild a) (hc : Carries sent c)
    (hpos : 0 < c.queued.length) :
    (drain c.queued.length script (c.waitingSends.map SendItem.data) c).Post (Carries sent) ↔
      c.queued.length ≤ (counts script).headD 0 ∨ (counts script).sum < c.queued.length := by
  induction script with
  | nil => simpa [drain, counts] using .inr hpos
  | cons a as ih =>
    have has : ∀ b ∈ as, Mild b := fun b hb => hm b (List.mem_cons_of_mem a hb)
    by_cases hle : a.count ≤ 0
    · rw [drain_wait (hm a List.mem_cons_self) hle hpos, counts, if_pos hle]
      cases a.intr with
      | true => exact ih has
      | false => simpa [hc] using .inr hpos
    · rw [counts, if_neg hle, List.headD_cons, List.sum_cons]
      by_cases hlt : a.count.toNat < c.queued.length
      · obtain ⟨f, he⟩ := drain_short _ hle hlt (Nat.ne_of_lt hlt)
        have hl : (c.tookPart a.count.toNat f).queued.length =
            c.queued.length - a.count.toNat := by simp
        rw [he, drain_partial has hc.tookPart (by omega) (by omega), hl]
        omega
      · have hge := Nat.le_of_not_lt hlt
        exact iff_of_true ((drain_all _ as hc hle hge hpos).mpr rfl) (.inl hge)

/-- One call of `on_out` keeps the stream if and only if no later count of it reaches the end
of what the first one left. -/
theorem onOut_carries_iff (hm : ∀ a ∈ script, Mild a) (hc : Carries sent c) :
    (c.onOut script).Post (Carries sent) ↔
      c.queued.length ≤ (counts script).headD 0 ∨ (counts script).sum < c.queued.length := by
  have hl : (c.waitingSends.map SendItem.data).flatten.length = c.queued.length := rfl
  simp only [onOut, hl]
  by_cases h0 : c.queued.length = 0
  · simp [h0, hc]
  · rw [if_neg h0]
    exact drain_first hm hc (Nat.pos_of_ne_zero h0)

theorem sendNow_carries_iff (hm : ∀ a ∈ script, Mild a) (hc : Carries sent c)
    (hempty : c.waitingSends = []) (hb : bytes ≠ []) :
    (sendNow bytes script c).Post (Carries (sent ++ bytes)) ↔
      ∀ a ∈ SysAnswer.first script, bytes.length ≤ a.count := by
  have hpos := List.length_pos_iff.mpr hb
  have hacc : c.accepted = sent := by
    simpa [Carries, queued, hempty] using hc
  induction script with
  | nil => simp [sendNow]
  | cons a as ih =>
    have has : ∀ b ∈ as, Mild b := fun b hb => hm b (List.mem_cons_of_mem a hb)
    simp only [sendNow, SysAnswer.real_nonpos (Nat.ne_of_gt hpos), SysAnswer.first_cons]
    by_cases hle : a.count ≤ 0
    · cases hi : a.intr with
      | true => simpa [hle] using ih has
      | false =>
        obtain ⟨hneg, hag⟩ := (hm a List.mem_cons_self).again hle hi
        have hr : a.real bytes.length < 0 := by simp only [SysAnswer.real]; omega
        have hshort : ¬ (bytes.length : Int) ≤ a.count := by omega
        simp [hle, hr, hag, Carries, queued, hempty, hacc, hb, hshort]
    · have htake : bytes.take (min a.count.toNat bytes.length) = bytes ↔
          (bytes.length : Int) ≤ a.count := by
        rw [List.take_eq_self_iff]
        omega
      simpa [hle, SysAnswer.real_toNat, Carries, queued, hempty, hacc] using htake

/-- One call of `send` keeps the stream if and only if the message is queued, or taken whole
by the first answer that is no interruption. -/
theorem sendCopy_carries_iff (hm : ∀ a ∈ script, Mild a) (hc : Carries sent c) :
    (c.sendCopy data script).Post (Carries (sent ++ data.bytes)) ↔
      data.bytes = [] ∨ c.waitingForConnection = true ∨ c.waitingSends ≠ [] ∨
        ∀ a ∈ SysAnswer.first script, data.bytes.length ≤ a.count := by
  simp only [sendCopy, send, Exec.post_map]
  by_cases hb : data.bytes = []
  · simpa [hb] using hc
  · have hl : data.bytes.length ≠ 0 := by simpa using hb
    rw [if_neg hl]
    by_cases hw : c.waitingForConnection || !c.waitingSends.isEmpty
    · have hq : c.waitingForConnection = true ∨ c.waitingSends ≠ [] := by
        simpa [List.isEmpty_iff] using hw
      have hcar : c.accepted ++ c.queued = sent := hc
      simp only [if_pos hw, Exec.post_ret, addSendItem, if_pos hl]
      have : Carries (sent ++ data.bytes) { c with
          waitingSends := c.waitingSends ++
            [⟨data.bytes, c.nextPtr, msgAllocSize data.bytes.length, false⟩],
          nextPtr := c.nextPtr + 1 } := by
        simp [Carries, queued, ← hcar]
      simpa [this] using .inr (hq.imp_right .inl)
    · rw [if_neg hw, Exec.post_map]
      have hq : c.waitingForConnection = false ∧ c.waitingSends = [] := by
        simpa [List.isEmpty_iff] using hw
      rw [sendNow_carries_iff hm hc hq.2 hb]
      simp [hb, hq.1, hq.2]

/-- The connection and, in the order of the calls, the bytes passed to `send`. -/
structure Stream where
  conn : TcpConnection
  passed : List Byte
deriving DecidableEq

inductive Call
  | send (data : Buffer) (script : List SysAnswer)
  | onOut (script : List SysAnswer)

namespace Call

def script : Call → List SysAnswer
  | .send _ script => script
  | .onOut script => script

/-- The message goes to the queue or to the kernel as a whole, and no count of an `on_out` but
the first takes all that was left. -/
def Clean (c : TcpConnection) : Call → Prop
  | .send data script =>
    data.bytes = [] ∨ c.waitingForConnection = true ∨ c.waitingSends ≠ [] ∨
      ∀ a ∈ SysAnswer.first script, data.bytes.length ≤ a.count
  | .onOut script =>
    c.queued.length ≤ (counts script).headD 0 ∨ (counts script).sum < c.queued.length

instance (c : TcpConnection) : DecidablePred (Clean c)
  | .send data script => inferInstanceAs (Decidable (data.bytes = [] ∨
      c.waitingForConnection = true ∨ c.waitingSends ≠ [] ∨
        ∀ a ∈ SysAnswer.first script, data.bytes.length ≤ a.count))
  | .onOut script => inferInstanceAs (Decidable (c.queued.length ≤ (counts script).headD 0 ∨
      (counts script).sum < c.queued.length))

end Call

namespace Stream

/-- What the kernel accepted and what waits is what was passed. -/
def Faithful (s : Stream) : Prop := s.conn.accepted ++ s.conn.queued = s.passed

instance : DecidablePred Faithful :=
  fun s => inferInstanceAs (Decidable (s.conn.accepted ++ s.conn.queued = s.passed))

def start (fd : Int) (waiting : Bool) : Exec Stream := .ret ⟨TcpConnection.new fd waiting, []⟩

def call (s : Stream) : Call → Exec Stream
  | .send data script => (s.conn.sendCopy data script).map (fun c => ⟨c, s.passed ++ data.bytes⟩)
  | .onOut script => (s.conn.onOut script).map (fun c => { s with conn := c })

/-- Nothing follows a call that does not return. -/
def step (e : Exec Stream) (k : Call) : Exec Stream := e.andThen (fun s => s.call k)

theorem call_faithful_iff {s : Stream} (hm : ∀ a ∈ k.script, Mild a) (hs : s.Faithful) :
    (s.call k).Post Faithful ↔ k.Clean s.conn := by
  cases k with
  | send data script =>
    rw [call, Exec.post_map]
    exact sendCopy_carries_iff hm hs
  | onOut script =>
    rw [call, Exec.post_map]
    exact onOut_carries_iff hm hs

theorem step_faithful_iff {e : Exec Stream} (hm : ∀ a ∈ k.script, Mild a)
    (he : e.Post Faithful) : (step e k).Post Faithful ↔ e.Post (fun s => k.Clean s.conn) := by
  cases e with
  | ret s => exact call_faithful_iff hm he
  | hang s => exact Iff.rfl
  | undef s => exact he.elim

/-- The stream of a connection is faithful after every call if and only if all calls are
clean. -/
theorem faithful_iff_clean (fd : Int) (waiting : Bool) (calls : List Call)
    (hm : ∀ k ∈ calls, ∀ a ∈ k.script, Mild a) :
    (∀ n, (run step (start fd waiting) (calls.take n)).Post Faithful) ↔
      Along step (fun e k => e.Post (fun s => k.Clean s.conn)) (start fd waiting) calls :=
  along_iff _ (fun _ k he hk => step_faithful_iff (hm k hk) he) rfl

theorem faithful_partial_then_full : (run step (start 5 true)
    ([.send ⟨0, [97, 98]⟩ [], .send ⟨0, [99]⟩ [], .onOut [⟨1, .zero⟩, ⟨-1, .again⟩],
      .onOut [⟨-1, .intr⟩, ⟨2, .zero⟩]].take 4)).Post Faithful :=
  (faithful_iff_clean 5 true _ (by decide)).mpr (by decide) 4

/-- The message is lost when the socket of an accepted connection is full. -/
theorem would_block_dropped : (∀ a ∈ [⟨-1, .again⟩], Mild a) ∧
    ¬ (run step (start 5 false) [.send ⟨0, [97, 98]⟩ [⟨-1, .again⟩]]).Post Faithful := by
  decide

end Stream

end Evel.TcpConnection
