import Evel.General.Fifo
import Evel.General.Rounds
import Evel.General.Runs
import Evel.Model.UdpSocket

namespace Evel.UdpSocket
open General Udp
variable {Addr : Type u}

/-- The datagrams that wait. -/
def queued (s : UdpSocket Addr) : List (Addr × List Byte) :=
  s.waitingSends.map fun p => (p.dst, p.bytes)

/-- The datagrams that the calls pass, but for the empty ones. -/
def datagrams (calls : List (Call Addr)) : List (Addr × List Byte) :=
  calls.flatMap fun
    | .sendRaw dst data _ _ => if data.bytes.length = 0 then [] else [(dst, data.bytes)]
    | .onOut _ => []

/-- `sendto` answers `EAGAIN` or `EWOULDBLOCK`. -/
def full (a : SysAnswer) : Bool := decide (a.count ≤ 0) && a.again

/-- Every `sendto` takes the whole datagram, is interrupted or finds the socket full. -/
def serves : List SysAnswer → List (List Byte) → Bool
  | [], _ | _, [] => true
  | a :: as, d :: ds =>
    if a.count ≤ 0 then if a.intr then serves as (d :: ds) else a.again
    else decide (d.length ≤ a.count) && serves as ds

/-- The answers to the calls of `sendto` that a call makes are of these kinds. -/
def served (s : UdpSocket Addr) : Call Addr → Bool
  | .sendRaw _ data _ script =>
    data.bytes.length = 0 || !s.waitingSends.isEmpty || serves script [data.bytes]
  | .onOut script => serves script (s.waitingSends.map (·.bytes))

def Served (e : Exec (UdpSocket Addr)) (k : Call Addr) : Prop := e.state.served k = true

instance (e : Exec (UdpSocket Addr)) (k : Call Addr) : Decidable (Served e k) :=
  inferInstanceAs (Decidable (_ = true))

/-- What `sendto` answers during a call. -/
def answersTo (s : UdpSocket Addr) : Call Addr → List SysAnswer
  | .sendRaw dst data allow script => Exec.taken (s.sendRaw dst data allow) script
  | .onOut script => Exec.taken s.onOut script

/-- What `sendto` answers during a run. -/
def answers (s : UdpSocket Addr) : List (Call Addr) → List SysAnswer
  | [] => []
  | k :: ks => s.answersTo k ++
    match s.call k with
    | .ret s' => s'.answers ks
    | _ => []

/-- What a socket owes after the datagrams in `given` and the answers in `past`. -/
structure Owes (given : List (Addr × List Byte)) (past : List SysAnswer) (s : UdpSocket Addr) :
    Prop where
  fifo : Fifo s.sent s.queued given
  nonempty : ∀ p ∈ s.waitingSends, p.bytes.length ≠ 0
  last : s.waitingSends ≠ [] → past.getLast?.any full = true

/-- The first datagram has been accepted. -/
def popFront (p : SendItem Addr) (rest : List (SendItem Addr)) (s : UdpSocket Addr) :
    UdpSocket Addr :=
  { s with sent := s.sent ++ [(p.dst, p.bytes)], freed := s.freed ++ [p.data],
           waitingSends := rest }

section Answers
variable {a : SysAnswer} {p : SendItem Addr} {s : UdpSocket Addr}

theorem accept_whole (dst : Addr) (h : bytes.length ≤ a.count) :
    s.accept dst bytes (a.real bytes.length).toNat =
      .ret { s with sent := s.sent ++ [(dst, bytes)] } := by
  have hr : (a.real bytes.length).toNat = bytes.length := by
    rw [SysAnswer.real_toNat]
    omega
  simp [accept, hr]

theorem drain_intr (hp : p.bytes.length ≠ 0) (hle : a.count ≤ 0) (hi : a.intr = true)
    (rest : List (SendItem Addr)) (as : List SysAnswer) :
    drain (a :: as) (p :: rest) s = drain as (p :: rest) s := by
  simp [drain, SysAnswer.real_nonpos hp, hle, hi]

theorem drain_full (hp : p.bytes.length ≠ 0) (hle : a.count ≤ 0) (hi : a.intr = false)
    (ha : a.again = true) (rest : List (SendItem Addr)) (as : List SysAnswer) :
    drain (a :: as) (p :: rest) s = .ret s := by
  simp [drain, SysAnswer.real_nonpos hp, hle, hi, ha]

theorem drain_whole (hp : p.bytes.length ≠ 0) (h : p.bytes.length ≤ a.count)
    (rest : List (SendItem Addr)) (as : List SysAnswer) :
    drain (a :: as) (p :: rest) s = drain as rest (s.popFront p rest) := by
  have hle : ¬ a.count ≤ 0 := by omega
  simp only [drain, SysAnswer.real_nonpos hp, if_neg hle]
  rw [accept_whole p.dst h]
  rfl

end Answers

/-- An answer that leads to others is not the last one. -/
theorem any_getLast_cons {past : List SysAnswer} (h : past.getLast?.any full = true)
    (a : SysAnswer) : (a :: past).getLast?.any full = true := by
  simp only [Option.any_eq_true] at h ⊢
  exact exists_getLast_cons a h

/-- The queue is written from its front until it is empty or the socket is full. -/
theorem owes_drain (script : List SysAnswer) {s : UdpSocket Addr}
    (hfifo : Fifo s.sent s.queued given) (hne : ∀ p ∈ s.waitingSends, p.bytes.length ≠ 0)
    (hs : serves script (s.waitingSends.map (·.bytes)) = true) :
    (drain script s.waitingSends s).Post
      (Owes given (Exec.taken (fun as => drain as s.waitingSends s) script)) := by
  induction script generalizing s with
  | nil =>
    cases hq : s.waitingSends with
    | nil => exact ⟨hfifo, hne, by simp [hq]⟩
    | cons p rest => trivial
  | cons a as ih =>
    cases hq : s.waitingSends with
    | nil => exact ⟨hfifo, hne, by simp [hq]⟩
    | cons p rest =>
      have hp := hne p (by simp [hq])
      rw [hq] at hs
      rw [Exec.taken_cons rfl]
      by_cases hle : a.count ≤ 0
      · cases hi : a.intr with
        | true =>
          have ih := ih hfifo hne (by simpa [serves, hle, hi, hq] using hs)
          rw [hq] at ih
          simp only [drain_intr hp hle hi]
          exact ih.mono (fun s' h => ⟨h.fifo, h.nonempty, fun hw => any_getLast_cons (h.last hw) a⟩)
        | false =>
          have hag : a.again = true := by simpa [serves, hle, hi] using hs
          simp only [drain_full hp hle hi hag]
          rw [Exec.taken_stop rfl]
          exact ⟨hfifo, hne, fun _ => by simp [full, hle, hag]⟩
      · simp only [List.map_cons, serves, if_neg hle, Bool.and_eq_true, decide_eq_true_eq] at hs
        simp only [drain_whole hp hs.1]
        have hpop : Fifo (s.popFront p rest).sent (s.popFront p rest).queued given := by
          have : s.queued = (p.dst, p.bytes) :: (s.popFront p rest).queued := by
            simp [queued, popFront, hq]
          rw [this] at hfifo
          exact hfifo.pop
        have ih := ih hpop (fun q hm => hne q (by simp [hq, show q ∈ rest from hm])) hs.2
        exact ih.mono (fun s' h => ⟨h.fifo, h.nonempty, fun hw => any_getLast_cons (h.last hw) a⟩)

theorem queued_addSendItem (dst : Addr) (data : Buffer) (allow : Bool) (s : UdpSocket Addr) :
    (s.addSendItem dst data allow).1.queued = s.queued ++ [(dst, data.bytes)] := by
  cases allow <;> simp [addSendItem, queued]

/-- A datagram joins the queue of a full socket. -/
theorem owes_addSendItem {s : UdpSocket Addr} (hfifo : Fifo s.sent s.queued given)
    (hne : ∀ p ∈ s.waitingSends, p.bytes.length ≠ 0) (hb : data.bytes.length ≠ 0)
    (hl : past.getLast?.any full = true) (dst : Addr) (allow : Bool) :
    Owes (given ++ [(dst, data.bytes)]) past (s.addSendItem dst data allow).1 := by
  refine ⟨?_, ?_, fun _ => hl⟩
  · rw [queued_addSendItem]
    have := hfifo.push (dst, data.bytes)
    cases allow <;> exact this
  · intro p hp
    cases allow <;>
    · rcases List.mem_append.mp hp with hp | hp
      · exact hne p hp
      · rw [List.mem_singleton.mp hp]
        exact hb

/-- A datagram is written where none waits, or it joins the queue of a full socket. -/
theorem owes_sendNow (script : List SysAnswer) {s : UdpSocket Addr}
    (hfifo : Fifo s.sent s.queued given) (hq : s.waitingSends = []) (hb : data.bytes.length ≠ 0)
    (hs : serves script [data.bytes] = true) (dst : Addr) (allow : Bool) :
    ((sendNow dst data allow script s).map Prod.fst).Post
      (Owes (given ++ [(dst, data.bytes)])
        (Exec.taken (fun as => sendNow dst data allow as s) script)) := by
  have hne : ∀ p ∈ s.waitingSends, p.bytes.length ≠ 0 := by simp [hq]
  induction script with
  | nil => trivial
  | cons a as ih =>
    rw [Exec.taken_cons rfl]
    by_cases hle : a.count ≤ 0
    · cases hi : a.intr with
      | true =>
        have ih := ih (by simpa [serves, hle, hi] using hs)
        simp only [sendNow, SysAnswer.real_nonpos hb, hle, hi, if_true]
        exact ih.mono (fun s' h => ⟨h.fifo, h.nonempty, fun hw => any_getLast_cons (h.last hw) a⟩)
      | false =>
        have hag : a.again = true := by simpa [serves, hle, hi] using hs
        simp only [sendNow, SysAnswer.real_nonpos hb, hle, hi, hag, if_true, Bool.false_eq_true,
          if_false]
        rw [Exec.taken_stop rfl]
        exact owes_addSendItem hfifo hne hb (by simp [full, hle, hag]) dst allow
    · have hlen : data.bytes.length ≤ a.count := by
        simp only [serves, if_neg hle, Bool.and_eq_true, decide_eq_true_eq] at hs
        exact hs.1
      simp only [sendNow, SysAnswer.real_nonpos hb, if_neg hle, accept_whole dst hlen]
      refine ⟨?_, hne, fun hw => absurd hq hw⟩
      have hnil : s.queued = [] := by simp [queued, hq]
      rw [hnil] at hfifo
      simpa [queued, hq] using hfifo.pass (dst, data.bytes)

/-- A call keeps what a socket owes. -/
theorem owes_call {s : UdpSocket Addr} (h : Owes given past s) {k : Call Addr}
    (hs : s.served k = true) :
    (s.call k).Post (Owes (given ++ datagrams [k]) (past ++ s.answersTo k)) := by
  have hlast : ∀ {as : List SysAnswer}, as.getLast?.any full = true →
      (past ++ as).getLast?.any full = true := by
    intro as ha
    cases hl : as.getLast? with
    | none => simp [hl] at ha
    | some b =>
      rw [hl] at ha
      simpa [List.getLast?_append, hl] using ha
  cases k with
  | sendRaw dst data allow script =>
    by_cases hb : data.bytes.length = 0
    · have hret : ∀ as, s.sendRaw dst data allow as = .ret (s, some data.ptr) := fun as => by
        simp [sendRaw, hb]
      simp only [call, answersTo, hret, datagrams, List.flatMap_singleton, if_pos hb]
      rw [Exec.taken_stop rfl]
      simpa using h
    · simp only [datagrams, List.flatMap_singleton, if_neg hb]
      cases hw : s.waitingSends with
      | nil =>
        have hnow : ∀ as, s.sendRaw dst data allow as = sendNow dst data allow as s := fun as => by
          simp [sendRaw, hb, hw]
        simp only [call, answersTo, hnow]
        have hserves : serves script [data.bytes] = true := by simpa [served, hb, hw] using hs
        have := owes_sendNow script h.fifo hw hb hserves dst allow
        exact this.mono (fun s' h' => ⟨h'.fifo, h'.nonempty, fun hw => hlast (h'.last hw)⟩)
      | cons p rest =>
        have hadd : ∀ as, s.sendRaw dst data allow as = .ret (s.addSendItem dst data allow) :=
          fun as => by simp [sendRaw, hb, hw]
        simp only [call, answersTo, hadd]
        rw [Exec.taken_stop rfl]
        have hfull := h.last (by simp [hw])
        exact owes_addSendItem h.fifo h.nonempty hb (by simpa using hfull) dst allow
  | onOut script =>
    have := owes_drain script h.fifo h.nonempty hs
    simp only [datagrams, List.flatMap_singleton, List.append_nil]
    exact this.mono (fun s' h' => ⟨h'.fifo, h'.nonempty, fun hw => hlast (h'.last hw)⟩)

theorem run_hang (calls : List (Call Addr)) (s : UdpSocket Addr) :
    run step (.hang s) calls = .hang s := by
  induction calls with
  | nil => rfl
  | cons k ks ih => exact ih

theorem owes_run (calls : List (Call Addr)) {s : UdpSocket Addr} (h : Owes given past s)
    (hs : Along step Served (.ret s) calls) :
    (run step (.ret s) calls).Post
      (Owes (given ++ datagrams calls) (past ++ s.answers calls)) := by
  induction calls generalizing s given past with
  | nil => simpa [datagrams, answers] using h
  | cons k ks ih =>
    have hcall := owes_call h (k := k) hs.1
    have hrest := hs.2
    have hstep : step (.ret s) k = s.call k := rfl
    rw [run_cons]
    rw [hstep] at hrest ⊢
    rw [answers]
    cases he : s.call k with
    | ret s' =>
      rw [he] at hcall hrest
      have := ih hcall hrest
      rw [List.append_assoc, List.append_assoc] at this
      rwa [show datagrams (k :: ks) = datagrams [k] ++ datagrams ks from by simp [datagrams]]
    | hang s' =>
      rw [run_hang]
      trivial
    | undef s' =>
      rw [he] at hcall
      exact hcall.elim

/-- What `sendto` has accepted and then what waits are the datagrams passed, and something waits
only where the last `sendto` has found the socket full. -/
theorem datagrams_in_order (fd : Int) (needWait : Bool) (calls : List (Call Addr))
    (hs : Along step Served (.ret (new fd needWait)) calls) :
    (run step (.ret (new fd needWait)) calls).Post fun s =>
      Fifo s.sent s.queued (datagrams calls) ∧
        (s.waitingSends ≠ [] → ((new fd needWait).answers calls).getLast?.any full = true) := by
  have hnew : Owes [] [] (new fd needWait : UdpSocket Addr) :=
    ⟨.empty, by simp [new], by simp [new]⟩
  exact (owes_run calls hnew hs).mono (fun s h => ⟨by simpa using h.fifo, by simpa using h.last⟩)

theorem datagrams_in_order_full_socket :
    (run step (.ret (new 5 true)) [.sendRaw 1 ⟨0, [1]⟩ true [⟨1, .zero⟩],
      .sendRaw 2 ⟨1, [2, 3]⟩ false [⟨-1, .intr⟩, ⟨-1, .again⟩], .sendRaw 1 ⟨2, [4]⟩ true [],
      .onOut [⟨2, .zero⟩, ⟨-1, .wouldBlock⟩]]).Post fun s =>
      Fifo s.sent s.queued (datagrams [.sendRaw 1 ⟨0, [1]⟩ true [⟨1, .zero⟩],
        .sendRaw 2 ⟨1, [2, 3]⟩ false [⟨-1, .intr⟩, ⟨-1, .again⟩], .sendRaw 1 ⟨2, [4]⟩ true [],
        .onOut [⟨2, .zero⟩, ⟨-1, .wouldBlock⟩]]) ∧
        (s.waitingSends ≠ [] → ((new 5 true : UdpSocket Nat).answers
          [.sendRaw 1 ⟨0, [1]⟩ true [⟨1, .zero⟩],
          .sendRaw 2 ⟨1, [2, 3]⟩ false [⟨-1, .intr⟩, ⟨-1, .again⟩], .sendRaw 1 ⟨2, [4]⟩ true [],
          .onOut [⟨2, .zero⟩, ⟨-1, .wouldBlock⟩]]).getLast?.any full = true) :=
  datagrams_in_order 5 true _ (by decide)

end Evel.UdpSocket
