import Evel.Model.OnInp
import Evel.Proofs.Event

namespace Evel
open General

/-- The call returns with the event open only if there is no more input. -/
def InputDrained (event : σ → Event) (answer : α → SysAnswer) (onInp : List α → Exec σ)
    (script : List α) : Prop :=
  Drained (fun s => (event s).isOpen = true) (fun a => (answer a).WouldBlock) onInp script

namespace Event

@[simp] theorem not_isOpen_fail (e : Event) : e.fail.isOpen = false := by simp [isOpen]

@[simp] theorem not_isOpen_closeFd (m s : Bool) (q : Option Nat) (e : Event) :
    (e.closeFd m s q).isOpen = false := by
  unfold isOpen
  rcases closeFd_shuts m s q e with h | h <;> rw [h] <;> simp

end Event

namespace Listener

/-- No call of `accept` fails for another reason than an interruption or the lack of a
connection, as long as the event is open. -/
def NoOtherFailure (script : List Reply) (e : Event) : Prop :=
  Each (fun _ => true) turn (fun r e => e.isOpen = true → r.answer.count < 0 →
    r.answer.intr = true ∨ r.answer.again = true) script e

instance (script : List Reply) (e : Event) : Decidable (NoOtherFailure script e) :=
  inferInstanceAs (Decidable (Each ..))

theorem drained_iff (script : List Reply) (e : Event) :
    InputDrained id Reply.answer (onInp · e) script ↔ NoOtherFailure script e := by
  refine (drained_loop_iff (fun _ _ => rfl) script e).trans (each_congr (fun r e _ => ?_) script e)
  by_cases hc : r.answer.count < 0
  · cases hi : r.answer.intr <;> simp [turn, hc, hi, SysAnswer.WouldBlock]
  · simp [turn, hc]

end Listener

namespace Signal

theorem drained (script : List Reply) (e : Event) :
    InputDrained id Reply.answer (onInp · e) script := by
  refine (drained_loop_iff (fun _ _ => rfl) script e).mpr (each_of (fun r e _ => ?_) script e)
  intro e' hd ho
  have hreal : r.answer.real sigInfoSize < 0 → r.answer.count < 0 := by
    simp only [SysAnswer.real]
    omega
  simp only [turn] at hd
  split at hd
  · cases hd
    simp [close] at ho
  split at hd
  · next hs =>
    split at hd
    · cases hd
    split at hd
    · next ha => exact ⟨hreal hs, ha⟩
    · cases hd
      simp [close] at ho
  split at hd
  · cases hd
    simp [close] at ho
  · cases hd

end Signal

namespace UdpSocket

/-- No call of `recvfrom` returns 0 with an `errno` that says there is no more input, as long as
the event is open. -/
def NoEmptyDatagram (inpBufSize : Nat) (script : List Reply) (e : Event) : Prop :=
  Each (fun _ => true) (turn inpBufSize) (fun r e => e.isOpen = true →
    r.answer.real inpBufSize = 0 → r.answer.again = false) script e

instance (inpBufSize : Nat) (script : List Reply) (e : Event) :
    Decidable (NoEmptyDatagram inpBufSize script e) :=
  inferInstanceAs (Decidable (Each ..))

theorem drained_iff (inpBufSize : Nat) (script : List Reply) (e : Event) :
    InputDrained id Reply.answer (onInp inpBufSize · e) script ↔
      NoEmptyDatagram inpBufSize script e := by
  refine (drained_loop_iff (fun _ _ => rfl) script e).trans (each_congr (fun r e _ => ?_) script e)
  have hneg : r.answer.real inpBufSize < 0 ↔ r.answer.count < 0 := by
    simp only [SysAnswer.real]
    omega
  rcases Int.lt_trichotomy (r.answer.real inpBufSize) 0 with h | h | h
  · have hle : r.answer.real inpBufSize ≤ 0 := by omega
    have hne : r.answer.real inpBufSize ≠ 0 := by omega
    cases hi : r.answer.intr <;> cases ha : r.answer.again <;>
      simp [turn, hle, hi, ha, hne, SysAnswer.WouldBlock, hneg.mp h]
  · have hle : r.answer.real inpBufSize ≤ 0 := by omega
    have hc : ¬ r.answer.count < 0 := fun hc => absurd (hneg.mpr hc) (by omega)
    cases ha : r.answer.again with
    | true => simp [turn, h, SysAnswer.intr_of_again ha, ha, SysAnswer.WouldBlock, hc]
    | false => cases hi : r.answer.intr <;> simp [turn, h, hi, ha]
  · have hle : ¬ r.answer.real inpBufSize ≤ 0 := by omega
    have hne : r.answer.real inpBufSize ≠ 0 := by omega
    by_cases hs : ((e.acts true r.acts).nextDel || (e.acts true r.acts).wantCloseFd) = true
    · have hshut : (e.acts true r.acts).isOpen = false := by
        unfold Event.isOpen
        rcases Bool.or_eq_true_iff.mp hs with hs | hs <;> rw [hs] <;> simp
      simp [turn, hle, hs, hshut, hne]
    · simp [turn, hle, hs, hne]

end UdpSocket

namespace TcpInput
open Tcp

theorem drained (script : List Round) (c : TcpInput) :
    InputDrained TcpInput.event Round.recv (onInp · c) script := by
  have hguard : ∀ c : TcpInput, c.event.isOpen = true →
      (!c.event.wantCloseFd && !c.event.nextDel) = true := by
    intro c ho
    simp_all [Event.isOpen]
  refine (drained_loop_iff hguard script c).mpr (each_of (fun r c _ => ?_) script c)
  intro c' hd ho
  simp only [turn] at hd
  split at hd
  · cases hd
  split at hd
  · next hle =>
    split at hd
    · cases hd
    split at hd
    · next hused =>
      refine ⟨?_, hused.2⟩
      simp only [SysAnswer.real] at hle hused
      omega
    · cases hd
      simp at ho
  · cases hd

end TcpInput

/-- Each `on_inp` leaves an open event without input, save for a failure of `accept` that is
passed over and for an empty datagram that is taken for the end of the input. -/
theorem input_drained_iff (replies : List Reply) (e : Event) (inpBufSize : Nat)
    (rounds : List Tcp.Round) (c : TcpInput) :
    (InputDrained id Reply.answer (Listener.onInp · e) replies ↔
      Listener.NoOtherFailure replies e) ∧
    InputDrained id Reply.answer (Signal.onInp · e) replies ∧
    (InputDrained id Reply.answer (UdpSocket.onInp inpBufSize · e) replies ↔
      UdpSocket.NoEmptyDatagram inpBufSize replies e) ∧
    InputDrained TcpInput.event Tcp.Round.recv (TcpInput.onInp · c) rounds :=
  ⟨Listener.drained_iff replies e, Signal.drained replies e,
    UdpSocket.drained_iff inpBufSize replies e, TcpInput.drained rounds c⟩

/-- The connection that follows an aborted one is not accepted, and the datagram that follows an
empty one is not read. -/
theorem input_left_behind :
    let listener := Event.new 5 true
    let socket := Event.new 6 true
    listener.isOpen = true ∧ socket.isOpen = true ∧
      Listener.onInp [⟨⟨-1, .other 103⟩, []⟩] listener = .ret listener ∧
      ¬ InputDrained id Reply.answer (Listener.onInp · listener) [⟨⟨-1, .other 103⟩, []⟩] ∧
      UdpSocket.onInp 2048 [⟨⟨0, .again⟩, []⟩] socket = .ret socket ∧
      ¬ InputDrained id Reply.answer (UdpSocket.onInp 2048 · socket) [⟨⟨0, .again⟩, []⟩] := by
  refine ⟨rfl, rfl, rfl, fun h => ?_, rfl, fun h => ?_⟩
  · exact absurd ((Listener.drained_iff _ _).mp h) (by decide)
  · exact absurd ((UdpSocket.drained_iff 2048 _ _).mp h) (by decide)

end Evel
