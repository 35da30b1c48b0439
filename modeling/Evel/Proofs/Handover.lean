import Evel.General.Runs
import Evel.Model.TcpConnection
import Evel.Model.UdpConnectionDTLS

namespace Evel
open General

namespace Handover

/-- A buffer that stays with the caller while a queue refers to it has two owners. -/
theorem not_linear {h : Handover} (hl : h.left = some h.given) (hr : 0 < h.refs) :
    ¬ h.Linear := by
  rintro (⟨-, h0⟩ | ⟨hn, -⟩)
  · omega
  · simp [hl] at hn

/-- What a log of hand-overs says: those that queue a buffer are not linear, and as long as
there are none, `kept` holds and all are linear. -/
structure Lawful (kept : Prop) (hs : List Handover) : Prop where
  queued : ∀ h ∈ hs, h.queues = true → ¬ h.Linear
  linear : (∀ h ∈ hs, h.queues = false) → kept ∧ ∀ h ∈ hs, h.Linear

theorem Lawful.mono (hk : kept → kept') (h : Lawful kept hs) : Lawful kept' hs :=
  ⟨h.queued, fun hq => (h.linear hq).imp_left hk⟩

theorem Lawful.snoc (hl : Lawful kept hs) (hq : h.queues = true → ¬ h.Linear)
    (hk : kept → h.queues = false → kept' ∧ h.Linear) : Lawful kept' (hs ++ [h]) := by
  refine ⟨?_, ?_⟩
  · intro g hg
    rcases List.mem_append.mp hg with hg | hg
    · exact hl.queued g hg
    · obtain rfl := List.mem_singleton.mp hg
      exact hq
  · intro hall
    obtain ⟨hkept, hlin⟩ := hl.linear (fun g hg => hall g (List.mem_append_left _ hg))
    obtain ⟨hkept, hh⟩ := hk hkept (hall h (by simp))
    refine ⟨hkept, ?_⟩
    intro g hg
    rcases List.mem_append.mp hg with hg | hg
    · exact hlin g hg
    · obtain rfl := List.mem_singleton.mp hg
      exact hh

/-- A log is linear if and only if no hand-over of it queues its buffer. -/
theorem Lawful.linear_iff (hl : Lawful kept hs) :
    (∀ h ∈ hs, h.Linear) ↔ ∀ h ∈ hs, h.queues = false := by
  constructor
  · intro hlin h hh
    by_contra hq
    exact hl.queued h hh (by simpa using hq) (hlin h hh)
  · intro hq
    exact (hl.linear hq).2

end Handover

namespace UdpSocket
open Udp
variable {Addr : Type u}

/-- The loop queues the datagram when the first answer is that the socket is full. -/
theorem sendNow_spec (dst : Addr) (script : List SysAnswer) {s : UdpSocket Addr}
    (hb : data.bytes.length ≠ 0) :
    if (SysAnswer.first script).any (fun a => decide (a.count ≤ 0) && a.again) then
      sendNow dst data true script s = .ret (s.addSendItem dst data true)
    else (sendNow dst data true script s).Split
      (fun r => r.1.waitingSends = s.waitingSends ∧ r.2 = some data.ptr)
      (fun r => r.1.waitingSends = s.waitingSends) := by
  induction script with
  | nil => simp [sendNow]
  | cons a as ih =>
    simp only [sendNow, SysAnswer.first_cons, SysAnswer.real_nonpos hb]
    by_cases hle : a.count ≤ 0
    · cases hi : a.intr with
      | true => simpa [hle] using ih
      | false =>
        cases hag : a.again with
        | true => simp [hle, hag]
        | false => simp [hle, hag, onHup]
    · simp only [hle, false_and, if_false, Option.any_some, decide_false, Bool.false_and,
        Bool.false_eq_true, accept]
      split <;> simp

/-- The branches that queue return with the buffer both in the queue and with the caller. -/
theorem sendRaw_queues (dst : Addr) {s : UdpSocket Addr} (h : s.queues data script = true) :
    ∃ s', s.sendRaw dst data true script = .ret (s', some data.ptr) ∧
      data.ptr ∈ s'.waitingSends.map SendItem.data := by
  simp only [queues, Bool.and_eq_true, Bool.or_eq_true, decide_eq_true_eq] at h
  obtain ⟨hb, h⟩ := h
  refine ⟨(s.addSendItem dst data true).1, ?_, by simp [addSendItem]⟩
  rw [sendRaw, if_neg hb]
  split
  · next he =>
    have hfull := h.resolve_left (by simpa using he)
    have := sendNow_spec dst script (s := s) hb
    rw [if_pos hfull] at this
    rw [this]
    rfl
  · rfl

/-- No other branch touches the queue. -/
theorem sendRaw_keeps {s : UdpSocket Addr} (h : s.queues data script = false) :
    (s.sendRaw dst data true script).Split
      (fun r => r.1.waitingSends = s.waitingSends ∧ r.2 = some data.ptr)
      (fun r => r.1.waitingSends = s.waitingSends) := by
  rw [sendRaw]
  split
  · simp
  · next hb =>
    have hq : s.waitingSends = [] ∧ (SysAnswer.first script).any
        (fun a => decide (a.count ≤ 0) && a.again) = false := by
      simpa [queues, hb] using h
    have := sendNow_spec dst script (s := s) hb
    rw [if_neg (by simp [hq.2])] at this
    rwa [if_pos (by simp [hq.1])]

theorem onOut_nil {s : UdpSocket Addr} (hs : s.waitingSends = []) : s.onOut script = .ret s := by
  rw [onOut, hs, drain]

end UdpSocket

namespace TcpConnection

theorem send_queues (rese : Nat) (script : List SysAnswer) {c : TcpConnection}
    (h : c.queues data = true) :
    ∃ c', c.send data rese true script = .ret (c', some data.ptr) ∧
      data.ptr ∈ c'.waitingSends.map Tcp.SendItem.allo := by
  simp only [queues, Bool.and_eq_true, decide_eq_true_eq] at h
  refine ⟨(c.addSendItem data rese true).1, ?_, by simp [addSendItem, h.1]⟩
  rw [send, if_neg h.1, if_pos h.2, addSendItem, if_pos h.1]
  rfl

theorem sendNow_keeps (bytes : List Byte) (script : List SysAnswer) (c : TcpConnection) :
    (sendNow bytes script c).Split (fun c' => c'.waitingSends = c.waitingSends)
      (fun c' => c'.waitingSends = c.waitingSends) := by
  induction script with
  | nil => rfl
  | cons a as ih =>
    simp only [sendNow]
    split
    · split
      · exact ih
      · split <;> rfl
    · rfl

theorem send_keeps {c : TcpConnection} (h : c.queues data = false) :
    (c.send data rese true script).Split
      (fun r => r.1.waitingSends = c.waitingSends ∧ r.2 = some data.ptr)
      (fun r => r.1.waitingSends = c.waitingSends) := by
  rw [send]
  split
  · simp
  · next hb =>
    rw [if_neg (by simpa [queues, hb] using h), Exec.split_map]
    exact (sendNow_keeps data.bytes script c).mono (fun c' hc => ⟨hc, rfl⟩) (fun c' hc => hc)

theorem onOut_nil {c : TcpConnection} (hc : c.waitingSends = []) : c.onOut script = .ret c := by
  simp [onOut, hc]

end TcpConnection

end Evel
