import Evel.Model.OutBio
import Evel.Proofs.UdpQueue

namespace Evel.Flushing
open General Udp Dtls
variable {Addr : Type u}

/-- The answers of the reads, as the connection without its `out_bio` takes them. -/
def replies (size : Nat) : List TurnAnswer → List Byte → List BioAnswer
  | [], _ => []
  | a :: as, out =>
    ⟨out.take size, getError (out.take size) a.err, a.sendto⟩ :: replies size as (out.drop size)

theorem sendRaw_endpoint (data : Buffer) (script : List SysAnswer) (s : Flushing Addr) :
    (s.sendRaw data script).map endpoint = (s.endpoint.sendRaw data script).map
      (fun (e, left) => { e with conn := { e.conn with cipheredOutput := left } }) := by
  rw [sendRaw]
  cases s.endpoint.sendRaw data script <;> rfl

/-- `out_bio` only decides what the reads answer. -/
theorem loop_endpoint (ptr : Ptr) (size : Nat) (script : List TurnAnswer) (s : Flushing Addr) :
    (loop ptr size script s).map endpoint =
      s.endpoint.flushLoop ptr (replies size script s.outBio) := by
  induction script generalizing s with
  | nil => rfl
  | cons a as ih =>
    simp only [loop, bioRead, replies, Endpoint.flushLoop]
    cases getError (s.outBio.take size) a.err with
    | none =>
      by_cases hr : 0 < (s.outBio.take size).length
      · simp only [hr, if_true]
        exact sendRaw_endpoint _ _ _
      · simp only [hr, if_false]
        rfl
    | wantRead => rfl
    | wantWrite => rfl
    | zeroReturn => rfl
    | ssl => rfl
    | syscall errno =>
      cases errno with
      | intr => exact ih _
      | zero => rfl
      | again => rfl
      | wouldBlock => rfl
      | other n => rfl

theorem flushOutBio_endpoint (inpBufSize : UInt32) (script : List TurnAnswer)
    (s : Flushing Addr) :
    (flushOutBio inpBufSize script s).map endpoint =
      s.endpoint.flushOutBio (replies (room inpBufSize) script s.outBio) := by
  rw [flushOutBio, Endpoint.flushOutBio]
  split
  · cases hc : s.endpoint.conn.cipheredOutput with
    | none => exact loop_endpoint _ _ _ _
    | some ptr => exact loop_endpoint _ _ _ _
  · rfl

/-- What has been sent and what is left. -/
def ciphertext (s : Flushing Addr) : List Byte := s.datagrams.flatten ++ s.outBio

theorem sendRaw_bytes (data : Buffer) (script : List SysAnswer) (s : Flushing Addr) :
    (s.sendRaw data script).Split
      (fun s' => s'.datagrams = s.datagrams ++ [data.bytes] ∧ s'.outBio = s.outBio)
      (fun s' => s'.datagrams = s.datagrams ++ [data.bytes] ∧ s'.outBio = s.outBio) := by
  rw [sendRaw, Exec.split_map]
  exact .all (fun _ => ⟨rfl, rfl⟩) (fun _ => ⟨rfl, rfl⟩) _

/-- Nothing is lost, and a loop that returns has taken what one read can take. -/
theorem loop_bytes (ptr : Ptr) (size : Nat) (script : List TurnAnswer) (s : Flushing Addr) :
    (loop ptr size script s).Split
      (fun s' => s'.ciphertext = s.ciphertext ∧ s'.outBio <:+ s.outBio.drop size)
      (fun s' => s'.ciphertext = s.ciphertext) := by
  induction script generalizing s with
  | nil => rfl
  | cons a as ih =>
    have hread : (s.bioRead size).2.datagrams.flatten ++ ((s.bioRead size).1 ++
        (s.bioRead size).2.outBio) = s.ciphertext := by
      simp [bioRead, ciphertext]
    have hpass : (s.bioRead size).1.length = 0 →
        (s.bioRead size).2.ciphertext = s.ciphertext := by
      intro hz
      rw [← hread, List.length_eq_zero_iff.mp hz]
      rfl
    have hdrop : (s.bioRead size).2.outBio = s.outBio.drop size := rfl
    rw [loop]
    generalize s.bioRead size = r at hread hpass hdrop
    obtain ⟨read, s1⟩ := r
    dsimp only at hread hpass hdrop ⊢
    by_cases hr : 0 < read.length
    · simp only [getError, hr, if_true]
      refine (sendRaw_bytes _ _ _).mono (fun s' h => ⟨?_, ?_⟩) (fun s' h => ?_)
      · rw [← hread]
        simp [ciphertext, h.1, h.2]
      · have hout : s'.outBio = s.outBio.drop size := h.2.trans hdrop
        exact hout ▸ List.suffix_refl _
      · rw [← hread]
        simp [ciphertext, h.1, h.2]
    · have hstop : s1.ciphertext = s.ciphertext ∧ s1.outBio <:+ s.outBio.drop size :=
        ⟨hpass (by omega), hdrop ▸ List.suffix_refl _⟩
      simp only [getError, hr, if_false]
      cases a.err with
      | none => exact hstop
      | wantRead => exact hstop
      | wantWrite => exact hstop
      | zeroReturn => exact hstop
      | ssl => exact hstop
      | syscall errno =>
        cases errno with
        | intr =>
          refine (ih s1).mono (fun s' h => ⟨h.1.trans hstop.1, ?_⟩) (fun s' h => h.trans hstop.1)
          exact (h.2.trans (List.drop_suffix _ _)).trans hstop.2
        | zero => exact hstop
        | again => exact hstop
        | wouldBlock => exact hstop
        | other n => exact hstop

/-- What the callers of `flush_out_bio` count on. -/
def Flushed (pending : List Byte) (s : Flushing Addr) : Prop :=
  s.reported = false → s.outBio = [] ∧ s.datagrams.flatten = pending

/-- What is pending fits into one read. Without an SSL object nothing can be pending. -/
def Fits (ssl : Bool) (inpBufSize : UInt32) (pending : List Byte) : Prop :=
  if ssl then pending.length ≤ room inpBufSize else pending = []

theorem flushOutBio_bytes (inpBufSize : UInt32) (script : List TurnAnswer) (s : Flushing Addr)
    (hssl : s.endpoint.conn.ssl = true) :
    (flushOutBio inpBufSize script s).Split
      (fun s' => s'.ciphertext = s.ciphertext ∧ s'.outBio <:+ s.outBio.drop (room inpBufSize))
      (fun s' => s'.ciphertext = s.ciphertext) := by
  rw [flushOutBio, if_pos hssl]
  cases s.endpoint.conn.cipheredOutput with
  | none => exact loop_bytes _ _ _ _
  | some ptr => exact loop_bytes _ _ _ _

/-- One read takes all that fits. -/
theorem flushed_of_fits {e : Endpoint Addr} (h : Fits e.conn.ssl inpBufSize pending)
    (script : List TurnAnswer) :
    (flushOutBio inpBufSize script (start e pending)).Split (Flushed pending) (fun _ => True) := by
  cases hssl : e.conn.ssl with
  | false =>
    obtain rfl : pending = [] := by simpa [Fits, hssl] using h
    have hnot : (start e ([] : List Byte)).endpoint.conn.ssl ≠ true := by simp [start, hssl]
    rw [flushOutBio, if_neg hnot]
    exact fun _ => ⟨rfl, rfl⟩
  | true =>
    have hlen : pending.length ≤ room inpBufSize := by simpa [Fits, hssl] using h
    refine (flushOutBio_bytes inpBufSize script (start e pending) hssl).mono
      (fun s' h _ => ?_) (fun _ _ => trivial)
    obtain ⟨hbytes, hleft⟩ := h
    have hdrop : (start e pending).outBio.drop (room inpBufSize) = [] :=
      List.drop_eq_nil_of_le hlen
    have hnil : s'.outBio = [] := List.suffix_nil.mp (hdrop ▸ hleft)
    refine ⟨hnil, ?_⟩
    rw [ciphertext, hnil, List.append_nil] at hbytes
    exact hbytes

/-- A `sendto` that takes the whole datagram. -/
def takesAll (size : Nat) : List SysAnswer := [⟨size, .zero⟩]

theorem udp_sendRaw_whole (u : UdpSocket Addr) (dst : Addr) (data : Buffer)
    (hne : data.bytes.length ≠ 0) :
    (u.sendRaw dst data true (takesAll data.bytes.length)).Returns (fun _ => True) := by
  rw [UdpSocket.sendRaw, if_neg hne]
  split
  · have hle : ¬ SysAnswer.real ⟨data.bytes.length, .zero⟩ data.bytes.length ≤ 0 := by
      rw [SysAnswer.real_nonpos hne]
      simp only
      omega
    simp only [takesAll, UdpSocket.sendNow, if_neg hle]
    rw [UdpSocket.accept_whole dst (Int.le_refl _)]
    trivial
  · trivial

theorem sendRaw_whole (s : Flushing Addr) (data : Buffer) (hne : data.bytes.length ≠ 0) :
    (s.sendRaw data (takesAll data.bytes.length)).Returns
      fun s' => s'.outBio = s.outBio ∧ s'.reported = s.reported := by
  obtain ⟨r, hr, -⟩ := (udp_sendRaw_whole s.endpoint.ucf s.endpoint.conn.addr data hne).exists
  rw [sendRaw, Endpoint.sendRaw, hr]
  exact ⟨rfl, rfl⟩

/-- Answers with which a flight that does not fit is not sent to its end: nothing goes wrong. -/
def smooth (size : Nat) : List TurnAnswer :=
  if size = 0 then [⟨.wantRead, []⟩] else [⟨.none, takesAll size⟩]

theorem loop_smooth (ptr : Ptr) {size : Nat} (s : Flushing Addr) (h : size < s.outBio.length) :
    (loop ptr size (smooth size) s).Returns
      fun s' => s'.outBio = s.outBio.drop size ∧ s'.reported = s.reported := by
  by_cases hz : size = 0
  · subst hz
    simp [smooth, loop, bioRead, getError]
  · have hlen : (s.outBio.take size).length = size := List.length_take_of_le (by omega)
    have hpos : 0 < (s.outBio.take size).length := by omega
    simp only [smooth, if_neg hz, loop, bioRead, getError, hpos, if_true]
    have hsend := sendRaw_whole { s with outBio := s.outBio.drop size }
      ⟨ptr, s.outBio.take size⟩ (by simp only; omega)
    simp only [hlen] at hsend
    exact hsend

/-- What does not fit is left, although no error is met. -/
theorem flushOutBio_smooth (e : Endpoint Addr) (hssl : e.conn.ssl = true)
    (h : room inpBufSize < pending.length) :
    (flushOutBio inpBufSize (smooth (room inpBufSize)) (start e pending)).Returns
      fun s' => s'.outBio = pending.drop (room inpBufSize) ∧ s'.reported = false := by
  have hs : (start e pending).endpoint.conn.ssl = true := hssl
  rw [flushOutBio, if_pos hs]
  generalize room inpBufSize = size at h ⊢
  cases (start e pending).endpoint.conn.cipheredOutput with
  | none => exact loop_smooth _ _ h
  | some ptr => exact loop_smooth _ _ h

theorem not_flushed {e : Endpoint Addr} (hssl : e.conn.ssl = true)
    (h : room inpBufSize < pending.length) :
    ¬ ∀ script, (flushOutBio inpBufSize script (start e pending)).Split (Flushed pending)
      (fun _ => True) := by
  intro hall
  obtain ⟨s', hs', hleft, hrep⟩ := (flushOutBio_smooth e hssl h).exists
  have hs := hall (smooth (room inpBufSize))
  rw [hs'] at hs
  have hnil := (hs hrep).1
  rw [hleft, List.drop_eq_nil_iff] at hnil
  omega

/-- A flush leaves nothing behind, whatever the answers are, if and only if what is pending fits
into one read. -/
theorem flushed_iff (e : Endpoint Addr) (inpBufSize : UInt32) (pending : List Byte) :
    (∀ script, (flushOutBio inpBufSize script (start e pending)).Split (Flushed pending)
        (fun _ => True)) ↔ Fits e.conn.ssl inpBufSize pending := by
  refine ⟨fun h => ?_, fun h script => flushed_of_fits h script⟩
  cases hssl : e.conn.ssl with
  | false =>
    have hnot : (start e pending).endpoint.conn.ssl ≠ true := by simp [start, hssl]
    have hall := h []
    rw [flushOutBio, if_neg hnot] at hall
    exact (hall rfl).1
  | true =>
    by_contra hfit
    exact not_flushed hssl (by simpa [Fits] using hfit) h

/-- One byte more than a read takes: the second datagram is not sent. -/
theorem flight_cut :
    ¬ ∀ script, (flushOutBio 2048 script
      (start ⟨UdpConnectionDTLS.new 0 true, UdpSocket.new 3 true, []⟩
        (List.replicate 2145 0) : Flushing Nat)).Split (Flushed (List.replicate 2145 0))
          (fun _ => True) := by
  refine not_flushed rfl ?_
  rw [List.length_replicate]
  decide

end Evel.Flushing
