import Evel.Model.Errno
import Evel.Proofs.RecvRoom
import Evel.Proofs.SocketFrame

namespace Evel
open General

namespace Tcp.Happening

/-- The answer to `ioctl` -/
def size (h : Happening) : Nat := (TcpInput.buffSize h.ioctls).get h.answered

/-- `errno` after `recv` -/
def errno (h : Happening) (before : Errno) : Errno := h.recv.errno (ioctlErrno h.ioctls before)

theorem buffSize_eq (h : Happening) : TcpInput.buffSize h.ioctls = some h.size :=
  (Option.some_get h.answered).symm

theorem round_intr (h : Happening) (before : Errno) :
    (h.round before).recv.intr = decide (h.errno before = .intr) := by
  cases hr : h.recv <;>
    simp [SysAnswer.intr, round, SysResult.answer, errno, hr]

end Tcp.Happening

namespace TcpReader
open Tcp
variable {t t' : TcpReader} {script : List Happening} {h : Happening}

def isOpen (t : TcpReader) : Bool := !t.conn.event.wantCloseFd && !t.conn.event.nextDel

/-- `recv` gets bytes. -/
def Gets (h : Happening) (t : TcpReader) : Prop :=
  0 < (h.round t.errno).recv.real (t.conn.reserve h.size).inpBufferSize

/-- The connection after `parse`. -/
def afterParse (h : Happening) (t : TcpReader) : TcpReader :=
  let c := t.conn.received h.size
  { conn := { c with event := c.event.acts true h.parse.acts,
                     inpBuffer := if h.parse.takesBuffer then none else c.inpBuffer }
    errno := h.parse.errno.getD (h.errno t.errno) }

/-- The connection after a `recv` that gets nothing. -/
def afterNothing (h : Happening) (t : TcpReader) : TcpReader :=
  ⟨t.conn.received h.size, h.errno t.errno⟩

/-- The connection when `on_hup` returns. -/
def afterHup (h : Happening) (t : TcpReader) : TcpReader :=
  let c := t.conn.received h.size
  { conn := { c with event := c.event.fail, hups := c.hups ++ [(h.round t.errno).recv] }
    errno := h.errno t.errno }

/-- The end of the stream comes with `EINTR` in `errno`: until then, either `recv` gets bytes, or
`errno` is `EINTR` after it, and the connection stays open. -/
def EndsInterrupted : List Happening → TcpReader → Prop
  | [], t => t.isOpen = true ∧ t.errno = .intr
  | h :: script, t => t.isOpen = true ∧
      (Gets h t ∧ EndsInterrupted script (afterParse h t) ∨
        ¬ Gets h t ∧ h.errno t.errno = .intr ∧ EndsInterrupted script (afterNothing h t))

/-- The end of the stream is met: the call is not over when the script ends. -/
def Meets (script : List Happening) (t t' : TcpReader) : Prop := t.onInp script = .hang t'

/-- The script is followed by the end of the stream for ever. The call returns after finitely many
turns, and if it has met the end of the stream, it has called `on_hup`. -/
def Ends (script : List Happening) (t : TcpReader) : Prop :=
  ∃ k t', (∀ m ≥ k, t.onInp (script ++ List.replicate m endOfStream) = .ret t') ∧
    ∀ t₁, Meets script t t₁ → ∃ a, t'.conn.hups = t.conn.hups ++ [a]

theorem parsed_iff_gets {c : TcpInput} (hc : c.recvs = (t.conn.received h.size).recvs) :
    parsed (h.round t.errno) c = true ↔ Gets h t := by
  simp [parsed, hc, Gets]

theorem turn_gets (hg : Gets h t) : turn h t = .next (afterParse h t) := by
  have hturn : TcpInput.turn (h.round t.errno) t.conn = .next (afterParse h t).conn := by
    rw [TcpInput.turn, show (h.round t.errno).ioctls = h.ioctls from rfl, h.buffSize_eq]
    dsimp only
    rw [if_neg (Int.not_le.mpr hg)]
    rfl
  have hparsed : parsed (h.round t.errno) (afterParse h t).conn = true :=
    (parsed_iff_gets rfl).mpr hg
  simp only [turn, hturn, Turn.map, hparsed, if_true]
  rfl

theorem turn_gets_nothing (hg : ¬ Gets h t) :
    turn h t =
      if h.errno t.errno = .intr then .next (afterNothing h t)
      else if (h.round t.errno).recv.real (t.conn.reserve h.size).inpBufferSize ≠ 0 ∧
          (h.round t.errno).recv.again then .done (afterNothing h t)
      else .done (afterHup h t) := by
  have hturn : TcpInput.turn (h.round t.errno) t.conn =
      if h.errno t.errno = .intr then .next (afterNothing h t).conn
      else if (h.round t.errno).recv.real (t.conn.reserve h.size).inpBufferSize ≠ 0 ∧
          (h.round t.errno).recv.again then .done (afterNothing h t).conn
      else .done (afterHup h t).conn := by
    rw [TcpInput.turn, show (h.round t.errno).ioctls = h.ioctls from rfl, h.buffSize_eq]
    dsimp only
    rw [if_pos (Int.not_lt.mp hg), h.round_intr]
    simp only [decide_eq_true_eq]
    rfl
  have hparsed {c : TcpInput} (hc : c.recvs = (t.conn.received h.size).recvs) :
      parsed (h.round t.errno) c = false :=
    Bool.eq_false_iff.mpr (mt (parsed_iff_gets hc).mp hg)
  have hnothing : parsed (h.round t.errno) (afterNothing h t).conn = false := hparsed rfl
  have hhup : parsed (h.round t.errno) (afterHup h t).conn = false := hparsed rfl
  rw [turn, hturn]
  split_ifs <;> simp only [Turn.map, hnothing, hhup, Bool.false_eq_true, if_false] <;> rfl

/-- All that a turn can do: it ends the call, unless it goes on after `parse` or after `EINTR`. -/
theorem turn_forms (h : Happening) (t : TcpReader) :
    (Gets h t ∧ turn h t = .next (afterParse h t)) ∨
      (¬ Gets h t ∧ h.errno t.errno = .intr ∧ turn h t = .next (afterNothing h t)) ∨
      (¬ Gets h t ∧ h.errno t.errno ≠ .intr ∧ ∃ t', turn h t = .done t') := by
  by_cases hg : Gets h t
  · exact .inl ⟨hg, turn_gets hg⟩
  · have hturn := turn_gets_nothing hg
    by_cases hi : h.errno t.errno = .intr
    · rw [if_pos hi] at hturn
      exact .inr (.inl ⟨hg, hi, hturn⟩)
    · rw [if_neg hi] at hturn
      refine .inr (.inr ⟨hg, hi, ?_⟩)
      split at hturn
      · exact ⟨_, hturn⟩
      · exact ⟨_, hturn⟩

theorem turn_ne_hang (h : Happening) (t t' : TcpReader) : turn h t ≠ .hang t' := by
  intro ht
  obtain ⟨-, he⟩ | ⟨-, -, he⟩ | ⟨-, -, t'', he⟩ := turn_forms h t
  · rw [he] at ht
    cases ht
  · rw [he] at ht
    cases ht
  · rw [he] at ht
    cases ht

/-- `on_hup` ends the call. -/
theorem turn_next_hups (ht : turn h t = .next t') : t'.conn.hups = t.conn.hups := by
  obtain ⟨-, he⟩ | ⟨-, -, he⟩ | ⟨-, -, t'', he⟩ := turn_forms h t
  · rw [he] at ht
    cases ht
    exact TcpInput.received_hups
  · rw [he] at ht
    cases ht
    exact TcpInput.received_hups
  · rw [he] at ht
    cases ht

theorem onInp_next (hs : t.isOpen = true) (he : turn h t = .next t') (script : List Happening) :
    t.onInp (h :: script) = t'.onInp script := by
  rw [isOpen] at hs
  simp only [onInp, loop, hs, he, if_true]

theorem onInp_done (hs : t.isOpen = true) (he : turn h t = .done t') (script : List Happening) :
    t.onInp (h :: script) = .ret t' := by
  rw [isOpen] at hs
  simp only [onInp, loop, hs, he, if_true]

theorem gets_not_endOfStream (t : TcpReader) : ¬ Gets endOfStream t :=
  Int.not_lt.mpr (Int.min_le_left _ _)

/-- At the end of the stream the loop goes round, or `on_hup` ends it. -/
theorem turn_endOfStream (t : TcpReader) :
    turn endOfStream t =
      if t.errno = .intr then .next (afterNothing endOfStream t)
      else .done (afterHup endOfStream t) := by
  have herrno : endOfStream.errno t.errno = t.errno := rfl
  have hzero : (endOfStream.round t.errno).recv.real
      (t.conn.reserve endOfStream.size).inpBufferSize = 0 :=
    Int.min_eq_left (Int.natCast_nonneg _)
  rw [turn_gets_nothing (gets_not_endOfStream t), herrno]
  simp only [hzero, ne_eq, not_true_eq_false, false_and, if_false]

theorem received_event (size : Nat) (c : TcpInput) : (c.received size).event = c.event := by
  simp only [TcpInput.received, TcpInput.reserve]
  split <;> rfl

/-- With `EINTR` in `errno`, the end of the stream is met again and again. -/
theorem endOfStream_spins (hs : t.isOpen = true) (he : t.errno = .intr) (m : Nat) :
    ∃ t', t.onInp (List.replicate m endOfStream) = .hang t' := by
  induction m generalizing t with
  | zero => exact ⟨t, if_pos hs⟩
  | succ m ih =>
    have hturn : turn endOfStream t = .next (afterNothing endOfStream t) := by
      rw [turn_endOfStream, if_pos he]
    rw [List.replicate_succ, onInp_next hs hturn]
    refine ih ?_ he
    rwa [isOpen, afterNothing, received_event]

/-- Otherwise the first turn ends the call with `on_hup`. -/
theorem endOfStream_ends (hs : t.isOpen = true) (he : t.errno ≠ .intr) :
    ∃ t', (∀ m ≥ 1, t.onInp (List.replicate m endOfStream) = .ret t') ∧
      t'.conn.hups = t.conn.hups ++ [⟨0, t.errno⟩] := by
  refine ⟨afterHup endOfStream t, fun m hm => ?_, ?_⟩
  · obtain ⟨m, rfl⟩ := Nat.exists_eq_add_of_le' hm
    have hturn : turn endOfStream t = .done (afterHup endOfStream t) := by
      rw [turn_endOfStream, if_neg he]
    rw [List.replicate_succ, onInp_done hs hturn]
  · exact congrArg (· ++ [SysAnswer.mk 0 t.errno]) TcpInput.received_hups

theorem onInp_append (script more : List Happening) (t : TcpReader) :
    t.onInp (script ++ more) =
      match t.onInp script with
      | .hang t' => t'.onInp more
      | e => e := by
  unfold onInp
  rw [loop_append turn_ne_hang]
  generalize loop _ _ script t = e
  cases e <;> rfl

theorem Meets.hups {t₁ : TcpReader} (h : Meets script t t₁) : t₁.conn.hups = t.conn.hups :=
  (loop_hang_keeps (fun u => u.conn.hups = t.conn.hups) turn_ne_hang
    (fun _ _ _ hu hturn => (turn_next_hups hturn).trans hu) rfl h).1

/-- The condition on the answers says with which `errno` the end of the stream is met. -/
theorem endsInterrupted_iff (script : List Happening) (t : TcpReader) :
    EndsInterrupted script t ↔ ∃ t₁, Meets script t t₁ ∧ t₁.errno = .intr := by
  induction script generalizing t with
  | nil =>
    by_cases hs : t.isOpen = true
    · have hmeets : t.onInp [] = .hang t := if_pos hs
      simp [EndsInterrupted, Meets, hmeets, hs]
    · have hmeets : t.onInp [] = .ret t := if_neg hs
      simp [EndsInterrupted, Meets, hmeets, hs]
  | cons h script ih =>
    by_cases hs : t.isOpen = true
    · simp only [EndsInterrupted, hs, true_and]
      obtain ⟨hg, he⟩ | ⟨hg, hi, he⟩ | ⟨hg, hi, t', he⟩ := turn_forms h t
      · simp only [hg, true_and, not_true_eq_false, false_and, or_false, ih, Meets,
          onInp_next hs he]
      · simp only [hg, hi, true_and, not_false_eq_true, false_and, false_or, ih, Meets,
          onInp_next hs he]
      · simp [hg, hi, Meets, onInp_done hs he]
    · have honInp : t.onInp (h :: script) = .ret t := if_neg hs
      simp [EndsInterrupted, Meets, honInp, hs]

/-- The end of the stream ends the call if and only if it does not come with `EINTR` in `errno`. -/
theorem end_of_stream_ends_iff (script : List Happening) (t : TcpReader) :
    Ends script t ↔ ¬ EndsInterrupted script t := by
  rw [endsInterrupted_iff]
  cases h : t.onInp script with
  | ret t' =>
    have hmeets : ∀ t₁, ¬ Meets script t t₁ := by
      intro t₁ hm
      rw [Meets, h] at hm
      cases hm
    refine iff_of_true ⟨0, t', fun m _ => ?_, fun t₁ hm => absurd hm (hmeets t₁)⟩
      (fun ⟨t₁, hm, _⟩ => hmeets t₁ hm)
    rw [onInp_append, h]
  | hang t₁ =>
    have hs : t₁.isOpen = true :=
      (loop_hang_keeps (fun _ => True) turn_ne_hang (fun _ _ _ _ _ => trivial) trivial h).2
    have happ : ∀ more, t.onInp (script ++ more) = t₁.onInp more := by
      intro more
      rw [onInp_append, h]
    constructor
    · intro hends hmet
      obtain ⟨t₂, hm, he⟩ := hmet
      obtain rfl : t₁ = t₂ := Exec.hang.inj (h.symm.trans hm)
      obtain ⟨k, t', hret, -⟩ := hends
      obtain ⟨t'', hspin⟩ := endOfStream_spins hs he k
      have := (hret k (Nat.le_refl k)).symm.trans ((happ _).trans hspin)
      cases this
    · intro hne
      obtain ⟨t', hret, hhups⟩ := endOfStream_ends hs (fun he => hne ⟨t₁, h, he⟩)
      refine ⟨1, t', fun m hm => (happ _).trans (hret m hm), fun t₂ _ => ⟨⟨0, t₁.errno⟩, ?_⟩⟩
      rw [hhups, Meets.hups h]
  | undef t' => exact absurd h (loop_ne_undef script t t')

/-- A signal has interrupted `epoll_wait`, and the peer closes: the call does not end. -/
theorem interrupted_before_end :
    ¬ Ends [] ⟨TcpInput.new 5 0 0, .intr⟩ := by
  intro hends
  obtain ⟨k, t', hret, -⟩ := hends
  obtain ⟨t'', hspin⟩ := endOfStream_spins (t := ⟨TcpInput.new 5 0 0, .intr⟩) rfl rfl k
  have := (hret k (Nat.le_refl k)).symm.trans hspin
  cases this

end TcpReader

namespace UdpReader
open Udp
variable {Addr : Type u} {n : Nat} {s s' : UdpReader Addr} {q : List (Arrival Addr)}

/-- What becomes of the datagrams that wait: those that `parse` is called with, the socket after
that, and what is left. -/
structure Delivery (Addr : Type u) where
  parsed : List (Addr × List Byte)
  event : Event
  left : List (Arrival Addr)

/-- Each datagram is delivered if it is not empty, until `parse` closes the socket. -/
def deliver : List (Arrival Addr) → Event → Delivery Addr
  | [], e => ⟨[], e, []⟩
  | .interrupted :: q, e => deliver q e
  | .datagram src bytes parse :: q, e =>
    if bytes = [] then deliver q e
    else
      let e' := e.acts true parse.acts
      if e'.nextDel || e'.wantCloseFd then ⟨[(src, bytes)], e', q⟩
      else
        let d := deliver q e'
        { d with parsed := (src, bytes) :: d.parsed }

/-- `on_inp` returns when it has delivered what waits, and has done nothing else to the socket. -/
def Delivers (n : Nat) (s : UdpReader Addr) : Prop :=
  let d := deliver s.kernel s.event
  (s.onInp n).Returns fun s' =>
    s'.parsed = s.parsed ++ d.parsed ∧ s'.event = d.event ∧
      s'.kernel.filter Arrival.isDatagram = d.left.filter Arrival.isDatagram

/-- An empty datagram is taken for an interruption, or for the end of the input when it is the
last one. -/
def PassedOver : List (Arrival Addr) → Errno → Event → Prop
  | [], _, _ => True
  | .interrupted :: q, _, e => PassedOver q .intr e
  | .datagram _ bytes parse :: q, errno, e =>
    if bytes = [] then
      (errno = .intr ∧ PassedOver q errno e) ∨
        ((errno = .again ∨ errno = .wouldBlock) ∧ q.filter Arrival.isDatagram = [])
    else
      let e' := e.acts true parse.acts
      (e'.nextDel || e'.wantCloseFd) = true ∨ PassedOver q (parse.errno.getD errno) e'

/-- The loop calls `on_inp` for an event of its own that is not to be closed or deleted. -/
structure Reads (e : Event) : Prop where
  evLoop : e.evLoop = true
  nextDel : e.nextDel = false
  wantCloseFd : e.wantCloseFd = false

theorem acts_evLoop (m : Bool) (as : List Event.Act) (e : Event) :
    (e.acts m as).evLoop = e.evLoop := by
  induction as generalizing e with
  | nil => rfl
  | cons a as ih =>
    refine (ih (e.act m a)).trans ?_
    have hflags := EvLoop.flags_evLoop a.request e
    simp only [Event.act]
    split
    · rw [Event.del_evLoop, hflags]
    · exact hflags

theorem deliver_nothing {e : Event} (h : (deliver q e).parsed = []) :
    (deliver q e).event = e ∧ (deliver q e).left = [] := by
  induction q with
  | nil => exact ⟨rfl, rfl⟩
  | cons a q ih =>
    cases a with
    | interrupted => exact ih h
    | datagram src bytes parse =>
      simp only [deliver] at h ⊢
      split at h
      · next hb =>
        rw [if_pos hb]
        exact ih h
      · split at h <;> cases h

theorem deliver_only_interrupted (h : q.filter Arrival.isDatagram = []) (e : Event) :
    deliver q e = ⟨[], e, []⟩ := by
  induction q with
  | nil => rfl
  | cons a q ih =>
    cases a with
    | interrupted => exact ih h
    | datagram src bytes parse => cases h

/-- The socket after a turn that calls no `parse`. -/
def passed (errno : Errno) (s : UdpReader Addr) : UdpReader Addr :=
  { s with buffer := true, errno := errno, kernel := s.kernel.tail }

theorem turn_interrupted (n : Nat) (s : UdpReader Addr) :
    turn n (some .interrupted) s = .next (s.passed .intr) := by
  have hreal : (SysAnswer.mk (-1) .intr).real n ≤ 0 := by
    simp only [SysAnswer.real]
    omega
  have hturn : UdpSocket.turn n ⟨⟨-1, .intr⟩, []⟩ s.event = .next s.event := by
    simp [UdpSocket.turn, hreal, SysAnswer.intr]
  exact congrArg (Turn.map fun e => { s.received n (some .interrupted) with event := e }) hturn

theorem turn_nothing (n : Nat) (s : UdpReader Addr) :
    turn n none s = .done (s.passed .again) := by
  have hreal : (SysAnswer.mk (-1) .again).real n ≤ 0 := by
    simp only [SysAnswer.real]
    omega
  have hturn : UdpSocket.turn n ⟨⟨-1, .again⟩, []⟩ s.event = .done s.event := by
    simp [UdpSocket.turn, hreal, SysAnswer.intr, SysAnswer.again]
  exact congrArg (Turn.map fun e => { s.received n none with event := e }) hturn

theorem turn_empty (n : Nat) (src : Addr) (parse : Callback) (s : UdpReader Addr) :
    turn n (some (.datagram src [] parse)) s =
      if s.errno = .intr then .next (s.passed s.errno)
      else if s.errno = .again ∨ s.errno = .wouldBlock then .done (s.passed s.errno)
      else .done { s.passed s.errno with event := s.event.fail } := by
  have hreal : (SysAnswer.mk 0 s.errno).real n = 0 := by
    simp only [SysAnswer.real]
    omega
  have hreceived : s.received n (some (.datagram src [] parse)) = s.passed s.errno := by
    have hanswer : (Arrival.result (some (.datagram src [] parse))).answer s.errno =
        ⟨0, s.errno⟩ := rfl
    simp only [received, hanswer, hreal]
    rfl
  have hturn : UdpSocket.turn n ⟨⟨0, s.errno⟩, parse.acts⟩ s.event =
      if s.errno = .intr then .next s.event
      else if s.errno = .again ∨ s.errno = .wouldBlock then .done s.event
      else .done s.event.fail := by
    simp [UdpSocket.turn, hreal, SysAnswer.intr, SysAnswer.again]
  have hmap : turn n (some (.datagram src [] parse)) s =
      (UdpSocket.turn n ⟨⟨0, s.errno⟩, parse.acts⟩ s.event).map
        fun e => { s.passed s.errno with event := e } := by
    rw [← hreceived]
    rfl
  rw [hmap, hturn]
  split_ifs <;> rfl

/-- The socket after `parse`. -/
def delivered (src : Addr) (bytes : List Byte) (parse : Callback) (s : UdpReader Addr) :
    UdpReader Addr :=
  { event := s.event.acts true parse.acts, buffer := !parse.takesBuffer,
    errno := parse.errno.getD s.errno, parsed := s.parsed ++ [(src, bytes)],
    kernel := s.kernel.tail }

theorem turn_datagram (hb : bytes ≠ []) (hn : bytes.length ≤ n) (src : Addr)
    (parse : Callback) (s : UdpReader Addr) :
    turn n (some (.datagram src bytes parse)) s =
      let e := s.event.acts true parse.acts
      if e.nextDel || e.wantCloseFd then .done (s.delivered src bytes parse)
      else .next (s.delivered src bytes parse) := by
  have hpos : 0 < bytes.length := List.length_pos_iff.mpr hb
  have hreal : (SysAnswer.mk bytes.length s.errno).real n = bytes.length := by
    simp only [SysAnswer.real]
    omega
  have hreceived (e : Event) : { s.received n (some (.datagram src bytes parse)) with event := e } =
      { s.delivered src bytes parse with event := e } := by
    simp only [received, Arrival.result, SysResult.answer, SysResult.errno, hreal]
    rw [if_pos (by omega), List.take_of_length_le hn]
    rfl
  have hturn : UdpSocket.turn n ⟨⟨bytes.length, s.errno⟩, parse.acts⟩ s.event =
      let e := s.event.acts true parse.acts
      if e.nextDel || e.wantCloseFd then .done e else .next e := by
    simp only [UdpSocket.turn, hreal]
    rw [if_neg (by omega)]
  have hmap : turn n (some (.datagram src bytes parse)) s =
      (UdpSocket.turn n ⟨⟨bytes.length, s.errno⟩, parse.acts⟩ s.event).map
        fun e => { s.delivered src bytes parse with event := e } :=
    congrArg (fun f => Turn.map f _) (funext hreceived)
  rw [hmap, hturn]
  dsimp only
  split <;> rfl

/-- An error is not what `parse` asked for. -/
theorem fail_ne (h : Reads e) : e.fail ≠ e := by
  intro he
  have hdoomed := Event.doomed_fail e (Event.fail_hasError e)
  rw [Event.fail_evLoop, h.evLoop, if_pos rfl, he, h.nextDel] at hdoomed
  cases hdoomed

/-- The call goes on with what is left in the kernel. -/
theorem onInp_cons (a : Arrival Addr) (hk : s.kernel = a :: q) :
    s.onInp n = match turn n (some a) s with
      | .next s' => loop (fun _ => true) (turn n) (q.map some ++ [none]) s'
      | .done s' => .ret s'
      | .hang s' => .hang s' := by
  simp only [onInp, hk, List.map_cons, List.cons_append, loop, if_true]
  generalize turn n (some a) s = t
  cases t <;> rfl

/-- Each datagram is delivered if and only if no empty one is taken for an error, or for the end of
the input. -/
theorem delivered_iff_passed_over (hs : Reads s.event)
    (hsize : ∀ src bytes parse, .datagram src bytes parse ∈ s.kernel → bytes.length ≤ n) :
    Delivers n s ↔ PassedOver s.kernel s.errno s.event := by
  obtain ⟨e, buffer, errno, parsed, q⟩ := s
  induction q generalizing e buffer errno parsed with
  | nil =>
    refine iff_of_true ?_ trivial
    have hret : onInp n ⟨e, buffer, errno, parsed, []⟩ =
        .ret (passed .again ⟨e, buffer, errno, parsed, []⟩) := by
      simp only [onInp, List.map_nil, List.nil_append, loop, if_true, turn_nothing]
    rw [Delivers, hret]
    exact ⟨(List.append_nil _).symm, rfl, rfl⟩
  | cons a q ih =>
    have hsize' : ∀ src bytes parse, .datagram src bytes parse ∈ q → bytes.length ≤ n :=
      fun src bytes parse hm => hsize src bytes parse (List.mem_cons_of_mem a hm)
    cases a with
    | interrupted =>
      rw [Delivers, onInp_cons .interrupted rfl, turn_interrupted]
      exact ih e true .intr parsed hs hsize'
    | datagram src bytes parse =>
      by_cases hb : bytes = []
      · subst hb
        rw [Delivers, onInp_cons _ rfl, turn_empty]
        simp only [deliver, PassedOver, if_true]
        by_cases hi : errno = .intr
        · -- the loop goes round, and the datagram is gone
          simp only [hi, if_true, true_and, reduceCtorEq, false_and, or_false]
          exact ih e true .intr parsed hs hsize'
        · by_cases ha : errno = .again ∨ errno = .wouldBlock
          · -- the call returns, and leaves what comes next
            simp only [hi, ha, if_true, if_false, false_and, true_and, false_or]
            constructor
            · intro h
              obtain ⟨hparsed, -, hleft⟩ := h
              have hnone : (deliver q e).parsed = [] :=
                List.append_cancel_left (hparsed.symm.trans (List.append_nil _).symm)
              rwa [(deliver_nothing hnone).2] at hleft
            · intro hq
              have hnone := deliver_only_interrupted hq e
              exact ⟨by rw [hnone]; exact (List.append_nil _).symm, by rw [hnone]; rfl,
                by rw [hnone]; exact hq⟩
          · simp only [hi, ha, if_false, false_and, or_self, iff_false]
            intro h
            obtain ⟨hparsed, hevent, -⟩ := h
            have hnone : (deliver q e).parsed = [] :=
              List.append_cancel_left (hparsed.symm.trans (List.append_nil _).symm)
            exact fail_ne hs (hevent.trans (deliver_nothing hnone).1)
      · rw [Delivers, onInp_cons _ rfl, turn_datagram hb (hsize _ _ _ List.mem_cons_self)]
        simp only [deliver, PassedOver, if_neg hb]
        by_cases hc : ((e.acts true parse.acts).nextDel ||
            (e.acts true parse.acts).wantCloseFd) = true
        · rw [if_pos hc, if_pos hc]
          exact iff_of_true ⟨rfl, rfl, rfl⟩ (.inl hc)
        · rw [if_neg hc, if_neg hc, or_iff_right hc]
          have hopen : Reads (e.acts true parse.acts) := by
            rw [Bool.or_eq_true, not_or, Bool.not_eq_true, Bool.not_eq_true] at hc
            exact ⟨(acts_evLoop true parse.acts e).trans hs.evLoop, hc.1, hc.2⟩
          refine Iff.trans ?_ (ih _ (!parse.takesBuffer) _ (parsed ++ [(src, bytes)]) hopen hsize')
          simp only [Delivers, List.append_assoc, List.singleton_append]
          rfl

/-- A socket of the loop, with `errno` and what waits in the kernel. -/
def waiting (errno : Errno) (q : List (Arrival Nat)) : UdpReader Nat :=
  { event := { Event.new 5 true with evLoop := true }, buffer := false, errno := errno,
    parsed := [], kernel := q }

theorem delivered_iff_passed_over_one :
    Delivers 2048 (waiting .zero [.interrupted, .datagram 7 [65] ⟨false, [], none⟩]) ↔
      PassedOver [.interrupted, .datagram 7 [65] ⟨false, [], none⟩] .zero
        { Event.new 5 true with evLoop := true } :=
  delivered_iff_passed_over ⟨rfl, rfl, rfl⟩ (by
    simp only [waiting, List.mem_cons, List.not_mem_nil, or_false, reduceCtorEq, false_or]
    intro src bytes parse h
    cases h
    exact Nat.le_of_ble_eq_true rfl)

/-- One empty datagram closes the socket. -/
theorem empty_datagram_closes :
    ¬ Delivers 2048 (waiting .zero [.datagram 7 [] ⟨false, [], none⟩]) := by
  intro h
  have hevent := h.2.1
  cases hevent

end UdpReader

end Evel
