import Evel.General.Fifo
import Evel.General.History
import Evel.Proofs.TlsPending

namespace Evel.TlsConnection
open General Tls

/-- The messages that `SSL_write` has taken. -/
def writtenMessages (es : List Entry) : List (List Byte) :=
  es.filterMap fun
    | .wrote bytes => some bytes
    | _ => none

/-- The messages of the calls of `send` that are to be accepted, as the callers have noted them. -/
def acceptedMessages (es : List Entry) : List (List Byte) :=
  es.filterMap fun
    | .accepted bytes => some bytes
    | _ => none

def waitingMessages (c : TlsConnection) : List (List Byte) := c.waitingSends.map (·.data)

/-- Nobody has changed a message in the buffer where it waits. -/
def Unspoiled (es : List Entry) : Prop := ∀ e ∈ es, e ≠ .filled true

instance : DecidablePred Unspoiled := fun es =>
  inferInstanceAs (Decidable (∀ e ∈ es, e ≠ .filled true))

/-- What an entry makes of the message that `SSL_write` is to be given again. -/
def afterEntry (m : Option (List Byte)) : Entry → Option (List Byte)
  | .presented bytes .wantRead | .presented bytes .wantWrite => some bytes
  | .wrote _ => none
  | _ => m

/-- The message that `SSL_write` has refused and not taken since. -/
def refusedMessage (es : List Entry) : Option (List Byte) := es.foldl afterEntry none

/-- `SSL_write` is given the message it has refused. -/
def Retries (pre : List Entry) : Entry → Prop
  | .presented bytes _ => ∀ m, refusedMessage pre = some m → bytes = m
  | _ => True

/-- The entries that are not about a message. -/
def Aside : Entry → Prop
  | .wrote _ | .accepted _ | .presented _ _ => False
  | _ => True

@[simp] theorem writtenMessages_append (es ds : List Entry) :
    writtenMessages (es ++ ds) = writtenMessages es ++ writtenMessages ds :=
  List.filterMap_append

@[simp] theorem acceptedMessages_append (es ds : List Entry) :
    acceptedMessages (es ++ ds) = acceptedMessages es ++ acceptedMessages ds :=
  List.filterMap_append

theorem refusedMessage_append (es ds : List Entry) :
    refusedMessage (es ++ ds) = ds.foldl afterEntry (refusedMessage es) :=
  List.foldl_append

theorem writtenMessages_aside (h : ∀ e ∈ es, Aside e) : writtenMessages es = [] := by
  refine List.filterMap_eq_nil_iff.mpr (fun e he => ?_)
  have := h e he
  cases e <;> first | rfl | exact this.elim

theorem acceptedMessages_aside (h : ∀ e ∈ es, Aside e) : acceptedMessages es = [] := by
  refine List.filterMap_eq_nil_iff.mpr (fun e he => ?_)
  have := h e he
  cases e <;> first | rfl | exact this.elim

theorem refusedMessage_aside (h : ∀ e ∈ ds, Aside e) (es : List Entry) :
    refusedMessage (es ++ ds) = refusedMessage es := by
  induction ds using List.reverseRecOn with
  | nil => simp
  | append_singleton ds e ih =>
    have he := h e (by simp)
    rw [← List.append_assoc, refusedMessage_append, ih (fun d hd => h d (by simp [hd]))]
    cases e <;> first | rfl | exact he.elim

/-- What a trace says of the messages that wait after it: they are a queue, and a refused one is
at its head. -/
structure InOrder (es : List Entry) (waiting : List (List Byte)) : Prop where
  fifo : Fifo (writtenMessages es) waiting (acceptedMessages es)
  head : ∀ m, refusedMessage es = some m → waiting.head? = some m
  retries : EachEntry Retries es

namespace InOrder
variable {es : List Entry} {waiting : List (List Byte)}

theorem empty : InOrder [] [] := ⟨.empty, by simp [refusedMessage], eachEntry_nil _⟩

theorem aside (h : InOrder es waiting) (hd : ∀ e ∈ ds, Aside e) : InOrder (es ++ ds) waiting := by
  refine ⟨?_, ?_, ?_⟩
  · simpa [writtenMessages_aside hd, acceptedMessages_aside hd] using h.fifo
  · rw [refusedMessage_aside hd]
    exact h.head
  · refine eachEntry_append h.retries (fun pre e post hes => ?_)
    have := hd e (by simp [hes])
    cases e <;> trivial

/-- A message joins the queue. -/
theorem push (h : InOrder es waiting) (bytes : List Byte) :
    InOrder (es ++ [.accepted bytes]) (waiting ++ [bytes]) := by
  refine ⟨?_, fun m hm => ?_, eachEntry_snoc h.retries trivial⟩
  · simpa [writtenMessages, acceptedMessages] using h.fifo.push bytes
  · have hm : refusedMessage es = some m := by simpa [refusedMessage_append, afterEntry] using hm
    simp [h.head m hm]

/-- `SSL_write` is given the first message, or a new one where none waits. -/
theorem presents (h : InOrder es waiting) (hb : ∀ m ∈ waiting.head?, bytes = m) (e : SslError) :
    EachEntry Retries (es ++ [.presented bytes e]) :=
  eachEntry_snoc h.retries (fun m hm => hb m (h.head m hm))

/-- The queue stays as it is while `SSL_write` is interrupted. -/
theorem interrupted (h : InOrder es waiting) (hb : ∀ m ∈ waiting.head?, bytes = m) :
    InOrder (es ++ [.presented bytes (.syscall .intr)]) waiting := by
  refine ⟨?_, ?_, h.presents hb _⟩
  · simpa [writtenMessages, acceptedMessages] using h.fifo
  · simpa [refusedMessage_append, afterEntry] using h.head

/-- The first message is refused. -/
theorem retried (h : InOrder es (bytes :: waiting)) (he : e = .wantRead ∨ e = .wantWrite) :
    InOrder (es ++ [.presented bytes e]) (bytes :: waiting) := by
  refine ⟨?_, fun m hm => ?_, h.presents (by simp) e⟩
  · simpa [writtenMessages, acceptedMessages] using h.fifo
  · rcases he with rfl | rfl <;> simpa [refusedMessage_append, afterEntry] using hm

/-- A new message is refused, and joins the queue. -/
theorem refused (h : InOrder es []) (he : e = .wantRead ∨ e = .wantWrite) (bytes : List Byte)
    (connected : Bool) (r : ToRedo) :
    InOrder (es ++ [.presented bytes e, .queued connected r, .accepted bytes]) [bytes] := by
  have hp : EachEntry Retries (es ++ [.presented bytes e]) := h.presents (by simp) e
  refine ⟨?_, fun m hm => ?_, ?_⟩
  · simpa [writtenMessages, acceptedMessages] using h.fifo.push bytes
  · rcases he with rfl | rfl <;> simpa [refusedMessage_append, afterEntry] using hm
  · rw [List.append_cons, List.append_cons]
    exact eachEntry_snoc (eachEntry_snoc hp trivial) trivial

/-- The first message is written. -/
theorem pop (h : InOrder es (bytes :: waiting)) :
    InOrder (es ++ [.presented bytes .none, .wrote bytes]) waiting := by
  have hp : EachEntry Retries (es ++ [.presented bytes .none]) := h.presents (by simp) .none
  refine ⟨?_, by simp [refusedMessage_append, afterEntry], ?_⟩
  · simpa [writtenMessages, acceptedMessages] using h.fifo.pop
  · rw [List.append_cons]
    exact eachEntry_snoc hp trivial

/-- A new message is written where none waits. -/
theorem pass (h : InOrder es []) (bytes : List Byte) :
    InOrder (es ++ [.presented bytes .none, .wrote bytes, .accepted bytes]) [] := by
  have hp : EachEntry Retries (es ++ [.presented bytes .none]) := h.presents (by simp) .none
  refine ⟨?_, by simp [refusedMessage_append, afterEntry], ?_⟩
  · simpa [writtenMessages, acceptedMessages] using h.fifo.pass bytes
  · rw [List.append_cons, List.append_cons]
    exact eachEntry_snoc (eachEntry_snoc hp trivial) trivial

end InOrder

/-- The messages are in order as long as no write has failed for good and nobody has changed a
message that waits. -/
def Ordered (c : TlsConnection) : Prop :=
  NoFatalWrite c.trace → Unspoiled c.trace → InOrder c.trace c.waitingMessages

theorem waitingMessages_queue (hd : data.bytes.length ≠ 0) (c : TlsConnection) :
    (c.queue data rese allow).waitingMessages = c.waitingMessages ++ [data.bytes] := by
  simp only [waitingMessages, queue, log, TcpConnection.addSendItem, if_pos hd]
  split <;> simp

theorem waitingMessages_nil {c : TlsConnection} (hq : c.waitingSends = []) :
    c.waitingMessages = [] := by
  simp [waitingMessages, hq]

theorem waitingMessages_cons {c : TlsConnection} (hq : c.waitingSends = si :: rest) :
    c.waitingMessages = si.data :: rest.map (·.data) := by
  simp [waitingMessages, hq]

theorem install_same (outq : Option Nat) (c : TlsConnection) :
    (c.install outq).trace = c.trace ∧ (c.install outq).waitingSends = c.waitingSends := by
  rw [install]
  split
  · exact ⟨rfl, rfl⟩
  · dsimp only
    split <;> exact ⟨rfl, rfl⟩

theorem Ordered.move (h : Ordered c) (m : Move c c') : Ordered c' := by
  intro hf hs
  have h : InOrder c.trace c.waitingMessages :=
    h (fun e he => hf e (m.trace_prefix.subset he)) (fun e he => hs e (m.trace_prefix.subset he))
  cases m with
  | quiet hq hw =>
    obtain ⟨es, ht, hstill⟩ := hq.trace
    rw [ht, waitingMessages, hw]
    exact h.aside (fun e he => by have := hstill e he; cases e <;> trivial)
  | queue data rese allow hd =>
    have haside : ∀ e ∈ [Entry.queued (!c.waitingForConnection) c.toRedo], Aside e := by
      simp [Aside]
    have hmessages : ((c.queue data rese allow).log (.accepted data.bytes)).waitingMessages =
        c.waitingMessages ++ [data.bytes] := waitingMessages_queue hd c
    rw [hmessages]
    exact (h.aside haside).push data.bytes
  | @refused e _ data rese allow hd he hq =>
    have hnil := waitingMessages_nil hq
    rw [hnil] at h
    have hmessages : (((c.give data e).queue data rese allow).log
        (.accepted data.bytes)).waitingMessages = c.waitingMessages ++ [data.bytes] :=
      waitingMessages_queue hd (c.give data e)
    rw [hmessages, hnil]
    simpa [queue, give, log] using
      h.refused he data.bytes (!c.waitingForConnection) c.toRedo
  | interrupted data hq => exact h.interrupted (by simp [waitingMessages_nil hq])
  | @lost _ e data he =>
    have := hf (.presented data.bytes e) (by simp [give, log])
    simp [fatalWrite, he] at this
  | acceptedLost bytes hl => exact absurd (fun e he => hf e (List.mem_append_left _ he)) hl
  | wrote data he hd hq =>
    have hnil := waitingMessages_nil hq
    rw [hnil] at h
    have := h.pass data.bytes
    rw [← hnil] at this
    simpa [give, log, waitingMessages] using this
  | @retried si _ e _ hq he =>
    have hcons := waitingMessages_cons hq
    have hmild : e.fatal = false := hf (.presented si.data e) (by simp [log])
    rw [hcons] at h
    rw [show (c.log _).waitingMessages = _ from hcons]
    cases e with
    | none => exact absurd rfl he
    | wantRead => exact h.retried (.inl rfl)
    | wantWrite => exact h.retried (.inr rfl)
    | zeroReturn => simp [SslError.fatal] at hmild
    | ssl => simp [SslError.fatal] at hmild
    | syscall n =>
      cases n <;> first | exact h.interrupted (by simp) | simp [SslError.fatal] at hmild
  | popFront he hq =>
    rw [waitingMessages_cons hq] at h
    simpa [TlsConnection.popFront, log, waitingMessages] using h.pop
  | install outq =>
    obtain ⟨ht, hq⟩ := install_same outq c
    rwa [ht, waitingMessages, hq]
  | fail => exact h.aside (by simp [Aside])
  | wantCloseFd => exact h
  | closeFd outq => exact h.aside (by simp [Aside])
  | del outq => exact h
  | closeAgain hc => exact h.aside (by simp [Aside])
  | close => exact h.aside (by simp [Aside])
  | readAgain hc => exact h.aside (by simp [Aside])
  | admitted hc => exact (h.aside (by simp [Aside])).aside (by simp [Aside])
  | rejected hc =>
    exact ((h.aside (by simp [Aside])).aside (by simp [Aside])).aside (by simp [Aside])
  | parsed bytes hp hl hd => exact h.aside (by simp [Aside])
  | fill ptr bytes =>
    -- what has been written changes no message that waits
    have hsame : c.waitingSends.map (Tcp.SendItem.fill ptr bytes) = c.waitingSends := by
      by_contra hne
      exact hs (.filled true) (by simp [fill, log, hne]) rfl
    have hmessages : (c.fill ptr bytes).waitingMessages = c.waitingMessages := by
      simp only [waitingMessages, fill, log, hsame]
    rw [hmessages]
    exact h.aside (by simp [Aside])

/-- The messages written and then those that wait are those accepted. After a refusal `SSL_write`
is given the same message until it has taken it. -/
def Faithful (c : TlsConnection) : Prop :=
  Fifo (writtenMessages c.trace) c.waitingMessages (acceptedMessages c.trace) ∧
    ∀ pre m e mid m' e' post, c.trace = pre ++ .presented m e :: mid ++ .presented m' e' :: post →
      e = .wantRead ∨ e = .wantWrite → (∀ bytes, .wrote bytes ∉ mid) → m' = m

end Evel.TlsConnection
