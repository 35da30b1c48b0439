import Evel.Proofs.TlsMoves

namespace Evel.TlsConnection
open General Tls

/-- `SSL_read` does not get in the way of a waiting message: it wants nothing over one, and no
message joins the queue of a connection that waits for a read. -/
def Fair (e : Entry) : Prop := e ≠ .readWants true true ∧ e ≠ .queued true .read

instance : DecidablePred Fair := fun e =>
  inferInstanceAs (Decidable (e ≠ .readWants true true ∧ e ≠ .queued true .read))

def FairTrace (c : TlsConnection) : Prop := ∀ e ∈ c.trace, Fair e

instance : DecidablePred FairTrace := fun c =>
  inferInstanceAs (Decidable (∀ e ∈ c.trace, Fair e))

theorem FairTrace.log_left {c : TlsConnection} (h : FairTrace (c.log e)) : FairTrace c :=
  fun d hd => h d (List.mem_append_left _ hd)

theorem FairTrace.log_right {c : TlsConnection} (h : FairTrace (c.log e)) : Fair e :=
  h e (List.mem_append_right _ (List.mem_singleton_self e))

/-- What holds of every connection: a shutdown has been asked for before it is to be redone, and
only a client waits for its connection. -/
structure Base (c : TlsConnection) : Prop where
  shutdown : c.toRedo = .shutdown → c.wantAShutdown = true
  server : c.commMode = .server → c.waitingForConnection = false

/-- As long as the trace is fair, messages that wait on an active connection wait for an
operation in `R`. -/
structure Waits (R : ToRedo → Prop) (c : TlsConnection) : Prop extends Base c where
  redo : FairTrace c → c.active = true → c.pending = true → R c.toRedo

/-- Messages wait for no read and no shutdown. -/
abbrev Orderly : TlsConnection → Prop := Waits (fun r => r ≠ .read ∧ r ≠ .shutdown)

/-- Messages wait for a write or the handshake. -/
abbrev Settled : TlsConnection → Prop := Waits (fun r => r = .write ∨ r = .handshake)

theorem Settled.waits {c : TlsConnection} (h : Settled c) (hR : R .write ∧ R .handshake) :
    Waits R c := by
  refine ⟨h.toBase, fun hf ha hp => ?_⟩
  rcases h.redo hf ha hp with h | h
  · rw [h]
    exact hR.1
  · rw [h]
    exact hR.2

/-- Neither a write nor the handshake is a read or a shutdown. -/
theorem writing_orderly : (ToRedo.write ≠ .read ∧ ToRedo.write ≠ .shutdown) ∧
    (ToRedo.handshake ≠ .read ∧ ToRedo.handshake ≠ .shutdown) := by
  decide

theorem Settled.orderly {c : TlsConnection} (h : Settled c) : Orderly c :=
  h.waits writing_orderly

theorem Orderly.settled {c : TlsConnection} (h : Orderly c) (hb : c.busy = true) :
    Settled c := by
  refine ⟨h.toBase, fun hf ha hp => ?_⟩
  have hne : c.toRedo ≠ .nothing := by
    simp only [active, Bool.and_eq_true, Bool.not_eq_true'] at ha
    simpa [busy, ha.1.1] using hb
  have := h.redo hf ha hp
  cases hr : c.toRedo <;> simp_all

/-- A connection that has failed or closes is settled. -/
theorem Base.settled (h : Base c) (ha : c.active = false) : Settled c :=
  ⟨h, fun _ hc => absurd hc (by simp [ha])⟩

theorem Base.fail (h : Base c) : Settled c.fail :=
  Base.settled ⟨h.shutdown, h.server⟩ (by simp [active, TlsConnection.fail, log])

theorem Base.closeFd (h : Base c) : Settled (c.closeFd outq) := by
  refine Base.settled ⟨h.shutdown, h.server⟩ ?_
  rcases Event.closeFd_shuts true c.outAreSent outq c.event with h | h
  · simp only [active, TlsConnection.closeFd, log, h, Bool.not_true, Bool.false_and]
  · simp only [active, TlsConnection.closeFd, log, h, Bool.not_true, Bool.and_false,
      Bool.false_and]

theorem Base.retry (h : Base c) (hr : r = .write ∨ r = .handshake) : Settled (c.setRedo r d) := by
  refine ⟨⟨fun hs => ?_, h.server⟩, fun _ _ _ => hr⟩
  rcases hr with rfl | rfl <;> simp [setRedo] at hs

theorem Base.clear (h : Base c) : Orderly { c with toRedo := .nothing } :=
  ⟨⟨nofun, h.server⟩, fun _ _ _ => ⟨nofun, nofun⟩⟩

/-- `P` holds if the call returns. -/
abbrev Ends (P : σ → Prop) (e : Exec σ) : Prop := e.Split P (fun _ => True)

theorem Ends.throughLoop {P : σ → Prop} {c : TlsConnection} (h : P s) :
    Ends P (c.throughLoop s) := by
  unfold TlsConnection.throughLoop
  split
  · exact h
  · trivial

theorem Ends.andThen {P Q : σ → Prop} {k : σ → Exec σ} (he : Ends P e)
    (hk : ∀ s, P s → Ends Q (k s)) : Ends Q (e.andThen k) :=
  Exec.Split.andThen he hk

theorem Ends.thenWith {P : σ → Prop} {Q : τ → Prop} {k : σ → Exec τ} (he : Ends P e)
    (hk : ∀ s, P s → Ends Q (k s)) : Ends Q (e.thenWith g k) :=
  Exec.Split.thenWith he hk (fun _ _ => trivial)

theorem Ends.map {P : σ → Prop} {Q : τ → Prop} {g : σ → τ} (he : Ends P e)
    (hg : ∀ s, P s → Q (g s)) : Ends Q (e.map g) := by
  rw [Ends, Exec.split_map]
  exact Exec.Split.mono he hg (fun _ _ => trivial)

theorem Base.sslError (h : Base c) : Ends Settled c.sslError := .throughLoop h.fail

/-- The connection a message is queued on. -/
theorem Base.queue (h : Base c) : Base (c.queue data rese allow) :=
  ⟨h.shutdown, fun hm => (queue_waitingForConnection data rese allow c).trans (h.server hm)⟩

/-- A direct write leaves nothing, or what it could not write. -/
theorem settled_sendNow (h : Base c) (hp : c.pending = false) :
    Ends Settled (sendNow data rese allow script c) := by
  induction script generalizing c with
  | nil => trivial
  | cons e es ih =>
    have hgive : ∀ e, Base (c.give data e) := fun _ => ⟨h.shutdown, h.server⟩
    cases e with
    | none =>
      refine ⟨⟨nofun, h.server⟩, fun _ _ hq => ?_⟩
      exact absurd (show c.pending = true from hq) (by simp [hp])
    | wantRead => exact .throughLoop ((hgive _).queue.retry (.inl rfl))
    | wantWrite => exact (hgive _).queue.retry (.inl rfl)
    | zeroReturn => exact (hgive _).fail
    | syscall n =>
      cases n with
      | intr => exact ih (hgive _) hp
      | zero => exact ⟨hgive _, fun _ _ hq => absurd (show c.pending = true from hq) (by simp [hp])⟩
      | again => exact (hgive _).fail
      | wouldBlock => exact (hgive _).fail
      | other n => exact (hgive _).fail
    | ssl => exact (hgive _).sslError

/-- A message that joins the queue finds others, or an operation that is no shutdown and, if
the trace is fair, no read. -/
theorem Waits.queue (hR : R .write ∧ R .handshake) (h : Waits R c)
    (hw : c.wantAShutdown = false)
    (hq : c.waitingForConnection = true ∨ c.pending = true ∨ c.toRedo ≠ .nothing) :
    Waits R (c.queue data rese allow) := by
  refine ⟨h.toBase.queue, fun hf ha _ => ?_⟩
  have ha : c.active = true := by simpa [active] using ha
  have hconn : c.waitingForConnection = false := by
    simp only [active, Bool.and_eq_true, Bool.not_eq_true'] at ha
    exact ha.2
  by_cases hp : c.pending = true
  · exact h.redo hf.log_left ha hp
  · have hfair : Fair (.queued (!c.waitingForConnection) c.toRedo) := hf.log_right
    rw [hconn] at hfair
    change R c.toRedo
    cases hr : c.toRedo with
    | nothing => simp [hconn, hp, hr] at hq
    | handshake => exact hR.2
    | read => exact absurd (by simp [hr]) hfair.2
    | write => exact hR.1
    | shutdown => simpa [hw] using h.shutdown hr

theorem waits_send (hR : R .write ∧ R .handshake) (h : Waits R c) :
    Ends (Waits R) (c.send data rese allow script) := by
  rw [send]
  split
  · exact h
  · next href =>
    simp only [refuses, Bool.or_eq_true, not_or, Bool.not_eq_true] at href
    split
    · next hq => exact h.queue hR href.1.2 (by simpa [pending, or_assoc] using hq)
    · next hq =>
      have hp : c.pending = false := by
        simp only [Bool.or_eq_true, not_or, Bool.not_eq_true] at hq
        exact hq.1.2
      exact Exec.Split.mono (settled_sendNow h.toBase hp) (fun _ hs => Settled.waits hs hR)
        (fun _ _ => trivial)

/-- A shutdown starts or goes on where no message waits. -/
theorem settled_shutdown (h : Base c) (hw : c.wantAShutdown = true)
    (hp : FairTrace c → c.active = true → c.pending = false) :
    Ends (fun r => Settled r.1) (shutdown script c) := by
  have hsame : Settled c := ⟨h, fun hf ha hq => absurd hq (by simp [hp hf ha])⟩
  have hredo : ∀ d, Settled (c.setRedo .shutdown d) :=
    fun d => ⟨⟨fun _ => hw, h.server⟩, fun hf ha hq =>
      absurd (show c.pending = true from hq) (by simp [hp hf ha])⟩
  induction script with
  | nil => trivial
  | cons e es ih =>
    obtain ⟨err, outq⟩ := e
    cases err with
    | none => exact h.clear.toBase.closeFd
    | wantRead => exact .throughLoop (hredo .inp)
    | wantWrite => exact hredo .out
    | zeroReturn => exact h.fail
    | syscall n =>
      cases n with
      | intr => exact ih
      | zero => exact hsame
      | again => exact h.fail
      | wouldBlock => exact h.fail
      | other n => exact h.fail
    | ssl => exact .throughLoop (Base.fail ⟨h.shutdown, h.server⟩)

theorem waits_close (hR : R .write ∧ R .handshake) (h : Waits R c) :
    Ends (Waits R) (c.close script) := by
  rw [close]
  dsimp only
  split
  · exact ⟨⟨h.shutdown, h.server⟩, fun hf => h.redo hf.log_left⟩
  · have hb : Base { c.log .closing with wantAShutdown := true } := ⟨fun _ => rfl, h.server⟩
    split
    · next hn =>
      have hn : c.waitingForConnection = false ∧ c.pending = false := by
        simpa [log, pending] using hn
      refine Ends.map (settled_shutdown ⟨fun _ => rfl, h.server⟩ rfl (fun _ _ => hn.2)) ?_
      exact fun s hs => Settled.waits hs hR
    · exact ⟨hb, fun hf => h.redo hf.log_left⟩

theorem Waits.event (h : Waits R c) (he : e.hasError = c.event.hasError)
    (hw : e.wantCloseFd = c.event.wantCloseFd) : Waits R { c with event := e } :=
  ⟨⟨h.shutdown, h.server⟩, fun hf ha => h.redo hf (by simpa [active, he, hw] using ha)⟩

theorem Waits.log (h : Waits R c) (e : Entry) : Waits R (c.log e) :=
  ⟨⟨h.shutdown, h.server⟩, fun hf => h.redo hf.log_left⟩

/-- What is noted of a call that returns. -/
theorem Ends.noting {P : TlsConnection → Prop} (he : Ends P e)
    (hlog : ∀ c, P c → P (c.log (.accepted bytes))) : Ends P (noting bytes e) := by
  cases e with
  | ret c => exact hlog c he
  | hang c => trivial
  | undef c => trivial

theorem waits_act (hR : R .write ∧ R .handshake) (h : Waits R c) (a : Action) :
    Ends (Waits R) (c.act a) := by
  cases a with
  | send data rese allow script =>
    rw [act]
    split
    · exact (waits_send hR h).noting (fun _ hs => hs.log _)
    · exact waits_send hR h
  | close script => exact waits_close hR h
  | closeFd outq => exact h.toBase.closeFd.waits hR
  | del outq => exact h.event (Event.del_hasError _ _ _) (Event.del_wantCloseFd _ _ _)
  | allowSelfSigned allow => exact ⟨⟨h.shutdown, h.server⟩, h.redo⟩
  | fill ptr bytes =>
    refine ⟨⟨h.shutdown, h.server⟩, fun hf ha hp => h.redo hf.log_left ha ?_⟩
    simpa [pending, fill, TlsConnection.log] using hp

theorem waits_acts (hR : R .write ∧ R .handshake) (h : Waits R c) (as : List Action) :
    Ends (Waits R) (acts as c) := by
  induction as generalizing c with
  | nil => exact h
  | cons a as ih => exact (waits_act hR h a).andThen (fun s hs => ih hs)

/-- The check of a client leaves the order as it is, or closes the connection. -/
theorem orderly_passGate (h : Orderly c) (a : Answer) :
    Ends (fun r => Orderly r.1) ((c.log .read).passGate a) := by
  have hlog : Orderly (c.log .read) := ⟨⟨h.shutdown, h.server⟩, fun hf => h.redo hf.log_left⟩
  rw [passGate]
  split
  · have hdone : Orderly { c.log .read with handshakeDone := true } :=
      ⟨⟨h.shutdown, h.server⟩, hlog.redo⟩
    have hcheck : Ends (fun r => Orderly r.1)
        (checkX509 a { c.log .read with handshakeDone := true }) := by
      rw [checkX509]
      split_ifs
      · exact Ends.map hdone.toBase.sslError (fun _ hs => hs.orderly)
      · exact hdone
      · exact Ends.map hdone.toBase.sslError (fun _ hs => hs.orderly)
      · exact hdone
    refine Ends.map hcheck (fun s hs => ?_)
    have hs' : Orderly (s.1.log (.checked s.2)) :=
      ⟨⟨hs.shutdown, hs.server⟩, fun hf => hs.redo hf.log_left⟩
    dsimp only
    split
    · exact hs'
    · exact hs'.toBase.fail.orderly
  · exact hlog

/-- `SSL_read` wants something: if the trace is fair, no message waits. -/
theorem Base.readWait (h : Base c) (d : Direction) : Orderly (c.readWait.setRedo .read d) := by
  refine ⟨⟨nofun, h.server⟩, fun hf ha hp => ?_⟩
  have hfair : Fair (.readWants c.active c.pending) :=
    FairTrace.log_right (c := c.log (.readOwes (c.active && c.owes))) (fun e he => hf e he)
  have ha : c.active = true := ha
  have hp : c.pending = true := hp
  simp [Fair, ha, hp] at hfair

theorem orderly_read (h : Orderly c) (as : List Answer) :
    Ends (fun r => Orderly r.1) (read as c) := by
  induction as generalizing c with
  | nil => trivial
  | cons a as ih =>
    rw [read]
    split
    · refine (orderly_passGate h a).thenWith (fun s hs => ?_)
      dsimp only
      split
      · have hclear := hs.toBase.clear
        split
        · have hparsed : Orderly ({ s.1 with toRedo := .nothing }.log (.parsed a.bytes)) :=
            ⟨⟨hclear.shutdown, hclear.server⟩, fun hf => hclear.redo hf.log_left⟩
          exact (waits_acts writing_orderly hparsed a.parse).thenWith
            (fun s hs => ih hs)
        · exact ih hclear
      · exact ih hs
    · exact .throughLoop (h.toBase.readWait .inp)
    · exact h.toBase.readWait .out
    · exact h.toBase.fail.orderly
    · exact ih h
    · exact h
    · exact .throughLoop h.toBase.fail.orderly
    · exact Ends.map h.toBase.sslError (fun _ hs => hs.orderly)

/-- `_write` leaves nothing behind, or what it is to redo. -/
theorem settled_write (h : Base c) (as : List Answer) :
    Ends (fun r => Settled r.1) (write as c) := by
  induction as generalizing c with
  | nil =>
    rw [write]
    split
    · next he => exact ⟨h, fun _ _ hp => absurd hp (by simp [pending, he])⟩
    · trivial
  | cons a as ih =>
    rw [write]
    split
    · next he => exact ⟨h, fun _ _ hp => absurd hp (by simp [pending, he])⟩
    · next si rest _ =>
      have hlog : Base (c.log (.presented si.data a.err)) := ⟨h.shutdown, h.server⟩
      dsimp only
      split
      · exact ih ⟨by simp, h.server⟩
      · exact .throughLoop (hlog.retry (.inl rfl))
      · exact hlog.retry (.inl rfl)
      · exact hlog.fail
      · exact ih hlog
      · exact .throughLoop hlog.fail
      · exact Ends.map hlog.sslError (fun _ hs => hs)

theorem orderly_handshake (h : Base c) (as : List Answer) :
    Ends (fun r => Orderly r.1) (handshake as c) := by
  induction as with
  | nil => trivial
  | cons a as ih =>
    rw [handshake]
    split
    · exact h.clear
    · exact .throughLoop (h.retry (.inr rfl)).orderly
    · exact (h.retry (.inr rfl)).orderly
    · exact h.fail.orderly
    · exact ih
    · exact .throughLoop h.fail.orderly
    · exact Ends.map h.sslError (fun _ hs => hs.orderly)

theorem settled_shutdownStep {r : TlsConnection × List Answer} (h : Base r.1)
    (hw : r.1.wantAShutdown = true)
    (hp : FairTrace r.1 → r.1.active = true → r.1.pending = false) :
    Ends (fun r => Settled r.1) (shutdownStep r) :=
  Ends.map (settled_shutdown h hw hp) (fun _ hs => hs)

theorem orderly_redo {r : TlsConnection × List Answer} (h : Orderly r.1) :
    Ends (fun r => Orderly r.1) (redo r) := by
  rw [redo]
  split
  · exact h
  · exact orderly_handshake h.toBase r.2
  · exact orderly_read h r.2
  · exact Exec.Split.mono (settled_write h.toBase r.2) (fun _ hs => hs.orderly)
      (fun _ _ => trivial)
  · next hr =>
    have hp : FairTrace r.1 → r.1.active = true → r.1.pending = false := by
      intro hf ha
      by_contra hp
      exact (h.redo hf ha (by simpa using hp)).2 hr
    exact Exec.Split.mono (settled_shutdownStep h.toBase (h.shutdown hr) hp)
      (fun _ hs => hs.orderly) (fun _ _ => trivial)

/-- A step that settles what is orderly. -/
def Settles (k : Step) : Prop := ∀ r, Orderly r.1 → Ends (fun r => Settled r.1) (k r)

theorem Settles.unlessBusy {k : Step} (hk : Settles k) : Settles (unlessBusy k) := by
  intro r h
  rw [TlsConnection.unlessBusy]
  split
  · next hb => exact h.settled hb
  · exact hk r h

/-- The last lines find nothing to redo, so nothing that waits. -/
theorem settled_startShutdown {r : TlsConnection × List Answer} (h : Settled r.1) :
    Ends (fun r => Settled r.1) (startShutdown r) := by
  rw [startShutdown]
  split
  · next hs =>
    simp only [Bool.and_eq_true] at hs
    have hp : r.1.pending = false := by simp [pending, hs.2]
    exact settled_shutdownStep (r := ({ r.1 with startedAShutdown := true }, r.2))
      ⟨h.shutdown, h.server⟩ hs.1.1 (fun _ _ => hp)
  · exact h

theorem settled_startUnlessBusy {r : TlsConnection × List Answer} (h : Settled r.1) :
    Ends (fun r => Settled r.1) (unlessBusy startShutdown r) := by
  rw [unlessBusy]
  split
  · exact h
  · exact settled_startShutdown h

theorem settles_readAndWrite : Settles readAndWrite := by
  intro r h
  refine Ends.andThen (orderly_read h r.2) (Settles.unlessBusy (fun s hs => ?_))
  exact Ends.andThen (settled_write hs.toBase s.2) (fun t ht => settled_startUnlessBusy ht)

theorem settled_onInp {r : TlsConnection × List Answer} (h : Settled r.1) :
    Ends (fun r => Settled r.1) (onInp r) := by
  rw [onInp]
  split
  · trivial
  · split
    · exact h
    · split
      · split
        · exact ⟨⟨h.shutdown, h.server⟩, h.redo⟩
        · refine Ends.andThen (orderly_redo h.orderly) (Settles.unlessBusy (fun s hs => ?_))
          exact Ends.andThen (settled_write hs.toBase s.2)
            (fun t ht => settles_readAndWrite.unlessBusy t ht.orderly)
      · exact settles_readAndWrite r h.orderly

theorem settles_writeAndRead : Settles writeAndRead := by
  intro r h
  refine Ends.andThen (settled_write h.toBase r.2) (fun s hs => ?_)
  dsimp only
  split
  · exact hs
  · split
    · have hs' : Settled { s.1 with hasWaitingInpData := false } :=
        ⟨⟨hs.shutdown, hs.server⟩, hs.redo⟩
      exact Ends.andThen (settled_onInp (r := (_, s.2)) hs')
        (fun t ht => settled_startUnlessBusy ht)
    · exact settled_startShutdown hs

theorem settles_redoAndWrite : Settles redoAndWrite := by
  intro r h
  rw [redoAndWrite]
  split
  · next hr =>
    split
    · exact h.settled (by simp [busy, hr])
    · exact Ends.andThen (orderly_redo h) (fun s hs => settles_writeAndRead.unlessBusy s hs)
  · exact settles_writeAndRead r h

theorem settled_onOut {r : TlsConnection × List Answer} (h : Settled r.1) :
    Ends (fun r => Settled r.1) (onOut r) := by
  rw [onOut]
  split
  · exact h
  · split
    · next hw =>
      have hb : Base { r.1 with waitingForConnection := false } := ⟨h.shutdown, fun _ => rfl⟩
      dsimp only
      split
      · exact Ends.andThen (orderly_handshake hb r.2)
          (fun s hs => settles_redoAndWrite.unlessBusy s hs)
      · next hm =>
        -- a server does not wait for its connection
        have hm : r.1.commMode = .server := by
          cases hc : r.1.commMode <;> simp_all
        exact absurd (h.server hm) (by simp [hw])
    · exact settles_redoAndWrite r h.orderly

theorem settled_install (h : Settled c) (outq : Option Nat) : Settled (c.install outq) := by
  rw [install]
  split
  · exact h
  · dsimp only
    split
    · exact h.event (by simp) (by simp)
    · exact h.event rfl rfl

theorem settled_call (h : Settled c) (k : Call) : Ends Settled (c.call k) := by
  cases k with
  | act a => exact waits_act ⟨.inl rfl, .inr rfl⟩ h a
  | install outq => exact settled_install h outq
  | onInp script =>
    rw [call]
    split
    · exact Ends.map (settled_onInp h) (fun _ hs => hs)
    · trivial
  | onOut script outq =>
    rw [call]
    split
    · refine Ends.map (settled_onOut h) (fun s hs => ?_)
      dsimp only
      split
      · exact hs.event (Event.del_hasError _ _ _) (Event.del_wantCloseFd _ _ _)
      · exact hs
    · trivial
  | onTimeout outq =>
    rw [call]
    split
    · exact h.toBase.closeFd
    · trivial
  | fail =>
    rw [call]
    split
    · exact h.toBase.fail
    · trivial

theorem run_settled (fd : Int) (mode : CommMode) (calls : List Call) :
    Ends Settled (run step (.ret (new fd mode)) calls) := by
  refine run_invariant_all (Ends Settled) (fun e k he => ?_) ?_ calls
  · exact Ends.andThen he (fun c hc => settled_call hc k)
  · refine ⟨⟨nofun, fun hm => ?_⟩, fun _ _ hp => ?_⟩
    · have hm : mode = .server := hm
      simp [hm, new, TcpConnection.new]
    · exact absurd hp (by simp [pending, new, TcpConnection.new])

theorem Move.trace_prefix (m : Move c c') : c.trace <+: c'.trace := by
  cases m with
  | quiet hq _ =>
    obtain ⟨es, ht, -⟩ := hq.trace
    exact ⟨es, ht.symm⟩
  | queue data rese allow hd =>
    exact ⟨[.queued (!c.waitingForConnection) c.toRedo, .accepted data.bytes],
      by simp [TlsConnection.queue, TlsConnection.log]⟩
  | @refused e _ data rese allow hd he hq =>
    exact ⟨[.presented data.bytes e, .queued (!c.waitingForConnection) c.toRedo,
      .accepted data.bytes], by simp [TlsConnection.queue, give, TlsConnection.log]⟩
  | wrote data he hd hq =>
    exact ⟨[.presented data.bytes .none, .wrote data.bytes, .accepted data.bytes],
      by simp [give, TlsConnection.log]⟩
  | @popFront si _ _ he hq =>
    exact ⟨[.presented si.data .none, .wrote si.data], by simp [TlsConnection.popFront, log]⟩
  | admitted hc => exact ⟨[.read, .checked true], by simp [log]⟩
  | rejected hc => exact ⟨[.read, .closing, .checked false], by simp [log, TlsConnection.fail]⟩
  | install outq =>
    rw [TlsConnection.install]
    split
    · exact List.prefix_rfl
    · dsimp only
      split <;> exact List.prefix_rfl
  | wantCloseFd => exact List.prefix_rfl
  | del outq => exact List.prefix_rfl
  | _ => exact List.prefix_append _ _

theorem run_trace_grows (e : Exec TlsConnection) (calls : List Call) :
    e.state.trace <+: (run step e calls).state.trace :=
  run_moves (fun c => e.state.trace <+: c.trace) (fun _ _ h m => h.trans m.trace_prefix)
    List.prefix_rfl calls

theorem run_trace_prefix (e : Exec TlsConnection) (calls : List Call) (n : Nat) :
    (run step e (calls.take n)).state.trace <+: (run step e calls).state.trace := by
  have hrun := run_append step e (calls.take n) (calls.drop n)
  rw [List.take_append_drop] at hrun
  rw [hrun]
  exact run_trace_grows _ _

/-- In a run with a fair trace, whatever waits on an active connection after a call is to be
written or waits for the handshake. -/
theorem pending_is_retried (fd : Int) (mode : CommMode) (calls : List Call)
    (hf : FairTrace (run step (.ret (new fd mode)) calls).state) (n : Nat) :
    Ends (fun c => c.active = true → c.pending = true → c.toRedo = .write ∨ c.toRedo = .handshake)
      (run step (.ret (new fd mode)) (calls.take n)) := by
  have hset := run_settled fd mode (calls.take n)
  have hpre := run_trace_prefix (.ret (new fd mode)) calls n
  cases he : run step (.ret (new fd mode)) (calls.take n) with
  | ret c =>
    rw [he] at hset hpre
    exact hset.redo (fun e hm => hf e (hpre.subset hm))
  | hang c => trivial
  | undef c => trivial

theorem pending_is_retried_full_socket : Ends
    (fun c => c.active = true → c.pending = true → c.toRedo = .write ∨ c.toRedo = .handshake)
    (run step (.ret (new 5 .server)) ([.install none, .act (.send ⟨0, [1]⟩ 1 true [.wantWrite]),
      .onInp [], .onOut [{ err := .wantWrite }] none].take 4)) :=
  pending_is_retried 5 .server _ (by decide) 4

/-- A message sent while the connection waits for input joins the queue, and the next input
leaves it there. -/
theorem stranded_behind_read : ¬ Ends
    (fun c => c.active = true → c.pending = true → c.toRedo = .write ∨ c.toRedo = .handshake)
    (run step (.ret (new 5 .server)) [.install none, .onInp [{ err := .wantRead }],
      .act (.send ⟨0, [1]⟩ 1 true []), .onInp [{ err := .none, bytes := [7] },
      { err := .wantRead }]]) := by
  decide

end Evel.TlsConnection
