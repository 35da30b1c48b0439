import Evel.Proofs.TlsPending

namespace Evel.TlsConnection
open General Tls

/-- No `SSL_read` has got in the way of a shutdown. -/
def Clean (c : TlsConnection) : Prop := .readOwes true ∉ c.trace

instance : DecidablePred Clean := fun c => inferInstanceAs (Decidable (.readOwes true ∉ c.trace))

/-- A connection in its loop, if it is `installed`, before anything has gone wrong. -/
structure Sound (installed : Bool) (c : TlsConnection) : Prop where
  clean : Clean c
  loop : installed = true → c.event.evLoop = true
  shutdown : c.toRedo = .shutdown → c.startedAShutdown = true
  write : c.toRedo = .write → c.waitingSends ≠ []
  server : c.commMode = .server → c.waitingForConnection = false

/-- An active connection that owes a shutdown has an operation in `R` to redo. -/
structure Tends (R : ToRedo → Prop) (installed : Bool) (c : TlsConnection) : Prop
    extends Sound installed c where
  redo : c.active = true → c.owes = true → R c.toRedo

/-- The shutdown is still to be reached by the handler that runs. -/
abbrev Nears : Bool → TlsConnection → Prop := Tends (fun r => r = .nothing ∨ r = .handshake)

/-- No handler leaves the shutdown behind. -/
abbrev Kept : Bool → TlsConnection → Prop := Tends (fun r => r = .handshake)

/-- The connection waits for a read, and nothing reminds it of its shutdown. -/
structure Forgotten (c : TlsConnection) : Prop where
  owed : .readOwes true ∈ c.trace
  active : c.active = true
  owes : c.owes = true
  redo : c.toRedo = .read

/-- `P` holds of the connection that a call ends in. A call that is stuck has done no harm. -/
abbrev Leads (f : σ → TlsConnection) (P : TlsConnection → Prop) (e : Exec σ) : Prop :=
  e.Split (fun s => P (f s)) (fun s => Clean (f s))

theorem Leads.mono {f : σ → TlsConnection} (he : Leads f P e) (h : ∀ c, P c → P' c) :
    Leads f P' e :=
  Exec.Split.mono he (fun _ => h _) (fun _ => id)

theorem Leads.andThen {f : σ → TlsConnection} (he : Leads f P e)
    (hk : ∀ s, P (f s) → Leads f P' (k s)) : Leads f P' (e.andThen k) :=
  Exec.Split.andThen he hk

theorem Leads.thenWith {f : σ → TlsConnection} {f' : τ → TlsConnection} {g : σ → τ}
    (he : Leads f P e) (hg : ∀ s, f' (g s) = f s) (hk : ∀ s, P (f s) → Leads f' P' (k s)) :
    Leads f' P' (e.thenWith g k) :=
  Exec.Split.thenWith he hk (fun s hs => by rwa [hg])

theorem Leads.map {f : σ → TlsConnection} {f' : τ → TlsConnection} {g : σ → τ}
    (he : Leads f P e) (hp : ∀ s, P (f s) → P' (f' (g s)))
    (hc : ∀ s, (f' (g s)).trace = (f s).trace) : Leads f' P' (e.map g) := by
  rw [Leads, Exec.split_map]
  exact Exec.Split.mono he hp (fun s hs => by rwa [Clean, hc])

theorem Leads.throughLoop {f : σ → TlsConnection} {c : TlsConnection} (h : Tends R l (f s)) :
    Leads f (Tends R l) (c.throughLoop s) := by
  unfold TlsConnection.throughLoop
  split
  · exact h
  · exact h.clean

/-- An entry that is no read over a shutdown. -/
theorem Clean.log (h : Clean c) (he : e ≠ .readOwes true) : Clean (c.log e) := by
  intro hm
  rcases List.mem_append.mp hm with hm | hm
  · exact h hm
  · exact he (List.mem_singleton.mp hm).symm

theorem Sound.log (h : Sound l c) (he : e ≠ .readOwes true) : Sound l (c.log e) :=
  ⟨h.clean.log he, h.loop, h.shutdown, h.write, h.server⟩

theorem Tends.log (h : Tends R l c) (he : e ≠ .readOwes true) : Tends R l (c.log e) :=
  ⟨h.toSound.log he, h.redo⟩

/-- The caller notes what `send` has accepted. -/
theorem Leads.noting (he : Leads id (Tends R l) e) :
    Leads id (Tends R l) (noting bytes e) := by
  cases e with
  | ret c => exact Tends.log (c := c) he (by simp)
  | hang c => exact he
  | undef c => exact Clean.log (c := c) he (by simp)

/-- Nothing is asked of a connection that owes no shutdown. -/
theorem Sound.free (h : Sound l c) (ho : c.owes = false) : Tends R l c :=
  ⟨h, fun _ hc => absurd hc (by simp [ho])⟩

theorem Sound.idle (h : Sound l c) (ha : c.active = false) : Tends R l c :=
  ⟨h, fun hc => absurd hc (by simp [ha])⟩

theorem Sound.fail (h : Sound l c) : Tends R l c.fail := by
  refine Sound.idle ⟨h.clean.log (by simp), fun hl => ?_, h.shutdown, h.write, h.server⟩ ?_
  · simpa [TlsConnection.fail, TlsConnection.log] using h.loop hl
  · simp [active, TlsConnection.fail, TlsConnection.log]

theorem Sound.closeFd (h : Sound l c) (outq : Option Nat) : Tends R l (c.closeFd outq) := by
  refine Sound.idle ⟨h.clean.log (by simp), fun hl => ?_, h.shutdown, h.write, h.server⟩ ?_
  · simpa [TlsConnection.closeFd, TlsConnection.log] using h.loop hl
  · rcases Event.closeFd_shuts true c.outAreSent outq c.event with h | h
    · simp only [active, TlsConnection.closeFd, TlsConnection.log, h, Bool.not_true,
        Bool.false_and]
    · simp only [active, TlsConnection.closeFd, TlsConnection.log, h, Bool.not_true,
        Bool.and_false, Bool.false_and]

theorem Sound.clear (h : Sound l c) : Nears l { c with toRedo := .nothing } :=
  ⟨⟨h.clean, h.loop, by simp, by simp, h.server⟩, fun _ _ => .inl rfl⟩

theorem Sound.sslError (h : Sound l c) : Leads id (Tends R l) c.sslError :=
  .throughLoop h.fail

theorem Sound.sslErrorWith (h : Sound l c) (as : List Answer) :
    Leads Prod.fst (Tends R l) (c.sslError.map (fun c => (c, as))) :=
  Leads.map h.sslError (fun _ hs => hs) (fun _ => rfl)

theorem queue_waitingSends (hd : data.bytes.length ≠ 0) (c : TlsConnection) :
    (c.queue data rese allow).waitingSends ≠ [] := by
  simp only [queue, TlsConnection.log, TcpConnection.addSendItem, if_pos hd]
  split <;> simp

/-- A message joins the queue of a connection that is not to be shut down. -/
theorem Sound.queue (h : Sound l c) (hd : data.bytes.length ≠ 0) :
    Sound l (c.queue data rese allow) where
  clean := by
    obtain ⟨es, ht, hs⟩ := (quiet_queue data rese allow c).trace
    simpa [Clean, TlsConnection.queue, TlsConnection.log] using h.clean
  loop hl := by simpa using h.loop hl
  shutdown := h.shutdown
  write _ := queue_waitingSends hd c
  server hm := (queue_waitingForConnection data rese allow c).trans (h.server hm)

/-- An operation that is no shutdown is to be redone. -/
theorem Sound.setRedo (h : Sound l c) (hs : r ≠ .shutdown) (hw : r = .write → c.waitingSends ≠ [])
    (d : Direction) : Sound l (c.setRedo r d) :=
  ⟨h.clean, h.loop, fun hr => absurd hr hs, hw, h.server⟩

theorem tends_sendNow (h : Sound l c) (hd : data.bytes.length ≠ 0)
    (hw : c.wantAShutdown = false) :
    Leads id (Tends R l) (sendNow data rese allow script c) := by
  induction script generalizing c with
  | nil => exact h.clean
  | cons e es ih =>
    have hgive : ∀ e, Sound l (c.give data e) := fun _ => h.log (by simp)
    have hqueue : ∀ e d, Tends R l (((c.give data e).queue data rese allow).setRedo .write d) := by
      intro e d
      refine Sound.free (((hgive e).queue hd).setRedo (by simp) ?_ d) ?_
      · exact fun _ => queue_waitingSends hd _
      · simp [owes, TlsConnection.setRedo, TlsConnection.queue, give, TlsConnection.log, hw]
    cases e with
    | none =>
      refine Sound.free (((hgive .none).log (e := .wrote data.bytes) (by simp)).clear).toSound ?_
      simp [owes, give, TlsConnection.log, hw]
    | wantRead => exact .throughLoop (hqueue _ _)
    | wantWrite => exact hqueue _ _
    | zeroReturn => exact (hgive _).fail
    | syscall n =>
      cases n with
      | intr => exact ih (hgive _) hw
      | zero => exact (hgive _).free (by simp [owes, give, TlsConnection.log, hw])
      | again => exact (hgive _).fail
      | wouldBlock => exact (hgive _).fail
      | other n => exact (hgive _).fail
    | ssl => exact (hgive _).sslError

theorem tends_send (h : Tends R l c) : Leads id (Tends R l) (c.send data rese allow script) := by
  rw [send]
  split
  · exact h
  · next href =>
    simp only [refuses, Bool.or_eq_true, not_or, Bool.not_eq_true, decide_eq_true_eq] at href
    have hd := href.1.1.1.1
    have hw := href.1.2
    split
    · exact (h.toSound.queue hd).free (by simp [owes, queue, TlsConnection.log, hw])
    · exact tends_sendNow h.toSound hd hw

/-- A shutdown that has started is owed no more. -/
theorem tends_shutdown (h : Sound l c) (hs : c.startedAShutdown = true) :
    Leads Prod.fst (Tends R l) (shutdown script c) := by
  have hfree : ∀ d, Tends R l (c.setRedo .shutdown d) := fun d =>
    Sound.free ⟨h.clean, h.loop, fun _ => hs, by simp [setRedo], h.server⟩
      (by simp [owes, setRedo, hs])
  induction script with
  | nil => exact h.clean
  | cons e es ih =>
    obtain ⟨err, outq⟩ := e
    cases err with
    | none => exact h.clear.toSound.closeFd outq
    | wantRead => exact .throughLoop (hfree _)
    | wantWrite => exact hfree _
    | zeroReturn => exact h.fail
    | syscall n =>
      cases n with
      | intr => exact ih
      | zero => exact h.free (by simp [owes, hs])
      | again => exact h.fail
      | wouldBlock => exact h.fail
      | other n => exact h.fail
    | ssl => exact .throughLoop (Sound.fail ⟨h.clean, h.loop, h.shutdown, h.write, h.server⟩)

theorem tends_close (h : Tends R l c) : Leads id (Tends R l) (c.close script) := by
  have hlog : Tends R l (c.log .closing) := h.log (by simp)
  rw [close]
  dsimp only
  split
  · exact hlog
  · have hsound : Sound l { c.log .closing with wantAShutdown := true } :=
      ⟨hlog.clean, hlog.loop, hlog.shutdown, hlog.write, hlog.server⟩
    split
    · refine Leads.map (f := Prod.fst) (tends_shutdown ?_ rfl) (fun _ hs => hs) (fun _ => rfl)
      exact ⟨hlog.clean, hlog.loop, fun _ => rfl, hlog.write, hlog.server⟩
    · next hn =>
      -- the connection is not up, or messages are left
      refine ⟨hsound, fun ha ho => absurd ?_ hn⟩
      simp only [id_eq, active, owes, Bool.and_eq_true] at ha ho
      simp [(Bool.not_eq_true' _).mp ha.2, List.isEmpty_iff.mp ho.2]

theorem Tends.event (h : Tends R l c) (he : e.hasError = c.event.hasError)
    (hw : e.wantCloseFd = c.event.wantCloseFd) (hl : e.evLoop = c.event.evLoop) :
    Tends R l { c with event := e } :=
  ⟨⟨h.clean, fun hi => hl.trans (h.loop hi), h.shutdown, h.write, h.server⟩,
    fun ha => h.redo (by simpa [active, he, hw] using ha)⟩

theorem tends_act (h : Tends R l c) (a : Action) : Leads id (Tends R l) (c.act a) := by
  cases a with
  | send data rese allow script =>
    rw [act]
    split
    · exact (tends_send h).noting
    · exact tends_send h
  | close script => exact tends_close h
  | closeFd outq => exact h.toSound.closeFd outq
  | del outq =>
    exact h.event (Event.del_hasError _ _ _) (Event.del_wantCloseFd _ _ _)
      (Event.del_evLoop _ _ _)
  | allowSelfSigned allow =>
    exact ⟨⟨h.clean, h.loop, h.shutdown, h.write, h.server⟩, h.redo⟩
  | fill ptr bytes =>
    refine ⟨⟨h.clean.log (by simp), h.loop, h.shutdown, fun hr => ?_, h.server⟩, fun ha ho => ?_⟩
    · simpa [TlsConnection.fill, TlsConnection.log] using h.write hr
    · refine h.redo ha ?_
      simpa [owes, TlsConnection.fill, TlsConnection.log] using ho

theorem tends_acts (h : Tends R l c) (as : List Action) :
    Leads id (Tends R l) (acts as c) := by
  induction as generalizing c with
  | nil => exact h
  | cons a as ih => exact (tends_act h a).andThen (fun s hs => ih hs)

theorem checkX509_loop (a : Answer) (h : Sound true c) :
    checkX509 a c = .ret (if accepts a c then (c, true) else (c.fail, false)) :=
  checkX509_eq a (h.loop rfl)

/-- The check that goes with a read leaves the connection as it is, or closes it. -/
theorem tends_passGate (h : Tends R true c) (a : Answer) :
    Leads Prod.fst (Tends R true) ((c.log .read).passGate a) := by
  have hlog : Tends R true (c.log .read) := h.log (by simp)
  rw [passGate]
  split
  · have hdone : Tends R true { c.log .read with handshakeDone := true } :=
      ⟨⟨hlog.clean, hlog.loop, hlog.shutdown, hlog.write, hlog.server⟩, hlog.redo⟩
    rw [checkX509_loop a hdone.toSound]
    dsimp only [Exec.map]
    split
    · exact hdone.log (by simp)
    · have hfail : Tends R true { c.log .read with handshakeDone := true }.fail :=
        hdone.toSound.fail
      exact (hfail.toSound.log (by simp)).fail
  · exact hlog

/-- What a handler does before it starts the shutdown. -/
def Done (R : ToRedo → Prop) (c : TlsConnection) : Prop := Tends R true c ∨ Forgotten c

theorem Leads.done {f : σ → TlsConnection} (he : Leads f (Tends R true) e) : Leads f (Done R) e :=
  he.mono (fun _ h => .inl h)

/-- `SSL_read` wants something. -/
theorem done_readWait (h : Sound true c) (d : Direction) :
    Done (fun r => r = .nothing ∨ r = .handshake) (c.readWait.setRedo .read d) := by
  by_cases ho : (c.active && c.owes) = true
  · refine .inr ⟨?_, ?_, ?_, rfl⟩
    · simp [readWait, setRedo, TlsConnection.log, ho]
    · exact (Bool.and_eq_true _ _ ▸ ho).1
    · exact (Bool.and_eq_true _ _ ▸ ho).2
  · refine .inl ⟨?_, fun ha ho' => absurd (Bool.and_eq_true _ _ ▸ ⟨ha, ho'⟩) ho⟩
    refine Sound.setRedo ((h.log ?_).log (by simp)) (by simp) (by simp) d
    simpa using ho

theorem done_read (h : Nears true c) (as : List Answer) :
    Leads Prod.fst (Done (fun r => r = .nothing ∨ r = .handshake)) (read as c) := by
  induction as generalizing c with
  | nil => exact h.clean
  | cons a as ih =>
    rw [read]
    split
    · refine (tends_passGate h a).thenWith (fun _ => rfl) (fun s hs => ?_)
      dsimp only
      split
      · have hclear := hs.toSound.clear
        split
        · have hparsed := hclear.log (e := .parsed a.bytes) (by simp)
          exact (tends_acts hparsed a.parse).thenWith (fun _ => rfl) (fun s hs => ih hs)
        · exact ih hclear
      · exact ih hs
    · have hl : c.event.evLoop = true := h.loop rfl
      rw [throughLoop, if_pos hl]
      exact done_readWait h.toSound .inp
    · exact done_readWait h.toSound .out
    · exact .inl h.toSound.fail
    · exact ih h
    · exact .inl h
    · exact Leads.done (.throughLoop h.toSound.fail)
    · exact Leads.done (h.toSound.sslErrorWith as)

/-- `_write` leaves a message to be redone, or nothing to be redone where it has written the last
one. -/
theorem nears_write (h : Nears true c) (as : List Answer) :
    Leads Prod.fst (Nears true) (write as c) := by
  induction as generalizing c with
  | nil =>
    rw [write]
    split
    · exact h
    · exact h.clean
  | cons a as ih =>
    rw [write]
    split
    · exact h
    · next si rest hq =>
      have hlog : Sound true (c.log (.presented si.data a.err)) := h.toSound.log (by simp)
      have hwait : ∀ d, Nears true ((c.log (.presented si.data a.err)).setRedo .write d) :=
        fun d => Sound.free (hlog.setRedo (by simp) (by simp [TlsConnection.log, hq]) d)
          (by simp [owes, setRedo, TlsConnection.log, hq])
      dsimp only
      split
      · have hwrote := (hlog.log (e := .wrote si.data) (by simp)).clear
        exact ih ⟨⟨hwrote.clean, hwrote.loop, by simp, by simp, hwrote.server⟩, fun _ _ => .inl rfl⟩
      · exact .throughLoop (hwait _)
      · exact hwait _
      · exact hlog.fail
      · exact ih (h.log (by simp))
      · exact .throughLoop hlog.fail
      · exact hlog.sslErrorWith as

theorem nears_handshake (h : Sound true c) (as : List Answer) :
    Leads Prod.fst (Nears true) (handshake as c) := by
  have hwait : ∀ d, Nears true (c.setRedo .handshake d) :=
    fun d => ⟨h.setRedo (by simp) (by simp) d, fun _ _ => .inr rfl⟩
  induction as with
  | nil => exact h.clean
  | cons a as ih =>
    rw [handshake]
    split
    · exact h.clear
    · exact .throughLoop (hwait _)
    · exact hwait _
    · exact h.fail
    · exact ih
    · exact .throughLoop h.fail
    · exact h.sslErrorWith as

theorem tends_shutdownStep {r : TlsConnection × List Answer} (h : Sound true r.1)
    (hs : r.1.startedAShutdown = true) : Leads Prod.fst (Tends R true) (shutdownStep r) :=
  Leads.map (tends_shutdown h hs) (fun _ hs => hs) (fun _ => rfl)

theorem done_redo {r : TlsConnection × List Answer} (h : Nears true r.1) :
    Leads Prod.fst (Done (fun r => r = .nothing ∨ r = .handshake)) (redo r) := by
  rw [redo]
  split
  · exact .inl h
  · exact Leads.done (nears_handshake h.toSound r.2)
  · exact done_read h r.2
  · exact Leads.done (nears_write h r.2)
  · next hr => exact Leads.done (tends_shutdownStep h.toSound (h.shutdown hr))

/-- A step that loses no shutdown but to a read. -/
def Keeps (k : Step) : Prop :=
  ∀ r, Nears true r.1 → Leads Prod.fst (Done (fun r => r = .handshake)) (k r)

/-- What is to be redone on an active connection that owes a shutdown is the handshake. -/
theorem Nears.kept (h : Nears true c) (hb : c.busy = true) : Kept true c := by
  refine ⟨h.toSound, fun ha ho => (h.redo ha ho).resolve_left (fun hr => ?_)⟩
  simp only [active, Bool.and_eq_true, Bool.not_eq_true'] at ha
  simp [busy, hr, ha.1.1] at hb

theorem Kept.nears (h : Kept l c) : Nears l c := ⟨h.toSound, fun ha ho => .inr (h.redo ha ho)⟩

/-- A forgotten shutdown ends the handler. -/
theorem Keeps.unlessBusy {k : Step} (hk : Keeps k) {r : TlsConnection × List Answer}
    (h : Done (fun r => r = .nothing ∨ r = .handshake) r.1) :
    Leads Prod.fst (Done (fun r => r = .handshake)) (unlessBusy k r) := by
  rw [TlsConnection.unlessBusy]
  split
  · next hb => exact h.imp_left (fun h => Nears.kept h hb)
  · next hb =>
    rcases h with h | h
    · exact hk r h
    · exact absurd (by simp [busy, h.redo]) hb

theorem keeps_startShutdown : Keeps startShutdown := by
  intro r h
  rw [startShutdown]
  split
  · refine Leads.done (tends_shutdownStep ?_ rfl)
    exact ⟨h.clean, h.loop, fun _ => rfl, h.write, h.server⟩
  · next ho => exact .inl (h.toSound.free (by simpa [owes] using ho))

theorem keeps_readAndWrite : Keeps readAndWrite := by
  intro r h
  refine (done_read h r.2).andThen (fun s hs => Keeps.unlessBusy (fun t ht => ?_) hs)
  exact (nears_write ht t.2).andThen (fun u hu => keeps_startShutdown.unlessBusy (.inl hu))

theorem keeps_onInp : Keeps onInp := by
  intro r h
  rw [onInp]
  split
  · exact h.clean
  · split
    · next he => exact .inl (h.toSound.idle (by simp [active, he]))
    · split
      · next hr =>
        split
        · have hk := h.kept (by simp [busy, hr])
          exact .inl ⟨⟨hk.clean, hk.loop, hk.shutdown, hk.write, hk.server⟩, hk.redo⟩
        · refine (done_redo h).andThen (fun s hs => Keeps.unlessBusy (fun t ht => ?_) hs)
          exact (nears_write ht t.2).andThen (fun u hu => keeps_readAndWrite.unlessBusy (.inl hu))
      · exact keeps_readAndWrite r h

theorem keeps_writeAndRead : Keeps writeAndRead := by
  intro r h
  refine (nears_write h r.2).andThen (fun s hs => ?_)
  dsimp only
  split
  · next hr => exact .inl (hs.kept (by simp [busy, hr]))
  · split
    · have hs' : Nears true { s.1 with hasWaitingInpData := false } :=
        ⟨⟨hs.clean, hs.loop, hs.shutdown, hs.write, hs.server⟩, hs.redo⟩
      exact (keeps_onInp (_, s.2) hs').andThen
        (fun t ht => keeps_startShutdown.unlessBusy (ht.imp_left Kept.nears))
    · exact keeps_startShutdown s hs

theorem keeps_redoAndWrite : Keeps redoAndWrite := by
  intro r h
  rw [redoAndWrite]
  split
  · next hr =>
    split
    · exact .inl (h.kept (by simp [busy, hr]))
    · exact (done_redo h).andThen (fun s hs => keeps_writeAndRead.unlessBusy hs)
  · exact keeps_writeAndRead r h

theorem kept_onOut {r : TlsConnection × List Answer} (h : Kept true r.1) :
    Leads Prod.fst (Done (fun r => r = .handshake)) (onOut r) := by
  rw [onOut]
  split
  · exact .inl h
  · split
    · next hw =>
      have hs : Sound true { r.1 with waitingForConnection := false } :=
        ⟨h.clean, h.loop, h.shutdown, h.write, fun _ => rfl⟩
      dsimp only
      split
      · exact (nears_handshake hs r.2).andThen
          (fun s hs => keeps_redoAndWrite.unlessBusy (.inl hs))
      · next hm =>
        -- a server does not wait for its connection
        have hm : r.1.commMode = .server := by
          cases hc : r.1.commMode <;> simp_all
        exact absurd (h.server hm) (by simp [hw])
    · exact keeps_redoAndWrite r h.nears

/-- The calls of `on_inp` and `on_out`. -/
def handles : Call → Bool
  | .onInp _ | .onOut _ _ => true
  | _ => false

theorem Kept.install (h : Kept false c) (outq : Option Nat) : Kept false (c.install outq) := by
  rw [TlsConnection.install]
  split
  · exact h
  · have hin : Kept false { c with event := { c.event with evLoop := true } } :=
      ⟨⟨h.clean, by simp, h.shutdown, h.write, h.server⟩, h.redo⟩
    dsimp only
    split
    · exact hin.event (Event.del_hasError _ _ _) (Event.del_wantCloseFd _ _ _)
        (Event.del_evLoop _ _ _)
    · exact hin

theorem Kept.installed (h : Kept false c) (hl : c.event.evLoop = true) : Kept true c :=
  ⟨⟨h.clean, fun _ => hl, h.shutdown, h.write, h.server⟩, h.redo⟩

/-- What a call of a handler leads to. -/
def Handled (k : Call) (c : TlsConnection) : Prop :=
  Kept false c ∨ handles k = true ∧ Forgotten c

theorem Done.handled (h : Done (fun r => r = .handshake) c) (hk : handles k = true) :
    Handled k c :=
  h.imp (fun h => ⟨⟨h.clean, by simp, h.shutdown, h.write, h.server⟩, h.redo⟩) (fun h => ⟨hk, h⟩)

/-- The deletion that the loop may make after `on_out`. -/
theorem Handled.del (h : Handled k c) (outq : Option Nat) : Handled k (c.del outq) := by
  refine h.imp (fun h => ?_) (And.imp_right fun h => ⟨h.owed, ?_, h.owes, h.redo⟩)
  · exact h.event (Event.del_hasError _ _ _) (Event.del_wantCloseFd _ _ _) (Event.del_evLoop _ _ _)
  · simpa [active, TlsConnection.del] using h.active

theorem handled_call (h : Kept false c) (k : Call) : Leads id (Handled k) (c.call k) := by
  cases k with
  | act a => exact (tends_act h a).mono (fun _ => .inl)
  | install outq => exact .inl (h.install outq)
  | onInp script =>
    rw [call]
    split
    · next hl =>
      have hk := (h.installed hl).nears
      exact Leads.map (keeps_onInp (c, script) hk) (fun _ hs => hs.handled rfl) (fun _ => rfl)
    · exact h.clean
  | onOut script outq =>
    rw [call]
    split
    · next hl =>
      refine Leads.map (kept_onOut (r := (c, script)) (h.installed hl)) (fun s hs => ?_)
        (fun s => ?_)
      · have hs := hs.handled (k := .onOut script outq) rfl
        dsimp only
        split
        · exact hs.del outq
        · exact hs
      · dsimp only
        split <;> rfl
    · exact h.clean
  | onTimeout outq =>
    rw [call]
    split
    · exact .inl (h.toSound.closeFd outq)
    · exact h.clean
  | fail =>
    rw [call]
    split
    · exact .inl h.toSound.fail
    · exact h.clean

theorem kept_new (fd : Int) (mode : CommMode) : Kept false (new fd mode) where
  clean := by simp [Clean, new]
  loop := by simp
  shutdown := by simp [new]
  write := by simp [new]
  server hm := by
    have hm : mode = .server := hm
    simp [hm, new, TcpConnection.new]
  redo _ ho := by simp [owes, new] at ho

/-- With nothing to write, a shutdown that is asked for has started, or comes after the
handshake. -/
def ShutdownKept (c : TlsConnection) : Prop :=
  c.event.hasError = false → c.event.wantCloseFd = false → c.waitingForConnection = false →
    c.wantAShutdown = true → c.waitingSends = [] →
      c.startedAShutdown = true ∨ c.toRedo = .handshake

instance : DecidablePred ShutdownKept := fun c =>
  inferInstanceAs (Decidable (c.event.hasError = false → c.event.wantCloseFd = false →
    c.waitingForConnection = false → c.wantAShutdown = true → c.waitingSends = [] →
      c.startedAShutdown = true ∨ c.toRedo = .handshake))

theorem Kept.shutdownKept (h : Kept l c) : ShutdownKept c := by
  intro he hw hc hs hq
  by_cases hstart : c.startedAShutdown = true
  · exact .inl hstart
  · refine .inr (h.redo ?_ ?_)
    · simp [active, he, hw, hc]
    · simp [owes, hs, hq, hstart]

theorem Forgotten.not_shutdownKept (h : Forgotten c) : ¬ ShutdownKept c := by
  intro hk
  have ha := h.active
  have ho := h.owes
  simp only [TlsConnection.active, Bool.and_eq_true, Bool.not_eq_true'] at ha
  simp only [TlsConnection.owes, Bool.and_eq_true, Bool.not_eq_true', List.isEmpty_iff] at ho
  rcases hk ha.1.1 ha.1.2 ha.2 ho.1.1 ho.2 with hs | hr
  · simp [ho.1.2] at hs
  · simp [h.redo] at hr

/-- After a call nothing is forgotten, but by a handler. -/
theorem step_kept {e : Exec TlsConnection} (h : Leads id (Kept false) e) (k : Call) :
    Leads id (Kept false) (step e k) ∨
      handles k = true ∧ ∃ c, step e k = .ret c ∧ Forgotten c := by
  cases e with
  | ret c =>
    have hcall := handled_call h k
    change Leads id (Handled k) (step (.ret c) k) at hcall
    cases hs : step (.ret c) k with
    | ret c' =>
      rw [hs] at hcall
      exact Or.imp id (fun h => ⟨h.1, c', rfl, h.2⟩) hcall
    | hang c' =>
      rw [hs] at hcall
      exact .inl hcall
    | undef c' =>
      rw [hs] at hcall
      exact .inl hcall
  | hang c => exact .inl h
  | undef c => exact .inl h

theorem Leads.clean {e : Exec TlsConnection} (h : Leads id (Kept l) e) : Clean e.state :=
  (Exec.Split.mono h (fun _ hk => hk.clean) (fun _ => id)).state

/-- A handler leaves no shutdown behind. -/
def HandlerKeeps (e : Exec TlsConnection) (k : Call) : Prop :=
  handles k = true → Ends ShutdownKept (step e k)

instance (e : Exec TlsConnection) (k : Call) : Decidable (HandlerKeeps e k) :=
  inferInstanceAs (Decidable (handles k = true → Ends ShutdownKept (step e k)))

theorem along_kept_iff (calls : List Call) {e : Exec TlsConnection}
    (h : Leads id (Kept false) e) :
    Along step HandlerKeeps e calls ↔ Clean (run step e calls).state := by
  induction calls generalizing e with
  | nil => exact ⟨fun _ => h.clean, fun _ => trivial⟩
  | cons k ks ih =>
    rw [run_cons]
    rcases step_kept h k with hk | ⟨hh, c, hs, hf⟩
    · have hkeeps : HandlerKeeps e k := fun _ =>
        Exec.Split.mono hk (fun _ hk => hk.shutdownKept) (fun _ _ => trivial)
      exact (and_iff_right hkeeps).trans (ih hk)
    · constructor
      · intro ha
        have := ha.1 hh
        rw [hs] at this
        exact absurd this hf.not_shutdownKept
      · intro hc
        have hgrows := run_trace_grows (step e k) ks
        rw [hs] at hgrows hc
        exact absurd (hgrows.subset hf.owed) hc

/-- No handler leaves a shutdown behind if and only if no `SSL_read` wants to read or write on an
active connection that owes one. -/
theorem shutdown_kept_iff (fd : Int) (mode : CommMode) (calls : List Call) :
    Along step HandlerKeeps (.ret (new fd mode)) calls ↔
      Clean (run step (.ret (new fd mode)) calls).state :=
  along_kept_iff calls (kept_new fd mode)

/-- Input comes with the room for the last message. It is read once that message has left, and
then the connection waits for more. -/
theorem shutdown_forgotten : ¬ Along step HandlerKeeps (.ret (new 5 .server)) [.install none,
    .act (.send ⟨0, [1]⟩ 1 true [.wantWrite]), .act (.close []), .onInp [],
    .onOut [{ err := .none }, { err := .none, bytes := [7] }, { err := .wantRead }] none] := by
  decide

end Evel.TlsConnection
