import Mathlib.Logic.Relation
import Evel.General.Runs
import Evel.Model.TlsConnection
import Evel.Proofs.Event

namespace Evel.TlsConnection
open General Tls

/-- The entries that tell nothing about reads, checks, writes and closings. -/
def Silent : Entry → Prop
  | .readWants _ _ | .queued _ _ | .presented _ _ | .accepted _ | .readOwes _ | .filled _ => True
  | _ => False

/-- The silent entries that are not about a message. -/
def Still : Entry → Prop
  | .readWants _ _ | .readOwes _ => True
  | _ => False

theorem Still.silent (h : Still e) : Silent e := by
  cases e <;> trivial

/-- A change of the queue, of the operation to redo or of what else no test on the connection
sees, with entries in `S`. -/
structure Quiet (S : Entry → Prop) (c c' : TlsConnection) : Prop where
  event : c'.event = c.event
  commMode : c'.commMode = c.commMode
  handshakeDone : c'.handshakeDone = c.handshakeDone
  wantAShutdown : c'.wantAShutdown = c.wantAShutdown
  trace : ∃ es, c'.trace = c.trace ++ es ∧ ∀ e ∈ es, S e

theorem Quiet.untraced (he : c'.event = c.event) (hm : c'.commMode = c.commMode)
    (hd : c'.handshakeDone = c.handshakeDone) (hw : c'.wantAShutdown = c.wantAShutdown)
    (ht : c'.trace = c.trace) : Quiet S c c' :=
  ⟨he, hm, hd, hw, [], by simpa using ht, by simp⟩

theorem Quiet.mono (h : ∀ e, S e → S' e) (hq : Quiet S c c') : Quiet S' c c' := by
  obtain ⟨es, ht, hs⟩ := hq.trace
  exact ⟨hq.event, hq.commMode, hq.handshakeDone, hq.wantAShutdown, es, ht,
    fun e he => h e (hs e he)⟩

/-- An `SSL_write` that has failed for good. -/
def fatalWrite : Entry → Bool
  | .presented _ e => e.fatal
  | _ => false

def NoFatalWrite (es : List Entry) : Prop := ∀ e ∈ es, fatalWrite e = false

instance : DecidablePred NoFatalWrite := fun es =>
  inferInstanceAs (Decidable (∀ e ∈ es, fatalWrite e = false))

/-- The first message of the queue has been written. -/
def popFront (si : Tcp.SendItem) (rest : List Tcp.SendItem) (c : TlsConnection) : TlsConnection :=
  { (c.log (.presented si.data .none)).log (.wrote si.data) with
    freed := c.freed ++ [si.allo], waitingSends := rest, toRedo := .nothing }

/-- One thing that happens to a connection. Every function is a sequence of such moves. -/
inductive Move : TlsConnection → TlsConnection → Prop
  | quiet (h : Quiet Still c c') (hw : c'.waitingSends = c.waitingSends) : Move c c'
  | queue (data : Buffer) (rese : Nat) (allow : Bool) (hd : data.bytes.length ≠ 0) :
      Move c ((c.queue data rese allow).log (.accepted data.bytes))
  | refused (data : Buffer) (rese : Nat) (allow : Bool) (hd : data.bytes.length ≠ 0)
      (he : e = .wantRead ∨ e = .wantWrite) (hq : c.waitingSends = []) :
      Move c (((c.give data e).queue data rese allow).log (.accepted data.bytes))
  | interrupted (data : Buffer) (hq : c.waitingSends = []) :
      Move c (c.give data (.syscall .intr))
  | lost (data : Buffer) (he : e.fatal = true) : Move c (c.give data e)
  | acceptedLost (bytes : List Byte) (h : ¬ NoFatalWrite c.trace) : Move c (c.log (.accepted bytes))
  | wrote (data : Buffer) (h : c.event.hasError = false) (hd : data.bytes.length ≠ 0)
      (hq : c.waitingSends = []) :
      Move c (((c.give data .none).log (.wrote data.bytes)).log (.accepted data.bytes))
  | retried (hq : c.waitingSends = si :: rest) (he : e ≠ .none) :
      Move c (c.log (.presented si.data e))
  | popFront (h : c.event.hasError = false) (hq : c.waitingSends = si :: rest) :
      Move c (c.popFront si rest)
  | fail : Move c c.fail
  | wantCloseFd : Move c { c with event := { c.event with wantCloseFd := true } }
  | closeFd (outq : Option Nat) : Move c (c.closeFd outq)
  | del (outq : Option Nat) : Move c (c.del outq)
  | closeAgain (h : c.event.hasError = true ∨ c.wantAShutdown = true) : Move c (c.log .closing)
  | close : Move c { c.log .closing with wantAShutdown := true }
  | readAgain (h : ¬ (c.commMode = .client ∧ c.handshakeDone = false)) : Move c (c.log .read)
  | admitted (h : c.commMode = .client ∧ c.handshakeDone = false) :
      Move c ({ c.log .read with handshakeDone := true }.log (.checked true))
  | rejected (h : c.commMode = .client ∧ c.handshakeDone = false) :
      Move c ({ c.log .read with handshakeDone := true }.fail.log (.checked false))
  | parsed (bytes : List Byte) (h : c.parses = true) (hl : c.event.evLoop = true)
      (hd : ¬ (c.commMode = .client ∧ c.handshakeDone = false)) : Move c (c.log (.parsed bytes))
  | fill (ptr : Ptr) (bytes : List Byte) : Move c (c.fill ptr bytes)
  | install (outq : Option Nat) : Move c (c.install outq)

abbrev Reaches : TlsConnection → TlsConnection → Prop := Relation.ReflTransGen Move

theorem Reaches.of (m : Move c c') : Reaches c c' := .single m

theorem Reaches.move (h : Reaches c c') (m : Move c' c'') : Reaches c c'' := h.tail m

/-- The connection that a call ends in, or is stuck in, is reached by moves. -/
def Gets (f : σ → TlsConnection) (c : TlsConnection) (e : Exec σ) : Prop :=
  e.Split (fun s => Reaches c (f s)) (fun s => Reaches c (f s))

theorem Gets.trans {f : σ → TlsConnection} (h : Reaches c c') (he : Gets f c' e) : Gets f c e :=
  he.mono (fun _ hs => Relation.ReflTransGen.trans h hs)
    (fun _ hs => Relation.ReflTransGen.trans h hs)

theorem Gets.thenWith {f : σ → TlsConnection} {f' : τ → TlsConnection} {g : σ → τ}
    (he : Gets f c e) (hg : ∀ s, f' (g s) = f s)
    (hk : ∀ s, Reaches c (f s) → Gets f' (f s) (k s)) : Gets f' c (e.thenWith g k) := by
  refine Exec.Split.thenWith he (fun s hs => ?_) (fun s hs => by rwa [hg])
  exact (hk s hs).mono (fun _ h => hs.trans h) (fun _ h => hs.trans h)

theorem Gets.andThen {f : σ → TlsConnection} (he : Gets f c e)
    (hk : ∀ s, Reaches c (f s) → Gets f (f s) (k s)) : Gets f c (e.andThen k) := by
  refine Exec.Split.andThen he (fun s hs => ?_)
  exact (hk s hs).mono (fun _ h => hs.trans h) (fun _ h => hs.trans h)

theorem Gets.map {f : σ → TlsConnection} {f' : τ → TlsConnection} {g : σ → τ}
    (he : Gets f c e) (hg : ∀ s, Reaches c (f s) → Reaches c (f' (g s))) :
    Gets f' c (e.map g) := by
  rw [Gets, Exec.split_map]
  exact he.mono hg hg

theorem Gets.throughLoop {f : σ → TlsConnection} (h : Reaches c (f s)) :
    Gets f c (c.throughLoop s) := by
  unfold TlsConnection.throughLoop
  split <;> exact h

theorem gets_sslError (c : TlsConnection) : Gets id c c.sslError :=
  .throughLoop (.single .fail)

theorem reaches_setRedo (c : TlsConnection) (r : ToRedo) (d : Direction) :
    Reaches c (c.setRedo r d) :=
  .single (.quiet (.untraced rfl rfl rfl rfl rfl) rfl)

@[simp] theorem queue_event (data : Buffer) (rese : Nat) (allow : Bool) (c : TlsConnection) :
    (c.queue data rese allow).event = c.event := by
  simp only [queue, log, TcpConnection.addSendItem]
  split_ifs <;> rfl

@[simp] theorem queue_waitingForConnection (data : Buffer) (rese : Nat) (allow : Bool)
    (c : TlsConnection) :
    (c.queue data rese allow).waitingForConnection = c.waitingForConnection := by
  simp only [queue, log, TcpConnection.addSendItem]
  split_ifs <;> rfl

/-- A message that is queued and a message that is written pass in silence. -/
theorem quiet_queue (data : Buffer) (rese : Nat) (allow : Bool) (c : TlsConnection) :
    Quiet Silent c (c.queue data rese allow) :=
  ⟨queue_event data rese allow c, rfl, rfl, rfl,
    [.queued (!c.waitingForConnection) c.toRedo], by simp [queue, log], by simp [Silent]⟩

theorem quiet_log (h : Silent e) (c : TlsConnection) : Quiet Silent c (c.log e) :=
  ⟨rfl, rfl, rfl, rfl, [e], rfl, by simpa using h⟩

theorem quiet_fill (ptr : Ptr) (bytes : List Byte) (c : TlsConnection) :
    Quiet Silent c (c.fill ptr bytes) :=
  ⟨rfl, rfl, rfl, rfl, [_], rfl, by simp [Silent]⟩

theorem reaches_clear (c : TlsConnection) : Reaches c { c with toRedo := .nothing } :=
  .of (.quiet (.untraced rfl rfl rfl rfl rfl) rfl)

theorem reaches_started (c : TlsConnection) :
    Reaches c { c with startedAShutdown := true } :=
  .of (.quiet (.untraced rfl rfl rfl rfl rfl) rfl)

theorem reaches_inpData (c : TlsConnection) (b : Bool) :
    Reaches c { c with hasWaitingInpData := b } :=
  .of (.quiet (.untraced rfl rfl rfl rfl rfl) rfl)

theorem reaches_connected (c : TlsConnection) :
    Reaches c { c with waitingForConnection := false } :=
  .of (.quiet (.untraced rfl rfl rfl rfl rfl) rfl)

theorem gets_noting_throughLoop {c' : TlsConnection} (h : Reaches c (c'.log (.accepted bytes)))
    (d : TlsConnection) : Gets id c (noting bytes (d.throughLoop c')) := by
  unfold TlsConnection.throughLoop
  split <;> exact h

/-- A write that fails for good, and the error. -/
theorem reaches_lost (data : Buffer) (c : TlsConnection) (he : e.fatal = true) :
    Reaches c ((c.give data e).log (.accepted data.bytes)) ∧
      Reaches c ((c.give data e).fail.log (.accepted data.bytes)) := by
  have hfatal : ∀ es, ¬ NoFatalWrite ((c.give data e).trace ++ es) := fun es h => by
    have := h (.presented data.bytes e) (by simp [give, log])
    simp [fatalWrite, he] at this
  have hlost := Reaches.of (.lost (c := c) data he)
  refine ⟨hlost.move (.acceptedLost _ ?_), (hlost.move .fail).move (.acceptedLost _ (hfatal _))⟩
  simpa using hfatal []

theorem gets_sendNow (h : c.event.hasError = false) (hd : data.bytes.length ≠ 0)
    (hq : c.waitingSends = []) :
    Gets id c (noting data.bytes (sendNow data rese allow script c)) := by
  induction script generalizing c with
  | nil => exact .refl
  | cons e es ih =>
    cases e with
    | none => exact (Reaches.of (.wrote data h hd hq)).trans (reaches_clear _)
    | wantRead =>
      exact gets_noting_throughLoop
        ((Reaches.of (.refused data rese allow hd (.inl rfl) hq)).trans (reaches_setRedo _ _ _)) _
    | wantWrite =>
      exact (Reaches.of (.refused data rese allow hd (.inr rfl) hq)).trans (reaches_setRedo _ _ _)
    | zeroReturn => exact (reaches_lost data c rfl).2
    | syscall n =>
      cases n with
      | intr => exact Gets.trans (.of (.interrupted data hq)) (ih h hq)
      | zero => exact (reaches_lost data c rfl).1
      | again => exact (reaches_lost data c rfl).2
      | wouldBlock => exact (reaches_lost data c rfl).2
      | other n => exact (reaches_lost data c rfl).2
    | ssl => exact gets_noting_throughLoop (reaches_lost data c rfl).2 _

/-- `send` refuses what is not to be accepted, and nothing else. -/
theorem welcomes_eq (data : Buffer) (c : TlsConnection) : c.welcomes data = !c.refuses data := by
  cases h : data.bytes <;> simp [welcomes, refuses, h]

theorem gets_send (c : TlsConnection) : Gets id c (c.act (.send data rese allow script)) := by
  rw [act, send, welcomes_eq]
  cases hr : c.refuses data with
  | true => exact .refl
  | false =>
    have hd : data.bytes.length ≠ 0 ∧ c.event.hasError = false := by
      simp only [refuses, Bool.or_eq_false_iff, decide_eq_false_iff_not] at hr
      exact hr.1.1.1
    simp only [Bool.not_false, if_true, Bool.false_eq_true, if_false]
    split
    · exact Reaches.of (.queue data rese allow hd.1)
    · next hq =>
      simp only [Bool.or_eq_true, not_or, Bool.not_eq_true, Bool.not_eq_false',
        List.isEmpty_iff] at hq
      exact gets_sendNow hd.2 hd.1 hq.1.2

theorem gets_shutdown (c : TlsConnection) : Gets Prod.fst c (shutdown script c) := by
  induction script with
  | nil => exact .refl
  | cons e es ih =>
    obtain ⟨err, outq⟩ := e
    cases err with
    | none => exact (reaches_clear c).move (.closeFd outq)
    | wantRead => exact .throughLoop (reaches_setRedo _ _ _)
    | wantWrite => exact reaches_setRedo _ _ _
    | zeroReturn => exact .of .fail
    | syscall n =>
      cases n with
      | intr => exact ih
      | zero => exact .refl
      | again => exact .of .fail
      | wouldBlock => exact .of .fail
      | other n => exact .of .fail
    | ssl => exact .throughLoop ((Reaches.of .wantCloseFd).move .fail)

theorem gets_close (c : TlsConnection) : Gets id c (c.close script) := by
  rw [close]
  dsimp only
  split
  · next h => exact Reaches.of (.closeAgain (by simpa [log] using h))
  · have hc : Reaches c { c.log .closing with wantAShutdown := true } := .of .close
    split
    · refine Gets.map (f := Prod.fst) ?_ (fun s hs => hs)
      exact Gets.trans (hc.trans (reaches_started _)) (gets_shutdown _)
    · exact hc

theorem gets_act (c : TlsConnection) (a : Action) : Gets id c (c.act a) := by
  cases a with
  | send data rese allow script => exact gets_send c
  | close script => exact gets_close c
  | closeFd outq => exact Reaches.of (.closeFd outq)
  | del outq => exact Reaches.of (.del outq)
  | allowSelfSigned allow => exact Reaches.of (.quiet (.untraced rfl rfl rfl rfl rfl) rfl)
  | fill ptr bytes => exact Reaches.of (.fill ptr bytes)

theorem gets_acts (c : TlsConnection) (as : List Action) : Gets id c (acts as c) := by
  induction as generalizing c with
  | nil => exact .refl
  | cons a as ih => exact (gets_act c a).andThen (fun s _ => ih s)

/-- Moves do not take a connection out of its loop. -/
theorem Move.evLoop (m : Move c c') (h : c.event.evLoop = true) : c'.event.evLoop = true := by
  cases m with
  | quiet hq => rwa [hq.event]
  | install outq => simp [TlsConnection.install, h]
  | _ =>
    simpa [log, give, TlsConnection.popFront, TlsConnection.fail, TlsConnection.closeFd,
      TlsConnection.del, TlsConnection.fill] using h

theorem Reaches.invariant {Inv : TlsConnection → Prop}
    (hmove : ∀ c c', Inv c → Move c c' → Inv c') (hr : Reaches c c') (h : Inv c) : Inv c' := by
  induction hr with
  | refl => exact h
  | tail _ m ih => exact hmove _ _ ih m

theorem Reaches.evLoop (hr : Reaches c c') (h : c.event.evLoop = true) :
    c'.event.evLoop = true :=
  hr.invariant (fun _ _ h m => m.evLoop h) h

/-- The answers that `check_X509` lets pass. -/
def accepts (a : Answer) (c : TlsConnection) : Bool :=
  a.cert && (a.verify = 0 || (a.verify = selfSignedCert && c.allowSelfSignedCertificates))

theorem checkX509_eq (a : Answer) {c : TlsConnection} (hl : c.event.evLoop = true) :
    checkX509 a c = .ret (if accepts a c then (c, true) else (c.fail, false)) := by
  have hs : c.sslError = .ret c.fail := by rw [sslError, throughLoop, if_pos hl]
  rw [checkX509, hs, accepts]
  by_cases hc : a.cert = true
  · by_cases hv : a.verify = 0
    · simp [hc, hv]
    · by_cases hself : a.verify = selfSignedCert ∧ c.allowSelfSignedCertificates = true
      · simp [hc, hself]
      · rw [if_neg (by simp [hc]), if_pos hv, if_neg hself]
        simp [hc, hv, hself, Exec.map]
  · simp [hc, Exec.map]

/-- The check that goes with a read returns, and is not made again. -/
theorem passGate_reaches (a : Answer) {c : TlsConnection} (hl : c.event.evLoop = true) :
    ∃ r, (c.log .read).passGate a = .ret r ∧ Reaches c r.1 ∧
      ¬ (r.1.commMode = .client ∧ r.1.handshakeDone = false) := by
  by_cases hc : c.commMode = .client ∧ c.handshakeDone = false
  · have hl' : ({ c.log .read with handshakeDone := true }).event.evLoop = true := hl
    have hcond : (c.log .read).commMode = .client ∧ (c.log .read).handshakeDone = false := hc
    rw [passGate, if_pos hcond, checkX509_eq a hl']
    refine ⟨_, rfl, ?_⟩
    dsimp only
    split
    · exact ⟨.of (.admitted hc), by simp [log]⟩
    · exact ⟨(Reaches.of (.rejected hc)).move .fail, by simp [log, fail]⟩
  · have hcond : ¬ ((c.log .read).commMode = .client ∧ (c.log .read).handshakeDone = false) := hc
    exact ⟨_, by rw [passGate, if_neg hcond], .of (.readAgain hc), hc⟩

theorem reaches_readWait (c : TlsConnection) (d : Direction) :
    Reaches c (c.readWait.setRedo .read d) :=
  .of (.quiet ⟨rfl, rfl, rfl, rfl,
    [.readOwes (c.active && c.owes), .readWants c.active c.pending],
    by simp [readWait, setRedo, log, active, pending], by simp [Still]⟩ rfl)

/-- Answers of the other kinds do the same in all loops but for the flags of `_shutdown`. -/
theorem gets_read (as : List Answer) {c : TlsConnection} (hl : c.event.evLoop = true) :
    Gets Prod.fst c (read as c) := by
  induction as generalizing c with
  | nil => exact .refl
  | cons a as ih =>
    rw [read]
    split
    · obtain ⟨⟨c', ok⟩, hpass, hr, hd⟩ := passGate_reaches a hl
      rw [hpass]
      have hl' := hr.evLoop hl
      refine Gets.trans hr ?_
      dsimp only [Exec.thenWith]
      split
      · have hclear := reaches_clear c'
        have hlc := hclear.evLoop hl'
        refine Gets.trans hclear ?_
        split
        · next hp =>
          have hparsed := Reaches.of (.parsed a.bytes hp hlc hd)
          refine Gets.trans hparsed ?_
          refine (gets_acts _ a.parse).thenWith (fun _ => rfl) (fun s hs => ih ?_)
          exact hs.evLoop (hparsed.evLoop hlc)
        · exact ih hlc
      · exact ih hl'
    · exact .throughLoop (reaches_readWait c _)
    · exact reaches_readWait c _
    · exact Reaches.of .fail
    · exact ih hl
    · exact .refl
    · exact .throughLoop (Reaches.of .fail)
    · exact (gets_sslError c).map (fun _ h => h)

theorem gets_write (as : List Answer) {c : TlsConnection} (he : c.event.hasError = false) :
    Gets Prod.fst c (write as c) := by
  induction as generalizing c with
  | nil =>
    rw [write]
    split <;> exact .refl
  | cons a as ih =>
    rw [write]
    split
    · exact .refl
    · next si rest hq =>
      -- the message at hand has been presented
      have hp : a.err ≠ .none → Reaches c (c.log (.presented si.data a.err)) :=
        fun hne => .of (.retried hq hne)
      dsimp only
      split
      · next hn =>
        rw [hn]
        exact Gets.trans (.of (.popFront he hq)) (ih he)
      · next hn => exact .throughLoop ((hp (by simp [hn])).trans (reaches_setRedo _ _ _))
      · next hn => exact (hp (by simp [hn])).trans (reaches_setRedo _ _ _)
      · next hn => exact (hp (by simp [hn])).move .fail
      · next hn => exact Gets.trans (hp (by simp [hn])) (ih he)
      · next _ _ hn => exact .throughLoop ((hp (by simp [hn])).move .fail)
      · next hn =>
        exact Gets.trans (hp (by simp [hn])) ((gets_sslError _).map (fun _ h => h))

theorem gets_handshake (as : List Answer) (c : TlsConnection) :
    Gets Prod.fst c (handshake as c) := by
  induction as with
  | nil => exact .refl
  | cons a as ih =>
    rw [handshake]
    split
    · exact reaches_clear c
    · exact .throughLoop (reaches_setRedo _ _ _)
    · exact reaches_setRedo _ _ _
    · exact Reaches.of .fail
    · exact ih
    · exact .throughLoop (Reaches.of .fail)
    · exact (gets_sslError c).map (fun _ h => h)

/-- A step on a connection that is in a loop and has no error. -/
def Sane (k : Step) : Prop :=
  ∀ r, r.1.event.evLoop = true → r.1.event.hasError = false → Gets Prod.fst r.1 (k r)

theorem gets_shutdownStep (r : TlsConnection × List Answer) :
    Gets Prod.fst r.1 (shutdownStep r) :=
  (gets_shutdown r.1).map (fun _ h => h)

theorem sane_redo : Sane redo := by
  intro r hl he
  rw [redo]
  split
  · exact .refl
  · exact gets_handshake r.2 r.1
  · exact gets_read r.2 hl
  · exact gets_write r.2 he
  · exact gets_shutdownStep r

theorem Sane.unlessBusy {k : Step} (hk : Sane k) {r : TlsConnection × List Answer}
    (hl : r.1.event.evLoop = true) : Gets Prod.fst r.1 (unlessBusy k r) := by
  rw [TlsConnection.unlessBusy]
  split
  · exact .refl
  · next hb =>
    simp only [busy, Bool.or_eq_true, not_or] at hb
    exact hk r hl (by simpa using hb.2)

theorem Sane.then {k k' : Step} (hk : Sane k) (hk' : Sane k') :
    Sane (fun r => (k r).andThen (TlsConnection.unlessBusy k')) := by
  intro r hl he
  exact (hk r hl he).andThen (fun s hs => hk'.unlessBusy (hs.evLoop hl))

theorem gets_startShutdown (r : TlsConnection × List Answer) :
    Gets Prod.fst r.1 (startShutdown r) := by
  rw [startShutdown]
  split
  · exact Gets.trans (reaches_started r.1) (gets_shutdownStep (_, r.2))
  · exact .refl

theorem sane_startShutdown : Sane startShutdown := fun r _ _ => gets_startShutdown r

theorem sane_write : Sane (fun r => write r.2 r.1) := fun r _ he => gets_write r.2 he

theorem sane_readAndWrite : Sane readAndWrite :=
  Sane.then (fun r hl _ => gets_read r.2 hl) (Sane.then sane_write sane_startShutdown)

theorem gets_onInp (r : TlsConnection × List Answer) : Gets Prod.fst r.1 (onInp r) := by
  rw [onInp]
  by_cases hl : r.1.event.evLoop = true
  · rw [if_neg (by simp [hl])]
    split
    · exact .refl
    · next he =>
      have he : r.1.event.hasError = false := by simpa using he
      split
      · split
        · exact reaches_inpData r.1 true
        · exact Sane.then sane_redo (Sane.then sane_write sane_readAndWrite) r hl he
      · exact sane_readAndWrite r hl he
  · rw [if_pos (by simpa using hl)]
    exact .refl

theorem sane_writeAndRead : Sane writeAndRead := by
  intro r hl he
  refine (gets_write r.2 he).andThen (fun s hs => ?_)
  have hls := hs.evLoop hl
  dsimp only
  split
  · exact .refl
  · split
    · refine Gets.trans (reaches_inpData s.1 false) ?_
      exact (gets_onInp (_, s.2)).andThen
        (fun t ht => sane_startShutdown.unlessBusy (ht.evLoop hls))
    · exact gets_startShutdown s

theorem sane_redoAndWrite : Sane redoAndWrite := by
  intro r hl he
  rw [redoAndWrite]
  split
  · split
    · exact .refl
    · exact Sane.then sane_redo sane_writeAndRead r hl he
  · exact sane_writeAndRead r hl he

theorem gets_onOut {r : TlsConnection × List Answer} (hl : r.1.event.evLoop = true) :
    Gets Prod.fst r.1 (onOut r) := by
  rw [onOut]
  split
  · exact .refl
  · next he =>
    have he : r.1.event.hasError = false := by simpa using he
    split
    · refine Gets.trans (reaches_connected r.1) ?_
      dsimp only
      split
      · exact (gets_handshake _ _).andThen
          (fun s hs => sane_redoAndWrite.unlessBusy (hs.evLoop hl))
      · exact sane_redoAndWrite _ hl he
    · exact sane_redoAndWrite r hl he

/-- Every call moves the connection. -/
theorem gets_call (c : TlsConnection) (k : Call) : Gets id c (c.call k) := by
  cases k with
  | act a => exact gets_act c a
  | install outq => exact Reaches.of (.install outq)
  | onInp script =>
    rw [call]
    split
    · exact (gets_onInp (c, script)).map (fun _ h => h)
    · exact .refl
  | onOut script outq =>
    rw [call]
    split
    · next hl =>
      refine (gets_onOut (r := (c, script)) hl).map (fun s hs => ?_)
      dsimp only
      split
      · exact hs.move (.del outq)
      · exact hs
    · exact .refl
  | onTimeout outq =>
    rw [call]
    split
    · exact Reaches.of (.closeFd outq)
    · exact .refl
  | fail =>
    rw [call]
    split
    · exact Reaches.of .fail
    · exact .refl

/-- What every move keeps holds however far the calls of a run come. -/
theorem run_moves (Inv : TlsConnection → Prop) (hmove : ∀ c c', Inv c → Move c c' → Inv c')
    {e : Exec TlsConnection} (h : Inv e.state) (calls : List Call) :
    Inv (run step e calls).state := by
  have hrun : (run step e calls).Split Inv Inv := by
    refine run_invariant_all (Exec.Split Inv Inv) (fun e k he => ?_) ?_ calls
    · refine Exec.Split.andThen he (fun c hc => ?_)
      exact (gets_call c k).mono (fun _ hr => hr.invariant hmove hc)
        (fun _ hr => hr.invariant hmove hc)
    · cases e <;> exact h
  exact hrun.state

end Evel.TlsConnection
