import Evel.General.Runs
import Evel.Model.UdpConnectionFactory
import Evel.Proofs.Event

namespace Evel

namespace Event

theorem closeFd_of_shut {e : Event} (he : e.hasError = false) (hw : e.wantCloseFd = true) :
    e.closeFd m sent outq = e := by
  simp [closeFd, closeFdFlags, he, hw]

/-- A second `close_fd` changes nothing. -/
theorem closeFd_closeFd (m sent : Bool) (outq : Option Nat) (e : Event) :
    (e.closeFd m sent outq).closeFd m sent outq = e.closeFd m sent outq := by
  cases he : e.hasError with
  | true =>
    have hdel : e.closeFd m sent outq = e.del m outq := by simp [closeFd, closeFdFlags, he]
    rw [hdel]
    have hdel' : (e.del m outq).closeFd m sent outq = (e.del m outq).del m outq := by
      simp [closeFd, closeFdFlags, he]
    rw [hdel']
    cases hl : e.evLoop <;> simp [del, delTarget, register, hl, he]
  | false =>
    have hw : (e.closeFd m sent outq).wantCloseFd = true := by
      simpa [he] using closeFd_shuts m sent outq e
    exact closeFd_of_shut (by simpa using he) hw

/-- `push_back` has pushed the event on no list. -/
structure SameLists (e e' : Event) : Prop where
  del : e'.nextDel = e.nextDel
  waitOut : e'.nextWaitOut = e.nextWaitOut
  work : e'.nextWork = e.nextWork

/-- `close_fd` pushes the event on a list. It does not if the event is to go to `wait_out_list`
and is there already. -/
def Pushes (outAreSent : Bool) (outq : Option Nat) (e : Event) : Prop :=
  e.hasError = true ∨ e.wantCloseFd = false ∧ outAreSent = true ∧
    (e.nextWaitOut = true → e.fd < 0 ∨ outq.getD 0 = 0)

/-- `del` pushes nothing only if the event waits for its output already, and still has some. -/
theorem del_sameLists_iff {e : Event} (hl : e.evLoop = true) (hd : e.nextDel = false) :
    SameLists e (e.del true outq) ↔
      e.nextWaitOut = true ∧ e.hasError = false ∧ 0 ≤ e.fd ∧ outq.getD 0 ≠ 0 := by
  have ht : e.delTarget true outq =
      if e.hasError = false ∧ 0 ≤ e.fd ∧ outq.getD 0 ≠ 0 then .waitOutList else .delList := by
    cases he : e.hasError <;> simp [delTarget, hl, he]
  rw [del, ht]
  split
  · next hp =>
    exact ⟨fun h => ⟨h.waitOut.symm, hp⟩, fun h => ⟨rfl, h.1.symm, rfl⟩⟩
  · next hp =>
    refine iff_of_false (fun h => ?_) (fun h => hp h.2)
    have hdel : true = e.nextDel := h.del
    simp [hd] at hdel

theorem closeFd_sameLists_iff {e : Event} (hl : e.evLoop = true) (hd : e.nextDel = false) :
    SameLists e (e.closeFd true sent outq) ↔ ¬ e.Pushes sent outq := by
  cases he : e.hasError with
  | true =>
    have hdel : e.closeFd true sent outq = e.del true outq := by simp [closeFd, closeFdFlags, he]
    rw [hdel, del_sameLists_iff hl hd]
    simp [Pushes, he]
  | false =>
    cases hw : e.wantCloseFd with
    | true =>
      rw [closeFd_of_shut he hw]
      exact iff_of_true ⟨rfl, rfl, rfl⟩ (by simp [Pushes, he, hw])
    | false =>
      let e' := { e with wantCloseFd := true }
      have hsame : ∀ e'' : Event, SameLists e e'' ↔ SameLists e' e'' := fun e'' =>
        ⟨fun h => ⟨h.del, h.waitOut, h.work⟩, fun h => ⟨h.del, h.waitOut, h.work⟩⟩
      have hclose : e.closeFd true sent outq = if sent then e'.del true outq else e' := by
        simp [closeFd, closeFdFlags, he, hw, e']
      rw [hclose, hsame]
      cases sent with
      | false => exact iff_of_true ⟨rfl, rfl, rfl⟩ (by simp [Pushes, he])
      | true =>
        rw [if_pos rfl, del_sameLists_iff (e := e') hl hd]
        simp only [Pushes, he, hw, e']
        cases e.nextWaitOut <;> simp

end Event

namespace UdpConnectionFactory
open General Factory
variable {Addr : Type u}

section closing
variable {closes : Addr → Bool} {conn : Addr → Conn Addr}

/-- How many of the connections call `dec_nb_live_conn` in their destructor. -/
def owed (conn : Addr → Conn Addr) (as : List Addr) : Nat := as.countP (fun a => (conn a).owes)

/-- The callback of a connection calls `close` before the count, then `nb`, would be negative. -/
def Closer (closes : Addr → Bool) (conn : Addr → Conn Addr) (nb : Int) (as : List Addr) : Prop :=
  ∃ pre a post, as = pre ++ a :: post ∧ closes a = true ∧ owed conn pre ≤ nb

/-- The destruction of the connections calls `Event::close`: the count comes down to 0, and the
factory is to be closed by then. -/
def Closes (closes : Addr → Bool) (conn : Addr → Conn Addr) (c : Count) (as : List Addr) : Prop :=
  c.nbLiveConn ≤ owed conn as ∧
    if c.wantCloseFact then 0 < c.nbLiveConn else Closer closes conn c.nbLiveConn as

theorem owed_cons : owed conn (a :: as) = owed conn as + (conn a).owes.toNat := by
  cases h : (conn a).owes <;> simp [owed, h]

theorem closer_cons : Closer closes conn nb (a :: as) ↔
    closes a = true ∧ 0 ≤ nb ∨ Closer closes conn (nb - (conn a).owes.toNat) as := by
  constructor
  · rintro ⟨pre, b, post, hl, hb, hn⟩
    cases pre with
    | nil =>
      obtain ⟨rfl, rfl⟩ := List.cons.inj hl
      exact .inl ⟨hb, hn⟩
    | cons c pre =>
      obtain ⟨rfl, rfl⟩ := List.cons.inj hl
      rw [owed_cons] at hn
      exact .inr ⟨pre, b, post, rfl, hb, by omega⟩
  · rintro (⟨ha, hn⟩ | ⟨pre, b, post, rfl, hb, hn⟩)
    · exact ⟨[], a, as, rfl, ha, hn⟩
    · exact ⟨a :: pre, b, post, rfl, hb, by rw [owed_cons]; omega⟩

theorem Closer.nonneg (h : Closer closes conn nb as) : 0 ≤ nb := by
  obtain ⟨pre, a, post, -, -, hn⟩ := h
  omega

/-- The destructor of one connection calls `Event::close`, in its callback or after it. -/
def ClosesNow (closes : Addr → Bool) (conn : Addr → Conn Addr) (c : Count) (a : Addr) : Prop :=
  closes a = true ∧ c.wantCloseFact = false ∧ c.nbLiveConn = 0 ∨
    (conn a).owes = true ∧ c.nbLiveConn = 1 ∧ (c.wantCloseFact || closes a) = true

theorem closes_cons {c : Count} : Closes closes conn c (a :: as) ↔
    ClosesNow closes conn c a ∨
      Closes closes conn ⟨c.nbLiveConn - (conn a).owes.toNat, c.wantCloseFact || closes a⟩ as := by
  obtain ⟨nb, want⟩ := c
  simp only [Closes, ClosesNow, owed_cons, closer_cons]
  cases want with
  | true =>
    cases (conn a).owes with
    | false => simp
    | true =>
      simp
      omega
  | false =>
    cases hc : closes a with
    | true =>
      -- nothing that comes later is needed once the first callback closes
      have hfirst : 0 ≤ nb ∨ Closer closes conn (nb - (conn a).owes.toNat) as ↔ 0 ≤ nb :=
        or_iff_left_of_imp fun h => by
          have := h.nonneg
          omega
      simp only [true_and, hfirst]
      cases (conn a).owes <;> simp <;> omega
    | false =>
      have hle : nb ≤ (owed conn as + (conn a).owes.toNat : Nat) ↔
          nb - (conn a).owes.toNat ≤ owed conn as := by omega
      simp only [hle, Bool.false_eq_true, false_and, false_or, if_false, Bool.or_false, and_false]

end closing

/-- What a part of the destruction does: if `b`, it calls `Event::close`. -/
structure Shuts (outq : Option Nat) (b : Prop) (s s' : UdpConnectionFactory Addr) : Prop where
  conn : s'.conn = s.conn
  outAreSent : s'.socket.outAreSent = s.socket.outAreSent
  shut : b → s'.socket.event = s.socket.event.closeFd true s.socket.outAreSent outq
  kept : ¬ b → s'.socket.event = s.socket.event

theorem Shuts.congr {s s' : UdpConnectionFactory Addr} (h : Shuts outq b s s') (hb : b ↔ b') :
    Shuts outq b' s s' :=
  ⟨h.conn, h.outAreSent, fun h' => h.shut (hb.mpr h'), fun h' => h.kept (fun h => h' (hb.mp h))⟩

theorem Shuts.refl (s : UdpConnectionFactory Addr) : Shuts outq False s s :=
  ⟨rfl, rfl, False.elim, fun _ => rfl⟩

/-- `Event::close` has no effect the second time. -/
theorem Shuts.trans {s s' s'' : UdpConnectionFactory Addr} (h : Shuts outq b s s')
    (h' : Shuts outq b' s' s'') : Shuts outq (b ∨ b') s s'' where
  conn := h'.conn.trans h.conn
  outAreSent := h'.outAreSent.trans h.outAreSent
  shut hb := by
    by_cases hb1 : b <;> by_cases hb2 : b'
    · rw [h'.shut hb2, h.outAreSent, h.shut hb1, Event.closeFd_closeFd]
    · rw [h'.kept hb2, h.shut hb1]
    · rw [h'.shut hb2, h.outAreSent, h.kept hb1]
    · exact absurd hb (not_or.mpr ⟨hb1, hb2⟩)
  kept hb := by
    obtain ⟨hb1, hb2⟩ := not_or.mp hb
    rw [h'.kept hb2, h.kept hb1]

/-- A change that ends at 0 when it calls `Event::close`. -/
theorem shuts_change (c : Count) (closes : Bool) (outq : Option Nat)
    (s : UdpConnectionFactory Addr) (hc : closes = true → c.nbLiveConn = 0) :
    Shuts outq (closes = true) s (s.change c closes outq) := by
  cases closes with
  | false => exact ⟨rfl, rfl, by simp, fun _ => rfl⟩
  | true =>
    refine ⟨rfl, rfl, fun _ => ?_, by simp⟩
    simp [change, eventClose, setEvent, outAreSent, hc]

theorem shuts_close (outq : Option Nat) (s : UdpConnectionFactory Addr) :
    Shuts outq (s.wantCloseFact = false ∧ s.nbLiveConn = 0) s (s.close outq) := by
  unfold UdpConnectionFactory.close
  cases hw : s.wantCloseFact with
  | true => exact (Shuts.refl s).congr (by simp)
  | false => exact (shuts_change _ _ outq s (by simp)).congr (by simp)

theorem shuts_dec (outq : Option Nat) (s : UdpConnectionFactory Addr) :
    Shuts outq (s.nbLiveConn = 1 ∧ s.wantCloseFact = true) s (s.decNbLiveConn outq) := by
  refine (shuts_change _ _ outq s ?_).congr ?_
  · simp only [Bool.and_eq_true, decide_eq_true_eq]
    exact fun h => h.1
  · have hone : s.nbLiveConn - 1 = 0 ↔ s.nbLiveConn = 1 := by omega
    simp [hone]

variable [DecidableEq Addr]

theorem endConn_count (closes : Addr → Bool) (outq : Option Nat) (s : UdpConnectionFactory Addr)
    (a : Addr) : (s.endConn closes outq a).count =
      ⟨s.nbLiveConn - (s.conn a).owes.toNat, s.wantCloseFact || closes a⟩ := by
  have h := fOnClose_count closes outq s a
  unfold endConn
  dsimp only
  split
  · next ho =>
    have hn : (s.fOnClose closes outq a).nbLiveConn = s.nbLiveConn := congrArg Count.nbLiveConn h
    have hw : (s.fOnClose closes outq a).wantCloseFact = (s.wantCloseFact || closes a) :=
      congrArg Count.wantCloseFact h
    rw [dec_count, hn, hw, ho]
    rfl
  · next ho => simpa [ho] using h

theorem shuts_fOnClose (closes : Addr → Bool) (outq : Option Nat) (s : UdpConnectionFactory Addr)
    (a : Addr) : Shuts outq (closes a = true ∧ s.wantCloseFact = false ∧ s.nbLiveConn = 0) s
      (s.fOnClose closes outq a) := by
  let s₁ := { s with connections := s.connections.erase a }
  have hs₁ : Shuts outq False s s₁ := ⟨rfl, rfl, False.elim, fun _ => rfl⟩
  unfold fOnClose
  cases hc : closes a with
  | false => exact hs₁.congr (by simp)
  | true => exact (hs₁.trans (shuts_close outq s₁)).congr (by simp [s₁])

/-- The destructor of a connection -/
theorem shuts_endConn (closes : Addr → Bool) (outq : Option Nat) (s : UdpConnectionFactory Addr)
    (a : Addr) :
    Shuts outq (ClosesNow closes s.conn s.count a) s (s.endConn closes outq a) := by
  have h := fOnClose_count closes outq s a
  have hcall := shuts_fOnClose closes outq s a
  have hdec := shuts_dec outq (s.fOnClose closes outq a)
  have hn : (s.fOnClose closes outq a).nbLiveConn = s.nbLiveConn := congrArg Count.nbLiveConn h
  have hw : (s.fOnClose closes outq a).wantCloseFact = (s.wantCloseFact || closes a) :=
    congrArg Count.wantCloseFact h
  rw [hn, hw] at hdec
  unfold endConn
  dsimp only
  split
  · next ho => exact (hcall.trans hdec).congr (by simp [ClosesNow, ho, count])
  · next ho => exact hcall.congr (by simp [ClosesNow, ho, count])

theorem shuts_endConns (closes : Addr → Bool) (outq : Option Nat) (as : List Addr)
    (s : UdpConnectionFactory Addr) :
    Shuts outq (Closes closes s.conn s.count as) s (as.foldl (endConn closes outq) s) := by
  induction as generalizing s with
  | nil =>
    refine (Shuts.refl s).congr (iff_of_false id ?_)
    rintro ⟨hle, hc⟩
    split at hc
    · exact absurd hle (by simpa [owed] using hc)
    · obtain ⟨pre, a, post, hl, -⟩ := hc
      simp at hl
  | cons a as ih =>
    have hhead := shuts_endConn closes outq s a
    have htail := ih (s.endConn closes outq a)
    rw [hhead.conn, endConn_count] at htail
    exact (hhead.trans htail).congr closes_cons.symm

/-- The destructor of the factory calls `Event::close`: the count comes down to 0, and the factory
is to be closed by then, if only because of a callback. -/
def ReachesClose (onClose : Bool) (closes : Addr → Bool) (s : UdpConnectionFactory Addr) : Prop :=
  s.nbLiveConn ≤ owed s.conn s.connections ∧
    if s.wantCloseFact then 0 < s.nbLiveConn
    else onClose = true ∧ 0 ≤ s.nbLiveConn ∨ Closer closes s.conn s.nbLiveConn s.connections

theorem shuts_destroy (onClose : Bool) (closes : Addr → Bool) (outq : Option Nat)
    (s : UdpConnectionFactory Addr) :
    Shuts outq (s.ReachesClose onClose closes) s (s.destroy onClose closes outq) := by
  unfold destroy
  cases onClose with
  | false =>
    refine (shuts_endConns closes outq s.connections s).congr ?_
    cases hw : s.wantCloseFact <;> simp [ReachesClose, Closes, count, hw]
  | true =>
    have hcall := shuts_close outq s
    have hrest := shuts_endConns closes outq s.connections (s.close outq)
    rw [close_conn, close_count] at hrest
    simp only [if_true, close_connections]
    refine (hcall.trans hrest).congr ?_
    cases hw : s.wantCloseFact with
    | true => simp [ReachesClose, Closes, hw]
    | false =>
      have hfirst : 0 ≤ s.nbLiveConn ∨ Closer closes s.conn s.nbLiveConn s.connections ↔
          0 ≤ s.nbLiveConn := or_iff_left_of_imp Closer.nonneg
      simp only [ReachesClose, Closes, hw, true_and, if_true, if_false, Bool.false_eq_true, hfirst]
      omega

/-- The state of a factory that `run` has popped from `del_list`. -/
structure Popped (s : UdpConnectionFactory Addr) : Prop where
  evLoop : s.socket.event.evLoop = true
  nextDel : s.socket.event.nextDel = false

/-- The destructor of a factory pushes it on no list if and only if it does not get to
`Event::close`, or `close_fd` has nothing to push there. -/
theorem destroyed_for_good_iff {s : UdpConnectionFactory Addr} (hs : s.Popped) (onClose : Bool)
    (closes : Addr → Bool) (outq : Option Nat) :
    s.socket.event.SameLists (s.destroy onClose closes outq).socket.event ↔
      ¬ (s.ReachesClose onClose closes ∧ s.socket.event.Pushes s.socket.outAreSent outq) := by
  have h := shuts_destroy onClose closes outq s
  by_cases hc : s.ReachesClose onClose closes
  · rw [h.shut hc, Event.closeFd_sameLists_iff hs.evLoop hs.nextDel]
    exact ⟨fun hp h => hp h.2, fun hp h => hp ⟨hc, h⟩⟩
  · rw [h.kept hc]
    exact iff_of_true ⟨rfl, rfl, rfl⟩ (fun h => hc h.1)

/-- The peer hangs up while two connections are in their handshakes, and no callback closes the
factory. -/
theorem destroyed_for_good_hang_up :
    let n : NewConn := .dtls ⟨false, true, true, true,
      [⟨.wantRead, false, [⟨[7], .none, [⟨1, .zero⟩]⟩]⟩], true⟩
    let s := (run step (.ret (new 5 true)) [.install (fun _ => false) none none,
      .call (.connection 1 n) none, .call (.connection 2 n) none, .fail]).state
    let s' := s.setEvent { s.socket.event with nextDel := false }
    let t := s'.destroy false (fun _ => false) none
    s.socket.event.nextDel = true ∧ (s'.connections = [2, 1] ∧ s'.nbLiveConn = 2) ∧
      (t.connections = [] ∧ t.nbLiveConn = 0) ∧ s'.socket.event.SameLists t.socket.event := by
  intro n s s' t
  have hpopped : s'.Popped := ⟨by decide, by decide⟩
  have hgood := destroyed_for_good_iff hpopped false (fun _ => false) none
  refine ⟨by decide, by decide, by decide, hgood.mpr ?_⟩
  rintro ⟨⟨-, hcall⟩, -⟩
  have hwant : s'.wantCloseFact = false := by decide
  simp [hwant, Closer] at hcall

/-- The first datagram of a client is refused, and user code closes the factory. -/
theorem registered_again :
    let n : NewConn := .dtls ⟨false, true, true, true,
      [⟨.wantRead, false, [⟨[7], .none, [⟨-1, .other 111⟩]⟩]⟩], true⟩
    let s := (run step (.ret (new 5 true)) [.install (fun _ => false) none none,
      .call (.connection 1 n) none, .call .close none]).state
    let s' := s.setEvent { s.socket.event with nextDel := false }
    s.socket.event.nextDel = true ∧
      ¬ s'.socket.event.SameLists (s'.destroy false (fun _ => false) none).socket.event :=
  ⟨by decide, fun h => absurd h.del (by decide)⟩

end UdpConnectionFactory

end Evel
