import Evel.Model.EvLoop
import Evel.Model.Setup
import Evel.Proofs.Event
import Evel.Proofs.LoopLists
import Evel.Proofs.TlsMoves

namespace Evel
open General

namespace Event

/-- An event that a loop can still be given, as it was when it came from `b`. -/
structure Kept (b e : Event) : Prop extends e.Loose where
  nextWork : e.nextWork = b.nextWork

theorem Loose.kept {e : Event} (h : e.Loose) : e.Kept e := ⟨h, rfl⟩

theorem Kept.trans {b e e' : Event} (h : b.Kept e) (h' : e.Kept e') : b.Kept e' :=
  ⟨h'.toLoose, h'.nextWork.trans h.nextWork⟩

theorem loose_new (fd : Int) (needWait : Bool) : (new fd needWait).Loose := ⟨rfl, rfl, rfl⟩

/-- Without a loop the deletion is put off. -/
theorem fail_loose {e : Event} (h : e.evLoop = false) :
    e.fail = { e with hasError := true, delOnInstall := true } := by
  simp [fail, closeFd, closeFdFlags, del, delTarget, register, h]

theorem Loose.fail {e : Event} (h : e.Loose) : e.Kept e.fail := by
  rw [fail_loose h.evLoop]
  exact ⟨⟨h.evLoop, h.nextWaitOut, h.nextDel⟩, rfl⟩

theorem Loose.unregisters {e : Event} (h : e.Loose) : e.unregisters = false := by
  simp [Event.unregisters, h.evLoop]

end Event

namespace EvLoop
open Loop

theorem checkWaitOut_evLoop (s : EvLoop) (h : (s.events x).evLoop = true) :
    (s.checkWaitOut.events x).evLoop = true := by
  rw [checkWaitOut]
  split
  · exact h
  · change ((s.create .waitOut _).events x).evLoop = true
    rw [create_field Event.evLoop]
    split
    · rfl
    · exact h

theorem checkWaitOut_lists (s : EvLoop) :
    s.checkWaitOut.delList = s.delList ∧ s.checkWaitOut.waitOutList = s.waitOutList := by
  rw [checkWaitOut]
  split <;> exact ⟨rfl, rfl⟩

theorem register_evLoop (t : Event.DelTarget) (s : EvLoop) (h : (s.events x).evLoop = true) :
    ((s.register x t).events x).evLoop = true := by
  have hset : ((s.setEvent x ((s.events x).register t)).events x).evLoop = true := by
    rw [setEvent_field Event.evLoop, if_pos rfl, Event.register_evLoop, h]
  cases t with
  | waitOutList =>
    refine checkWaitOut_evLoop _ ?_
    split <;> exact hset
  | delList =>
    simp only [register]
    split <;> exact hset
  | delOnInstall => exact hset

/-- The list that the event was not in before is the one it is in now. -/
theorem register_lists (t : Event.DelTarget) (ht : t ≠ .delOnInstall) (s : EvLoop)
    (hd : (s.events x).nextDel = false) (hw : (s.events x).nextWaitOut = false) :
    x ∈ (s.register x t).delList ∨ x ∈ (s.register x t).waitOutList := by
  cases t with
  | waitOutList =>
    right
    simp [register, hw, (checkWaitOut_lists _).2]
  | delList =>
    left
    simp [register, hd]
  | delOnInstall => exact absurd rfl ht

theorem delTarget_installed (m : Bool) (q : Option Nat) {e : Event} (h : e.evLoop = true) :
    e.delTarget m q ≠ .delOnInstall := by
  simp only [Event.delTarget, h, if_true]
  split_ifs <;> simp

/-- `del` takes an event of the loop to one of its lists. -/
theorem request_del_lists (s : EvLoop) (outq : Option Nat) (hl : (s.events x).evLoop = true)
    (hd : (s.events x).nextDel = false) (hw : (s.events x).nextWaitOut = false) :
    ((s.request x .del outq).events x).evLoop = true ∧
      (x ∈ (s.request x .del outq).delList ∨ x ∈ (s.request x .del outq).waitOutList) := by
  have hself : s.setEvent x (s.events x) = s := by simp [setEvent]
  simp only [request, target, Event.flags, hself, if_true]
  exact ⟨register_evLoop _ s hl, register_lists _ (delTarget_installed _ _ hl) s hd hw⟩

/-- An event that has been put off is deleted when it gets its loop. -/
theorem install_lists (s : EvLoop) (outq : Option Nat) (h : (s.events x).Loose) :
    ((s.install x outq).events x).evLoop = true ∧
      ((s.events x).delOnInstall = true →
        x ∈ (s.install x outq).delList ∨ x ∈ (s.install x outq).waitOutList) := by
  have hev : (s.setEvent x { s.events x with evLoop := true }).events x =
      { s.events x with evLoop := true } := by simp [setEvent]
  simp only [install, h.evLoop, Bool.false_eq_true, if_false]
  split
  · obtain ⟨hl, hm⟩ := request_del_lists (s.setEvent x { s.events x with evLoop := true }) outq
      (by rw [hev]) (by rw [hev]; exact h.nextDel) (by rw [hev]; exact h.nextWaitOut)
    exact ⟨hl, fun _ => hm⟩
  · next hd => exact ⟨by rw [hev], fun hd' => absurd hd' hd⟩

end EvLoop

/-- What is left of an event after a call that came before its loop. -/
structure Survived (failed : Bool) (b e : Event) : Prop extends b.Kept e where
  recorded : failed = true → e.hasError = true ∨ e.delOnInstall = true
  destroyed : e.unregisters = false
  added : ∀ (s : EvLoop) (x : EventId) (outq : Option Nat), s.events x = e →
    ((s.install x outq).events x).evLoop = true ∧
      (e.delOnInstall = true →
        x ∈ (s.install x outq).delList ∨ x ∈ (s.install x outq).waitOutList)

theorem Event.Kept.survived {b e : Event} (h : b.Kept e)
    (hr : failed = true → e.hasError = true ∨ e.delOnInstall = true) : Survived failed b e where
  toKept := h
  recorded := hr
  destroyed := h.unregisters
  added := by
    rintro s x outq rfl
    exact s.install_lists outq h.toLoose

theorem Event.Loose.survived_fail {e : Event} (h : e.Loose) : Survived failed e e.fail :=
  Event.Kept.survived h.fail (fun _ => .inl (Event.fail_hasError e))

namespace Setup

/-- No call fails for good. -/
def smooth : List SysResult → List SysCall → Bool
  | _, [] => true
  | [], _ :: _ => true
  | r :: rs, c :: cs =>
    match r with
    | .moves _ => smooth rs cs
    | .fails x =>
      if c.accepts x then smooth rs cs
      else if c.retries && x = .intr then smooth rs (c :: cs)
      else false

theorem store_kept (c : SysCall) (r : SysResult) {e : Event} (h : e.Loose) :
    e.Kept (c.store r e) := by
  rw [SysCall.store]
  split
  · exact ⟨⟨h.evLoop, h.nextWaitOut, h.nextDel⟩, rfl⟩
  · exact h.kept

/-- Without a loop the report of the first failure ends in `ev_loop`. -/
theorem perform_post {P : Event → Prop} (script : List SysResult) (calls : List SysCall)
    {e : Event} (h : e.Loose)
    (hP : smooth script calls = true → ∀ e', e.Kept e' → P e') :
    (perform script calls e).Post P ↔ smooth script calls = true := by
  induction script generalizing calls e with
  | nil =>
    cases calls with
    | nil => simpa [perform, smooth] using hP rfl e h.kept
    | cons c cs => simp [perform, smooth]
  | cons r rs ih =>
    cases calls with
    | nil => simpa [perform, smooth] using hP rfl e h.kept
    | cons c cs =>
      have hk := store_kept c r h
      have goes : ∀ {calls'}, (smooth rs calls' = true → ∀ e', e.Kept e' → P e') →
          ((perform rs calls' (c.store r e)).Post P ↔ smooth rs calls' = true) :=
        fun hP' => ih _ hk.toLoose (fun hs e' he' => hP' hs e' (hk.trans he'))
      cases r with
      | moves n => exact goes hP
      | fails x =>
        simp only [perform, smooth] at hP ⊢
        by_cases ha : c.accepts x = true
        · simp only [ha, if_true] at hP ⊢
          exact goes hP
        · by_cases hi : (c.retries && decide (x = .intr)) = true
          · simp only [ha, hi, if_true] at hP ⊢
            exact goes hP
          · simp [ha, hi, hk.evLoop]

theorem perform_survived (script : List SysResult) (calls : List SysCall) {e : Event}
    (h : e.Loose) :
    (perform script calls e).Post (Survived (!smooth script calls) e) ↔
      smooth script calls = true :=
  perform_post script calls h (fun hs e' he' => he'.survived (by simp [hs]))

end Setup

namespace UdpSocket
open Udp
variable {Addr : Type u}

/-- `sendto` is called. -/
def sends (data : Buffer) (s : UdpSocket Addr) : Bool :=
  data.bytes.length ≠ 0 && s.waitingSends.isEmpty

/-- `sendto` has taken a part of the datagram. -/
def partly (data : Buffer) (a : SysAnswer) : Bool := 0 < a.count && a.count < data.bytes.length

/-- `sendto` has not sent the datagram, and not because it would have to wait. -/
def loses (data : Buffer) (a : SysAnswer) : Bool :=
  (decide (a.count ≤ 0) && !a.again) || partly data a

theorem addSendItem_event (dst : Addr) (data : Buffer) (allow : Bool) (s : UdpSocket Addr) :
    (s.addSendItem dst data allow).1.event = s.event := by
  cases allow <;> rfl

/-- A short count is reported through `ev_loop`, any other failure is an `on_hup`. -/
theorem sendNow_survived (dst : Addr) (allow : Bool) (script : List SysAnswer)
    {s : UdpSocket Addr} (h : s.event.Loose) (hb : data.bytes.length ≠ 0) :
    (sendNow dst data allow script s).Post (fun r =>
        Survived ((SysAnswer.first script).any (loses data)) s.event r.1.event) ↔
      (SysAnswer.first script).all (fun a => !partly data a) = true := by
  induction script with
  | nil => simp [sendNow]
  | cons a as ih =>
    simp only [sendNow, SysAnswer.first_cons, SysAnswer.real_nonpos hb]
    by_cases hle : a.count ≤ 0
    · have hp : partly data a = false := by simp [partly, Int.not_lt.mpr hle]
      cases hi : a.intr with
      | true => simpa [hle] using ih
      | false =>
        cases hag : a.again with
        | true =>
          have hk : Survived false s.event s.event := h.kept.survived (by simp)
          simpa [hle, loses, hag, hp, addSendItem_event] using hk
        | false =>
          have hf : Survived (loses data a) s.event s.onHup.event := h.survived_fail
          simpa [hle, hp] using hf
    · have hpos : 0 < a.count := by omega
      have hloses : loses data a = partly data a := by simp [loses, hle]
      simp only [hle, if_false, false_and, Exec.post_map, Option.any_some, Option.all_some,
        hloses, accept, SysAnswer.real_toNat]
      by_cases hlt : a.count < data.bytes.length
      · have hp : partly data a = true := by simp [partly, hpos, hlt]
        have hne : min a.count.toNat data.bytes.length ≠ data.bytes.length := by omega
        simp [hp, hne, h.evLoop]
      · have hp : partly data a = false := by simp [partly, hlt]
        have heq : min a.count.toNat data.bytes.length = data.bytes.length := by omega
        have hk : Survived false s.event s.event := h.kept.survived (by simp)
        simpa [hp, heq] using hk

theorem sendRaw_survived (dst : Addr) (data : Buffer) (allow : Bool) (script : List SysAnswer)
    {s : UdpSocket Addr} (h : s.event.Loose) :
    (s.sendRaw dst data allow script).Post (fun r =>
        Survived (s.sends data && (SysAnswer.first script).any (loses data)) s.event
          r.1.event) ↔
      (!s.sends data || (SysAnswer.first script).all (fun a => !partly data a)) = true := by
  have hk : Survived false s.event s.event := h.kept.survived (by simp)
  simp only [sendRaw, sends]
  by_cases hb : data.bytes.length = 0
  · simpa [hb] using hk
  · cases hw : s.waitingSends.isEmpty with
    | true => simpa [hb] using sendNow_survived dst allow script h hb
    | false => simpa [hb, addSendItem_event] using hk

end UdpSocket

/-- The answer that ends the loop around an operation of OpenSSL. -/
def SslError.last (script : List SslError) : Option SslError :=
  script.find? (fun err => err ≠ .syscall .intr)

theorem SslError.last_cons (err : SslError) (script : List SslError) :
    last (err :: script) = if err = .syscall .intr then last script else some err := by
  by_cases h : err = .syscall .intr <;> simp [last, h]

namespace TlsConnection
open Tls

/-- `SSL_write` is called. -/
def writes (data : Buffer) (c : TlsConnection) : Bool :=
  !c.refuses data && !(c.waitingForConnection || !c.waitingSends.isEmpty || c.toRedo ≠ .nothing)

/-- The answer does not lead to `ev_loop`, and no failure is passed over that the event does not
show already. -/
def spares (e : Event) : SslError → Bool
  | .wantRead | .ssl => false
  | .syscall .zero => e.delOnInstall
  | _ => true

theorem sendNow_survived (rese : Nat) (allow : Bool) (script : List SslError) {c : TlsConnection}
    (h : c.event.Loose) (he : c.event.hasError = false) :
    (sendNow data rese allow script c).Post (fun c' =>
        Survived ((SslError.last script).any SslError.fatal) c.event c'.event) ↔
      (SslError.last script).all (spares c.event) = true := by
  have hk : Survived false c.event c.event := h.kept.survived (by simp)
  have hf : Survived true c.event c.event.fail := h.survived_fail
  induction script generalizing c with
  | nil => exact iff_of_true trivial rfl
  | cons err script ih =>
    rw [SslError.last_cons]
    cases err with
    | none => exact iff_of_true hk rfl
    | wantRead => simp [sendNow, spares, throughLoop, h.evLoop, give, log]
    | wantWrite =>
      refine iff_of_true ?_ rfl
      change Survived false c.event (queue data rese allow (c.give data _)).event
      rwa [queue_event]
    | zeroReturn => exact iff_of_true hf rfl
    | ssl => simp [sendNow, spares, sslError, throughLoop, h.evLoop, give, log]
    | syscall errno =>
      cases errno with
      | intr => exact ih h he hk hf
      | zero =>
        constructor
        · intro hs
          have hr : c.event.hasError = true ∨ c.event.delOnInstall = true := hs.recorded rfl
          simpa [spares, he] using hr
        · intro hs
          have hd : c.event.delOnInstall = true := by simpa [spares] using hs
          exact h.kept.survived (fun _ => .inr hd)
      | again => exact iff_of_true hf rfl
      | wouldBlock => exact iff_of_true hf rfl
      | other n => exact iff_of_true hf rfl

theorem send_survived (data : Buffer) (rese : Nat) (allow : Bool) (script : List SslError)
    {c : TlsConnection} (h : c.event.Loose) :
    (c.send data rese allow script).Post (fun c' =>
        Survived (c.writes data && (SslError.last script).any SslError.fatal) c.event
          c'.event) ↔
      (!c.writes data || (SslError.last script).all (spares c.event)) = true := by
  have hk : Survived false c.event c.event := h.kept.survived (by simp)
  simp only [send, writes]
  cases hr : c.refuses data with
  | true => simpa using hk
  | false =>
    have he : c.event.hasError = false := by
      simp only [refuses, Bool.or_eq_false_iff] at hr
      exact hr.1.1.1.2
    cases hq : c.waitingForConnection || !c.waitingSends.isEmpty || decide (c.toRedo ≠ .nothing)
      with
    | true => simpa using hk
    | false => simpa using sendNow_survived rese allow script h he

end TlsConnection

namespace Early
variable {Addr : Type u}

/-- A call of the system or of OpenSSL fails for good. -/
def failed : Early Addr → Bool
  | .listener _ script => !Setup.smooth script Listener.calls
  | .client script => !Setup.smooth script TcpConnection.calls
  | .bind _ _ outq script => !Setup.smooth script (UdpSocket.bindCalls outq)
  | .send s _ _ data _ script =>
    s.sends data && (SysAnswer.first script).any (UdpSocket.loses data)
  | .tlsSend c _ data _ _ script => c.writes data && (SslError.last script).any SslError.fatal

/-- Nothing is reported through `ev_loop` and no failure is passed over: every call of a setup
succeeds in the end, `sendto` does not stop midway, and `SSL_write` is spared. -/
def spared : Early Addr → Bool
  | .listener _ script => Setup.smooth script Listener.calls
  | .client script => Setup.smooth script TcpConnection.calls
  | .bind _ _ outq script => Setup.smooth script (UdpSocket.bindCalls outq)
  | .send s _ _ data _ script =>
    !s.sends data || (SysAnswer.first script).all (fun a => !UdpSocket.partly data a)
  | .tlsSend c _ data _ _ script =>
    !c.writes data || (SslError.last script).all (TlsConnection.spares c.event)

/-- The null `ev_loop` is not followed, a failure is recorded, and the object can be added to a
loop or destroyed. -/
def Survives (o : Early Addr) : Prop := o.outcome.Post (Survived o.failed o.before)

theorem survives_iff (o : Early Addr) : o.Survives ↔ o.spared = true := by
  cases o with
  | listener needWait script => exact Setup.perform_survived _ _ (Event.loose_new _ _)
  | client script =>
    simp only [Survives, outcome, TcpConnection.connectTo, Exec.post_map]
    exact Setup.perform_survived _ _ (Event.loose_new _ _)
  | bind s loose outq script =>
    simp only [Survives, outcome, UdpSocket.bind, Exec.post_map]
    exact Setup.perform_survived _ _ loose
  | send s loose dst data allow script =>
    simp only [Survives, outcome, Exec.post_map]
    exact UdpSocket.sendRaw_survived dst data allow script loose
  | tlsSend c loose data rese allow script =>
    simp only [Survives, outcome, Exec.post_map]
    exact TlsConnection.send_survived data rese allow script loose

example : (Early.client [.fails .intr, .moves 5, .fails .inProgress] : Early Nat).spared = true :=
  rfl

/-- The process has no descriptor left for the socket of a listener. -/
theorem socket_error_reported :
    Listener.new true [.fails (.other 24)] = .undef (Event.new (-1) true) ∧
      ¬ ∀ o : Early Nat, o.Survives := by
  refine ⟨rfl, fun h => ?_⟩
  exact h (.listener true [.fails (.other 24)])

end Early

end Evel
