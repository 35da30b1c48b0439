import Evel.General.History
import Evel.General.Runs
import Evel.Proofs.SocketSteps

namespace Evel.Sockets
open General Loop EvLoop
variable {Addr : Type u}

/-- The event that an answer to SIOCOUTQ is about. -/
def Entry.asks : Entry → Option EventId
  | .asked x _ => some x
  | _ => none

/-- `x` is destroyed when nothing waits to be sent and the last answer to SIOCOUTQ was 0. Without
a descriptor nobody asks. -/
def Drained (x : EventId) (pre : List Entry) (e : Entry) : Prop :=
  ∀ fd sent, e = .destroyed x fd sent → sent = true ∧
    lastOf Entry.asks pre x = if 0 ≤ fd then some (.asked x (some 0)) else none

def LosesNothing (x : EventId) (log : List Entry) : Prop := EachEntry (Drained x) log

/-- The socket has an error, or SIOCOUTQ has failed for it. -/
def Failed (x : EventId) (s : Sockets Addr) : Prop :=
  (s.loop.events x).hasError = true ∨ .asked x none ∈ s.log

instance (x : EventId) (s : Sockets Addr) : Decidable (Failed x s) :=
  inferInstanceAs (Decidable ((s.loop.events x).hasError = true ∨ .asked x none ∈ s.log))

/-- What holds of a socket that is closed gracefully, before and after it is told to close. -/
structure Closing (x : EventId) (s : Sockets Addr) : Prop where
  mayOut : EvLoop.mayHaveOut (s.loop.kind x) = true
  del : x ∈ s.loop.delList → (s.loop.events x).nextDel = true
  wait : x ∈ s.loop.waiting → (s.loop.events x).nextWaitOut = true
  leaving : (s.loop.events x).nextDel = true ∨ (s.loop.events x).nextWaitOut = true ∨
      (s.loop.events x).delOnInstall = true →
    (s.loop.events x).wantCloseFd = true ∧ s.outAreSent x true = true
  told : (s.loop.events x).wantCloseFd = true → .told x ∈ s.log
  inLoop : (s.loop.events x).nextDel = true → (s.loop.events x).evLoop = true
  last : (s.loop.events x).nextDel = true → lastOf Entry.asks s.log x =
    if 0 ≤ (s.loop.events x).fd then some (.asked x (some 0)) else none
  unasked : ¬ 0 ≤ (s.loop.events x).fd → lastOf Entry.asks s.log x = none

/-- The invariant of `x` in a run in which it does not fail. -/
structure Graced (x : EventId) (s : Sockets Addr) : Prop where
  closing : s.sock x ≠ none → s.loop.alive x = true → ¬ Failed x s → Closing x s
  drained : s.sock x ≠ none → ¬ Failed x s → LosesNothing x s.log
  nobody : s.sock x = none → ∀ fd sent, .destroyed x fd sent ∉ s.log

theorem losesNothing_append {log : List Entry} (h : LosesNothing x log)
    (hes : ∀ fd sent, .destroyed x fd sent ∉ es) : LosesNothing x (log ++ es) := by
  refine eachEntry_append h ?_
  rintro pre e post rfl fd sent rfl
  exact absurd (by simp) (hes fd sent)

theorem failed_note {s s' : Sockets Addr} (h : Failed x s)
    (he : (s.loop.events x).hasError = true → (s'.loop.events x).hasError = true)
    (hl : ∀ e ∈ s.log, e ∈ s'.log) : Failed x s' :=
  h.imp he (hl _)

/-- Nothing is claimed of a socket once it has failed. -/
theorem graced_of_failed {s : Sockets Addr} (h : Failed x s) (hk : s.sock x ≠ none) :
    Graced x s :=
  ⟨fun _ _ hn => absurd h hn, fun _ hn => absurd h hn, fun hn => absurd hn hk⟩

theorem outAreSent_congr {s s' : Sockets Addr} (h : s'.sock x = s.sock x) (b : Bool) :
    s'.outAreSent x b = s.outAreSent x b := by
  simp only [outAreSent, h]

theorem lastOf_aside {s s' : Sockets Addr} (h : Aside x s s') :
    lastOf Entry.asks s'.log x = lastOf Entry.asks s.log x := by
  obtain ⟨es, hl, hes⟩ := h.log
  rw [hl]
  refine lastOf_append_other (fun e he ha => ?_)
  cases e with
  | asked y outq => exact hes _ he (Option.some.inj ha)
  | told y => simp [Entry.asks] at ha
  | parsed y => simp [Entry.asks] at ha
  | destroyed y fd sent => simp [Entry.asks] at ha

theorem Closing.aside {s s' : Sockets Addr} (h : Closing x s) (hx : x < s.loop.nextId)
    (ha : Aside x s s') : Closing x s' := by
  have hsame := ha.loop.same (.inl hx)
  obtain ⟨work, later, hev⟩ := hsame.event
  have hlast := lastOf_aside ha
  obtain ⟨es, hl, hes⟩ := ha.log
  constructor
  · rw [hsame.kind]
    exact h.mayOut
  · rw [hev]
    exact fun hd => h.del (hsame.del hd)
  · rw [hev]
    exact fun hw => h.wait (hsame.wait hw)
  · rw [hev, outAreSent_congr ha.sock]
    exact h.leaving
  · rw [hev, hl]
    exact fun hw => List.mem_append_left _ (h.told hw)
  · rw [hev]
    exact h.inLoop
  · rw [hev, hlast]
    exact h.last
  · rw [hev, hlast]
    exact h.unasked

theorem Failed.aside {s s' : Sockets Addr} (h : Failed x s) (hx : x < s.loop.nextId)
    (ha : Aside x s s') : Failed x s' := by
  obtain ⟨work, later, hev⟩ := (ha.loop.same (.inl hx)).event
  obtain ⟨es, hl, -⟩ := ha.log
  refine failed_note h (fun he => ?_) (fun e he => ?_)
  · rw [hev]
    exact he
  · rw [hl]
    exact List.mem_append_left _ he

/-- A step that keeps the invariant of `x`. -/
structure Fair (x : EventId) (s s' : Sockets Addr) : Prop where
  nextId : s.loop.nextId ≤ s'.loop.nextId
  graced : Graced x s → Graced x s'

theorem Fair.refl (x : EventId) (s : Sockets Addr) : Fair x s s := ⟨Nat.le_refl _, id⟩

theorem Fair.trans {s s' s'' : Sockets Addr} (h : Fair x s s') (h' : Fair x s' s'') :
    Fair x s s'' := ⟨Nat.le_trans h.nextId h'.nextId, fun hg => h'.graced (h.graced hg)⟩

theorem fair_of_aside {s s' : Sockets Addr} (hx : x < s.loop.nextId) (h : Aside x s s') :
    Fair x s s' := by
  obtain ⟨es, hl, hes⟩ := h.log
  have hnone : ∀ fd sent, .destroyed x fd sent ∉ es := fun fd sent he => hes _ he rfl
  refine ⟨h.loop.nextId, fun hg => ⟨fun hk ha hn => ?_, fun hk hn => ?_, fun hk fd sent he => ?_⟩⟩
  · have ha : s.loop.alive x = true := (h.loop.same (.inl hx)).alive ▸ ha
    exact (hg.closing (h.sock ▸ hk) ha (fun hf => hn (hf.aside hx h))).aside hx h
  · rw [hl]
    exact losesNothing_append (hg.drained (h.sock ▸ hk) (fun hf => hn (hf.aside hx h))) hnone
  · rw [hl] at he
    rcases List.mem_append.mp he with he | he
    · exact hg.nobody (h.sock ▸ hk) fd sent he
    · exact hnone fd sent he

/-- Without an error, `del` asks SIOCOUTQ where there is a descriptor, and goes by the answer. -/
theorem delTarget_eq {e : Event} (hl : e.evLoop = true) (he : e.hasError = false)
    (outq : Option Nat) : e.delTarget true outq =
      if 0 ≤ e.fd ∧ outq.getD 0 ≠ 0 then .waitOutList else .delList := by
  by_cases hfd : 0 ≤ e.fd <;> simp [Event.delTarget, hl, he, hfd]

/-- The event, told to close with nothing left to send, has been registered by `del`. -/
theorem Closing.registered {s s' : Sockets Addr} (h : Closing x s) (t : Event.DelTarget)
    (hb : Became x ({ s.loop.events x with wantCloseFd := true }.register t) (some t) s.loop
      s'.loop) (hsock : s'.sock x = s.sock x) (hsent : s.outAreSent x true = true)
    (hd : (s.loop.events x).nextDel = false) (hl : s'.log = s.log ++ .told x :: es)
    (hlast : t = .delList → (s.loop.events x).evLoop = true ∧ lastOf Entry.asks s'.log x =
      if 0 ≤ (s.loop.events x).fd then some (.asked x (some 0)) else none)
    (hes : ¬ 0 ≤ (s.loop.events x).fd → es = []) : Closing x s' := by
  obtain ⟨work, later, hev⟩ := hb.event
  have htold : .told x ∈ s'.log := by simp [hl]
  have hfd : ({ s.loop.events x with wantCloseFd := true }.register t).fd =
      (s.loop.events x).fd := by cases t <;> rfl
  have hdel : ({ s.loop.events x with wantCloseFd := true }.register t).nextDel = true →
      t = .delList := by
    intro hn
    cases t with
    | delList => rfl
    | waitOutList => exact absurd (hd.symm.trans hn) (by simp)
    | delOnInstall => exact absurd (hd.symm.trans hn) (by simp)
  constructor
  · rw [hb.kind]
    exact h.mayOut
  · intro hm
    rw [hev]
    rcases hb.del hm with hm | ht
    · exact absurd (hd.symm.trans (h.del hm)) (by simp)
    · rw [Option.some.inj ht]
      rfl
  · intro hm
    rw [hev]
    rcases hb.wait hm with hm | ht
    · have := h.wait hm
      cases t <;> simp [Event.register, this]
    · rw [Option.some.inj ht]
      rfl
  · rw [hev, outAreSent_congr hsock]
    exact fun _ => ⟨by simp, hsent⟩
  · exact fun _ => htold
  · rw [hev]
    exact fun hn => (Event.register_evLoop t _).trans (hlast (hdel hn)).1
  · rw [hev]
    intro hn
    rw [(hlast (hdel hn)).2]
    exact hfd ▸ rfl
  · rw [hev]
    intro hn
    have hn : ¬ 0 ≤ (s.loop.events x).fd := hfd ▸ hn
    rw [hl, hes hn, lastOf_append_other (by simp [Entry.asks])]
    exact h.unasked hn

/-- `del` is called for a closing event with nothing left to send. -/
theorem Closing.delete {s : Sockets Addr} (h : Closing x s) (hx : x < s.loop.nextId)
    (hf : (s.loop.events x).flags (s.actual x r) =
      ({ s.loop.events x with wantCloseFd := true }, true))
    (hsent : s.outAreSent x true = true) (hd : (s.loop.events x).nextDel = false)
    (hn : ¬ Failed x (s.request x r outq)) : Closing x (s.request x r outq) := by
  obtain ⟨hreq, htarget⟩ := requested_of_del hf outq
  have hb := became_request hx (s.actual x r) outq
  rw [hreq, htarget, h.mayOut] at hb
  have hb : Became x ({ s.loop.events x with wantCloseFd := true }.del true outq)
    (some ({ s.loop.events x with wantCloseFd := true }.delTarget true outq)) s.loop
      (s.request x r outq).loop := hb
  have he : (s.loop.events x).hasError = false := by
    obtain ⟨work, later, hev⟩ := hb.event
    have hfail : ((s.request x r outq).loop.events x).hasError =
        (s.loop.events x).hasError := by
      rw [hev]
      exact Event.del_hasError true outq _
    cases hcase : (s.loop.events x).hasError with
    | false => rfl
    | true => exact absurd (.inl (hfail.trans hcase)) hn
  have hasks : asksOutq x (s.actual x r) s.loop =
      ((s.loop.events x).evLoop && decide (0 ≤ (s.loop.events x).fd)) := by
    simp [asksOutq, hf, he, h.mayOut]
  have hlog : (s.request x r outq).log = s.log ++ .told x ::
      if asksOutq x (s.actual x r) s.loop then [.asked x outq] else [] := rfl
  refine h.registered _ hb rfl hsent hd hlog (fun ht => ?_) (fun hfd => by simp [hasks, hfd])
  have hl : (s.loop.events x).evLoop = true := by
    refine by_contra fun hl => ?_
    simp [Event.delTarget, hl] at ht
  refine ⟨hl, ?_⟩
  rw [delTarget_eq (e := { s.loop.events x with wantCloseFd := true }) hl he] at ht
  by_cases hfd : 0 ≤ (s.loop.events x).fd
  · have hlog : (s.request x r outq).log = s.log ++ [.told x] ++ [.asked x outq] := by
      simp [hlog, hasks, hl, hfd]
    cases outq with
    | none => exact absurd (.inr (by simp [hlog])) hn
    | some n =>
      obtain rfl : n = 0 := by simpa [hfd] using ht
      rw [hlog, lastOf_append_self Entry.asks rfl, if_pos hfd]
  · rw [hlog, hasks]
    simp only [hfd, decide_false, Bool.and_false, Bool.false_eq_true, if_false]
    rw [lastOf_append_other (by simp [Entry.asks]), h.unasked hfd]

theorem request_log (x : EventId) (r : Request) (outq : Option Nat) (s : Sockets Addr) :
    ∀ fd sent, .destroyed x fd sent ∉ .told x ::
      if asksOutq x (s.actual x r) s.loop then [Entry.asked x outq] else [] := by
  intro fd sent
  split <;> simp

/-- A failure stays. -/
theorem Failed.request {s : Sockets Addr} (h : Failed x s) (hx : x < s.loop.nextId)
    (r : Request) (outq : Option Nat) : Failed x (s.request x r outq) := by
  obtain ⟨work, later, hev⟩ := request_event hx r outq
  refine failed_note h (fun he => ?_) (fun e he => List.mem_append_left _ he)
  rw [hev]
  exact requested_hasError he

/-- The event is told to close while there is still something to send, or once more. -/
theorem Closing.mark {s : Sockets Addr} (h : Closing x s) (hx : x < s.loop.nextId)
    (hf : (s.loop.events x).flags (s.actual x r) =
      ({ s.loop.events x with wantCloseFd := true }, false)) :
    Closing x (s.request x r outq) := by
  obtain ⟨hreq, htarget⟩ := requested_of_stay hf outq
  have hb := became_request hx (s.actual x r) outq
  rw [hreq, htarget] at hb
  have hb : Became x { s.loop.events x with wantCloseFd := true } none s.loop
    (s.request x r outq).loop := hb
  obtain ⟨work, later, hev⟩ := hb.event
  have hlog : (s.request x r outq).log = s.log ++ [.told x] := by
    have hasks : asksOutq x (s.actual x r) s.loop = false := by simp [asksOutq, hf]
    have hlog : (s.request x r outq).log = s.log ++ .told x ::
      if asksOutq x (s.actual x r) s.loop then [.asked x outq] else [] := rfl
    simpa [hasks] using hlog
  have hlast : lastOf Entry.asks (s.request x r outq).log x = lastOf Entry.asks s.log x := by
    rw [hlog]
    exact lastOf_append_other (by simp [Entry.asks])
  constructor
  · rw [hb.kind]
    exact h.mayOut
  · rw [hev]
    exact fun hd => h.del ((hb.del hd).elim id (fun ht => by simp at ht))
  · rw [hev]
    exact fun hw => h.wait ((hb.wait hw).elim id (fun ht => by simp at ht))
  · rw [hev]
    exact fun hl => ⟨rfl, (h.leaving hl).2⟩
  · exact fun _ => by simp [hlog]
  · rw [hev]
    exact h.inLoop
  · rw [hev, hlast]
    exact h.last
  · rw [hev, hlast]
    exact h.unasked

/-- A request that fails the socket, or after which it is closing. -/
theorem fair_request {s : Sockets Addr} (hx : x < s.loop.nextId)
    (hr : s.sock x ≠ none → ¬ Failed x (s.request x r outq) → Closing x s →
      Closing x (s.request x r outq)) : Fair x s (s.request x r outq) := by
  have hb := became_request hx (s.actual x r) outq
  have hfailed : ¬ Failed x (s.request x r outq) → ¬ Failed x s :=
    fun hn h => hn (h.request hx r outq)
  refine ⟨hb.nextId, fun hg => ⟨fun hk ha hn => ?_, fun hk hn => ?_, fun hk fd sent he => ?_⟩⟩
  · exact hr hk hn (hg.closing hk (hb.alive.symm.trans ha) (hfailed hn))
  · exact losesNothing_append (hg.drained hk (hfailed hn)) (request_log x r outq s)
  · exact (List.mem_append.mp he).elim (hg.nobody hk fd sent)
      (fun he => request_log x r outq s fd sent he)

theorem fair_close {s : Sockets Addr} (hx : x < s.loop.nextId) (other : Bool)
    (outq : Option Nat) : Fair x s (s.request x (.close other) outq) := by
  refine fair_request hx (fun hk hn h => ?_)
  have he : (s.loop.events x).hasError = false := by
    refine by_contra fun he => hn (Failed.request (.inl ?_) hx _ outq)
    simpa using he
  have hsent : s.outAreSent x other = s.outAreSent x true := by
    cases hs : s.sock x with
    | none => exact absurd hs hk
    | some k => simp [outAreSent, hs]
  have hactual : s.actual x (.close other) = .close (s.outAreSent x true) := by
    simp [actual, hsent]
  by_cases hw : (s.loop.events x).wantCloseFd = true
  · refine h.mark hx ?_
    have hsame : { s.loop.events x with wantCloseFd := true } = s.loop.events x := by rw [← hw]
    have hflags : (s.loop.events x).flags (s.actual x (.close other)) =
        (s.loop.events x, false) := by
      simp [hactual, Event.flags, Event.closeFdFlags, he, hw]
    exact hflags.trans (congrArg (fun e => (e, false)) hsame.symm)
  · have hw : (s.loop.events x).wantCloseFd = false := by simpa using hw
    cases hs : s.outAreSent x true with
    | false =>
      refine h.mark hx ?_
      simp [hactual, hs, Event.flags, Event.closeFdFlags, he, hw]
    | true =>
      refine h.delete hx ?_ hs ?_ hn
      · simp [hactual, hs, Event.flags, Event.closeFdFlags, he, hw]
      · refine by_contra fun hd => ?_
        have := (h.leaving (.inl (by simpa using hd))).1
        simp [hw] at this

theorem failed_fail {s : Sockets Addr} (hx : x < s.loop.nextId) (outq : Option Nat) :
    Failed x (s.request x .fail outq) := by
  obtain ⟨work, later, hev⟩ := request_event hx .fail outq
  refine .inl ?_
  rw [hev]
  simp only [actual, requested]
  split
  · rfl
  · exact Event.register_hasError _ _

theorem fair_fail {s : Sockets Addr} (hx : x < s.loop.nextId) (outq : Option Nat) :
    Fair x s (s.request x .fail outq) :=
  fair_request hx (fun _ hn => absurd (failed_fail hx outq) hn)

/-- The deletions that are not asked for by user code. -/
theorem fair_delete {s : Sockets Addr} (hx : x < s.loop.nextId)
    (hd : s.sock x ≠ none → ¬ Failed x s → Closing x s →
      (s.loop.events x).wantCloseFd = true ∧ s.outAreSent x true = true ∧
        (s.loop.events x).nextDel = false) (outq : Option Nat) :
    Fair x s (s.request x .del outq) := by
  refine fair_request hx (fun hk hn h => ?_)
  obtain ⟨hw, hs, hd⟩ := hd hk (fun hf => hn (hf.request hx .del outq)) h
  refine h.delete hx ?_ hs hd hn
  have : { s.loop.events x with wantCloseFd := true } = s.loop.events x := by rw [← hw]
  simp [actual, Event.flags, this]

theorem fair_notify {s : Sockets Addr} (hx : x < s.loop.nextId) (b : Bool)
    (outq : Option Nat) : Fair x s (if b then s.request x .fail outq else s) := by
  cases b with
  | true => exact fair_fail hx outq
  | false => exact .refl x s

/-- A call leaves the socket in the state `k`: if it is leaving, still with nothing to send. -/
theorem fair_put {s : Sockets Addr} (hx : x < s.loop.nextId) (hk : s.sock x ≠ none)
    (hout : Closing x s → (s.loop.events x).nextDel = true ∨
      (s.loop.events x).nextWaitOut = true ∨ (s.loop.events x).delOnInstall = true →
      k.outAreSent = true) :
    Fair x s (s.put x k) ∧ (¬ Failed x (s.put x k) →
      (s.put x k).loop.events x = s.loop.events x) := by
  simp only [put]
  split
  · refine ⟨⟨Nat.le_refl _, fun hg => ⟨fun _ ha hn => ?_, fun _ hn => hg.drained hk hn,
      fun h => by simp at h⟩⟩, fun _ => rfl⟩
    have h := hg.closing hk ha hn
    exact { h with leaving := fun hl => ⟨(h.leaving hl).1, by simp [outAreSent, hout h hl]⟩ }
  · have hf := failed_fail (s := { s with sock := Function.update s.sock x (some k) }) hx none
    refine ⟨⟨(became_request (s := s.loop) hx .fail none).nextId, fun _ => ?_⟩,
      fun hn => absurd hf hn⟩
    exact graced_of_failed hf (by simp [request, note])

theorem fair_afterOut {s : Sockets Addr} (hx : x < s.loop.nextId)
    (hd : ¬ Failed x s → (s.loop.events x).nextDel = false) (mask : Mask)
    (outq : Option Nat) : Fair x s (s.afterOut x mask outq) := by
  rw [afterOut]
  split
  · next h =>
    simp only [Bool.and_eq_true] at h
    exact fair_delete hx (fun _ hn _ => ⟨h.1.2, h.2, hd hn⟩) outq
  · exact .refl x s

theorem fair_installed {s : Sockets Addr} (x : EventId) : Fair x s (s.installed x) := by
  have hfailed : ¬ Failed x (s.installed x) → ¬ Failed x s := by
    intro hn hf
    exact hn (failed_note hf (fun he => by simpa using he) (fun _ => id))
  refine ⟨Nat.le_refl _, fun hg => ⟨fun hk ha hn => ?_, fun hk hn => hg.drained hk (hfailed hn),
    hg.nobody⟩⟩
  have h := hg.closing hk ha (hfailed hn)
  have hev := installed_event x s
  constructor
  · exact h.mayOut
  · rw [hev]
    exact h.del
  · rw [hev]
    exact h.wait
  · rw [hev]
    exact h.leaving
  · rw [hev]
    exact h.told
  · simp
  · rw [hev]
    exact h.last
  · rw [hev]
    exact h.unasked

theorem fair_install {s : Sockets Addr} (hx : x < s.loop.nextId)
    (ha : s.loop.alive x = true) (outq : Option Nat) : Fair x s (s.install x outq) := by
  rw [install_eq]
  split
  · exact .refl x s
  · next hl =>
    split
    · next hi =>
      refine ⟨Nat.le_trans (Nat.le_refl _) ?_, fun hg => ?_⟩
      · exact (became_request (s := (s.installed x).loop) hx .del outq).nextId
      · have hd : s.sock x ≠ none → ¬ Failed x (s.installed x) →
            (s.loop.events x).nextDel = false := by
          intro hk hn
          have hn' : ¬ Failed x s := fun hf =>
            hn (failed_note hf (fun he => by simpa using he) (fun _ => id))
          refine by_contra fun hd => ?_
          exact hl ((hg.closing hk ha hn').inLoop (by simpa using hd))
        refine (fair_delete (s := s.installed x) hx (fun hk hn h => ?_) outq).graced
          ((fair_installed x).graced hg)
        have hleave := h.leaving (.inr (.inr (by simpa using hi)))
        exact ⟨hleave.1, hleave.2, by simpa using hd hk hn⟩
    · exact fair_installed x

/-- Where nothing waits, `on_out` sends nothing. -/
theorem onOut_sent {k : Sock Addr} (h : k.outAreSent = true) (script : List SysAnswer) :
    k.onOut script = .ret k := by
  cases k with
  | tcp c =>
    have hw : c.waitingSends = [] := List.isEmpty_iff.mp h
    simp [Sock.onOut, TcpConnection.onOut, hw, Exec.map]
  | udp u =>
    have hw : u.waitingSends = [] := List.isEmpty_iff.mp h
    simp [Sock.onOut, UdpSocket.onOut, hw, UdpSocket.drain, Exec.map]

theorem withEvent_outAreSent (e : Event) (k : Sock Addr) :
    (k.withEvent e).outAreSent = k.outAreSent := by cases k <;> rfl

/-- The socket at hand after its `on_out`. -/
structure Sent (x : EventId) (s s' : Sockets Addr) : Prop where
  fair : Fair x s s'
  sock : s'.sock x ≠ none
  nextDel : ¬ Failed x s' → (s'.loop.events x).nextDel = false

theorem sent_put {s : Sockets Addr} (hx : x < s.loop.nextId) (hk : s.sock x = some k)
    (hd : (s.loop.events x).nextDel = false) {e : Exec (Sock Addr)}
    (he : (k.withEvent (s.loop.events x)).onOut script = e) : Sent x s (s.put x e.state) := by
  have hput := fair_put hx (by simp [hk]) (k := e.state) (fun h hl => ?_)
  · refine ⟨hput.1, ?_, fun hn => by rw [hput.2 hn, hd]⟩
    simp only [put]
    split <;> simp [request, note]
  · have hsent : k.outAreSent = true := by simpa [outAreSent, hk] using (h.leaving hl).2
    rw [onOut_sent (by rw [withEvent_outAreSent, hsent])] at he
    rw [← he]
    exact (withEvent_outAreSent _ k).trans hsent

theorem fair_goto (x : EventId) (p : Phase) (s : Sockets Addr) : Fair x s (s.goto p) :=
  ⟨Nat.le_refl _, fun hg => ⟨fun hk ha hn => { hg.closing hk ha hn with }, hg.drained,
    hg.nobody⟩⟩

theorem fair_advance (x : EventId) (batch : List (EventId × Mask)) (s : Sockets Addr) :
    Fair x s (s.advance batch) := by
  cases batch with
  | nil => exact fair_goto x _ s
  | cons p rest => exact fair_goto x _ s

theorem fair_handle {s : Sockets Addr} (hx : x < s.loop.nextId) (hk : s.sock x = some k)
    (mask : Mask) (stage : Stage) (rest : List (EventId × Mask)) (outq : Option Nat)
    (script : List SysAnswer) :
    (s.handle x mask stage rest outq script k).Split (Fair x s) (Fair x s) := by
  have hsome : s.sock x ≠ none := by simp [hk]
  apply split_handle stage (M := Sent x s)
  case hskip => exact fair_advance x rest s
  case hout => exact fun hd _ he => sent_put hx hk hd he
  case hnone => exact fun hd => ⟨.refl x s, hsome, fun _ => hd⟩
  case hstuck => exact fun _ h => h.fair
  case hafter =>
    intro s' h
    have hx' := Nat.lt_of_lt_of_le hx h.fair.nextId
    exact (h.fair.trans (fair_afterOut hx' h.nextDel mask outq)).trans (fair_goto x _ _)
  case hidle => exact .refl x s
  case hread =>
    intro _ _
    exact ⟨Nat.le_refl _, fun hg => ⟨fun hk ha hn => { hg.closing hk ha hn with },
      hg.drained, hg.nobody⟩⟩
  case hpass => exact fair_goto x _ s
  case hfail => exact fun b _ => (fair_notify hx b outq).trans (fair_goto x _ _)
  case hlast => exact fun b => (fair_notify hx b outq).trans (fair_advance x rest _)

/-- Only sockets are reported destroyed. -/
theorem entries_socket {s : Sockets Addr} (he : .destroyed x fd sent ∈ s.entries outq) :
    s.sock x ≠ none := by
  have hend : ∀ y, .destroyed x fd sent ∈ s.obituary y → s.sock x ≠ none := by
    intro y he
    have hxy := obituary_about y s _ he
    rw [obituary] at he
    split at he
    · next k hk =>
      obtain rfl : x = y := hxy
      simp [hk]
    · simp at he
  simp only [entries] at he
  split at he
  · split at he
    · exact hend _ he
    · simp at he
  · split at he
    · rcases List.mem_append.mp he with he | he
      · split at he <;> simp at he
      · split at he
        · exact hend _ he
        · simp at he
    · simp at he
  · simp at he

/-- `run` takes `x` from `del_list`, where `del` has put it with the answer 0. -/
theorem Graced.pop {s : Sockets Addr} (hg : Graced x s) (hk : s.sock x = some k)
    (ha : s.loop.alive x = true) (hn : ¬ Failed x s) (hd : x ∈ s.loop.delList) :
    LosesNothing x (s.log ++ s.obituary x) := by
  have h := hg.closing (by simp [hk]) ha hn
  have hdel := h.del hd
  simp only [obituary, hk]
  refine eachEntry_snoc (hg.drained (by simp [hk]) hn) ?_
  rintro fd sent heq
  obtain ⟨-, rfl, rfl⟩ := Entry.destroyed.inj heq
  exact ⟨by simpa [outAreSent, hk] using (h.leaving (.inl hdel)).2, h.last hdel⟩

/-- `WaitOut::timeout` asks before it destroys `x`. -/
theorem Graced.expire {s : Sockets Addr} (hg : Graced x s) (hk : s.sock x = some k)
    (ha : s.loop.alive x = true) (hn : ¬ Failed x s) (hw : x ∈ s.loop.waiting)
    (hp : pendingOut outq (s.loop.events x) = 0)
    (hq : 0 ≤ (s.loop.events x).fd → outq ≠ none) :
    LosesNothing x (s.log ++
      (if 0 ≤ (s.loop.events x).fd then [Entry.asked x outq] else []) ++ s.obituary x) := by
  have h := hg.closing (by simp [hk]) ha hn
  have hwait := h.wait hw
  have hlog := hg.drained (by simp [hk]) hn
  simp only [obituary, hk]
  refine eachEntry_snoc (losesNothing_append hlog (by split <;> simp)) ?_
  rintro fd sent heq
  obtain ⟨-, rfl, rfl⟩ := Entry.destroyed.inj heq
  refine ⟨by simpa [outAreSent, hk] using (h.leaving (.inr (.inl hwait))).2, ?_⟩
  by_cases hfd : 0 ≤ (s.loop.events x).fd
  · obtain ⟨n, rfl⟩ := Option.ne_none_iff_exists'.mp (hq hfd)
    obtain rfl : n = 0 := by simpa [pendingOut, hfd] using hp
    simp only [hfd, if_true]
    exact lastOf_append_self Entry.asks rfl
  · simp only [hfd, if_false, List.append_nil]
    exact h.unasked hfd

/-- `WaitOut::timeout` puts `x` back, which is not in `del_list`. -/
theorem Closing.renew {s : Sockets Addr} (h : Closing x s) (hs : Same x s.loop l)
    (hd : (s.loop.events x).nextDel ≠ true) (hfd : 0 ≤ (s.loop.events x).fd) :
    Closing x ({ s with loop := l }.note [.asked x outq]) := by
  obtain ⟨work, later, hev⟩ := hs.event
  have hev : ({ s with loop := l }.note [.asked x outq]).loop.events x =
      { s.loop.events x with nextWork := work, workOnInstall := later } := hev
  constructor
  · exact hs.kind ▸ h.mayOut
  · rw [hev]
    exact fun hm => h.del (hs.del hm)
  · rw [hev]
    exact fun hm => h.wait (hs.wait hm)
  · rw [hev]
    exact h.leaving
  · rw [hev]
    exact fun hw => List.mem_append_left _ (h.told hw)
  · rw [hev]
    exact fun hn => absurd hn hd
  · rw [hev]
    exact fun hn => absurd hn hd
  · rw [hev]
    exact fun hn => absurd hfd hn

theorem entries_dels {s : Sockets Addr} (hp : s.loop.phase = .dels)
    (hx : s.loop.examined = some x) : s.entries outq = s.obituary x := by
  simp only [examined, hp] at hx
  simp only [entries, hp]
  cases hd : s.loop.delList with
  | nil => simp [hd] at hx
  | cons y ys =>
    obtain rfl : y = x := by simpa [hd] using hx
    rfl

theorem ticking_phase {p : Phase} (h : ticking p = true) :
    ∃ w mask rest, p = .batch w mask .tick rest := by
  cases p with
  | batch w mask stage rest =>
    cases stage with
    | tick => exact ⟨w, mask, rest, rfl⟩
    | _ => simp [ticking] at h
  | _ => simp [ticking] at h

theorem entries_tick {s : Sockets Addr} (hp : ticking s.loop.phase = true)
    (hx : s.loop.examined = some x) :
    s.entries outq = (if 0 ≤ (s.loop.events x).fd then [Entry.asked x outq] else []) ++
      if pendingOut outq (s.loop.events x) = 0 then s.obituary x else [] := by
  obtain ⟨w, mask, rest, hp⟩ := ticking_phase hp
  simp only [examined, hp] at hx
  simp only [entries, hp]
  cases hc : s.loop.chain with
  | nil => simp [hc] at hx
  | cons y ys =>
    obtain rfl : y = x := by simpa [hc] using hx
    rfl

/-- The loop examines `x`, and does not put it back in `wait_out_list` from `del_list`. -/
theorem fair_examined {s : Sockets Addr} (hx : s.loop.examined = some x)
    (hn : s.loop.atHand ≠ some x)
    (hs : ticking s.loop.phase = true → (s.loop.events x).nextDel = true →
      pendingOut outq (s.loop.events x) = 0) (outAreSent : Bool) :
    (s.others outAreSent outq).Split (Fair x s) (Fair x s) := by
  rw [others]
  obtain hu | ⟨l, hl, ha, hid, ⟨d, hev⟩, hend⟩ := next_examined hx hn outAreSent outq
  · rw [hu]
    exact .refl x s
  · rw [hl]
    refine ⟨Nat.le_of_eq hid.symm, fun hg => ?_⟩
    have hnobody : s.sock x = none → ∀ fd sent, .destroyed x fd sent ∉ s.log ++ s.entries outq :=
      fun hk fd sent he => (List.mem_append.mp he).elim (hg.nobody hk fd sent)
        (fun he => entries_socket he hk)
    have hfailed : ¬ Failed x ({ s with loop := l }.note (s.entries outq)) → ¬ Failed x s := by
      refine fun hn hf => hn (failed_note hf (fun he => ?_) (fun e he => List.mem_append_left _ he))
      exact (congrArg Event.hasError hev).trans he
    obtain ⟨hp, hdead⟩ | ⟨hp, hpend, hdead⟩ | ⟨hp, hpend, hsame⟩ := hend
    · refine ⟨fun _ ha' => absurd (hdead.symm.trans ha') (by simp), fun hk hn => ?_, hnobody⟩
      obtain ⟨k, hk⟩ := Option.ne_none_iff_exists'.mp hk
      have hmem : x ∈ s.loop.delList := by
        simp only [examined, hp] at hx
        exact List.mem_of_mem_head? hx
      have hlog := hg.pop hk ha (hfailed hn) hmem
      have hentries : s.entries outq = s.obituary x := entries_dels hp hx
      rwa [← hentries] at hlog
    · refine ⟨fun _ ha' => absurd (hdead.symm.trans ha') (by simp), fun hk hn => ?_, hnobody⟩
      obtain ⟨k, hk⟩ := Option.ne_none_iff_exists'.mp hk
      have hentries : s.entries outq = _ := entries_tick hp hx
      rw [if_pos hpend] at hentries
      have hmem : x ∈ s.loop.waiting := by
        obtain ⟨w, mask, rest, hp⟩ := ticking_phase hp
        simp only [examined, hp] at hx
        have := List.mem_of_mem_head? hx
        simp [waiting, this]
      have hlog := hg.expire hk ha (hfailed hn) hmem hpend (fun hfd hnone => ?_)
      · rwa [List.append_assoc, ← hentries] at hlog
      · subst hnone
        exact hn (.inr (by simp [note, hentries, hfd]))
    · have hfd : 0 ≤ (s.loop.events x).fd := by
        refine by_contra fun hfd => hpend ?_
        simp [pendingOut, hfd]
      have hentries : s.entries outq = [.asked x outq] := by
        simp [entries_tick hp hx, hpend, hfd]
      refine ⟨fun hk _ hn => ?_, fun hk hn => ?_, hnobody⟩
      · have h := hg.closing hk ha (hfailed hn)
        dsimp only
        rw [hentries]
        exact h.renew hsame (fun hd => hpend (hs hp hd)) hfd
      · have hlog := hg.drained hk (hfailed hn)
        exact losesNothing_append hlog (by simp [hentries])

/-- `WaitOut::timeout` puts no event back in `wait_out_list` that is in `del_list` as well. -/
def Settled (x : EventId) (e : Exec (Sockets Addr)) (i : Input Addr) : Prop :=
  match e, i with
  | .ret s, .next _ outq _ => s.loop.examined = some x → ticking s.loop.phase = true →
      (s.loop.events x).nextDel = true → pendingOut outq (s.loop.events x) = 0
  | _, _ => True

instance (x : EventId) : (e : Exec (Sockets Addr)) → (i : Input Addr) → Decidable (Settled x e i)
  | .ret s, .next _ outq _ => inferInstanceAs (Decidable (s.loop.examined = some x →
      ticking s.loop.phase = true → (s.loop.events x).nextDel = true →
      pendingOut outq (s.loop.events x) = 0))
  | .ret _, .create _ _ _ | .ret _, .tcp _ _ | .ret _, .udp _ _ | .ret _, .tcpSend _ _ _ _ _
  | .ret _, .udpSend _ _ _ _ _ | .ret _, .install _ _ | .ret _, .request _ _ _
  | .ret _, .regWork _ | .ret _, .addWork _ | .ret _, .poll _ | .ret _, .recv _
  | .hang _, _ | .undef _, _ => .isTrue trivial

def sendsTo : Input Addr → Option EventId
  | .tcpSend x _ _ _ _ | .udpSend x _ _ _ _ => some x
  | _ => none

def deletes : Input Addr → Option EventId
  | .request x .del _ => some x
  | _ => none

/-- User code does not delete `x`, sends nothing once it has told it to close, and `x` has no error
and no SIOCOUTQ that fails. -/
def Graceful (x : EventId) (e : Exec (Sockets Addr)) (i : Input Addr) : Prop :=
  deletes i ≠ some x ∧ (sendsTo i = some x → .told x ∉ e.state.log) ∧
    ¬ Failed x (step e i).state

instance (x : EventId) (e : Exec (Sockets Addr)) (i : Input Addr) : Decidable (Graceful x e i) :=
  inferInstanceAs (Decidable (deletes i ≠ some x ∧
    (sendsTo i = some x → .told x ∉ e.state.log) ∧ ¬ Failed x (step e i).state))

/-- A step of the loop that has no socket at hand, or another one. -/
theorem fair_others {s : Sockets Addr} (hk : Known s) (hx : x < s.loop.nextId)
    (hn : s.loop.atHand = some x → s.sock x = none)
    (hs : s.loop.examined = some x → ticking s.loop.phase = true →
      (s.loop.events x).nextDel = true → pendingOut outq (s.loop.events x) = 0)
    (outAreSent : Bool) : (s.others outAreSent outq).Split (Fair x s) (Fair x s) := by
  by_cases hhand : s.loop.atHand = some x
  · -- no socket, of which nothing is claimed
    have hnone := hn hhand
    have hnext := hk.others outAreSent outq
    rw [others, Exec.split_bimap] at hnext ⊢
    refine hnext.mono (fun l h => ⟨h, fun hg => ?_⟩) (fun l h => ⟨h, fun hg => ?_⟩)
    · refine ⟨fun h' => absurd hnone h', fun h' => absurd hnone h', fun _ fd sent he => ?_⟩
      exact (List.mem_append.mp he).elim (hg.nobody hnone fd sent)
        (fun he => entries_socket he hnone)
    · exact ⟨fun h' => absurd hnone h', fun h' => absurd hnone h', hg.nobody⟩
  · by_cases hexam : s.loop.examined = some x
    · exact fair_examined hexam hhand (hs hexam) outAreSent
    · exact (aside_others hhand hexam outAreSent outq).mono
        (fun _ h => fair_of_aside hx h) (fun _ h => fair_of_aside hx h)

theorem fair_parse (x y : EventId) (s : Sockets Addr) :
    Fair x s ({ s with reading := .parse }.note [.parsed y]) := by
  have hlast : lastOf Entry.asks (s.log ++ [.parsed y]) x = lastOf Entry.asks s.log x :=
    lastOf_append_other (by simp [Entry.asks])
  have hfailed : ¬ Failed x ({ s with reading := .parse }.note [.parsed y]) → ¬ Failed x s :=
    fun hn hf => hn (failed_note hf id (fun e he => List.mem_append_left _ he))
  refine ⟨Nat.le_refl _, fun hg => ⟨fun hk ha hn => ?_, fun hk hn => ?_, fun hk fd sent he => ?_⟩⟩
  · have h := hg.closing hk ha (hfailed hn)
    exact { h with
      told := fun hw => List.mem_append_left _ (h.told hw)
      last := fun hd => hlast.trans (h.last hd)
      unasked := fun hfd => hlast.trans (h.unasked hfd) }
  · exact losesNothing_append (hg.drained hk (hfailed hn)) (by simp)
  · exact hg.nobody hk fd sent (by simpa [note] using he)

theorem fair_next {s : Sockets Addr} (hk : Known s) (hx : x < s.loop.nextId)
    (outAreSent : Bool) (script : List SysAnswer)
    (hs : Settled x (.ret s) (.next outAreSent outq script)) :
    (s.next outAreSent outq script).Split (Fair x s) (Fair x s) := by
  apply split_next
  case hidle => exact .refl x s
  case hundef => exact .refl x s
  case hhandle =>
    intro y mask stage rest k _ hsock _
    by_cases hyx : x = y
    · subst hyx
      exact fair_handle hx hsock mask stage rest outq script
    · exact (aside_handle hyx outq s mask stage rest script k).mono
        (fun _ h => fair_of_aside hx h) (fun _ h => fair_of_aside hx h)
  case hleave => exact fun _ _ _ _ _ => fair_of_aside hx (aside_leave x s)
  case hagain =>
    exact fun _ _ _ _ _ => fair_of_aside hx ⟨.refl x _, rfl, [], by simp, by simp⟩
  case hothers => exact fun hnone => fair_others hk hx (hnone x) hs outAreSent

theorem fair_recv {s : Sockets Addr} (hx : x < s.loop.nextId) (a : SysAnswer) :
    (s.recv a).Split (Fair x s) (Fair x s) := by
  apply split_recv
  case hidle => exact .refl x s
  case hundef => exact .refl x s
  case hparse => exact fun y _ _ _ _ => fair_parse x y s
  case hleave => exact fun _ _ _ _ _ => fair_of_aside hx (aside_leave x s)
  case hfail =>
    intro y mask stage rest _
    by_cases hyx : x = y
    · subst hyx
      have hfail := fair_fail hx none
      exact hfail.trans (fair_of_aside (Nat.lt_of_lt_of_le hx hfail.nextId) (aside_leave x _))
    · exact fair_of_aside hx ((aside_request hyx none s .fail).trans (aside_leave x _))

theorem fair_user {s : Sockets Addr} {i : Input Addr} (hx : x < s.loop.nextId)
    (hr : s.reading ≠ .recv) (hd : deletes i ≠ some x)
    (hs : sendsTo i = some x → .told x ∉ s.log) :
    (s.user i).Split (Fair x s) (Fair x s) := by
  by_cases hc : Concerns x s i
  · have hput : ∀ k', s.sock x ≠ none → sendsTo i = some x → Fair x s (s.put x k') := by
      refine fun k' hk hi => (fair_put hx hk fun h hl => ?_).1
      exact absurd (h.told (h.leaving hl).1) (hs hi)
    cases i with
    | tcp fd waiting => exact absurd hc.2 (Nat.ne_of_lt hx)
    | udp fd needWait => exact absurd hc.2 (Nat.ne_of_lt hx)
    | tcpSend y data rese allow script =>
      obtain ⟨ha, rfl⟩ := hc
      exact split_tcpSend (.refl x s) (fun _ k' hk => hput k' (load_sock hk) rfl)
    | udpSend y dst data allow script =>
      obtain ⟨ha, rfl⟩ := hc
      exact split_udpSend (.refl x s) (fun _ k' hk => hput k' (load_sock hk) rfl)
    | install y outq =>
      obtain ⟨ha, rfl⟩ := hc
      simp only [user, ha, if_true]
      exact fair_install hx ha outq
    | request y r outq =>
      obtain ⟨ha, rfl⟩ := hc
      simp only [user, ha, if_true]
      cases r with
      | close other => exact fair_close hx other outq
      | del => exact absurd rfl hd
      | fail => exact fair_fail hx outq
    | next outAreSent outq script => exact .refl x s
    | recv a => exact .refl x s
    | create fd needWait mayHaveOut => exact hc.elim
    | regWork y => exact hc.elim
    | addWork y => exact hc.elim
    | poll batch => exact hc.elim
  · exact (aside_user hc hr).mono (fun _ h => fair_of_aside hx h) (fun _ h => fair_of_aside hx h)

theorem fair_pass {s : Sockets Addr} {i : Input Addr} (hx : x < s.loop.nextId)
    (hd : deletes i ≠ some x) (hs : sendsTo i = some x → .told x ∉ s.log) :
    (if s.reading = .recv then .ret s else s.user i).Split (Fair x s) (Fair x s) := by
  split
  · exact .refl x s
  · next hr => exact fair_user hx hr hd hs

/-- A graceful step that does not renew a deleted event is fair to `x`. -/
theorem fair_apply {s : Sockets Addr} (hk : Known s) (hx : x < s.loop.nextId)
    {i : Input Addr} (hg : Graceful x (.ret s) i) (hs : Settled x (.ret s) i) :
    Fair x s (s.apply i).state := by
  obtain ⟨hd, hsend, -⟩ := hg
  cases i with
  | next outAreSent outq script => exact (fair_next hk hx outAreSent script hs).state
  | recv a => exact (fair_recv hx a).state
  | _ => exact (fair_pass hx hd hsend).state

theorem graced_fresh {s : Sockets Addr} (hk : Known s) (hx : s.loop.nextId ≤ x) :
    Graced x s := by
  refine ⟨fun h => absurd (hk.sock x hx) h, fun h => absurd (hk.sock x hx) h,
    fun _ fd sent he => ?_⟩
  exact absurd (hk.log _ he) (Nat.not_lt.mpr hx)

/-- A new socket is in no list, and nothing has been asked. -/
theorem graced_create {s : Sockets Addr} (hk : Known s) (k : Sock Addr) (fd : Int)
    (needWait : Bool) (he : k.event = Event.new fd needWait) :
    Graced s.loop.nextId (s.create k) := by
  have hlog : ∀ e ∈ s.log, e.about ≠ s.loop.nextId := fun e he =>
    Nat.ne_of_lt (hk.log e he)
  have hev : (s.create k).loop.events s.loop.nextId = Event.new fd needWait := by
    simp [create, EvLoop.create, he]
  have hnone : lastOf Entry.asks s.log s.loop.nextId = none := by
    have hlast : lastOf Entry.asks ([] ++ s.log) s.loop.nextId = lastOf Entry.asks [] _ :=
      lastOf_append_other fun e he ha => by
        cases e with
        | asked y outq => exact hlog _ he (Option.some.inj ha)
        | _ => simp [Entry.asks] at ha
    simpa using hlast
  refine ⟨fun _ _ _ => ?_, fun _ _ => ?_, fun hn => by simp [create] at hn⟩
  · constructor
    · simp [create, EvLoop.create, EvLoop.mayHaveOut]
    · exact fun hm => absurd (hk.del _ hm) (Nat.lt_irrefl _)
    · exact fun hm => absurd (hk.wait _ hm) (Nat.lt_irrefl _)
    · simp [hev, Event.new]
    · simp [hev, Event.new]
    · simp [hev, Event.new]
    · simp [hev, Event.new]
    · exact fun _ => hnone
  · rintro pre e post hl fd sent rfl
    have hl : s.log = _ := hl
    exact absurd rfl (hlog (.destroyed s.loop.nextId fd sent) (by simp [hl]))

theorem graced_apply {s : Sockets Addr} (h : Graced x s) (hk : Known s) {i : Input Addr}
    (hk' : Known (s.apply i).state) (hg : Graceful x (.ret s) i)
    (hs : Settled x (.ret s) i) : Graced x (s.apply i).state := by
  rcases Nat.lt_or_ge x s.loop.nextId with hx | hx
  · exact (fair_apply hk hx hg hs).graced h
  · rcases Nat.lt_or_ge x (s.apply i).state.loop.nextId with hx' | hx'
    · by_cases hc : Concerns x s i
      · obtain ⟨rfl, k, fd, needWait, he, hcreate⟩ := hk.concerns hx hc
        rw [hcreate]
        exact graced_create hk k fd needWait he
      · -- the loop has made an event of its own, or user code one that is no socket
        have ha := (aside_apply hc).state
        obtain ⟨es, hl, hes⟩ := ha.log
        have hsock := ha.sock.trans (hk.sock x hx)
        refine ⟨fun h' => absurd hsock h', fun h' => absurd hsock h', fun _ fd sent he => ?_⟩
        rw [hl] at he
        exact (List.mem_append.mp he).elim (h.nobody (hk.sock x hx) fd sent)
          (fun he => hes _ he rfl)
    · exact graced_fresh hk' hx'

/-- The invariant of a graceful run, which also an undefined end satisfies. -/
structure Cared (x : EventId) (e : Exec (Sockets Addr)) : Prop where
  sound : Sound e.state
  graced : Graced x e.state
  fine : ¬ Failed x e.state

theorem Cared.step {e : Exec (Sockets Addr)} (h : Cared x e) {i : Input Addr}
    (hg : Graceful x e i) (hs : Settled x e i) : Cared x (Sockets.step e i) := by
  cases e with
  | ret s =>
    have hsound := Sound.apply h.sound i
    exact ⟨hsound, graced_apply h.graced h.sound.toKnown hsound.toKnown hg hs, hg.2.2⟩
  | hang s => exact h
  | undef s => exact h

theorem Graced.losesNothing {s : Sockets Addr} (h : Graced x s) (hn : ¬ Failed x s) :
    LosesNothing x s.log := by
  by_cases hk : s.sock x = none
  · rintro pre e post hl fd sent rfl
    exact absurd (by simp [hl]) (h.nobody hk fd sent)
  · exact h.drained hk hn

/-- A socket that is closed gracefully is destroyed only when nothing waits and the last answer to
SIOCOUTQ was 0, in a run in which `WaitOut::timeout` renews no event of `del_list`. -/
theorem graceful_close_loses_nothing (x : EventId) (inputs : List (Input Addr))
    (hg : Along step (Graceful x) (.ret new) inputs)
    (hs : Along step (Settled x) (.ret new) inputs) :
    LosesNothing x (run step (.ret new) inputs).state.log := by
  have hnew : Cared x (.ret (new : Sockets Addr)) := by
    refine ⟨sound_new, graced_fresh known_new (Nat.zero_le x), ?_⟩
    simp [Failed, Exec.state, new, EvLoop.new, Event.new]
  have h := run_invariant (Cared x) (fun _ _ h hi => h.step hi.1 hi.2) hnew (hg.and hs)
  exact h.graced.losesNothing h.fine

/-- The output leaves while the event is in `wait_out_list`. -/
theorem graceful_close_waits :
    let inputs : List (Input Nat) := [.tcp 7 false, .install 0 none,
      .request 0 (.close true) (some 3), .next true none [], .next true none [],
      .poll [(1, ⟨false, true, false, false, false⟩)], .next true none [], .next true none [],
      .next true none [], .next true (some 0) []]
    (Along step (Graceful 0) (.ret new) inputs ∧ Along step (Settled 0) (.ret new) inputs) ∧
      LosesNothing 0 (run step (.ret new) inputs).state.log :=
  have hg := by decide
  have hs := by decide
  ⟨⟨hg, hs⟩, graceful_close_loses_nothing 0 _ hg hs⟩

/-- A notification of `x`, in `wait_out_list`, comes before the timer in one batch. -/
theorem close_loses_output :
    let inputs : List (Input Nat) := [.tcp 7 false, .install 0 none,
      .request 0 (.close true) (some 3), .next true none [], .next true none [],
      .poll [(0, ⟨true, false, false, false, false⟩), (1, ⟨false, true, false, false, false⟩)],
      .next true (some 0) [], .next true none [], .next true none [], .next true none [],
      .next true none [], .next true none [], .next true none [], .next true none [],
      .next true (some 2) [], .next true none [], .next true none [], .next true none [],
      .next true none [], .next true none [], .next true none []]
    Along step (Graceful 0) (.ret new) inputs ∧
      ¬ LosesNothing 0 (run step (.ret new) inputs).state.log := by
  refine ⟨by decide, fun h => ?_⟩
  have hd := h [.told 0, .asked 0 (some 3), .told 0, .asked 0 (some 0), .asked 0 (some 2)]
    (.destroyed 0 7 true) [] (by decide) 7 true rfl
  simp [lastOf, Entry.asks] at hd

end Evel.Sockets
