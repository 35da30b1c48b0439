import Evel.General.History
import Evel.General.Runs
import Evel.Proofs.Event
import Evel.Proofs.SocketSteps

namespace Evel.Event

/-- The event is to be deleted, and its flags say so to `run` and to `on_inp`. -/
def Shut (e : Event) : Prop :=
  e.wantCloseFd = true ∨ e.nextDel = true ∨ (e.evLoop = false ∧ e.delOnInstall = true)

instance : DecidablePred Shut := fun e => inferInstanceAs (Decidable
  (e.wantCloseFd = true ∨ e.nextDel = true ∨ (e.evLoop = false ∧ e.delOnInstall = true)))

theorem Shut.register {e : Event} (h : e.Shut) (t : DelTarget) : (e.register t).Shut := by
  obtain hw | hd | ⟨hl, hi⟩ := h
  · exact .inl (by simp [hw])
  · exact .inr (.inl (by cases t <;> simp [Event.register, hd]))
  · exact .inr (.inr ⟨by simp [hl], by cases t <;> simp [Event.register, hi]⟩)

theorem delTarget_delOnInstall {e : Event} (h : e.delTarget m outq = .delOnInstall) :
    e.evLoop = false := by
  refine by_contra fun hl => ?_
  simp only [delTarget, hl, if_true] at h
  split_ifs at h

/-- Only `wait_out_list` leaves no trace. -/
theorem shut_del (m : Bool) (outq : Option Nat) {e : Event}
    (h : e.delTarget m outq = .waitOutList → e.Shut) : (e.del m outq).Shut := by
  rw [del]
  cases ht : e.delTarget m outq with
  | waitOutList => exact (h ht).register _
  | delList => exact .inr (.inl rfl)
  | delOnInstall => exact .inr (.inr ⟨delTarget_delOnInstall ht, rfl⟩)

/-- An error keeps an event out of `wait_out_list`. -/
theorem delTarget_error {e : Event} (h : e.hasError = true) (m : Bool) (outq : Option Nat) :
    e.delTarget m outq ≠ .waitOutList := by
  simp only [delTarget, h, Bool.not_true, Bool.and_false, Bool.false_and, Bool.false_eq_true,
    if_false, ne_eq, not_true]
  split <;> simp

end Evel.Event

namespace Evel.EvLoop
open Loop

/-- A request shuts the event, but for a direct `del` that finds output pending. -/
theorem requested_shut {s : EvLoop} (r : Request) (outq : Option Nat)
    (h : r = .del → s.target x r outq = some .waitOutList → (s.events x).Shut) :
    (s.requested x r outq).Shut := by
  cases hf : (s.events x).flags r with
  | mk e b =>
    cases b with
    | false =>
      rw [(requested_of_stay hf outq).1]
      cases r with
      | del => simp [Event.flags] at hf
      | fail => simp [Event.flags, Event.closeFdFlags] at hf
      | close outAreSent =>
        simp only [Event.flags, Event.closeFdFlags] at hf
        split at hf
        · simp at hf
        · split at hf
          · next hw => exact .inl ((Prod.mk.inj hf).1 ▸ hw)
          · exact .inl ((Prod.mk.inj hf).1 ▸ rfl)
    | true =>
      obtain ⟨hreq, htarget⟩ := requested_of_del hf outq
      rw [hreq]
      refine Event.shut_del _ outq (fun ht => ?_)
      cases r with
      | del =>
        have he : s.events x = e := by simpa [Event.flags] using hf
        rw [← he]
        exact h rfl (by rw [htarget, ht])
      | fail =>
        refine absurd ht (Event.delTarget_error ?_ _ outq)
        have he : { s.events x with hasError := true } = e := by
          simpa [Event.flags, Event.closeFdFlags] using hf
        exact he ▸ rfl
      | close outAreSent =>
        simp only [Event.flags, Event.closeFdFlags] at hf
        split at hf
        · next he =>
          exact absurd ht (Event.delTarget_error ((Prod.mk.inj hf).1 ▸ he) _ outq)
        · split at hf
          · simp at hf
          · exact .inl ((Prod.mk.inj hf).1 ▸ rfl)

end Evel.EvLoop

namespace Evel.Sockets
open General Loop EvLoop
variable {Addr : Type u}

/-- A step without a `parse` of `x`, which leaves a socket shut if it was, or if it is told to
close. -/
structure Quiet (x : EventId) (s s' : Sockets Addr) : Prop where
  nextId : s.loop.nextId ≤ s'.loop.nextId
  sock : s'.sock x ≠ none → s.sock x ≠ none
  inLoop : s'.sock x ≠ none → (s.loop.events x).evLoop = true →
    (s'.loop.events x).evLoop = true
  shut : s'.sock x ≠ none →
    (s.loop.alive x = true → .told x ∈ s.log → (s.loop.events x).Shut) →
    s'.loop.alive x = true → .told x ∈ s'.log → (s'.loop.events x).Shut
  log : ∃ es, s'.log = s.log ++ es ∧ .parsed x ∉ es

theorem Quiet.refl (x : EventId) (s : Sockets Addr) : Quiet x s s :=
  ⟨Nat.le_refl _, id, fun _ => id, fun _ => id, [], by simp, by simp⟩

theorem Quiet.trans {s s' s'' : Sockets Addr} (h : Quiet x s s') (h' : Quiet x s' s'') :
    Quiet x s s'' := by
  obtain ⟨es, hl, he⟩ := h.log
  obtain ⟨es', hl', he'⟩ := h'.log
  refine ⟨Nat.le_trans h.nextId h'.nextId, fun hk => h.sock (h'.sock hk),
    fun hk hi => h'.inLoop hk (h.inLoop (h'.sock hk) hi),
    fun hk hs => h'.shut hk (h.shut (h'.sock hk) hs), es ++ es', ?_, ?_⟩
  · rw [hl', hl, List.append_assoc]
  · simp [he, he']

theorem quiet_of_aside {s s' : Sockets Addr} (hx : x < s.loop.nextId) (h : Aside x s s') :
    Quiet x s s' := by
  have hsame := h.loop.same (.inl hx)
  obtain ⟨work, later, hev⟩ := hsame.event
  obtain ⟨es, hl, hes⟩ := h.log
  refine ⟨h.loop.nextId, fun hk => h.sock ▸ hk, fun _ hi => ?_, fun _ hs ha ht => ?_, es, hl,
    fun hm => hes _ hm rfl⟩
  · rw [hev]
    exact hi
  · rw [hl] at ht
    have ht : .told x ∈ s.log := (List.mem_append.mp ht).elim id (fun hm => absurd rfl (hes _ hm))
    rw [hev]
    exact hs (hsame.alive ▸ ha) ht

theorem quiet_goto (x : EventId) (p : Phase) (s : Sockets Addr) : Quiet x s (s.goto p) :=
  ⟨Nat.le_refl _, id, fun _ => id, fun _ => id, [], by simp [goto], by simp⟩

theorem quiet_advance (x : EventId) (batch : List (EventId × Mask)) (s : Sockets Addr) :
    Quiet x s (s.advance batch) := by
  cases batch with
  | nil => exact quiet_goto x _ s
  | cons p rest => exact quiet_goto x _ s

/-- A request shuts the event unless it is a `del` that finds output pending on an open one. -/
theorem request_shut {s : Sockets Addr} (hx : x < s.loop.nextId) (r : Request)
    (outq : Option Nat)
    (h : r = .del → s.loop.target x .del outq = some .waitOutList → (s.loop.events x).Shut) :
    ((s.request x r outq).loop.events x).Shut := by
  obtain ⟨work, later, hev⟩ := request_event hx r outq
  rw [hev]
  refine requested_shut (s := s.loop) (x := x) (s.actual x r) outq (fun hr ht => ?_)
  have hr' : r = .del := by
    cases r <;> simp [actual] at hr ⊢
  subst hr'
  exact h rfl ht

theorem quiet_request {s : Sockets Addr} (hx : x < s.loop.nextId) (r : Request)
    (outq : Option Nat)
    (h : r = .del → s.loop.target x .del outq = some .waitOutList → (s.loop.events x).Shut) :
    Quiet x s (s.request x r outq) := by
  obtain ⟨work, later, hev⟩ := request_event hx r outq
  refine ⟨(became_request hx (s.actual x r) outq).nextId, id, fun _ hi => ?_,
    fun _ _ _ _ => request_shut hx r outq h, _, rfl, ?_⟩
  · rw [hev]
    exact (requested_evLoop x _ outq s.loop).trans hi
  · split <;> simp

theorem quiet_notify {s : Sockets Addr} (hx : x < s.loop.nextId) (b : Bool)
    (outq : Option Nat) : Quiet x s (if b then s.request x .fail outq else s) := by
  cases b with
  | true => exact quiet_request hx .fail outq (fun hr => by simp at hr)
  | false => exact .refl x s

theorem quiet_put {s : Sockets Addr} (hx : x < s.loop.nextId) (hk : s.sock x ≠ none)
    (k : Sock Addr) : Quiet x s (s.put x k) := by
  have hsock : Quiet x s { s with sock := Function.update s.sock x (some k) } :=
    ⟨Nat.le_refl _, fun _ => hk, fun _ => id, fun _ => id, [], by simp, by simp⟩
  simp only [put]
  split
  · exact hsock
  · refine hsock.trans (quiet_request ?_ .fail none (fun hr => by simp at hr))
    exact hx

/-- The test after `on_out` deletes only an event that is closing. -/
theorem quiet_afterOut {s : Sockets Addr} (hx : x < s.loop.nextId) (mask : Mask)
    (outq : Option Nat) : Quiet x s (s.afterOut x mask outq) := by
  rw [afterOut]
  split
  · next h =>
    simp only [Bool.and_eq_true] at h
    exact quiet_request hx .del outq (fun _ _ => .inl h.1.2)
  · exact .refl x s

theorem quiet_install {s : Sockets Addr} (hx : x < s.loop.nextId) (outq : Option Nat)
    (h : (s.loop.events x).evLoop = false → (s.loop.events x).delOnInstall = true →
      (s.installed x).loop.target x .del outq = some .waitOutList →
        ((s.installed x).loop.events x).Shut) :
    Quiet x s (s.install x outq) := by
  rw [install_eq]
  split
  · exact .refl x s
  · next hl =>
    have hl : (s.loop.events x).evLoop = false := by simpa using hl
    split
    · next hi =>
      have hq := quiet_request (s := s.installed x) hx .del outq (fun _ => h hl hi)
      exact ⟨hq.nextId, hq.sock, fun _ hi' => absurd hi' (by simp [hl]),
        fun _ _ _ _ => request_shut (s := s.installed x) hx .del outq (fun _ => h hl hi), hq.log⟩
    · next hi =>
      refine ⟨Nat.le_refl _, id, fun _ _ => by simp, fun _ hs ha ht => ?_, [],
        by simp [installed], by simp⟩
      rw [installed_event]
      obtain hw | hd | hn := hs ha ht
      · exact .inl hw
      · exact .inr (.inl hd)
      · exact absurd hn.2 hi

/-- The loop examines `x`: it destroys it, or puts it back. -/
theorem quiet_examined {s : Sockets Addr} (hx : s.loop.examined = some x)
    (hn : s.loop.atHand ≠ some x) (outAreSent : Bool) (outq : Option Nat) :
    (s.others outAreSent outq).Split (Quiet x s) (Quiet x s) := by
  have hparsed : .parsed x ∉ s.entries outq := by
    intro he
    obtain ⟨y, hy⟩ | ⟨y, fd, sent, hy⟩ := entries_cases he <;> simp at hy
  have htold : .told x ∉ s.entries outq := by
    intro he
    obtain ⟨y, hy⟩ | ⟨y, fd, sent, hy⟩ := entries_cases he <;> simp at hy
  rw [others]
  obtain hu | ⟨l, hl, ha, hid, ⟨d, hev⟩, hend⟩ := next_examined hx hn outAreSent outq
  · rw [hu]
    exact .refl x s
  · rw [hl]
    refine ⟨Nat.le_of_eq hid.symm, id, fun _ hi => ?_, fun _ hs ha' ht => ?_, _, rfl, hparsed⟩
    · exact hev ▸ hi
    · obtain ⟨-, hd⟩ | ⟨-, -, hd⟩ | ⟨-, -, hsame⟩ := hend
      · exact absurd (hd.symm.trans ha') (by simp)
      · exact absurd (hd.symm.trans ha') (by simp)
      · have ht : .told x ∈ s.log := (List.mem_append.mp ht).elim id (fun hm => absurd hm htold)
        obtain ⟨work, later, he⟩ := hsame.event
        exact he ▸ hs ha ht

/-- On the socket at hand no test of `run` opens an event. -/
theorem quiet_handle {s : Sockets Addr} (hx : x < s.loop.nextId) (hk : s.sock x ≠ none)
    (mask : Mask) (stage : Stage) (rest : List (EventId × Mask)) (outq : Option Nat)
    (script : List SysAnswer) (k : Sock Addr) :
    (s.handle x mask stage rest outq script k).Split (Quiet x s) (Quiet x s) := by
  apply split_handle stage (M := Quiet x s)
  case hskip => exact quiet_advance x rest s
  case hout => exact fun _ _ _ => quiet_put hx hk _
  case hnone => exact fun _ => .refl x s
  case hstuck => exact fun _ h => h
  case hafter =>
    intro s' h
    have hafter := quiet_afterOut (Nat.lt_of_lt_of_le hx h.nextId) mask outq
    exact (h.trans hafter).trans (quiet_goto x _ _)
  case hidle => exact .refl x s
  case hread => exact fun _ _ => ⟨Nat.le_refl _, id, fun _ => id, fun _ => id, [], by simp, by simp⟩
  case hpass => exact quiet_goto x _ s
  case hfail => exact fun b _ => (quiet_notify hx b outq).trans (quiet_goto x _ _)
  case hlast => exact fun b => (quiet_notify hx b outq).trans (quiet_advance x rest _)

theorem quiet_leave (x : EventId) (s : Sockets Addr) : Quiet x s s.leave := by
  rw [leave]
  split
  · exact ⟨Nat.le_refl _, id, fun _ => id, fun _ => id, [], by simp [goto], by simp⟩
  · exact .refl x s

/-- The state in which `del` is called on `x` and not by `close`: by user code, or when the event
comes to its loop. With it, what SIOCOUTQ answers. -/
def deletion (x : EventId) (s : Sockets Addr) : Input Addr → Option (Sockets Addr × Option Nat)
  | .request y .del outq =>
    if s.reading ≠ .recv ∧ y = x ∧ s.loop.alive x = true then some (s, outq) else none
  | .install y outq =>
    if s.reading ≠ .recv ∧ y = x ∧ s.loop.alive x = true ∧ (s.loop.events x).evLoop = false ∧
        (s.loop.events x).delOnInstall = true
    then some (s.installed x, outq) else none
  | _ => none

/-- `del` puts `x` in `wait_out_list` only if it is closing. -/
def Prompt (x : EventId) (e : Exec (Sockets Addr)) (i : Input Addr) : Prop :=
  match e with
  | .ret s => ∀ d ∈ deletion x s i, d.1.loop.target x .del d.2 = some .waitOutList →
      (d.1.loop.events x).Shut
  | _ => True

instance (x : EventId) (e : Exec (Sockets Addr)) (i : Input Addr) : Decidable (Prompt x e i) :=
  match e with
  | .ret s => inferInstanceAs (Decidable (∀ d ∈ deletion x s i,
      d.1.loop.target x .del d.2 = some .waitOutList → (d.1.loop.events x).Shut))
  | .hang _ | .undef _ => .isTrue trivial

theorem quiet_user {s : Sockets Addr} {i : Input Addr} (hx : x < s.loop.nextId)
    (hr : s.reading ≠ .recv) (hp : Prompt x (.ret s) i) :
    (s.user i).Split (Quiet x s) (Quiet x s) := by
  by_cases hc : Concerns x s i
  · cases i with
    | tcp fd waiting => exact absurd hc.2 (Nat.ne_of_lt hx)
    | udp fd needWait => exact absurd hc.2 (Nat.ne_of_lt hx)
    | tcpSend y data rese allow script =>
      obtain ⟨ha, rfl⟩ := hc
      exact split_tcpSend (.refl x s) (fun _ k' hk => quiet_put hx (load_sock hk) k')
    | udpSend y dst data allow script =>
      obtain ⟨ha, rfl⟩ := hc
      exact split_udpSend (.refl x s) (fun _ k' hk => quiet_put hx (load_sock hk) k')
    | install y outq =>
      obtain ⟨ha, rfl⟩ := hc
      simp only [user, ha, if_true]
      refine quiet_install hx outq (fun hl hi => hp (s.installed x, outq) ?_)
      simp [deletion, hr, ha, hl, hi]
    | request y r outq =>
      obtain ⟨ha, rfl⟩ := hc
      simp only [user, ha, if_true]
      refine quiet_request hx r outq (fun hd => hp (s, outq) ?_)
      simp [deletion, hd, hr, ha]
    | next outAreSent outq script => exact .refl x s
    | recv a => exact .refl x s
    | create fd needWait mayHaveOut => exact hc.elim
    | regWork y => exact hc.elim
    | addWork y => exact hc.elim
    | poll batch => exact hc.elim
  · exact (aside_user hc hr).mono (fun _ h => quiet_of_aside hx h) (fun _ h => quiet_of_aside hx h)

/-- When the loop is about to call `recv` for `x`, it has found the event open. -/
def Ready (x : EventId) (s : Sockets Addr) : Prop :=
  s.reading = .recv → s.loop.atHand = some x →
    (s.loop.events x).wantCloseFd = false ∧ (s.loop.events x).nextDel = false

theorem ready_of_ne (x : EventId) {s : Sockets Addr} (h : s.reading ≠ .recv) : Ready x s :=
  fun hr => absurd hr h

theorem leave_reading {s : Sockets Addr} (hp : s.loop.phase = .batch x mask stage rest) :
    s.leave.reading = .no := by
  simp only [leave, hp]
  rfl

theorem ready_handle {s : Sockets Addr} (hr : s.reading = .no)
    (hp : s.loop.phase = .batch y mask stage rest) (outq : Option Nat)
    (script : List SysAnswer) (k : Sock Addr) :
    (s.handle y mask stage rest outq script k).Split (Ready x) (Ready x) := by
  have hplace : ∀ s', Place s s' → s'.reading ≠ .recv := by
    intro s' h
    rw [h.reading, hr]
    simp
  have hne := hplace s (.refl s)
  have hnotify : ∀ b : Bool, (if b then s.request y .fail outq else s).reading ≠ .recv :=
    fun b => hplace _ (place_notify b y .fail outq s)
  apply split_handle stage (M := Place s)
  case hskip => exact ready_of_ne x hne
  case hout => exact fun _ _ _ => place_put y _ s
  case hnone => exact fun _ => .refl s
  case hstuck => exact fun s' h => ready_of_ne x (hplace s' h)
  case hafter =>
    intro s' h
    have hr' := hplace (s'.afterOut y mask outq) (h.trans (place_notify _ y .del outq s'))
    exact ready_of_ne x hr'
  case hidle => exact ready_of_ne x hne
  case hread =>
    intro hw hd _ hx
    obtain rfl : y = x := by simpa [atHand, hp] using hx
    exact ⟨hw, hd⟩
  case hpass => exact ready_of_ne x hne
  case hfail => exact fun b _ => ready_of_ne x (hnotify b)
  case hlast => exact fun b => ready_of_ne x (hnotify b)

theorem ready_others {s : Sockets Addr} (hr : s.reading = .no) (outAreSent : Bool)
    (outq : Option Nat) : (s.others outAreSent outq).Split (Ready x) (Ready x) := by
  have hne : s.reading ≠ .recv := by simp [hr]
  rw [others, Exec.split_bimap]
  cases s.loop.next outAreSent outq <;> exact ready_of_ne x hne

theorem ready_next {s : Sockets Addr} (h : Ready x s) (hs : Seated s) (outAreSent : Bool)
    (outq : Option Nat) (script : List SysAnswer) :
    (s.next outAreSent outq script).Split (Ready x) (Ready x) := by
  apply split_next
  case hidle => exact h
  case hundef => exact h
  case hhandle => exact fun y mask stage rest k hp _ hr => ready_handle hr hp outq script k
  case hleave =>
    intro y mask stage rest hp
    exact ready_of_ne x (by rw [leave_reading hp]; simp)
  case hagain =>
    intro y hy _ hw hd _ hx
    obtain rfl : y = x := Option.some.inj (hy.symm.trans hx)
    exact ⟨hw, hd⟩
  case hothers =>
    intro hnone
    exact ready_others (hs.idle fun z k hz => by simp [hnone z hz]) outAreSent outq

theorem ready_recv {s : Sockets Addr} (h : Ready x s) (a : SysAnswer) :
    (s.recv a).Split (Ready x) (Ready x) := by
  apply split_recv
  case hidle => exact h
  case hundef => exact h
  case hparse => exact fun y _ _ _ _ => ready_of_ne x (by simp [note])
  case hleave =>
    intro y mask stage rest hp
    exact ready_of_ne x (by rw [leave_reading hp]; simp)
  case hfail =>
    intro y mask stage rest hp
    have hp' := (place_request y .fail none s).phase.trans hp
    exact ready_of_ne x (by rw [leave_reading hp']; simp)

theorem ready_apply {s : Sockets Addr} (h : Ready x s) (hs : Seated s) (i : Input Addr) :
    (s.apply i).Split (Ready x) (Ready x) := by
  rw [apply.eq_def]
  split
  · next outAreSent outq script => exact ready_next h hs outAreSent outq script
  · next a => exact ready_recv h a
  · split
    · exact h
    · next hr =>
      have hsame : ∀ s' : Sockets Addr, s'.reading = s.reading → Ready x s' :=
        fun s' hr' => ready_of_ne x (fun hn => hr (hr'.symm.trans hn))
      exact (user_reading s _).mono hsame hsame

/-- `x` is read only until it is told to close. -/
def NotReadAfter (x : EventId) (log : List Entry) : Prop :=
  EachEntry (fun pre e => e = .parsed x → .told x ∉ pre) log

/-- A socket that is told to close is shut, and nothing but an open one is read. -/
structure Deaf (x : EventId) (s : Sockets Addr) : Prop where
  told : s.sock x ≠ none → s.loop.alive x = true → .told x ∈ s.log → (s.loop.events x).Shut
  inLoop : s.sock x ≠ none → x ∈ notified s.loop.phase → (s.loop.events x).evLoop = true
  ready : Ready x s
  read : NotReadAfter x s.log

theorem notReadAfter_append {log : List Entry} (h : NotReadAfter x log)
    (hes : .parsed x ∉ es) : NotReadAfter x (log ++ es) := by
  refine eachEntry_append h ?_
  rintro pre e post rfl rfl
  simp at hes

theorem Deaf.quiet {s s' : Sockets Addr} (h : Deaf x s) (hq : Quiet x s s')
    (hf : Follows s s') (hr : Ready x s') : Deaf x s' := by
  obtain ⟨es, hl, hes⟩ := hq.log
  refine ⟨fun hk => hq.shut hk (h.told (hq.sock hk)), fun hk hx => hq.inLoop hk ?_, hr, ?_⟩
  · exact (hf x hx).elim (h.inLoop (hq.sock hk)) And.right
  · rw [hl]
    exact notReadAfter_append h.read hes

/-- `recv` finds data for an event that is open, and so nobody has told it to close. -/
theorem Deaf.parse {s : Sockets Addr} (h : Deaf x s) (hr : s.reading = .recv)
    (hx : s.loop.atHand = some x) (hk : s.sock x ≠ none) (ha : s.loop.alive x = true) :
    Deaf x ({ s with reading := .parse }.note [.parsed x]) := by
  have htold : .told x ∉ s.log := by
    intro ht
    obtain ⟨hw, hd⟩ := h.ready hr hx
    have hl := h.inLoop hk (atHand_notified hx)
    simpa [Event.Shut, hw, hd, hl] using h.told hk ha ht
  refine ⟨fun _ ha ht => ?_, h.inLoop, ready_of_ne x (by simp [note]), ?_⟩
  · exact h.told hk ha (by simpa [note] using ht)
  · exact eachEntry_snoc h.read (fun _ => htold)

theorem quiet_pass {s : Sockets Addr} {i : Input Addr} (hx : x < s.loop.nextId)
    (hp : Prompt x (.ret s) i) :
    (if s.reading = .recv then .ret s else s.user i).Split (Quiet x s) (Quiet x s) := by
  split
  · exact .refl x s
  · next hr => exact quiet_user hx hr hp

/-- A step of the loop that has no socket at hand, or another one. -/
theorem quiet_others {s : Sockets Addr} (hk : Known s) (hx : x < s.loop.nextId)
    (hn : s.loop.atHand = some x → s.sock x = none) (outAreSent : Bool) (outq : Option Nat) :
    (s.others outAreSent outq).Split (Quiet x s) (Quiet x s) := by
  by_cases hhand : s.loop.atHand = some x
  · -- no socket, of which nothing is said
    have hnone := hn hhand
    have hnext := hk.others outAreSent outq
    have hlog : .parsed x ∉ s.entries outq := by
      intro he
      obtain ⟨y, hy⟩ | ⟨y, fd, sent, hy⟩ := entries_cases he <;> simp at hy
    rw [others, Exec.split_bimap] at hnext ⊢
    refine hnext.mono (fun l h => ?_) (fun l h => ?_)
    · exact ⟨h, id, fun h' => absurd hnone h', fun h' => absurd hnone h', _, rfl, hlog⟩
    · exact ⟨h, id, fun h' => absurd hnone h', fun h' => absurd hnone h', [], by simp, by simp⟩
  · by_cases hexam : s.loop.examined = some x
    · exact quiet_examined hexam hhand outAreSent outq
    · exact (aside_others hhand hexam outAreSent outq).mono
        (fun _ h => quiet_of_aside hx h) (fun _ h => quiet_of_aside hx h)

theorem quiet_next {s : Sockets Addr} (hk : Known s) (hx : x < s.loop.nextId)
    (outAreSent : Bool) (outq : Option Nat) (script : List SysAnswer) :
    (s.next outAreSent outq script).Split (Quiet x s) (Quiet x s) := by
  apply split_next
  case hidle => exact .refl x s
  case hundef => exact .refl x s
  case hhandle =>
    intro y mask stage rest k _ hsock _
    by_cases hyx : x = y
    · subst hyx
      exact quiet_handle hx (by simp [hsock]) mask stage rest outq script k
    · exact (aside_handle hyx outq s mask stage rest script k).mono
        (fun _ h => quiet_of_aside hx h) (fun _ h => quiet_of_aside hx h)
  case hleave => exact fun _ _ _ _ _ => quiet_leave x s
  case hagain =>
    exact fun _ _ _ _ _ => ⟨Nat.le_refl _, id, fun _ => id, fun _ => id, [], by simp, by simp⟩
  case hothers => exact fun hnone => quiet_others hk hx (hnone x) outAreSent outq

/-- `recv` parses for the socket at hand, or is quiet. -/
theorem recv_cases {s : Sockets Addr} (hx : x < s.loop.nextId) (a : SysAnswer) :
    (∃ y, s.recv a = .ret ({ s with reading := .parse }.note [.parsed y]) ∧ s.reading = .recv ∧
        s.loop.atHand = some y ∧ s.sock y ≠ none ∧ s.loop.alive y = true) ∨
      (s.recv a).Split (Quiet x s) (Quiet x s) := by
  obtain h | h | h | ⟨y, _, _, _, -, h | h⟩ := recv_forms a s
  · exact .inl h
  · rw [h]
    exact .inr (.refl x s)
  · rw [h]
    exact .inr (.refl x s)
  · rw [h]
    exact .inr (quiet_leave x s)
  · rw [h]
    refine .inr (Quiet.trans ?_ (quiet_leave x _))
    by_cases hyx : x = y
    · subst hyx
      exact quiet_request hx .fail none (fun hd => by simp at hd)
    · exact quiet_of_aside hx (aside_request hyx none s .fail)

/-- A step keeps a known event deaf. -/
theorem Deaf.apply {s : Sockets Addr} (h : Deaf x s) (hs : Sound s) (hx : x < s.loop.nextId)
    {i : Input Addr} (hp : Prompt x (.ret s) i) : Deaf x (s.apply i).state := by
  have hf := (steps_apply hs.seated i).state.follows
  have hr := (ready_apply h.ready hs.seated i).state
  cases hi : i with
  | next outAreSent outq script =>
    subst hi
    exact h.quiet (quiet_next hs.toKnown hx outAreSent outq script).state hf hr
  | recv a =>
    subst hi
    obtain ⟨y, heq, hreading, hhand, hk, ha⟩ | hq := recv_cases hx a
    · have heq : s.apply (.recv a) = _ := heq
      rw [heq] at hf hr ⊢
      by_cases hyx : x = y
      · subst hyx
        exact h.parse hreading hhand hk ha
      · refine h.quiet ⟨Nat.le_refl _, id, fun _ => id, fun _ hs ha ht => ?_, _, rfl, ?_⟩ hf hr
        · exact hs ha (by simpa [note, Exec.state] using ht)
        · simpa using hyx
    · exact h.quiet hq.state hf hr
  | _ =>
    subst hi
    exact h.quiet (quiet_pass hx hp).state hf hr

theorem deaf_fresh {s : Sockets Addr} (hs : Sound s) (hx : s.loop.nextId ≤ x) : Deaf x s := by
  have hlog : ∀ e ∈ s.log, e.about ≠ x := fun e he hex =>
    absurd (hs.log e he) (Nat.not_lt.mpr (hex ▸ hx))
  have hn : x ∉ notified s.loop.phase := fun hn => absurd (hs.batch x hn) (Nat.not_lt.mpr hx)
  refine ⟨fun hk => absurd (hs.sock x hx) hk, fun hk => absurd (hs.sock x hx) hk,
    fun _ hh => absurd (atHand_notified hh) hn, ?_⟩
  rintro pre e post hl rfl ht
  exact hlog (.told x) (by simp [hl, ht]) rfl

/-- The creation of a socket -/
theorem deaf_create {s : Sockets Addr} (hs : Sound s) (k : Sock Addr) :
    Deaf s.loop.nextId (s.create k) := by
  have h := deaf_fresh hs (Nat.le_refl _)
  have hn : s.loop.nextId ∉ notified s.loop.phase := fun hn =>
    absurd (hs.batch _ hn) (Nat.lt_irrefl _)
  refine ⟨fun _ _ ht => ?_, fun _ hh => absurd hh hn, fun _ hh => ?_, h.read⟩
  · exact absurd (hs.log _ ht) (Nat.lt_irrefl _)
  · exact absurd (atHand_notified hh) hn

/-- A step makes no event that is not deaf. -/
theorem deaf_apply {s : Sockets Addr} (h : Deaf x s) (hs : Sound s) {i : Input Addr}
    (hp : Prompt x (.ret s) i) : Deaf x (s.apply i).state := by
  rcases Nat.lt_or_ge x s.loop.nextId with hx | hx
  · exact h.apply hs hx hp
  · have hs' := hs.apply i
    rcases Nat.lt_or_ge x (s.apply i).state.loop.nextId with hx' | hx'
    · by_cases hc : Concerns x s i
      · obtain ⟨rfl, k, fd, needWait, -, hcreate⟩ := hs.concerns hx hc
        rw [hcreate]
        exact deaf_create hs k
      · -- the loop has made an event of its own, or user code one that is no socket
        have ha := (aside_apply hc).state
        obtain ⟨es, hl, hes⟩ := ha.log
        have hsock := ha.sock.trans (hs.sock x hx)
        refine ⟨fun hk => absurd hsock hk, fun hk => absurd hsock hk,
          (ready_apply h.ready hs.seated i).state, ?_⟩
        rw [hl]
        exact notReadAfter_append h.read (fun he => hes _ he rfl)
    · exact deaf_fresh hs' hx'

/-- The invariant of a run, which also an undefined end satisfies. -/
structure Watched (x : EventId) (e : Exec (Sockets Addr)) : Prop where
  sound : Sound e.state
  deaf : Deaf x e.state

theorem Watched.step {e : Exec (Sockets Addr)} (h : Watched x e) {i : Input Addr}
    (hp : Prompt x e i) : Watched x (Sockets.step e i) := by
  cases e with
  | ret s => exact ⟨h.sound.apply i, deaf_apply h.deaf h.sound hp⟩
  | hang s => exact h
  | undef s => exact h

/-- No data is parsed for an event after it has been told to close, in a run in which `del` puts
it in `wait_out_list` only if it is closing. -/
theorem not_read_after_del (x : EventId) (inputs : List (Input Addr))
    (h : Along step (Prompt x) (.ret new) inputs) :
    NotReadAfter x (run step (.ret new) inputs).state.log := by
  have hnew : Watched x (.ret (new : Sockets Addr)) :=
    ⟨sound_new, deaf_fresh sound_new (Nat.zero_le x)⟩
  exact (run_invariant (Watched x) (fun _ _ h hp => h.step hp) hnew h).deaf.read

/-- The socket closes itself in `parse`, and more data has come. -/
theorem not_read_after_close :
    let inputs : List (Input Nat) := [.tcp 7 false, .install 0 none, .next true none [],
      .next true none [], .poll [(0, ⟨false, true, false, false, false⟩)], .next true none [],
      .next true none [], .recv ⟨5, .zero⟩, .request 0 (.close true) (some 3), .next true none [],
      .recv ⟨4, .zero⟩]
    Along step (Prompt 0) (.ret new) inputs ∧
      NotReadAfter 0 (run step (.ret new) inputs).state.log :=
  have h := by decide
  ⟨h, not_read_after_del 0 _ h⟩

/-- `del` in `parse`, while the kernel still has output to send. -/
theorem read_after_del : ¬ NotReadAfter 0 (run step (.ret (new : Sockets Nat))
    [.tcp 7 false, .install 0 none, .next true none [], .next true none [],
      .poll [(0, ⟨false, true, false, false, false⟩)], .next true none [], .next true none [],
      .recv ⟨5, .zero⟩, .request 0 .del (some 3), .next true none [],
      .recv ⟨4, .zero⟩]).state.log := by
  intro h
  exact h [.parsed 0, .told 0, .asked 0 (some 3)] (.parsed 0) [] (by decide) rfl (by simp)

end Evel.Sockets
