import Evel.Proofs.Event
import Evel.Proofs.LoopFrame
import Evel.Proofs.LoopLists
import Evel.Model.Sockets

namespace Evel.EvLoop
open General Loop

/-- The event `x` is as it was, up to its work, and in no new list. -/
structure Same (x : EventId) (s s' : EvLoop) : Prop where
  event : ∃ work later, s'.events x = { s.events x with nextWork := work, workOnInstall := later }
  kind : s'.kind x = s.kind x
  alive : s'.alive x = s.alive x
  del : x ∈ s'.delList → x ∈ s.delList
  wait : x ∈ s'.waiting → x ∈ s.waiting

/-- What is not about `x`, which is an event already or still not one afterwards. -/
structure Aloof (x : EventId) (s s' : EvLoop) : Prop where
  nextId : s.nextId ≤ s'.nextId
  same : x < s.nextId ∨ s'.nextId ≤ x → Same x s s'

theorem Same.refl (x : EventId) (s : EvLoop) : Same x s s := ⟨⟨_, _, rfl⟩, rfl, rfl, id, id⟩

theorem Same.trans (h : Same x s s') (h' : Same x s' s'') : Same x s s'' := by
  obtain ⟨work, later, he⟩ := h.event
  obtain ⟨work', later', he'⟩ := h'.event
  exact ⟨⟨work', later', by rw [he', he]⟩, h'.kind.trans h.kind, h'.alive.trans h.alive,
    fun hd => h.del (h'.del hd), fun hw => h.wait (h'.wait hw)⟩

theorem Aloof.refl (x : EventId) (s : EvLoop) : Aloof x s s := ⟨Nat.le_refl _, fun _ => .refl x s⟩

theorem Aloof.trans (h : Aloof x s s') (h' : Aloof x s' s'') : Aloof x s s'' := by
  refine ⟨Nat.le_trans h.nextId h'.nextId, fun hx => ?_⟩
  rcases hx with hx | hx
  · exact (h.same (.inl hx)).trans (h'.same (.inl (Nat.lt_of_lt_of_le hx h.nextId)))
  · exact (h.same (.inr (Nat.le_trans h'.nextId hx))).trans (h'.same (.inr hx))

/-- Most of what is not about `x` makes no event. -/
theorem Aloof.of_same (hn : s'.nextId = s.nextId) (h : Same x s s') : Aloof x s s' :=
  ⟨Nat.le_of_eq hn.symm, fun _ => h⟩

theorem aloof_setEvent (hne : x ≠ y) (e : Event) (s : EvLoop) : Aloof x s (s.setEvent y e) :=
  .of_same rfl ⟨⟨(s.events x).nextWork, (s.events x).workOnInstall, by simp [setEvent, hne]⟩,
    rfl, rfl, id, id⟩

theorem aloof_create (x : EventId) (k : Kind) (e : Event) (s : EvLoop) :
    Aloof x s (s.create k e) := by
  refine ⟨Nat.le_succ _, fun hx => ?_⟩
  have hne : x ≠ s.nextId := by
    rintro rfl
    exact hx.elim (Nat.lt_irrefl _) (Nat.not_succ_le_self _)
  exact ⟨⟨(s.events x).nextWork, (s.events x).workOnInstall, by simp [EvLoop.create, hne]⟩,
    by simp [EvLoop.create, hne], by simp [EvLoop.create, hne], id, id⟩

theorem aloof_checkWaitOut (x : EventId) (s : EvLoop) : Aloof x s s.checkWaitOut := by
  rw [checkWaitOut]
  split
  · exact .refl x s
  · exact (aloof_create x .waitOut { Event.new 3 true with evLoop := true } s).trans
      (.of_same rfl ⟨⟨_, _, rfl⟩, rfl, rfl, id, id⟩)

theorem aloof_register (hne : x ≠ y) (t : Event.DelTarget) (s : EvLoop) :
    Aloof x s (s.register y t) := by
  have hset := aloof_setEvent hne ((s.events y).register t) s
  cases t with
  | waitOutList =>
    simp only [register]
    refine Aloof.trans ?_ (aloof_checkWaitOut x _)
    split
    · exact hset
    · refine hset.trans (.of_same rfl ⟨⟨_, _, rfl⟩, rfl, rfl, id, ?_⟩)
      simp [waiting, hne]
  | delList =>
    simp only [register]
    split
    · exact hset
    · exact hset.trans (.of_same rfl ⟨⟨_, _, rfl⟩, rfl, rfl, by simp [hne], id⟩)
  | delOnInstall => exact hset

theorem aloof_request (hne : x ≠ y) (r : Request) (outq : Option Nat) (s : EvLoop) :
    Aloof x s (s.request y r outq) := by
  have hset := aloof_setEvent hne ((s.events y).flags r).1 s
  simp only [request]
  split
  · exact hset
  · exact hset.trans (aloof_register hne _ _)

/-- Work is no reason to destroy an event. -/
theorem aloof_work (x y : EventId) (work later : Bool) (s : EvLoop) :
    Aloof x s (s.setEvent y { s.events y with nextWork := work, workOnInstall := later }) := by
  by_cases hne : x = y
  · subst hne
    exact .of_same rfl ⟨⟨work, later, by simp [setEvent]⟩, rfl, rfl, id, id⟩
  · exact aloof_setEvent hne _ s

theorem aloof_addWork (x y : EventId) (s : EvLoop) : Aloof x s (s.addWork y) := by
  have hset := aloof_work x y true (s.events y).workOnInstall s
  simp only [addWork]
  split
  · exact hset
  · exact hset.trans (.of_same rfl ⟨⟨_, _, rfl⟩, rfl, rfl, id, id⟩)

theorem aloof_regWork (x y : EventId) (s : EvLoop) : Aloof x s (s.regWork y) := by
  cases hl : (s.events y).evLoop with
  | true =>
    have : s.regWork y = s.addWork y := by simp [regWork, addWork, hl]
    rw [this]
    exact aloof_addWork x y s
  | false =>
    have : s.regWork y = s.setEvent y { s.events y with workOnInstall := true } := by
      simp [regWork, hl]
    rw [this]
    exact aloof_work x y (s.events y).nextWork true s

theorem aloof_goto (x : EventId) (p : Phase) (s : EvLoop) : Aloof x s (s.goto p) :=
  .of_same rfl ⟨⟨_, _, rfl⟩, rfl, rfl, id, id⟩

theorem aloof_advance (x : EventId) (batch : List (EventId × Mask)) (s : EvLoop) :
    Aloof x s (s.advance batch) := by
  cases batch with
  | nil => exact aloof_goto x _ s
  | cons p rest => exact aloof_goto x _ s

theorem aloof_destroy (hne : x ≠ y) (s : EvLoop) : Aloof x s (s.destroy y) :=
  .of_same rfl ⟨⟨_, _, rfl⟩, rfl, by simp [destroy, hne], id, id⟩

/-- The event that `run` takes from `del_list` next, or `WaitOut::timeout` from its chain. -/
def examined (s : EvLoop) : Option EventId :=
  match s.phase with
  | .dels => s.delList.head?
  | .batch _ _ .tick _ => s.chain.head?
  | _ => none

/-- The event whose notification is being handled. -/
def atHand (s : EvLoop) : Option EventId :=
  match s.phase with
  | .batch x _ _ _ => some x
  | _ => none

theorem aloof_notify (hne : x ≠ y) (b : Bool) (r : Request) (outq : Option Nat) (s : EvLoop) :
    Aloof x s (if b then s.request y r outq else s) := by
  cases b with
  | true => exact aloof_request hne r outq s
  | false => exact .refl x s

theorem aloof_tick {s : EvLoop} (hne : x ≠ w) (hx : s.chain.head? ≠ some x) (outq : Option Nat)
    (done : Phase) : (s.tick w outq done).Split (Aloof x s) (Aloof x s) := by
  unfold tick
  cases hc : s.chain with
  | cons y ys =>
    have hxy : x ≠ y := by
      rintro rfl
      simp [hc] at hx
    dsimp only
    split
    · split
      · refine .of_same rfl ⟨⟨_, _, rfl⟩, rfl, rfl, id, ?_⟩
        simp only [waiting, hc, List.mem_append, List.mem_cons, List.not_mem_nil, or_false]
        tauto
      · refine Aloof.trans ?_ (aloof_destroy hxy _)
        refine .of_same rfl ⟨⟨_, _, rfl⟩, rfl, rfl, id, ?_⟩
        simp only [waiting, hc, List.mem_append, List.mem_cons]
        tauto
    · exact .refl x s
  | nil =>
    have hprepend : Aloof x s
        { s with waitOutList := s.renewed ++ s.waitOutList, chain := [], renewed := [] } := by
      refine .of_same rfl ⟨⟨_, _, rfl⟩, rfl, rfl, id, ?_⟩
      simp only [waiting, List.mem_append, List.append_nil]
      tauto
    dsimp only
    split
    · refine hprepend.trans (Aloof.trans ?_ (aloof_goto x done _))
      refine Aloof.trans ?_ (aloof_request hne (.close true) none _)
      exact .of_same rfl ⟨⟨_, _, rfl⟩, rfl, rfl, id, id⟩
    · exact hprepend.trans (aloof_goto x done _)

theorem aloof_handle {s : EvLoop} (hne : x ≠ y) (hp : s.phase = .batch y mask stage rest)
    (hx : s.examined ≠ some x) (outAreSent : Bool) (outq : Option Nat) :
    (s.handle y mask stage rest outAreSent outq).Split (Aloof x s) (Aloof x s) := by
  cases stage with
  | tick => exact aloof_tick hne (by simpa [examined, hp] using hx) outq _
  | want =>
    dsimp only [handle]
    split
    · exact aloof_advance x rest s
    · exact aloof_goto x _ s
  | out => exact (aloof_notify hne _ .del outq s).trans (aloof_goto x _ _)
  | inp =>
    dsimp only [handle]
    split
    · refine .of_same rfl ⟨⟨_, _, rfl⟩, rfl, rfl, id, ?_⟩
      simp only [waiting, goto, List.mem_append, List.nil_append]
      tauto
    · exact aloof_goto x _ s
  | rdHup => exact (aloof_notify hne _ .fail outq s).trans (aloof_goto x _ _)
  | hup => exact (aloof_notify hne _ .fail outq s).trans (aloof_goto x _ _)
  | err => exact (aloof_notify hne _ .fail outq s).trans (aloof_advance x rest _)

/-- A step of the loop leaves an event alone that it neither examines nor has at hand. -/
theorem aloof_next {s : EvLoop} (hn : s.atHand ≠ some x) (hx : s.examined ≠ some x)
    (outAreSent : Bool) (outq : Option Nat) :
    (s.next outAreSent outq).Split (Aloof x s) (Aloof x s) := by
  rw [next]
  cases hp : s.phase with
  | work =>
    dsimp only
    split
    · exact aloof_goto x _ s
    · next y ys hw =>
      split
      · refine Aloof.trans ?_ (aloof_work x y false (s.events y).workOnInstall _)
        exact .of_same rfl ⟨⟨_, _, rfl⟩, rfl, rfl, id, id⟩
      · exact .refl x s
  | dels =>
    dsimp only
    split
    · exact aloof_goto x _ s
    · next y ys hd =>
      split
      · have hxy : x ≠ y := by
          rintro rfl
          simp [examined, hp, hd] at hx
        refine Aloof.trans (Aloof.trans ?_ (aloof_setEvent hxy _ _)) (aloof_destroy hxy _)
        exact .of_same rfl ⟨⟨_, _, rfl⟩, rfl, rfl, fun hm => by simp [hd, show x ∈ ys from hm], id⟩
      · exact .refl x s
  | poll => exact .refl x s
  | batch y mask stage rest =>
    have hne : x ≠ y := by
      rintro rfl
      simp [atHand, hp] at hn
    dsimp only
    split
    · exact aloof_handle hne hp hx outAreSent outq
    · exact .refl x s

/-- What `x` is after a request. -/
def requested (x : EventId) (r : Request) (outq : Option Nat) (s : EvLoop) : Event :=
  match s.target x r outq with
  | none => ((s.events x).flags r).1
  | some t => ((s.events x).flags r).1.register t

theorem requested_of_del {s : EvLoop} (h : (s.events x).flags r = (e, true))
    (outq : Option Nat) :
    s.requested x r outq = e.del (mayHaveOut (s.kind x)) outq ∧
      s.target x r outq = some (e.delTarget (mayHaveOut (s.kind x)) outq) := by
  simp [requested, target, h, Event.del]

theorem requested_of_stay {s : EvLoop} (h : (s.events x).flags r = (e, false))
    (outq : Option Nat) : s.requested x r outq = e ∧ s.target x r outq = none := by
  simp [requested, target, h]

theorem flags_evLoop (r : Request) (e : Event) : (e.flags r).1.evLoop = e.evLoop := by
  cases r with
  | close outAreSent =>
    simp only [Event.flags, Event.closeFdFlags]
    split_ifs <;> rfl
  | del => rfl
  | fail => rfl

theorem requested_evLoop (x : EventId) (r : Request) (outq : Option Nat) (s : EvLoop) :
    (s.requested x r outq).evLoop = (s.events x).evLoop := by
  rw [requested]
  split
  · exact flags_evLoop r _
  · rw [Event.register_evLoop, flags_evLoop]

theorem flags_hasError (r : Request) {e : Event} (h : e.hasError = true) :
    (e.flags r).1.hasError = true := by
  cases r with
  | close outAreSent => simp [Event.flags, Event.closeFdFlags, h]
  | del => exact h
  | fail => rfl

theorem requested_hasError {s : EvLoop} (h : (s.events x).hasError = true) :
    (s.requested x r outq).hasError = true := by
  rw [requested]
  split
  · exact flags_hasError r h
  · rw [Event.register_hasError, flags_hasError r h]

/-- The event `x` has become `e`, up to its work, and is in no new list but that of `t`. -/
structure Became (x : EventId) (e : Event) (t : Option Event.DelTarget) (s s' : EvLoop) :
    Prop where
  nextId : s.nextId ≤ s'.nextId
  event : ∃ work later, s'.events x = { e with nextWork := work, workOnInstall := later }
  kind : s'.kind x = s.kind x
  alive : s'.alive x = s.alive x
  del : x ∈ s'.delList → x ∈ s.delList ∨ t = some .delList
  wait : x ∈ s'.waiting → x ∈ s.waiting ∨ t = some .waitOutList

theorem became_setEvent (x : EventId) (e : Event) (s : EvLoop) :
    Became x e none s (s.setEvent x e) :=
  ⟨Nat.le_refl _, ⟨e.nextWork, e.workOnInstall, by simp [setEvent]⟩, rfl, rfl, .inl, .inl⟩

theorem Became.aloof (h : Became x e t s s') (hx : x < s.nextId) (h' : Aloof x s' s'') :
    Became x e t s s'' := by
  have hs := h'.same (.inl (Nat.lt_of_lt_of_le hx h.nextId))
  obtain ⟨work, later, he⟩ := h.event
  obtain ⟨work', later', he'⟩ := hs.event
  exact ⟨Nat.le_trans h.nextId h'.nextId, ⟨work', later', by rw [he', he]⟩,
    hs.kind.trans h.kind, hs.alive.trans h.alive, fun hd => h.del (hs.del hd),
    fun hw => h.wait (hs.wait hw)⟩

theorem became_register (hx : x < s.nextId) (t : Event.DelTarget) :
    Became x ((s.events x).register t) (some t) s (s.register x t) := by
  have hset := became_setEvent x ((s.events x).register t) s
  cases t with
  | waitOutList =>
    simp only [register]
    refine Became.aloof ?_ hx (aloof_checkWaitOut x _)
    split
    · exact ⟨hset.nextId, hset.event, rfl, rfl, .inl, .inl⟩
    · exact ⟨hset.nextId, hset.event, rfl, rfl, .inl, fun _ => .inr rfl⟩
  | delList =>
    simp only [register]
    split
    · exact ⟨hset.nextId, hset.event, rfl, rfl, .inl, .inl⟩
    · exact ⟨hset.nextId, hset.event, rfl, rfl, fun _ => .inr rfl, .inl⟩
  | delOnInstall => exact ⟨hset.nextId, hset.event, rfl, rfl, .inl, .inl⟩

theorem became_request {s : EvLoop} (hx : x < s.nextId) (r : Request) (outq : Option Nat) :
    Became x (s.requested x r outq) (s.target x r outq) s (s.request x r outq) := by
  simp only [request, requested]
  cases ht : s.target x r outq with
  | none => exact became_setEvent x _ s
  | some t =>
    have h := became_register (s := s.setEvent x ((s.events x).flags r).1) hx t
    rw [show (s.setEvent x ((s.events x).flags r).1).events x = ((s.events x).flags r).1 by
      simp [setEvent]] at h
    exact ⟨h.nextId, h.event, h.kind, h.alive, h.del, h.wait⟩

/-- What a step of the loop makes of the event that it examines. -/
theorem next_examined {s : EvLoop} (hx : s.examined = some x) (hn : s.atHand ≠ some x)
    (outAreSent : Bool) (outq : Option Nat) :
    s.next outAreSent outq = .undef s ∨
      ∃ s', s.next outAreSent outq = .ret s' ∧ s.alive x = true ∧ s'.nextId = s.nextId ∧
        (∃ d, s'.events x = { s.events x with nextDel := d }) ∧
        ((s.phase = .dels ∧ s'.alive x = false) ∨
          (ticking s.phase = true ∧ pendingOut outq (s.events x) = 0 ∧ s'.alive x = false) ∨
          (ticking s.phase = true ∧ pendingOut outq (s.events x) ≠ 0 ∧ Same x s s')) := by
  rw [examined] at hx
  split at hx
  · next hp =>
    cases hd : s.delList with
    | nil => simp [hd] at hx
    | cons y ys =>
      obtain rfl : y = x := by simpa [hd] using hx
      cases ha : s.alive y with
      | false => exact .inl (by simp [next, hp, hd, ha])
      | true =>
        refine .inr ⟨({ s with delList := ys }.setEvent y
          { s.events y with nextDel := false }).destroy y, ?_, rfl, rfl, ⟨false, ?_⟩, .inl ⟨hp, ?_⟩⟩
        · simp [next, hp, hd, ha]
        · simp [destroy, setEvent]
        · simp [destroy]
  · next w mask rest hp =>
    cases hc : s.chain with
    | nil => simp [hc] at hx
    | cons y ys =>
      obtain rfl : y = x := by simpa [hc] using hx
      cases hw : s.alive w with
      | false => exact .inl (by simp [next, hp, hw])
      | true =>
        cases ha : s.alive y with
        | false => exact .inl (by simp [next, hp, hw, handle, tick, hc, ha])
        | true =>
          by_cases hpend : pendingOut outq (s.events y) = 0
          · refine .inr ⟨{ s with chain := ys }.destroy y, ?_, rfl, rfl, ⟨_, rfl⟩,
              .inr (.inl ⟨by rw [hp]; rfl, hpend, by simp [destroy]⟩)⟩
            simp [next, hp, hw, handle, tick, hc, ha, hpend]
          · refine .inr ⟨{ s with chain := ys, renewed := s.renewed ++ [y] }, ?_, rfl, rfl,
              ⟨_, rfl⟩,
              .inr (.inr ⟨by rw [hp]; rfl, hpend, ⟨_, _, rfl⟩, rfl, rfl, id, fun _ => ?_⟩)⟩
            · simp [next, hp, hw, handle, tick, hc, ha, hpend]
            · simp [waiting, hc]
  · simp at hx

end Evel.EvLoop

namespace Evel.Sockets
open General Loop EvLoop
variable {Addr : Type u}

def Entry.about : Entry → EventId
  | .asked x _ | .told x | .parsed x | .destroyed x _ _ => x

/-- What is not about `x`, in the loop, among the sockets and in the log. -/
structure Aside (x : EventId) (s s' : Sockets Addr) : Prop where
  loop : Aloof x s.loop s'.loop
  sock : s'.sock x = s.sock x
  log : ∃ es, s'.log = s.log ++ es ∧ ∀ e ∈ es, e.about ≠ x

theorem Aside.refl (x : EventId) (s : Sockets Addr) : Aside x s s :=
  ⟨.refl x _, rfl, [], by simp, by simp⟩

theorem Aside.trans {s s' s'' : Sockets Addr} (h : Aside x s s') (h' : Aside x s' s'') :
    Aside x s s'' := by
  obtain ⟨es, hl, he⟩ := h.log
  obtain ⟨es', hl', he'⟩ := h'.log
  refine ⟨h.loop.trans h'.loop, h'.sock.trans h.sock, es ++ es', ?_, fun e hm => ?_⟩
  · rw [hl', hl, List.append_assoc]
  · exact (List.mem_append.mp hm).elim (he e) (he' e)

theorem Aside.of_loop {s : Sockets Addr} (h : Aloof x s.loop l) :
    Aside x s { s with loop := l } :=
  ⟨h, rfl, [], by simp, by simp⟩

theorem aside_note (h : ∀ e ∈ es, Entry.about e ≠ x) (s : Sockets Addr) : Aside x s (s.note es) :=
  ⟨.refl x _, rfl, es, rfl, h⟩

/-- The rule of `handle`: `P` holds where it is done, `Q` where it is stuck in `on_out`, and `M`
before the test that follows `on_out`. -/
theorem split_handle {P Q M : Sockets Addr → Prop} {s : Sockets Addr} (stage : Stage)
    (hskip : P (s.advance rest))
    (hout : (s.loop.events y).nextDel = false →
      ∀ e, (k.withEvent (s.loop.events y)).onOut script = e → M (s.put y e.state))
    (hnone : (s.loop.events y).nextDel = false → M s) (hstuck : ∀ s', M s' → Q s')
    (hafter : ∀ s', M s' → P ((s'.afterOut y mask outq).goto (.batch y mask .inp rest)))
    (hidle : P s)
    (hread : (s.loop.events y).wantCloseFd = false → (s.loop.events y).nextDel = false →
      P { s with reading := .recv })
    (hpass : P (s.goto (.batch y mask .rdHup rest)))
    (hfail : ∀ (b : Bool) stage',
      P ((if b then s.request y .fail outq else s).goto (.batch y mask stage' rest)))
    (hlast : ∀ b : Bool, P ((if b then s.request y .fail outq else s).advance rest)) :
    (s.handle y mask stage rest outq script k).Split P Q := by
  cases stage with
  | want =>
    dsimp only [handle]
    split
    · exact hskip
    · next hd =>
      have hd : (s.loop.events y).nextDel = false := by simpa using hd
      have hsent : (if mask.out then ((k.withEvent (s.loop.events y)).onOut script).map
          (fun k => s.put y k) else .ret s).Split M M := by
        split
        · rw [Exec.split_map]
          cases he : (k.withEvent (s.loop.events y)).onOut script <;> exact hout hd _ he
        · exact hnone hd
      exact (hsent.mono (fun _ h => h) hstuck).andThen hafter
  | out => exact hidle
  | tick => exact hidle
  | inp =>
    dsimp only [handle]
    split
    · next hopen =>
      simp only [Bool.and_eq_true, Bool.not_eq_true'] at hopen
      exact hread hopen.1.2 hopen.2
    · exact hpass
  | rdHup => exact hfail _ _
  | hup => exact hfail _ _
  | err => exact hlast _

/-- The rule of `next`, with the socket at hand in `handle` or behind `parse`, and no socket at
hand in `others`. -/
theorem split_next {P Q : Sockets Addr → Prop} {s : Sockets Addr} {outAreSent : Bool}
    (hidle : P s) (hundef : Q s)
    (hhandle : ∀ y mask stage rest k, s.loop.phase = .batch y mask stage rest →
      s.sock y = some k → s.reading = .no → (s.handle y mask stage rest outq script k).Split P Q)
    (hleave : ∀ y mask stage rest, s.loop.phase = .batch y mask stage rest → P s.leave)
    (hagain : ∀ y, s.loop.atHand = some y → s.reading = .parse →
      (s.loop.events y).wantCloseFd = false → (s.loop.events y).nextDel = false →
        P { s with reading := .recv })
    (hothers : (∀ y, s.loop.atHand = some y → s.sock y = none) →
      (s.others outAreSent outq).Split P Q) :
    (s.next outAreSent outq script).Split P Q := by
  rw [next]
  split
  · next y mask stage rest hp =>
    split
    · next k hk =>
      split
      · split
        · next hr => exact hhandle y mask stage rest k hp hk hr
        · exact hidle
        · next hr =>
          rw [Exec.split_ret]
          split
          · exact hleave y mask stage rest hp
          · next hopen =>
            simp only [Bool.or_eq_true, not_or, Bool.not_eq_true] at hopen
            exact hagain y (by simp [atHand, hp]) hr hopen.1 hopen.2
      · exact hundef
    · next hk =>
      refine hothers (fun z hz => ?_)
      obtain rfl : y = z := by simpa [atHand, hp] using hz
      exact hk
  · exact hothers (fun z hz => by simp [atHand] at hz)

/-- All that `recv` can come to, with the socket at hand. -/
theorem recv_forms (a : SysAnswer) (s : Sockets Addr) :
    (∃ y, s.recv a = .ret ({ s with reading := .parse }.note [.parsed y]) ∧ s.reading = .recv ∧
        s.loop.atHand = some y ∧ s.sock y ≠ none ∧ s.loop.alive y = true) ∨
      s.recv a = .ret s ∨ s.recv a = .undef s ∨
      ∃ y mask stage rest, s.loop.phase = .batch y mask stage rest ∧
        (s.recv a = .ret s.leave ∨ s.recv a = .ret (s.request y .fail none).leave) := by
  rw [recv]
  split
  · next y mask stage rest hr hp =>
    split
    · next k hk =>
      split
      · next ha =>
        split_ifs
        · exact .inl ⟨y, rfl, hr, by simp [atHand, hp], by simp [hk], ha⟩
        · exact .inr (.inl rfl)
        · exact .inr (.inr (.inr ⟨y, mask, stage, rest, hp, .inl rfl⟩))
        · exact .inr (.inr (.inr ⟨y, mask, stage, rest, hp, .inr rfl⟩))
      · exact .inr (.inr (.inl rfl))
    · exact .inr (.inl rfl)
  · exact .inr (.inl rfl)

/-- The rule of `recv`. -/
theorem split_recv {P Q : Sockets Addr → Prop} {s : Sockets Addr} (hidle : P s) (hundef : Q s)
    (hparse : ∀ y, s.reading = .recv → s.loop.atHand = some y → s.sock y ≠ none →
      s.loop.alive y = true → P ({ s with reading := .parse }.note [.parsed y]))
    (hleave : ∀ y mask stage rest, s.loop.phase = .batch y mask stage rest → P s.leave)
    (hfail : ∀ y mask stage rest, s.loop.phase = .batch y mask stage rest →
      P (s.request y .fail none).leave) :
    (s.recv a).Split P Q := by
  obtain ⟨y, h, hr, hhand, hk, ha⟩ | h | h | ⟨y, mask, stage, rest, hp, h | h⟩ := recv_forms a s
  · rw [h]
    exact hparse y hr hhand hk ha
  · rw [h]
    exact hidle
  · rw [h]
    exact hundef
  · rw [h]
    exact hleave y mask stage rest hp
  · rw [h]
    exact hfail y mask stage rest hp

/-- The rule of the sends of user code. -/
theorem split_tcpSend {P : Sockets Addr → Prop} {s : Sockets Addr} (hidle : P s)
    (hput : ∀ k k', s.load y = some k → P (s.put y k')) :
    (s.user (.tcpSend y data rese allow script)).Split P P := by
  simp only [user]
  split
  · next c hc =>
    rw [Exec.split_map]
    cases c.send data rese allow script <;> exact hput _ _ hc
  · exact hidle

theorem split_udpSend {P : Sockets Addr → Prop} {s : Sockets Addr} (hidle : P s)
    (hput : ∀ k k', s.load y = some k → P (s.put y k')) :
    (s.user (.udpSend y dst data allow script)).Split P P := by
  simp only [user]
  split
  · next u hu =>
    rw [Exec.split_map]
    cases u.sendRaw dst data allow script <;> exact hput _ _ hu
  · exact hidle

section others
variable {x y : EventId} (hne : x ≠ y) (outq : Option Nat) (s : Sockets Addr)
include hne

theorem aside_request (r : Request) : Aside x s (s.request y r outq) := by
  refine (Aside.of_loop (aloof_request hne (s.actual y r) outq s.loop)).trans (aside_note ?_ _)
  intro e he
  rcases List.mem_cons.mp he with rfl | he
  · exact hne.symm
  · split at he
    · rw [List.mem_singleton.mp he]
      exact hne.symm
    · simp at he

theorem aside_notify (b : Bool) (r : Request) :
    Aside x s (if b then s.request y r outq else s) := by
  cases b with
  | true => exact aside_request hne outq s r
  | false => exact .refl x s

theorem aside_put (k : Sock Addr) : Aside x s (s.put y k) := by
  have hsock : Aside x s { s with sock := Function.update s.sock y (some k) } :=
    ⟨.refl x _, by simp [hne], [], by simp, by simp⟩
  simp only [put]
  split
  · exact hsock
  · exact hsock.trans (aside_request hne none _ .fail)

theorem aside_install : Aside x s (s.install y outq) := by
  simp only [install]
  split
  · exact .refl x s
  · have hset := Aside.of_loop (aloof_setEvent hne { s.loop.events y with evLoop := true } s.loop)
    split
    · exact hset.trans (aside_request hne outq _ .del)
    · exact hset

theorem aside_handle (mask : Mask) (stage : Stage) (rest : List (EventId × Mask))
    (script : List SysAnswer) (k : Sock Addr) :
    (s.handle y mask stage rest outq script k).Split (Aside x s) (Aside x s) := by
  have hgoto : ∀ (s : Sockets Addr) p, Aside x s (s.goto p) :=
    fun s p => .of_loop (aloof_goto x p s.loop)
  have hadvance : ∀ s : Sockets Addr, Aside x s (s.advance rest) :=
    fun s => .of_loop (aloof_advance x rest s.loop)
  apply split_handle stage (M := Aside x s)
  case hskip => exact hadvance s
  case hout => exact fun _ _ _ => aside_put hne s _
  case hnone => exact fun _ => .refl x s
  case hstuck => exact fun _ h => h
  case hafter => exact fun s' h => (h.trans (aside_notify hne outq s' _ .del)).trans (hgoto _ _)
  case hidle => exact .refl x s
  case hread => exact fun _ _ => ⟨.refl x _, rfl, [], by simp, by simp⟩
  case hpass => exact hgoto s _
  case hfail => exact fun b _ => (aside_notify hne outq s b .fail).trans (hgoto _ _)
  case hlast => exact fun b => (aside_notify hne outq s b .fail).trans (hadvance _)

end others

theorem aside_leave (x : EventId) (s : Sockets Addr) : Aside x s s.leave := by
  rw [leave]
  split
  · exact ⟨aloof_goto x _ s.loop, rfl, [], by simp [goto], by simp⟩
  · exact .refl x s

theorem obituary_about (y : EventId) (s : Sockets Addr) (e : Entry) (he : e ∈ s.obituary y) :
    e.about = y := by
  simp only [obituary] at he
  split at he
  · rw [List.mem_singleton.mp he]
    rfl
  · simp at he

/-- The loop writes of the event that it examines. -/
theorem entries_about {s : Sockets Addr} (he : e ∈ s.entries outq) :
    s.loop.examined = some (Entry.about e) := by
  simp only [entries] at he
  split at he
  · next hp =>
    split at he
    · next y ys hd =>
      rw [obituary_about y s e he]
      simp [examined, hp, hd]
    · simp at he
  · next hp =>
    split at he
    · next y ys hc =>
      have hy : e.about = y := by
        rcases List.mem_append.mp he with he | he
        · split at he
          · rw [List.mem_singleton.mp he]
            rfl
          · simp at he
        · split at he
          · exact obituary_about y s e he
          · simp at he
      rw [hy]
      simp [examined, hp, hc]
    · simp at he
  · simp at he

theorem aside_others {s : Sockets Addr} (hn : s.loop.atHand ≠ some x)
    (hx : s.loop.examined ≠ some x) (outAreSent : Bool) (outq : Option Nat) :
    (s.others outAreSent outq).Split (Aside x s) (Aside x s) := by
  rw [others, Exec.split_bimap]
  refine Exec.Split.mono (aloof_next hn hx outAreSent outq) (fun l hl => ?_) (fun l hl => ?_)
  · refine (Aside.of_loop hl).trans (aside_note (fun e he hxe => ?_) _)
    exact hx (hxe ▸ entries_about he)
  · exact .of_loop hl

/-- The events that an input is about. -/
def Concerns (x : EventId) (s : Sockets Addr) : Input Addr → Prop
  | .tcp _ _ | .udp _ _ => s.reading ≠ .recv ∧ x = s.loop.nextId
  | .tcpSend y _ _ _ _ | .udpSend y _ _ _ _ | .install y _ | .request y _ _ =>
    s.loop.alive y = true ∧ x = y
  | .next _ _ _ => s.loop.atHand = some x ∨ s.loop.examined = some x
  | .recv _ => s.loop.atHand = some x
  | _ => False

theorem aside_next {s : Sockets Addr} (hn : s.loop.atHand ≠ some x)
    (hx : s.loop.examined ≠ some x) (outAreSent : Bool) (outq : Option Nat)
    (script : List SysAnswer) :
    (s.next outAreSent outq script).Split (Aside x s) (Aside x s) := by
  have hne : ∀ y mask stage rest, s.loop.phase = .batch y mask stage rest → x ≠ y := by
    rintro y mask stage rest hp rfl
    simp [atHand, hp] at hn
  apply split_next
  case hidle => exact .refl x s
  case hundef => exact .refl x s
  case hhandle =>
    intro y mask stage rest k hp _ _
    exact aside_handle (hne y mask stage rest hp) outq s mask stage rest script k
  case hleave => exact fun _ _ _ _ _ => aside_leave x s
  case hagain => exact fun _ _ _ _ _ => ⟨.refl x _, rfl, [], by simp, by simp⟩
  case hothers => exact fun _ => aside_others hn hx outAreSent outq

theorem aside_recv {s : Sockets Addr} (hn : s.loop.atHand ≠ some x) (a : SysAnswer) :
    (s.recv a).Split (Aside x s) (Aside x s) := by
  have hne : ∀ y, s.loop.atHand = some y → x ≠ y := by
    rintro y hy rfl
    exact hn hy
  apply split_recv
  case hidle => exact .refl x s
  case hundef => exact .refl x s
  case hparse =>
    intro y _ hy _ _
    exact ⟨.refl x _, rfl, [.parsed y], rfl, by simpa [Entry.about] using (hne y hy).symm⟩
  case hleave => exact fun _ _ _ _ _ => aside_leave x s
  case hfail =>
    intro y mask stage rest hp
    have hy := hne y (by simp [atHand, hp])
    exact (aside_request hy none s .fail).trans (aside_leave x _)

theorem aside_create {s : Sockets Addr} (hne : x ≠ s.loop.nextId) (k : Sock Addr) :
    Aside x s (s.create k) :=
  ⟨aloof_create x _ _ s.loop, by simp [create, hne], [], by simp [create], by simp⟩

theorem load_alive {s : Sockets Addr} (h : s.load x = some k) : s.loop.alive x = true := by
  rw [load] at h
  split at h
  · assumption
  · simp at h

theorem aside_user {s : Sockets Addr} {i : Input Addr} (h : ¬ Concerns x s i)
    (hr : s.reading ≠ .recv) : (s.user i).Split (Aside x s) (Aside x s) := by
  cases i with
  | create fd needWait mayHaveOut => exact .of_loop (aloof_create x _ _ s.loop)
  | tcp fd waiting => exact aside_create (fun he => h ⟨hr, he⟩) _
  | udp fd needWait => exact aside_create (fun he => h ⟨hr, he⟩) _
  | tcpSend y data rese allow script =>
    refine split_tcpSend (.refl x s) (fun k k' hk => ?_)
    have hne : x ≠ y := fun he => h ⟨load_alive hk, he⟩
    exact aside_put hne s k'
  | udpSend y dst data allow script =>
    refine split_udpSend (.refl x s) (fun k k' hk => ?_)
    have hne : x ≠ y := fun he => h ⟨load_alive hk, he⟩
    exact aside_put hne s k'
  | install y outq =>
    dsimp only [user]
    rw [Exec.split_ret]
    split
    · next ha => exact aside_install (fun he => h ⟨ha, he⟩) outq s
    · exact .refl x s
  | request y r outq =>
    dsimp only [user]
    rw [Exec.split_ret]
    split
    · next ha => exact aside_request (fun he => h ⟨ha, he⟩) outq s r
    · exact .refl x s
  | regWork y =>
    dsimp only [user]
    rw [Exec.split_ret]
    split
    · exact .of_loop (aloof_regWork x y s.loop)
    · exact .refl x s
  | addWork y =>
    dsimp only [user]
    rw [Exec.split_ret]
    split
    · exact .of_loop (aloof_addWork x y s.loop)
    · exact .refl x s
  | poll batch =>
    dsimp only [user]
    rw [Exec.split_ret]
    split
    · exact .of_loop (aloof_advance x batch s.loop)
    · exact .refl x s
  | next outAreSent outq script => exact .refl x s
  | recv a => exact .refl x s

/-- An input leaves alone the events that it is not about. -/
theorem aside_apply {s : Sockets Addr} {i : Input Addr} (h : ¬ Concerns x s i) :
    (s.apply i).Split (Aside x s) (Aside x s) := by
  rw [apply.eq_def]
  split
  · next outAreSent outq script =>
    exact aside_next (fun hn => h (.inl hn)) (fun hx => h (.inr hx)) outAreSent outq script
  · next a => exact aside_recv h a
  · split
    · exact .refl x s
    · next hr => exact aside_user h hr

theorem request_event {s : Sockets Addr} (hx : x < s.loop.nextId) (r : Request)
    (outq : Option Nat) : ∃ work later, (s.request x r outq).loop.events x =
      { s.loop.requested x (s.actual x r) outq with
        nextWork := work, workOnInstall := later } :=
  (became_request hx (s.actual x r) outq).event

/-- The event has come to its loop, where a deletion asked before is made up for. -/
def installed (x : EventId) (s : Sockets Addr) : Sockets Addr :=
  { s with loop := s.loop.setEvent x { s.loop.events x with evLoop := true } }

@[simp] theorem installed_event (x : EventId) (s : Sockets Addr) :
    (s.installed x).loop.events x = { s.loop.events x with evLoop := true } := by
  simp [installed, setEvent]

theorem install_eq (x : EventId) (outq : Option Nat) (s : Sockets Addr) :
    s.install x outq = if (s.loop.events x).evLoop then s
      else if (s.loop.events x).delOnInstall then (s.installed x).request x .del outq
      else s.installed x := rfl

theorem load_sock {s : Sockets Addr} (h : s.load x = some k) : s.sock x ≠ none := by
  intro hn
  simp [load, hn] at h

/-- The loop itself neither tells nor parses. -/
theorem entries_cases {s : Sockets Addr} (he : e ∈ s.entries outq) :
    (∃ y, e = .asked y outq) ∨ ∃ y fd sent, e = .destroyed y fd sent := by
  have hend : ∀ y, e ∈ s.obituary y → ∃ y fd sent, e = .destroyed y fd sent := by
    intro y he
    rw [obituary] at he
    split at he
    · exact ⟨y, _, _, List.mem_singleton.mp he⟩
    · simp at he
  simp only [entries] at he
  split at he
  · split at he
    · exact .inr (hend _ he)
    · simp at he
  · split at he
    · rcases List.mem_append.mp he with he | he
      · split at he
        · exact .inl ⟨_, List.mem_singleton.mp he⟩
        · simp at he
      · split at he
        · exact .inr (hend _ he)
        · simp at he
    · simp at he
  · simp at he

end Evel.Sockets
