import Mathlib.Data.List.Range
import Evel.General.Census
import Evel.General.Runs
import Evel.Model.MainLoop
import Evel.Proofs.SocketFrame

namespace Evel.EvLoop
open General Loop MainLoop

/-- The loop has counted the event and not taken it back. -/
def counted (s : EvLoop) (x : EventId) : Bool :=
  let e := s.events x
  e.evLoop && e.needWait && (s.alive x || decide (e.fd ≤ 2))

def tally (s : EvLoop) : Nat := (List.range s.nextId).countP s.counted

/-- Every live event has been made. -/
def Known (s : EvLoop) : Prop := ∀ x, s.alive x = true → x < s.nextId

theorem tally_congr {s s' : EvLoop} (hn : s'.nextId = s.nextId)
    (h : ∀ x, s'.counted x = s.counted x) : s'.tally = s.tally := by
  rw [tally, hn]
  exact List.countP_congr (fun x _ => by rw [h x])

/-- What is counted changes at one event. -/
theorem tally_at {s s' : EvLoop} (hn : s'.nextId = s.nextId) (hx : x < s.nextId)
    (h : ∀ y, y ≠ x → s'.counted y = s.counted y) :
    s'.tally + (if s.counted x then 1 else 0) = s.tally + (if s'.counted x then 1 else 0) := by
  have hmem := List.mem_range.mpr hx
  have hrest : ((List.range s.nextId).erase x).countP s'.counted =
      ((List.range s.nextId).erase x).countP s.counted := by
    refine List.countP_congr (fun y hy => ?_)
    rw [h y (List.nodup_range.mem_erase_iff.mp hy).1]
  rw [tally, tally, hn, ← countP_erase_add s'.counted hmem, ← countP_erase_add s.counted hmem,
    hrest]
  omega

/-- What no step changes of the events that are made. -/
structure Lasting (s s' : EvLoop) : Prop where
  nextId : s.nextId ≤ s'.nextId
  kind : ∀ y < s.nextId, s'.kind y = s.kind y
  fd : ∀ y < s.nextId, (s'.events y).fd = (s.events y).fd
  needWait : ∀ y < s.nextId, (s'.events y).needWait = (s.events y).needWait
  evLoop : ∀ y < s.nextId, (s.events y).evLoop = true → (s'.events y).evLoop = true

theorem Lasting.of_eq {s s' : EvLoop} (hn : s'.nextId = s.nextId) (hk : s'.kind = s.kind)
    (he : s'.events = s.events) : Lasting s s' :=
  ⟨Nat.le_of_eq hn.symm, fun _ _ => by rw [hk], fun _ _ => by rw [he], fun _ _ => by rw [he],
    fun _ _ => by rw [he]; exact id⟩

theorem Lasting.trans (h : Lasting s s') (h' : Lasting s' s'') : Lasting s s'' := by
  have hlt : ∀ y < s.nextId, y < s'.nextId := fun y hy => Nat.lt_of_lt_of_le hy h.nextId
  exact {
    nextId := Nat.le_trans h.nextId h'.nextId
    kind := fun y hy => (h'.kind y (hlt y hy)).trans (h.kind y hy)
    fd := fun y hy => (h'.fd y (hlt y hy)).trans (h.fd y hy)
    needWait := fun y hy => (h'.needWait y (hlt y hy)).trans (h.needWait y hy)
    evLoop := fun y hy hl => h'.evLoop y (hlt y hy) (h.evLoop y hy hl) }

theorem lasting_setEvent (x : EventId) (e : Event) (s : EvLoop)
    (hl : (s.events x).evLoop = true → e.evLoop = true)
    (hw : e.needWait = (s.events x).needWait) (hf : e.fd = (s.events x).fd) :
    Lasting s (s.setEvent x e) := by
  have hother : ∀ y, y ≠ x → (s.setEvent x e).events y = s.events y := fun y hy => by
    simp [setEvent, hy]
  have hself : (s.setEvent x e).events x = e := by simp [setEvent]
  refine ⟨Nat.le_refl _, fun _ _ => rfl, fun y _ => ?_, fun y _ => ?_, fun y _ => ?_⟩
  · by_cases hy : y = x
    · rw [hy, hself, hf]
    · rw [hother y hy]
  · by_cases hy : y = x
    · rw [hy, hself, hw]
    · rw [hother y hy]
  · by_cases hy : y = x
    · rw [hy, hself]
      exact hl
    · rw [hother y hy]
      exact id

theorem lasting_create (k : Kind) (e : Event) (s : EvLoop) : Lasting s (s.create k e) := by
  have hold : ∀ y < s.nextId, (s.create k e).events y = s.events y := fun y hy => by
    simp [EvLoop.create, Nat.ne_of_lt hy]
  refine ⟨Nat.le_succ _, fun y hy => by simp [EvLoop.create, Nat.ne_of_lt hy], fun y hy => ?_,
    fun y hy => ?_, fun y hy => ?_⟩
  · rw [hold y hy]
  · rw [hold y hy]
  · rw [hold y hy]
    exact id

/-- What a step adds to the count, with what it leaves of the timer of `wait_out_list`. It destroys
nothing. -/
structure Steady (s s' : EvLoop) : Prop extends Lasting s s' where
  known : Known s → Known s'
  tally : s'.tally = s.tally + timerMade s s'
  timer : ∀ w, s.waitOutTimer = some w → s'.waitOutTimer = some w
  log : s'.log = s.log
  alive : ∀ y, s.alive y = true → s'.alive y = true

theorem timerMade_self (h : s'.waitOutTimer = s.waitOutTimer) : timerMade s s' = 0 := by
  rw [timerMade, h]
  cases s.waitOutTimer <;> rfl

theorem Lasting.steady {s s' : EvLoop} (h : Lasting s s') (hk : Known s → Known s')
    (ht : s'.tally = s.tally) (hw : s'.waitOutTimer = s.waitOutTimer) (hl : s'.log = s.log)
    (ha : ∀ y, s.alive y = true → s'.alive y = true) : Steady s s' :=
  ⟨h, hk, by rw [ht, timerMade_self hw, Nat.add_zero], fun _ h => hw.trans h, hl, ha⟩

theorem Steady.refl (s : EvLoop) : Steady s s :=
  (Lasting.of_eq rfl rfl rfl).steady id rfl rfl rfl (fun _ => id)

theorem Steady.trans (h : Steady s s') (h' : Steady s' s'') : Steady s s'' := by
  refine ⟨h.toLasting.trans h'.toLasting, h'.known ∘ h.known, ?_,
    fun w hw => h'.timer w (h.timer w hw), h'.log.trans h.log,
    fun y hy => h'.alive y (h.alive y hy)⟩
  have hmade : timerMade s s' + timerMade s' s'' = timerMade s s'' := by
    cases hs : s.waitOutTimer with
    | some w => simp [timerMade, hs, h.timer w hs]
    | none =>
      cases hs' : s'.waitOutTimer with
      | some w => simp [timerMade, hs, hs', h'.timer w hs']
      | none => simp [timerMade, hs, hs']
  rw [h'.tally, h.tally, Nat.add_assoc, hmade]

/-- No event changes in what counts. -/
theorem Steady.of_eq {s s' : EvLoop} (hn : s'.nextId = s.nextId) (hk : s'.kind = s.kind)
    (ha : s'.alive = s.alive) (he : s'.events = s.events) (ht : s'.waitOutTimer = s.waitOutTimer)
    (hl : s'.log = s.log) : Steady s s' := by
  refine (Lasting.of_eq hn hk he).steady (fun h => ?_) (tally_congr hn (fun x => ?_)) ht hl
    (fun y => by rw [ha]; exact id)
  · rwa [Known, ha, hn]
  · rw [counted, counted, ha, he]

theorem steady_setEvent (x : EventId) (e : Event) (s : EvLoop) (hl : e.evLoop = (s.events x).evLoop)
    (hw : e.needWait = (s.events x).needWait) (hf : e.fd = (s.events x).fd) :
    Steady s (s.setEvent x e) := by
  refine (lasting_setEvent x e s (fun h => hl.trans h) hw hf).steady id
    (tally_congr rfl (fun y => ?_)) rfl rfl (fun _ => id)
  by_cases hy : y = x
  · subst hy
    simp [counted, setEvent, hl, hw, hf]
  · simp [counted, setEvent, hy]

theorem tally_create (k : Kind) (e : Event) (s : EvLoop) :
    (s.create k e).tally = s.tally + if e.evLoop && e.needWait then 1 else 0 := by
  have hnew : (s.create k e).counted s.nextId = (e.evLoop && e.needWait) := by
    simp [counted, EvLoop.create]
  have hold : (List.range s.nextId).countP (s.create k e).counted = s.tally := by
    refine List.countP_congr (fun y hy => ?_)
    have hne : y ≠ s.nextId := Nat.ne_of_lt (List.mem_range.mp hy)
    simp [counted, EvLoop.create, hne]
  change (List.range (s.nextId + 1)).countP _ = _
  rw [List.range_succ, List.countP_append, hold, List.countP_singleton, hnew]

theorem Known.create (h : Known s) (k : Kind) (e : Event) : Known (s.create k e) := by
  intro x hx
  by_cases hn : x = s.nextId
  · simp [EvLoop.create, hn]
  · exact Nat.lt_succ_of_lt (h x (by simpa [EvLoop.create, hn] using hx))

theorem steady_create (k : Kind) (e : Event) (s : EvLoop) (he : e.evLoop = false) :
    Steady s (s.create k e) := by
  refine (lasting_create k e s).steady (fun h => h.create k e) ?_ rfl rfl
    (apart_create k e s).alive
  rw [tally_create, he]
  rfl

/-- `add_event_obj` counts the timer when it has been made. -/
theorem steady_checkWaitOut (s : EvLoop) : Steady s s.checkWaitOut := by
  rw [checkWaitOut]
  split
  · exact .refl s
  · next ht =>
    let e := { Event.new 3 true with evLoop := true }
    refine ⟨(lasting_create .waitOut e s).trans (.of_eq rfl rfl rfl), fun h => h.create .waitOut e,
      ?_, fun w hw => ?_, rfl, (apart_create .waitOut e s).alive⟩
    · have hmade : timerMade s
          { s.create .waitOut e with waitOutTimer := some s.nextId } = 1 := by
        simp [timerMade, ht]
      rw [hmade]
      exact tally_create .waitOut e s
    · simp [ht] at hw

theorem steady_register (x : EventId) (t : Event.DelTarget) (s : EvLoop) :
    Steady s (s.register x t) := by
  have hset : Steady s (s.setEvent x ((s.events x).register t)) :=
    steady_setEvent x _ s (by cases t <;> rfl) (by cases t <;> rfl) (by cases t <;> rfl)
  cases t with
  | waitOutList =>
    simp only [register]
    refine Steady.trans ?_ (steady_checkWaitOut _)
    split
    · exact hset
    · exact hset.trans (.of_eq rfl rfl rfl rfl rfl rfl)
  | delList =>
    simp only [register]
    split
    · exact hset
    · exact hset.trans (.of_eq rfl rfl rfl rfl rfl rfl)
  | delOnInstall => exact hset

theorem flags_fixed (r : Request) (e : Event) :
    (e.flags r).1.needWait = e.needWait ∧ (e.flags r).1.fd = e.fd := by
  cases r with
  | close outAreSent =>
    simp only [Event.flags, Event.closeFdFlags]
    split_ifs <;> exact ⟨rfl, rfl⟩
  | del => exact ⟨rfl, rfl⟩
  | fail => exact ⟨rfl, rfl⟩

theorem steady_request (x : EventId) (r : Request) (outq : Option Nat) (s : EvLoop) :
    Steady s (s.request x r outq) := by
  obtain ⟨hw, hf⟩ := flags_fixed r (s.events x)
  have hset := steady_setEvent x ((s.events x).flags r).1 s (flags_evLoop r _) hw hf
  simp only [request]
  split
  · exact hset
  · exact hset.trans (steady_register x _ _)

theorem steady_notify (b : Bool) (x : EventId) (r : Request) (outq : Option Nat) (s : EvLoop) :
    Steady s (if b then s.request x r outq else s) := by
  cases b with
  | true => exact steady_request x r outq s
  | false => exact .refl s

theorem steady_addWork (x : EventId) (s : EvLoop) : Steady s (s.addWork x) := by
  have hset : Steady s (s.setEvent x { s.events x with nextWork := true }) :=
    steady_setEvent x _ s rfl rfl rfl
  simp only [addWork]
  split
  · exact hset
  · exact hset.trans (.of_eq rfl rfl rfl rfl rfl rfl)

theorem steady_regWork (x : EventId) (s : EvLoop) : Steady s (s.regWork x) := by
  by_cases hl : (s.events x).evLoop = true
  · rw [regWork_installed hl]
    exact steady_addWork x s
  · rw [regWork, if_neg hl]
    exact steady_setEvent x _ s rfl rfl rfl

/-- `nb_waiting_events` follows the tally through a step that adds `n` itself. -/
structure Balanced (n : Nat) (s s' : EvLoop) : Prop extends Lasting s s' where
  known : Known s'
  tally : s'.tally + destroyed s s' = s.tally + n + timerMade s s'
  alive : ∀ y, s.alive y = true → s'.alive y = true ∨ y ∈ ended s s'

theorem destroyed_none (h : s'.log = s.log) : destroyed s s' = 0 := by
  simp [destroyed, ended, h]

theorem Steady.balanced (h : Steady s s') (hk : Known s) : Balanced 0 s s' :=
  ⟨h.toLasting, h.known hk, by rw [destroyed_none h.log, h.tally, Nat.add_zero, Nat.add_zero],
    fun y hy => .inl (h.alive y hy)⟩

theorem Known.balanced {s s' : EvLoop} (hk : Known s) (hn : s'.nextId = s.nextId)
    (hd : s'.kind = s.kind) (ha : s'.alive = s.alive) (he : s'.events = s.events)
    (ht : s'.waitOutTimer = s.waitOutTimer) (hl : s'.log = s.log) : Balanced 0 s s' :=
  (Steady.of_eq hn hd ha he ht hl).balanced hk

theorem balanced_install (hk : Known s) (ha : s.alive x = true) (outq : Option Nat) :
    Balanced (installed (.install x outq) s) s (s.install x outq) := by
  simp only [install]
  by_cases hl : (s.events x).evLoop = true
  · rw [if_pos hl]
    have hnone : installed (.install x outq) s = 0 := by simp [installed, hl]
    rw [hnone]
    exact (Steady.refl s).balanced hk
  · rw [if_neg hl]
    have hl : (s.events x).evLoop = false := by simpa using hl
    let s₁ := s.setEvent x { s.events x with evLoop := true }
    have hset : s₁.tally = s.tally + installed (.install x outq) s := by
      have hsame : ∀ y, y ≠ x → s₁.counted y = s.counted y := by
        intro y hy
        simp [counted, s₁, setEvent, hy]
      have hnext : s₁.nextId = s.nextId := rfl
      have h := tally_at hnext (hk x ha) hsame
      simpa [counted, installed, s₁, setEvent, hl, ha] using h
    have hrest : ∀ s', Steady s₁ s' → Balanced (installed (.install x outq) s) s s' := by
      intro s' h
      have hlog : s'.log = s.log := h.log
      have hmade : timerMade s₁ s' = timerMade s s' := rfl
      have hlast : Lasting s s₁ := lasting_setEvent x _ s (fun _ => rfl) rfl rfl
      exact ⟨hlast.trans h.toLasting, h.known hk,
        by rw [destroyed_none hlog, h.tally, hset, hmade, Nat.add_zero],
        fun y hy => .inl (h.alive y hy)⟩
    split
    · exact hrest _ (steady_request x .del outq s₁)
    · exact hrest _ (.refl s₁)

theorem balanced_user (hk : Known s) (hi : Input.user i = true) :
    (s.apply i).Split (Balanced (installed i s) s) (fun _ => True) := by
  have hself := (Steady.refl s).balanced hk
  cases i with
  | create fd needWait mayHaveOut => exact (steady_create _ _ s rfl).balanced hk
  | install x outq =>
    change Balanced _ s (if s.alive x then s.install x outq else s)
    split
    · next ha => exact balanced_install hk ha outq
    · next ha => simpa [installed, ha] using hself
  | request x r outq => exact (steady_notify (s.alive x) x r outq s).balanced hk
  | regWork x =>
    change Balanced 0 s (if s.alive x then s.regWork x else s)
    split
    · exact (steady_regWork x s).balanced hk
    · exact hself
  | addWork x =>
    change Balanced 0 s (if s.alive x then s.addWork x else s)
    split
    · exact (steady_addWork x s).balanced hk
    · exact hself
  | poll batch => cases hi
  | next outAreSent outq => cases hi

theorem Known.destroy (h : Known s) (x : EventId) : Known (s.destroy x) := by
  intro y hy
  by_cases hyx : y = x
  · simp [EvLoop.destroy, hyx] at hy
  · exact h y (by simpa [EvLoop.destroy, hyx] using hy)

theorem tally_destroy (hk : Known s) (ha : s.alive x = true) :
    (s.destroy x).tally + (if discounted s x then 1 else 0) = s.tally := by
  have hsame : ∀ y, y ≠ x → (s.destroy x).counted y = s.counted y := by
    intro y hy
    simp [counted, EvLoop.destroy, hy]
  have hnext : (s.destroy x).nextId = s.nextId := rfl
  have hat := tally_at hnext (hk x ha) hsame
  have hbefore : s.counted x = ((s.events x).evLoop && (s.events x).needWait) := by
    simp [counted, ha]
  have hafter : (s.destroy x).counted x =
      ((s.events x).evLoop && (s.events x).needWait && decide ((s.events x).fd ≤ 2)) := by
    simp [counted, EvLoop.destroy]
  rw [hbefore, hafter] at hat
  rw [discounted]
  by_cases hfd : (s.events x).fd ≤ 2
  · simpa [hfd, Int.not_lt.mpr hfd] using hat
  · simpa [hfd, Int.not_le.mp hfd] using hat

/-- The end of an event that `run` or `timeout` has taken from its list. -/
theorem balanced_destroy {s s₁ : EvLoop} (h : Steady s s₁) (hk : Known s)
    (hw : s₁.waitOutTimer = s.waitOutTimer) (ha : s₁.alive x = true) :
    Balanced 0 s (s₁.destroy x) := by
  have hk₁ := h.known hk
  have hended : ended s (s₁.destroy x) = [x] := by simp [ended, EvLoop.destroy, h.log]
  have hlast : Lasting s (s₁.destroy x) := h.toLasting.trans (.of_eq rfl rfl rfl)
  refine ⟨hlast, hk₁.destroy x, ?_, fun y hy => ?_⟩
  · have hdead : destroyed s (s₁.destroy x) = if discounted s₁ x then 1 else 0 := by
      rw [destroyed, hended, List.countP_singleton]
      rfl
    have hmade : timerMade s (s₁.destroy x) = 0 := timerMade_self hw
    rw [hdead, tally_destroy hk₁ ha, h.tally, timerMade_self hw, hmade]
  · rw [hended, List.mem_singleton]
    by_cases hyx : y = x
    · exact .inr hyx
    · exact .inl (by simpa [EvLoop.destroy, hyx] using h.alive y hy)

/-- Without an answer to SIOCOUTQ no event goes to `wait_out_list`. -/
theorem request_timer (x : EventId) (r : Request) (s : EvLoop) :
    (s.request x r none).waitOutTimer = s.waitOutTimer := by
  have ht : s.target x r none ≠ some .waitOutList := by
    simp only [target, Event.delTarget]
    split_ifs <;> simp_all
  simp only [request]
  split
  · rfl
  · next t he =>
    cases t with
    | waitOutList => exact absurd he ht
    | delList =>
      simp only [register]
      split <;> rfl
    | delOnInstall => rfl

theorem Steady.goto {s s' : EvLoop} (h : Steady s s') (p : Phase) : Steady s (s'.goto p) :=
  h.trans (.of_eq rfl rfl rfl rfl rfl rfl)

theorem Steady.advance {s s' : EvLoop} (h : Steady s s') (batch : List (EventId × Mask)) :
    Steady s (s'.advance batch) := by
  cases batch <;> exact h.goto _

theorem balanced_tick (hk : Known s) (w : EventId) (outq : Option Nat) (done : Phase) :
    (s.tick w outq done).Split (Balanced 0 s) (fun _ => True) := by
  unfold tick
  split
  · next x chain hc =>
    split
    · next ha =>
      split
      · exact hk.balanced rfl rfl rfl rfl rfl rfl
      · have hpop : Steady s { s with chain := chain } := .of_eq rfl rfl rfl rfl rfl rfl
        exact balanced_destroy hpop hk rfl ha
    · trivial
  · dsimp only
    split
    · -- the timer closes
      let s₁ : EvLoop := { s with
        waitOutList := s.renewed ++ s.waitOutList
        renewed := []
        waitOutTimer := none }
      have hclose := (steady_request w (.close true) none s₁).goto done
      have hnone : (s₁.request w (.close true) none).waitOutTimer = none := request_timer w _ s₁
      have hmade : ∀ l : EvLoop, timerMade l ((s₁.request w (.close true) none).goto done) = 0 := by
        intro l
        simp [timerMade, goto, hnone]
      have hlast : Lasting s s₁ := .of_eq rfl rfl rfl
      refine ⟨hlast.trans hclose.toLasting, hclose.known hk, ?_,
        fun y hy => .inl (hclose.alive y hy)⟩
      have hlog : ((s₁.request w (.close true) none).goto done).log = s.log := hclose.log
      have htally : s₁.tally = s.tally := tally_congr rfl (fun _ => rfl)
      change ((s₁.request w (.close true) none).goto done).tally + _ = _
      rw [destroyed_none hlog, hclose.tally, hmade, htally, hmade]
    · exact hk.balanced rfl rfl rfl rfl rfl rfl

theorem balanced_handle (hk : Known s) (x : EventId) (mask : Mask) (stage : Stage)
    (rest : List (EventId × Mask)) (outAreSent : Bool) (outq : Option Nat) :
    (s.handle x mask stage rest outAreSent outq).Split (Balanced 0 s) (fun _ => True) := by
  have hself := Steady.refl s
  cases stage with
  | want =>
    dsimp only [handle]
    split
    · exact (hself.advance rest).balanced hk
    · exact (hself.goto _).balanced hk
  | out => exact ((steady_notify _ x .del outq s).goto _).balanced hk
  | inp =>
    dsimp only [handle]
    split
    · exact hk.balanced rfl rfl rfl rfl rfl rfl
    · exact (hself.goto _).balanced hk
  | tick => exact balanced_tick hk x outq _
  | rdHup => exact ((steady_notify _ x .fail outq s).goto _).balanced hk
  | hup => exact ((steady_notify _ x .fail outq s).goto _).balanced hk
  | err => exact ((steady_notify _ x .fail outq s).advance rest).balanced hk

theorem balanced_next (hk : Known s) (outAreSent : Bool) (outq : Option Nat) :
    (s.next outAreSent outq).Split (Balanced 0 s) (fun _ => True) := by
  rw [next]
  split
  · split
    · exact ((Steady.refl s).goto .dels).balanced hk
    · next x workList hw =>
      split
      · have hpop : Steady s { s with workList := workList } := .of_eq rfl rfl rfl rfl rfl rfl
        exact (hpop.trans (steady_setEvent x { s.events x with nextWork := false } _ rfl rfl
          rfl)).balanced hk
      · trivial
  · split
    · exact ((Steady.refl s).goto .poll).balanced hk
    · next x delList hd =>
      split
      · next ha =>
        have hpop : Steady s { s with delList := delList } := .of_eq rfl rfl rfl rfl rfl rfl
        exact balanced_destroy (hpop.trans (steady_setEvent x
          { s.events x with nextDel := false } _ rfl rfl rfl)) hk rfl ha
      · trivial
  · exact (Steady.refl s).balanced hk
  · split
    · exact balanced_handle hk ..
    · trivial

theorem balanced_apply (hk : Known s) (i : Loop.Input) :
    (s.apply i).Split (Balanced (installed i s) s) (fun _ => True) := by
  cases hu : Input.user i with
  | true => exact balanced_user hk hu
  | false =>
    cases i with
    | next outAreSent outq => exact balanced_next hk outAreSent outq
    | poll batch =>
      change Balanced 0 s (if _ then s.advance batch else s)
      split
      · exact ((Steady.refl s).advance batch).balanced hk
      · exact (Steady.refl s).balanced hk
    | _ => cases hu

/-- The timer of `wait_out_list` is at work. -/
structure Posted (w : EventId) (s : EvLoop) : Prop where
  made : w < s.nextId
  alive : s.alive w = true
  evLoop : (s.events w).evLoop = true
  needWait : (s.events w).needWait = true
  wantCloseFd : (s.events w).wantCloseFd = false
  kind : s.kind w = .waitOut
  del : w ∉ s.delList
  wait : w ∉ s.waiting

theorem Posted.counted (h : Posted w s) : s.counted w = true := by
  simp [EvLoop.counted, h.evLoop, h.needWait, h.alive]

theorem Posted.aloof (h : Posted w s) (ha : Aloof w s s') : Posted w s' := by
  have hs := ha.same (.inl h.made)
  obtain ⟨work, later, he⟩ := hs.event
  exact {
    made := Nat.lt_of_lt_of_le h.made ha.nextId
    alive := hs.alive.trans h.alive
    evLoop := by rw [he]; exact h.evLoop
    needWait := by rw [he]; exact h.needWait
    wantCloseFd := by rw [he]; exact h.wantCloseFd
    kind := hs.kind.trans h.kind
    del := fun hd => h.del (hs.del hd)
    wait := fun hw => h.wait (hs.wait hw) }

/-- The notifications of the batch that are not over -/
def pending : Phase → List (EventId × Mask)
  | .batch x mask _ rest => (x, mask) :: rest
  | _ => []

/-- No more is in the lists and in the batch than events that have been made, and the timer is
asked nothing but to expire. -/
structure Manned (s : EvLoop) : Prop where
  known : Known s
  timer : ∀ w, s.waitOutTimer = some w → Posted w s
  old : ∀ x, x ∈ s.delList ∨ x ∈ s.waiting → x < s.nextId
  batch : ∀ p ∈ pending s.phase, p.1 < s.nextId ∧ (s.kind p.1 = .waitOut → p.2.onlyInp = true)

/-- Moreover, where output is waited for there is the timer. -/
structure Guarded (s : EvLoop) : Prop extends Manned s where
  guard : s.waiting ≠ [] → s.waitOutTimer ≠ none

/-- What is not the timer -/
def Common (x : EventId) (s : EvLoop) : Prop :=
  x < s.nextId ∧ ∀ w, s.waitOutTimer = some w → w ≠ x

theorem guarded_new : Guarded new where
  known := nofun
  timer := nofun
  old := by simp [new, waiting]
  batch := nofun
  guard := fun h => absurd rfl h

/-- A step that makes no event -/
theorem Manned.frame (h : Manned s) (hn : s'.nextId = s.nextId) (hk : s'.kind = s.kind)
    (hl : ∀ y, s'.alive y = true → s.alive y = true)
    (ht : ∀ w, s'.waitOutTimer = some w → s.waitOutTimer = some w ∧ Aloof w s s')
    (ho : ∀ y, y ∈ s'.delList ∨ y ∈ s'.waiting → (y ∈ s.delList ∨ y ∈ s.waiting) ∨ y < s.nextId)
    (hp : ∀ p ∈ pending s'.phase, p ∈ pending s.phase) : Manned s' where
  known := by
    intro y hy
    rw [hn]
    exact h.known y (hl y hy)
  timer := fun w hw => (h.timer w (ht w hw).1).aloof (ht w hw).2
  old := by
    intro y hy
    rw [hn]
    exact (ho y hy).elim (h.old y) id
  batch := by
    intro p hm
    rw [hn, hk]
    exact h.batch p (hp p hm)

theorem Manned.create (h : Manned s) (k : Kind) (e : Event) : Manned (s.create k e) where
  known := h.known.create k e
  timer := fun w hw => (h.timer w hw).aloof (aloof_create w k e s)
  old := fun y hy => Nat.lt_succ_of_lt (h.old y hy)
  batch := by
    intro p hp
    obtain ⟨hlt, hm⟩ := h.batch p hp
    have hne : p.1 ≠ s.nextId := Nat.ne_of_lt hlt
    exact ⟨Nat.lt_succ_of_lt hlt, by simpa [EvLoop.create, hne] using hm⟩

theorem Manned.checkWaitOut (h : Manned s) : Guarded s.checkWaitOut := by
  rw [EvLoop.checkWaitOut]
  split
  · next w ht => exact ⟨h, fun _ => by simp [ht]⟩
  · have hc := h.create .waitOut { Event.new 3 true with evLoop := true }
    refine ⟨⟨hc.known, ?_, hc.old, hc.batch⟩, fun _ => Option.some_ne_none _⟩
    rintro w ⟨⟩
    exact {
      made := Nat.lt_succ_self _
      alive := by simp [EvLoop.create]
      evLoop := by simp [EvLoop.create]
      needWait := by simp [EvLoop.create, Event.new]
      wantCloseFd := by simp [EvLoop.create, Event.new]
      kind := by simp [EvLoop.create]
      del := fun hd => Nat.lt_irrefl _ (h.old _ (.inl hd))
      wait := fun hw => Nat.lt_irrefl _ (h.old _ (.inr hw)) }

theorem Manned.setEvent (h : Manned s) (hx : Common x s) (e : Event) : Manned (s.setEvent x e) :=
  h.frame rfl rfl (fun _ => id) (fun w hw => ⟨hw, aloof_setEvent (hx.2 w hw) e s⟩)
    (fun _ => .inl) (fun _ => id)

theorem Guarded.setEvent (h : Guarded s) (hx : Common x s) (e : Event) :
    Guarded (s.setEvent x e) := ⟨h.toManned.setEvent hx e, h.guard⟩

theorem Guarded.register (h : Guarded s) (hx : Common x s) (t : Event.DelTarget) :
    Guarded (s.register x t) := by
  have hset := h.setEvent hx ((s.events x).register t)
  cases t with
  | waitOutList =>
    simp only [EvLoop.register]
    refine Manned.checkWaitOut ?_
    split
    · exact hset.toManned
    · refine hset.toManned.frame rfl rfl (fun _ => id) (fun w hw => ⟨hw, ?_⟩) ?_ (fun _ => id)
      · have hne := hx.2 w hw
        refine .of_same rfl ⟨⟨_, _, rfl⟩, rfl, rfl, id, ?_⟩
        simp [waiting, hne]
      · intro y hy
        simp only [waiting, List.mem_append, List.mem_singleton] at hy ⊢
        rcases hy with hy | ((hy | rfl) | hy) | hy
        · exact .inl (.inl hy)
        · exact .inl (.inr (.inl (.inl hy)))
        · exact .inr hx.1
        · exact .inl (.inr (.inl (.inr hy)))
        · exact .inl (.inr (.inr hy))
  | delList =>
    simp only [EvLoop.register]
    split
    · exact hset
    · refine ⟨hset.toManned.frame rfl rfl (fun _ => id) (fun w hw => ⟨hw, ?_⟩) ?_ (fun _ => id),
        hset.guard⟩
      · have hne := hx.2 w hw
        exact .of_same rfl ⟨⟨_, _, rfl⟩, rfl, rfl, by simp [hne], id⟩
      · intro y hy
        rw [List.mem_append, List.mem_singleton] at hy
        rcases hy with (hy | rfl) | hy
        · exact .inl (.inl hy)
        · exact .inr hx.1
        · exact .inl (.inr hy)
  | delOnInstall => exact hset

theorem Guarded.request (h : Guarded s) (hx : Common x s) (r : Request) (outq : Option Nat) :
    Guarded (s.request x r outq) := by
  have hset := h.setEvent hx ((s.events x).flags r).1
  simp only [EvLoop.request]
  split
  · exact hset
  · exact hset.register hx _

theorem Guarded.notify (h : Guarded s) (b : Bool) (hx : b = true → Common x s) (r : Request)
    (outq : Option Nat) : Guarded (if b then s.request x r outq else s) := by
  cases b with
  | true => exact h.request (hx rfl) r outq
  | false => exact h

/-- Work is no matter of the timer. -/
theorem Guarded.work (h : Guarded s) (x : EventId) (work later : Bool) (workList : List EventId) :
    Guarded { s.setEvent x { s.events x with nextWork := work, workOnInstall := later } with
      workList := workList } := by
  refine ⟨h.toManned.frame rfl rfl (fun _ => id) (fun w hw => ⟨hw, ?_⟩) (fun _ => .inl)
    (fun _ => id), h.guard⟩
  exact (aloof_work w x work later s).trans (.of_same rfl ⟨⟨_, _, rfl⟩, rfl, rfl, id, id⟩)

theorem Guarded.addWork (h : Guarded s) (x : EventId) : Guarded (s.addWork x) := by
  simp only [EvLoop.addWork]
  split
  · exact h.work x true (s.events x).workOnInstall s.workList
  · exact h.work x true (s.events x).workOnInstall (s.workList ++ [x])

theorem Guarded.regWork (h : Guarded s) (x : EventId) : Guarded (s.regWork x) := by
  by_cases hl : (s.events x).evLoop = true
  · rw [regWork_installed hl]
    exact h.addWork x
  · rw [EvLoop.regWork, if_neg hl]
    exact h.work x (s.events x).nextWork true s.workList

theorem Guarded.install (h : Guarded s) (hx : Common x s) (outq : Option Nat) :
    Guarded (s.install x outq) := by
  have hset := h.setEvent hx { s.events x with evLoop := true }
  simp only [EvLoop.install]
  split_ifs
  · exact h
  · exact hset.request hx .del outq
  · exact hset

theorem Guarded.goto (h : Guarded s) (hp : ∀ p ∈ pending q, p.1 < s.nextId ∧
    (s.kind p.1 = .waitOut → p.2.onlyInp = true)) : Guarded (s.goto q) :=
  { h with
    timer := fun w hw => (h.timer w hw).aloof (aloof_goto w q s)
    batch := hp }

theorem Guarded.advance (h : Guarded s) (hp : ∀ p ∈ batch, p.1 < s.nextId ∧
    (s.kind p.1 = .waitOut → p.2.onlyInp = true)) : Guarded (s.advance batch) := by
  cases batch with
  | nil => exact h.goto nofun
  | cons p rest => exact h.goto hp

/-- The end of an event that is not the timer. -/
theorem Guarded.destroy (h : Guarded s) (hne : ∀ w, s.waitOutTimer = some w → w ≠ x) :
    Guarded (s.destroy x) := by
  refine ⟨h.toManned.frame rfl rfl ?_ (fun w hw => ⟨hw, aloof_destroy (hne w hw) s⟩)
    (fun _ => .inl) (fun _ => id), h.guard⟩
  intro y hy
  by_cases hyx : y = x
  · simp [EvLoop.destroy, hyx] at hy
  · simpa [EvLoop.destroy, hyx] using hy

/-- The head of the chain leaves it, maybe for the events that wait on. -/
theorem Guarded.popChain (h : Guarded s) (hc : s.chain = x :: xs)
    (hr : ∀ y ∈ ys, y ∈ s.renewed ∨ y = x) :
    Guarded { s with chain := xs, renewed := ys } := by
  have hsub : ∀ y, y ∈ s.waitOutList ++ xs ++ ys → y ∈ s.waiting := by
    intro y hy
    simp only [waiting, hc, List.mem_append, List.mem_cons] at hy ⊢
    rcases hy with (hy | hy) | hy
    · exact .inl (.inl hy)
    · exact .inl (.inr (.inr hy))
    · exact (hr y hy).elim .inr (fun hy => .inl (.inr (.inl hy)))
  refine ⟨h.toManned.frame rfl rfl (fun _ => id) (fun w hw => ⟨hw, ?_⟩)
    (fun y hy => .inl (hy.imp_right (hsub y))) (fun _ => id), fun _ => ?_⟩
  · exact .of_same rfl ⟨⟨_, _, rfl⟩, rfl, rfl, id, hsub w⟩
  · exact h.guard (by simp [waiting, hc])

theorem Guarded.tick (h : Guarded s) (hp : s.phase = .batch w mask .tick rest)
    (outq : Option Nat) :
    (s.tick w outq (.batch w mask .rdHup rest)).Split Guarded (fun _ => True) := by
  have hbatch := h.batch
  rw [hp] at hbatch
  unfold EvLoop.tick
  split
  · next x chain hc =>
    split
    · split
      · refine h.popChain hc (fun y hy => ?_)
        simpa using hy
      · refine (h.popChain hc (fun y hy => .inl hy)).destroy (fun v hv => ?_)
        rintro rfl
        exact (h.timer v hv).wait (by simp [waiting, hc])
    · trivial
  · next hc =>
    have hsub : ∀ y, y ∈ s.renewed ++ s.waitOutList ++ s.chain ++ [] → y ∈ s.waiting := by
      simp only [waiting, hc, List.mem_append, List.not_mem_nil, or_false]
      exact fun y hy => hy.symm
    dsimp only
    split
    · next he =>
      -- nothing waits any more, and the timer closes
      have hempty : s.renewed ++ s.waitOutList = [] := by simpa using he
      let s₁ : EvLoop := { s with
        waitOutList := s.renewed ++ s.waitOutList
        renewed := []
        waitOutTimer := none }
      have hfree : Guarded s₁ := by
        refine ⟨h.toManned.frame rfl rfl (fun _ => id) (fun w hw => by cases hw)
          (fun y hy => .inl (hy.imp_right (hsub y))) (fun _ => id), fun hne => ?_⟩
        exact absurd (by simp only [waiting, s₁, hempty, hc]; rfl) hne
      have hw : Common w s₁ :=
        ⟨(hbatch (w, mask) List.mem_cons_self).1, fun v hv => by cases hv⟩
      have hclose := hfree.request hw (.close true) none
      have hphase := (apart_request w (.close true) none s₁).phase
      refine hclose.goto (fun p hm => ?_)
      exact hclose.batch p (by rw [hphase]; change p ∈ pending s.phase; rwa [hp])
    · next he =>
      have hstay : Guarded { s with waitOutList := s.renewed ++ s.waitOutList, renewed := [] } := by
        refine ⟨h.toManned.frame rfl rfl (fun _ => id) (fun v hv => ⟨hv, ?_⟩)
          (fun y hy => .inl (hy.imp_right (hsub y))) (fun _ => id), fun hne => ?_⟩
        · exact .of_same rfl ⟨⟨_, _, rfl⟩, rfl, rfl, id, hsub v⟩
        · refine h.guard (fun hn => he ?_)
          have hwaits : s.waitOutList = [] ∧ s.renewed = [] := by simpa [waiting, hc] using hn
          simp [hwaits]
      exact hstay.goto hbatch

theorem Guarded.handle (h : Guarded s) (hp : s.phase = .batch x mask stage rest)
    (outAreSent : Bool) (outq : Option Nat) :
    (s.handle x mask stage rest outAreSent outq).Split Guarded (fun _ => True) := by
  have hbatch := h.batch
  rw [hp] at hbatch
  have hx := hbatch (x, mask) List.mem_cons_self
  -- the loop asks the timer for nothing
  have hcommon : ∀ b : Bool, (b = true → s.waitOutTimer = some x → False) → b = true →
      Common x s := by
    rintro b hb ht
    refine ⟨hx.1, fun w hw => ?_⟩
    rintro rfl
    exact hb ht hw
  have hclean : s.waitOutTimer = some x → mask.onlyInp = true :=
    fun ht => hx.2 (h.timer x ht).kind
  have hgoto : ∀ (s' : EvLoop) (stage' : Stage), Guarded s' → s'.phase = s.phase →
      Guarded (s'.goto (.batch x mask stage' rest)) := by
    intro s' stage' hs hphase
    have hb := hs.batch
    rw [hphase, hp] at hb
    exact hs.goto hb
  have hadvance : ∀ s' : EvLoop, Guarded s' → s'.phase = s.phase → Guarded (s'.advance rest) := by
    intro s' hs hphase
    have hb := hs.batch
    rw [hphase, hp] at hb
    exact hs.advance (fun p hm => hb p (List.mem_cons_of_mem _ hm))
  cases stage with
  | want =>
    dsimp only [EvLoop.handle]
    split
    · exact hadvance s h rfl
    · exact hgoto s _ h rfl
  | out =>
    refine hgoto _ _ (h.notify _ (hcommon _ (fun hb ht => ?_)) .del outq)
      (apart_notify _ x .del outq s).phase
    simp [(h.timer x ht).wantCloseFd] at hb
  | inp =>
    dsimp only [EvLoop.handle]
    split
    · have hsub : ∀ y, y ∈ [] ++ s.waitOutList ++ s.renewed → y ∈ s.waiting := by
        simp only [waiting, List.mem_append, List.not_mem_nil, false_or]
        exact fun y hy => hy.imp_left .inl
      have hdisconnect : Guarded { s with chain := s.waitOutList, waitOutList := [] } := by
        refine ⟨h.toManned.frame rfl rfl (fun _ => id) (fun w hw => ⟨hw, ?_⟩)
          (fun y hy => .inl (hy.imp_right (hsub y))) (fun _ => id), fun hne => ?_⟩
        · exact .of_same rfl ⟨⟨_, _, rfl⟩, rfl, rfl, id, hsub w⟩
        · obtain ⟨y, hy⟩ := List.exists_mem_of_ne_nil _ hne
          exact h.guard (List.ne_nil_of_mem (hsub y hy))
      exact hgoto _ _ hdisconnect rfl
    · exact hgoto s _ h rfl
  | tick => exact h.tick hp outq
  | rdHup =>
    refine hgoto _ _ (h.notify _ (hcommon _ (fun hb ht => ?_)) .fail outq)
      (apart_notify _ x .fail outq s).phase
    have hc := hclean ht
    simp [Mask.onlyInp, hb] at hc
  | hup =>
    refine hgoto _ _ (h.notify _ (hcommon _ (fun hb ht => ?_)) .fail outq)
      (apart_notify _ x .fail outq s).phase
    have hc := hclean ht
    simp [Mask.onlyInp, hb] at hc
  | err =>
    refine hadvance _ (h.notify _ (hcommon _ (fun hb ht => ?_)) .fail outq)
      (apart_notify _ x .fail outq s).phase
    have hc := hclean ht
    simp [Mask.onlyInp, hb] at hc

theorem Guarded.next (h : Guarded s) (outAreSent : Bool) (outq : Option Nat) :
    (s.next outAreSent outq).Split Guarded (fun _ => True) := by
  rw [EvLoop.next]
  split
  · split
    · exact h.goto (fun p hm => by cases hm)
    · next x workList hw =>
      split
      · exact h.work x false (s.events x).workOnInstall workList
      · trivial
  · split
    · exact h.goto (fun p hm => by cases hm)
    · next x delList hd =>
      split
      · have hne : ∀ w, s.waitOutTimer = some w → w ≠ x := by
          rintro w hw rfl
          exact (h.timer w hw).del (by simp [hd])
        have hsub : ∀ y, y ∈ delList → y ∈ s.delList := fun y hy => by simp [hd, hy]
        have hpop : Guarded { s with delList := delList } := by
          refine ⟨h.toManned.frame rfl rfl (fun _ => id) (fun w hw => ⟨hw, ?_⟩) ?_ (fun _ => id),
            h.guard⟩
          · exact .of_same rfl ⟨⟨_, _, rfl⟩, rfl, rfl, hsub w, id⟩
          · exact fun y hy => .inl (hy.imp_left (hsub y))
        have hx : Common x { s with delList := delList } := ⟨h.old x (.inl (by simp [hd])), hne⟩
        exact (hpop.setEvent hx { s.events x with nextDel := false }).destroy hne
      · trivial
  · exact h
  · next x mask stage rest hp =>
    split
    · exact h.handle hp outAreSent outq
    · trivial

end Evel.EvLoop

namespace Evel.MainLoop
open General Loop EvLoop

theorem guarded_apply {s : MainLoop} (h : Guarded s.loop) {i : Loop.Input}
    (hi : s.permits i = true) : (s.loop.apply i).Split Guarded (fun _ => True) := by
  have hcommon : ∀ x, s.loop.alive x = true → s.loop.kind x ≠ .waitOut → Common x s.loop := by
    refine fun x ha hk => ⟨h.known x ha, fun w hw => ?_⟩
    rintro rfl
    exact hk (h.timer w hw).kind
  cases i with
  | create fd needWait mayHaveOut =>
    exact ⟨h.toManned.create (.user mayHaveOut) (Event.new fd needWait), h.guard⟩
  | install x outq =>
    change Guarded (if s.loop.alive x then s.loop.install x outq else s.loop)
    split
    · next ha => exact h.install (hcommon x ha (by simpa [permits] using hi)) outq
    · exact h
  | request x r outq =>
    exact h.notify _ (fun ha => hcommon x ha (by simpa [permits] using hi)) r outq
  | regWork x =>
    change Guarded (if s.loop.alive x then s.loop.regWork x else s.loop)
    split
    · exact h.regWork x
    · exact h
  | addWork x =>
    change Guarded (if s.loop.alive x then s.loop.addWork x else s.loop)
    split
    · exact h.addWork x
    · exact h
  | poll batch =>
    change Guarded (if _ then s.loop.advance batch else s.loop)
    split
    · next hb =>
      refine h.advance (fun p hp => ⟨h.known p.1 (hb.2 p hp).1, fun hk => ?_⟩)
      simp only [permits, Bool.and_eq_true, List.all_eq_true] at hi
      simpa [hk] using (hi.2 p hp).1
    · exact h
  | next outAreSent outq => exact h.next outAreSent outq

/-- The events that the loop waits for: those that it has counted, and has not taken back since, at
their end or by `>>`. -/
def awaited (s : MainLoop) : List EventId :=
  (List.range s.loop.nextId).filter (fun x => s.loop.counted x && !s.removed.contains x)

/-- An event that user code has taken out. It does not end, unless it has no descriptor to close:
its destructor would take it out again. -/
structure Removed (x : EventId) (l : EvLoop) : Prop where
  made : x < l.nextId
  kind : l.kind x ≠ .waitOut
  evLoop : (l.events x).evLoop = true
  there : l.alive x = true ∨ (l.events x).fd ≤ 2

theorem Removed.counted_eq (h : Removed x l) : l.counted x = (l.events x).needWait := by
  have hthere : (l.alive x || decide ((l.events x).fd ≤ 2)) = true := by
    simpa using h.there
  simp [counted, h.evLoop, hthere]

theorem Removed.goto (h : Removed x l) (p : Phase) : Removed x (l.goto p) :=
  ⟨h.made, h.kind, h.evLoop, h.there⟩

/-- `nb_waiting_events` is what it should be. -/
structure Sound (s : MainLoop) : Prop where
  guarded : Guarded s.loop
  once : s.removed.Nodup
  removed : ∀ x ∈ s.removed, Removed x s.loop
  count : s.nbWaitingEvents = s.awaited.length + s.held

theorem sound_new : Sound new := ⟨guarded_new, List.nodup_nil, nofun, rfl⟩

theorem awaited_length {s : MainLoop} (ho : s.removed.Nodup)
    (hr : ∀ x ∈ s.removed, Removed x s.loop) :
    s.awaited.length + s.removed.countP s.loop.counted = s.loop.tally := by
  have hsub : s.removed ⊆ List.range s.loop.nextId := fun x hx =>
    List.mem_range.mpr (hr x hx).made
  rw [awaited, ← List.countP_eq_length_filter]
  exact countP_part s.loop.counted List.nodup_range ho hsub

theorem Sound.again {s : MainLoop} (h : Sound s) : Sound s.again := by
  rw [MainLoop.again]
  split
  · exact ⟨h.guarded.goto nofun, h.once, fun x hx => (h.removed x hx).goto .work, h.count⟩
  · exact { h with }

theorem Sound.leave {s : MainLoop} (h : Sound s) (c : Cause) (value : Int) :
    Sound (s.leave c value) := { h with }

/-- A step that destroys nothing -/
theorem aborts_none {s : MainLoop} (h : l.log = s.loop.log) : s.aborts l = false := by
  simp [aborts, ended, h]

/-- A step that does not abort ends none of the events that have been taken out. -/
theorem Removed.step {s : MainLoop} (h : Removed x s.loop) (hx : x ∈ s.removed)
    (hb : Balanced n s.loop l) (ha : s.aborts l = false) : Removed x l := by
  have hl := hb.evLoop x h.made h.evLoop
  refine ⟨Nat.lt_of_lt_of_le h.made hb.nextId, ?_, hl, ?_⟩
  · rw [hb.kind x h.made]
    exact h.kind
  · by_cases hfd : (l.events x).fd ≤ 2
    · exact .inr hfd
    · have hbefore : s.loop.alive x = true := by
        refine h.there.resolve_right (fun hle => hfd ?_)
        rwa [hb.fd x h.made]
      refine .inl ((hb.alive x hbefore).resolve_right (fun hend => ?_))
      have hclear := List.any_eq_false.mp ha x hend
      simp [hl, hx, Int.not_le.mp hfd] at hclear

theorem Sound.follow {s : MainLoop} {i : Loop.Input} (h : Sound s) (hg : Guarded l)
    (hb : Balanced (installed i s.loop) s.loop l) (ha : s.aborts l = false) :
    Sound (s.follow i l) := by
  have hremoved : ∀ x ∈ s.removed, Removed x l := fun x hx => (h.removed x hx).step hx hb ha
  have hs : Sound { s with
      loop := l
      nbWaitingEvents := s.nbWaitingEvents + installed i s.loop + timerMade s.loop l -
        destroyed s.loop l } := by
    refine ⟨hg, h.once, hremoved, ?_⟩
    have hc := h.count
    have ht := hb.tally
    have hbefore := awaited_length h.once h.removed
    let s' : MainLoop := { s with loop := l }
    have hafter : s'.awaited.length + s.removed.countP l.counted = l.tally :=
      awaited_length (s := s') h.once hremoved
    have hsame : s.removed.countP l.counted = s.removed.countP s.loop.counted := by
      refine List.countP_congr (fun x hx => ?_)
      rw [(hremoved x hx).counted_eq, (h.removed x hx).counted_eq,
        hb.needWait x (h.removed x hx).made]
    rw [hsame] at hafter
    change s.nbWaitingEvents + installed i s.loop + timerMade s.loop l - destroyed s.loop l =
      (s'.awaited.length : Int) + s.held
    omega
  rw [MainLoop.follow]
  split
  · exact hs.again
  · exact hs

theorem Sound.remEventObj {s : MainLoop} (h : Sound s) (ha : s.loop.alive x = true)
    (hk : s.loop.kind x ≠ .waitOut) : (s.remEventObj x).Split Sound (fun _ => True) := by
  simp only [MainLoop.remEventObj]
  split
  · next hin =>
    simp only [Bool.and_eq_true, Bool.not_eq_true', List.contains_eq_mem,
      decide_eq_false_iff_not] at hin
    have hx : Removed x s.loop := ⟨h.guarded.known x ha, hk, hin.1, .inl ha⟩
    have hremoved : ∀ y ∈ x :: s.removed, Removed y s.loop := by
      intro y hy
      rcases List.mem_cons.mp hy with rfl | hy
      · exact hx
      · exact h.removed y hy
    have honce : (x :: s.removed).Nodup := List.nodup_cons.mpr ⟨hin.2, h.once⟩
    refine ⟨h.guarded, honce, hremoved, ?_⟩
    have hc := h.count
    have hbefore := awaited_length h.once h.removed
    let s' : MainLoop := { s with removed := x :: s.removed }
    have hafter : s'.awaited.length + (x :: s.removed).countP s.loop.counted = s.loop.tally :=
      awaited_length (s := s') honce hremoved
    rw [List.countP_cons, hx.counted_eq] at hafter
    change s.nbWaitingEvents - (if (s.loop.events x).needWait then 1 else 0) =
      (s'.awaited.length : Int) + s.held
    by_cases hw : (s.loop.events x).needWait = true
    · rw [if_pos hw] at hafter ⊢
      omega
    · rw [if_neg hw] at hafter ⊢
      omega
  · split
    · trivial
    · exact h

theorem Sound.apply {s : MainLoop} (h : Sound s) (i : Input) :
    (s.apply i).Split Sound (fun _ => True) := by
  cases i with
  | loop i =>
    rw [MainLoop.apply]
    split_ifs with hidle hi
    · exact h.leave .idle s.ret
    · have hg := guarded_apply h.guarded hi
      have hb := balanced_apply h.guarded.known i
      refine (hg.and hb).thenWith (fun l hl => ?_) (fun _ _ => trivial)
      split_ifs with ha
      · trivial
      · exact h.follow hl.1 hl.2 (Bool.eq_false_iff.mpr ha)
    · exact h
  | run =>
    change Sound (if s.running then s else _)
    split
    · exact h
    · exact ⟨h.guarded.goto nofun, h.once, fun x hx => (h.removed x hx).goto .work, h.count⟩
  | stop retVal => exact { h with }
  | incNbWaitingEvents =>
    refine { h with count := ?_ }
    have hc := h.count
    change s.nbWaitingEvents + 1 = (s.awaited.length : Int) + (s.held + 1 : Nat)
    omega
  | decNbWaitingEvents =>
    change Sound (if s.held = 0 then s else _)
    split
    · exact h
    · refine { h with count := ?_ }
      have hc := h.count
      change s.nbWaitingEvents - 1 = (s.awaited.length : Int) + (s.held - 1 : Nat)
      omega
  | remEventObj x =>
    rw [MainLoop.apply]
    split_ifs with hx
    · have hx : s.loop.alive x = true ∧ s.loop.kind x ≠ .waitOut := by simpa using hx
      exact h.remEventObj hx.1 hx.2
    · exact h
  | pollError intr =>
    change Sound (if _ then if intr then s.again else s.leave .failed (-1) else s)
    split_ifs
    · exact h.again
    · exact h.leave .failed (-1)
    · exact h

theorem sound_step {e : Exec MainLoop} (h : e.Split Sound (fun _ => True)) (i : Input) :
    (step e i).Split Sound (fun _ => True) := h.andThen (fun _ hs => hs.apply i)

/-- There is something to wait for: an event, or what user code has counted. -/
def Awaits (s : MainLoop) : Prop := 0 < s.held ∨ s.awaited ≠ []

theorem Sound.awaits_iff {s : MainLoop} (h : Sound s) : s.nbWaitingEvents ≠ 0 ↔ Awaits s := by
  have hc := h.count
  rw [Awaits, ← List.length_pos_iff]
  omega

/-- Without anything to wait for, no event waits for its output to leave. -/
theorem Sound.waiting {s : MainLoop} (h : Sound s) (hn : ¬ Awaits s) : s.loop.waiting = [] := by
  by_contra hne
  obtain ⟨w, hw⟩ := Option.ne_none_iff_exists'.mp (h.guarded.guard hne)
  have hp := h.guarded.timer w hw
  have hkept : w ∉ s.removed := fun hm => (h.removed w hm).kind hp.kind
  have hmem : w ∈ s.awaited := by
    simp [awaited, hp.made, hp.counted, hkept]
  exact hn (.inr (List.ne_nil_of_mem hmem))

/-- When `run` comes to its test of `nb_waiting_events`, it either returns, and then there is
nothing to wait for, to delete or to send, or it calls `epoll_wait` and there is. -/
def Decided (e : Exec MainLoop) (i : Input) : Prop :=
  match e with
  | .ret s =>
    let s' := (step e i).state
    s.asks i = true →
      (s'.running = false ∧ ¬ Awaits s' ∧ s'.loop.delList = [] ∧ s'.loop.waiting = []) ∨
        (s'.running = true ∧ s'.loop.phase = .poll ∧ Awaits s')
  | _ => True

/-- The test of `nb_waiting_events` comes after the deletions. -/
theorem asks_cases {s : MainLoop} {i : Input} (h : s.asks i = true) :
    ∃ outAreSent outq, i = .loop (.next outAreSent outq) ∧ s.running = true ∧
      s.loop.phase = .dels ∧ s.loop.delList = [] := by
  match i with
  | .loop (.next outAreSent outq) =>
    obtain ⟨⟨hrun, hphase⟩, hdel⟩ : (s.running = true ∧ s.loop.phase = .dels) ∧
        s.loop.delList = [] := by
      simpa [asks] using h
    exact ⟨outAreSent, outq, rfl, hrun, hphase, hdel⟩

theorem apply_idle {s : MainLoop} {i : Input} (h : s.asks i = true)
    (hn : s.nbWaitingEvents = 0) : s.apply i = .ret (s.leave .idle s.ret) := by
  obtain ⟨outAreSent, outq, rfl, -⟩ := asks_cases h
  simp [MainLoop.apply, h, hn]

theorem apply_polls {s : MainLoop} {i : Input} (h : s.asks i = true)
    (hn : s.nbWaitingEvents ≠ 0) :
    s.apply i = .ret { s with
      loop := s.loop.goto .poll
      nbWaitingEvents := s.nbWaitingEvents + 0 + timerMade s.loop (s.loop.goto .poll) -
        destroyed s.loop (s.loop.goto .poll) } := by
  obtain ⟨outAreSent, outq, rfl, hrun, hphase, hdel⟩ := asks_cases h
  have hnext : s.loop.apply (.next outAreSent outq) = .ret (s.loop.goto .poll) := by
    simp [EvLoop.apply, EvLoop.next, hphase, hdel]
  have hpermits : s.permits (.next outAreSent outq) = true := hrun
  have hclear : s.aborts (s.loop.goto .poll) = false := aborts_none rfl
  have hfollow : s.follow (.next outAreSent outq) (s.loop.goto .poll) = { s with
      loop := s.loop.goto .poll
      nbWaitingEvents := s.nbWaitingEvents + 0 + timerMade s.loop (s.loop.goto .poll) -
        destroyed s.loop (s.loop.goto .poll) } := by
    simp [MainLoop.follow, goto, installed]
  rw [MainLoop.apply, if_neg (by simp [hn]), if_pos hpermits, hnext, Exec.thenWith,
    hclear, hfollow]
  rfl

theorem Sound.decided {s : MainLoop} (h : Sound s) (i : Input) : Decided (.ret s) i := by
  intro ha
  obtain ⟨-, -, -, hrun, -, hdel⟩ := asks_cases ha
  by_cases hn : s.nbWaitingEvents = 0
  · rw [step, Exec.andThen, apply_idle ha hn]
    have hnone : ¬ Awaits s := fun hw => h.awaits_iff.mpr hw hn
    exact .inl ⟨rfl, hnone, hdel, h.waiting hnone⟩
  · rw [step, Exec.andThen, apply_polls ha hn]
    exact .inr ⟨hrun, rfl, h.awaits_iff.mp hn⟩

/-- In every run of the program, `nb_waiting_events` counts the events that the loop waits for and
what user code has added, and `run` leaves on its own exactly when there is nothing left to wait
for, and never while an event waits in `wait_out_list` for its output to leave. -/
theorem run_leaves_nothing (inputs : List Input) :
    (General.run step (.ret new) inputs).Split
      (fun s => s.nbWaitingEvents = (s.awaited.length : Int) + s.held) (fun _ => True) ∧
      Along step Decided (.ret new) inputs := by
  have hnew : (Exec.ret new).Split Sound (fun _ => True) := sound_new
  constructor
  · have hsound := run_invariant_all (Exec.Split Sound (fun _ => True))
      (fun _ i he => sound_step he i) hnew inputs
    exact hsound.mono (fun _ hs => hs.count) (fun _ _ => trivial)
  · refine Along.imp (P := fun _ _ => True) (Exec.Split Sound (fun _ => True))
      (fun e i h _ => sound_step h i) (fun e i h _ => ?_) hnew
      (along_of_mem (fun _ _ _ => trivial) _)
    cases e with
    | ret s => exact Sound.decided h i
    | hang s | undef s => trivial

end Evel.MainLoop
