import Mathlib.Data.Prod.Lex
import Evel.General.Runs
import Evel.Proofs.LoopFrame
import Evel.Proofs.LoopLists
import Evel.Proofs.SocketFrame

namespace Evel.EvLoop
open General Loop

/-- The deletion of the event is under way, or over. -/
def Marked (x : EventId) (s : EvLoop) : Prop :=
  x ∈ s.delList ∨ x ∈ s.log.map Destruction.event

/-- A live event with a link of `del_list` is in the list. -/
def Filed (s : EvLoop) : Prop :=
  ∀ x, s.alive x = true → (s.events x).nextDel = true → x ∈ s.delList

/-- What a step keeps of the deletions. -/
structure Filing (s s' : EvLoop) : Prop where
  filed : Filed s → Filed s'
  marked : ∀ x, Marked x s → Marked x s'

theorem Filing.refl (s : EvLoop) : Filing s s := ⟨id, fun _ => id⟩

theorem Filing.trans (h : Filing s s') (h' : Filing s' s'') : Filing s s'' :=
  ⟨h'.filed ∘ h.filed, fun x hx => h'.marked x (h.marked x hx)⟩

theorem filing_setEvent (x : EventId) (e : Event) (s : EvLoop)
    (he : e.nextDel = true → (s.events x).nextDel = true) : Filing s (s.setEvent x e) := by
  refine ⟨fun h y ha hd => h y ha ?_, fun _ => id⟩
  by_cases hy : y = x
  · subst hy
    exact he (by simpa [setEvent] using hd)
  · simpa [setEvent, hy] using hd

theorem filing_create (k : Kind) (e : Event) (s : EvLoop) (he : e.nextDel = false) :
    Filing s (s.create k e) := by
  refine ⟨fun h y ha hd => ?_, fun _ => id⟩
  by_cases hy : y = s.nextId
  · simp [EvLoop.create, hy, he] at hd
  · exact h y (by simpa [EvLoop.create, hy] using ha) (by simpa [EvLoop.create, hy] using hd)

/-- The lists and links of `work_list` and `wait_out_list` do not count. -/
theorem Filing.of_eq {s s' : EvLoop} (ha : s'.alive = s.alive) (he : s'.events = s.events)
    (hd : s'.delList = s.delList) (hl : s'.log = s.log) : Filing s s' := by
  constructor
  · intro h
    rwa [Filed, ha, he, hd]
  · intro x h
    rwa [Marked, hd, hl]

theorem filing_checkWaitOut (s : EvLoop) : Filing s s.checkWaitOut := by
  rw [checkWaitOut]
  split
  · exact .refl s
  · exact (filing_create .waitOut { Event.new 3 true with evLoop := true } s rfl).trans
      (.of_eq rfl rfl rfl rfl)

/-- The event goes to the list when it gets its link. -/
theorem filing_pushDel (x : EventId) (s : EvLoop) : Filing s (s.register x .delList) := by
  simp only [register]
  split
  · next hd => exact filing_setEvent x _ s (fun _ => hd)
  · refine ⟨fun h y ha hn => ?_, fun y hy => ?_⟩
    · by_cases hy : y = x
      · simp [hy]
      · exact List.mem_append_left _ (h y ha (by simpa [setEvent, hy] using hn))
    · exact hy.imp_left (List.mem_append_left _)

theorem filing_register (x : EventId) (t : Event.DelTarget) (s : EvLoop) :
    Filing s (s.register x t) := by
  cases t with
  | delList => exact filing_pushDel x s
  | delOnInstall => exact filing_setEvent x _ s id
  | waitOutList =>
    have hset := filing_setEvent x ((s.events x).register .waitOutList) s id
    simp only [register]
    refine Filing.trans ?_ (filing_checkWaitOut _)
    split
    · exact hset
    · exact hset.trans (.of_eq rfl rfl rfl rfl)

theorem filing_request (x : EventId) (r : Request) (outq : Option Nat) (s : EvLoop) :
    Filing s (s.request x r outq) := by
  have hset : Filing s (s.setEvent x ((s.events x).flags r).1) :=
    filing_setEvent x _ s (fun hn => (flags_links r (s.events x)).1 ▸ hn)
  simp only [request]
  split
  · exact hset
  · exact hset.trans (filing_register x _ _)

theorem filing_install (x : EventId) (outq : Option Nat) (s : EvLoop) :
    Filing s (s.install x outq) := by
  have hset : Filing s (s.setEvent x { s.events x with evLoop := true }) :=
    filing_setEvent x _ s id
  simp only [install]
  split_ifs
  · exact .refl s
  · exact hset.trans (filing_request x .del outq _)
  · exact hset

theorem filing_addWork (x : EventId) (s : EvLoop) : Filing s (s.addWork x) := by
  have hset : Filing s (s.setEvent x { s.events x with nextWork := true }) :=
    filing_setEvent x _ s id
  simp only [addWork]
  split
  · exact hset
  · exact hset.trans (.of_eq rfl rfl rfl rfl)

theorem filing_regWork (x : EventId) (s : EvLoop) : Filing s (s.regWork x) := by
  by_cases hl : (s.events x).evLoop = true
  · rw [regWork_installed hl]
    exact filing_addWork x s
  · rw [regWork, if_neg hl]
    exact filing_setEvent x _ s id

theorem filing_destroy (x : EventId) (s : EvLoop) : Filing s (s.destroy x) := by
  refine ⟨fun h y ha => h y ?_, fun y hy => ?_⟩
  · by_cases hy : y = x <;> simp_all [destroy]
  · rcases hy with hy | hy
    · exact .inl hy
    · exact .inr (by simp [destroy] at hy ⊢; exact .inl hy)

/-- The loop pops an event from `del_list` and destroys it. -/
theorem filing_popDel {s : EvLoop} (hd : s.delList = x :: xs) :
    Filing s (({ s with delList := xs }.setEvent x { s.events x with nextDel := false }).destroy
      x) := by
  constructor
  · intro h y ha hn
    by_cases hy : y = x
    · simp [destroy, hy] at ha
    · have hmem := h y (by simpa [destroy, setEvent, hy] using ha)
        (by simpa [destroy, setEvent, hy] using hn)
      rw [hd, List.mem_cons] at hmem
      exact hmem.resolve_left hy
  · intro y hy
    rcases hy with hy | hy
    · rw [hd, List.mem_cons] at hy
      rcases hy with rfl | hy
      · exact .inr (by simp [destroy])
      · exact .inl hy
    · exact .inr (by simp [destroy, setEvent] at hy ⊢; exact .inl hy)

theorem filing_notify (b : Bool) (x : EventId) (r : Request) (outq : Option Nat) (s : EvLoop) :
    Filing s (if b then s.request x r outq else s) := by
  cases b with
  | true => exact filing_request x r outq s
  | false => exact .refl s

theorem Filing.goto {s s' : EvLoop} (h : Filing s s') (p : Phase) : Filing s (s'.goto p) :=
  ⟨h.filed, h.marked⟩

theorem Filing.advance {s s' : EvLoop} (h : Filing s s') (batch : List (EventId × Mask)) :
    Filing s (s'.advance batch) := by
  cases batch <;> exact h.goto _

theorem filing_tick (w : EventId) (outq : Option Nat) (done : Phase) (s : EvLoop) :
    (s.tick w outq done).Split (Filing s) (fun _ => True) := by
  unfold tick
  split
  · next x chain hc =>
    split
    · split
      · exact .of_eq rfl rfl rfl rfl
      · have hpop : Filing s { s with chain := chain } := .of_eq rfl rfl rfl rfl
        exact hpop.trans (filing_destroy x _)
    · trivial
  · have hprepend : Filing s { s with waitOutList := s.renewed ++ s.waitOutList, renewed := [] } :=
      .of_eq rfl rfl rfl rfl
    dsimp only
    split
    · refine Filing.goto (Filing.trans ?_ (filing_request w (.close true) none _)) done
      exact .of_eq rfl rfl rfl rfl
    · exact hprepend.goto done

theorem filing_handle (x : EventId) (mask : Mask) (stage : Stage) (rest : List (EventId × Mask))
    (outAreSent : Bool) (outq : Option Nat) (s : EvLoop) :
    (s.handle x mask stage rest outAreSent outq).Split (Filing s) (fun _ => True) := by
  have hself := Filing.refl s
  cases stage with
  | want =>
    dsimp only [handle]
    split
    · exact hself.advance rest
    · exact hself.goto _
  | out => exact (filing_notify _ x .del outq s).goto _
  | inp =>
    dsimp only [handle]
    split
    · exact .of_eq rfl rfl rfl rfl
    · exact hself.goto _
  | tick => exact filing_tick x outq _ s
  | rdHup => exact (filing_notify _ x .fail outq s).goto _
  | hup => exact (filing_notify _ x .fail outq s).goto _
  | err => exact (filing_notify _ x .fail outq s).advance rest

theorem filing_next (outAreSent : Bool) (outq : Option Nat) (s : EvLoop) :
    (s.next outAreSent outq).Split (Filing s) (fun _ => True) := by
  rw [next]
  split
  · split
    · exact (Filing.refl s).goto .dels
    · next x workList hw =>
      split
      · have hpop : Filing s { s with workList := workList } := .of_eq rfl rfl rfl rfl
        exact hpop.trans (filing_setEvent x _ _ id)
      · trivial
  · split
    · exact (Filing.refl s).goto .poll
    · next x delList hd =>
      split
      · exact filing_popDel hd
      · trivial
  · exact .refl s
  · split
    · exact filing_handle ..
    · trivial

theorem filing_apply (s : EvLoop) (i : Input) :
    (s.apply i).Split (Filing s) (fun _ => True) := by
  cases i with
  | create fd needWait mayHaveOut => exact filing_create _ _ s rfl
  | install x outq =>
    change Filing s (if s.alive x then s.install x outq else s)
    split
    · exact filing_install x outq s
    · exact .refl s
  | request x r outq => exact filing_notify _ x r outq s
  | regWork x =>
    change Filing s (if s.alive x then s.regWork x else s)
    split
    · exact filing_regWork x s
    · exact .refl s
  | addWork x =>
    change Filing s (if s.alive x then s.addWork x else s)
    split
    · exact filing_addWork x s
    · exact .refl s
  | poll batch =>
    change Filing s (if _ then s.advance batch else s)
    split
    · exact (Filing.refl s).advance batch
    · exact .refl s
  | next outAreSent outq => exact filing_next outAreSent outq s

theorem filed_new : Filed new := nofun

/-- What a request of the loop keeps of the events. -/
structure Staying (s s' : EvLoop) : Prop where
  alive : ∀ y, s.alive y = true → s'.alive y = true
  evLoop : ∀ y, (s.events y).evLoop = true → (s'.events y).evLoop = true

theorem Staying.refl (s : EvLoop) : Staying s s := ⟨fun _ => id, fun _ => id⟩

theorem Staying.trans (h : Staying s s') (h' : Staying s' s'') : Staying s s'' :=
  ⟨fun y hy => h'.alive y (h.alive y hy), fun y hy => h'.evLoop y (h.evLoop y hy)⟩

theorem staying_setEvent (x : EventId) (e : Event) (s : EvLoop)
    (he : e.evLoop = (s.events x).evLoop) : Staying s (s.setEvent x e) :=
  ⟨fun _ => id, fun y hy => (setEvent_link Event.evLoop e he y).trans hy⟩

theorem staying_checkWaitOut (s : EvLoop) : Staying s s.checkWaitOut := by
  rw [checkWaitOut]
  split
  · exact .refl s
  · refine ⟨fun y hy => ?_, fun y hy => ?_⟩
    · by_cases hn : y = s.nextId <;> simp [EvLoop.create, hn, hy]
    · by_cases hn : y = s.nextId <;> simp [EvLoop.create, hn, hy]

theorem staying_register (x : EventId) (t : Event.DelTarget) (s : EvLoop) :
    Staying s (s.register x t) := by
  have hset := staying_setEvent x ((s.events x).register t) s (Event.register_evLoop t _)
  cases t with
  | waitOutList =>
    simp only [register]
    refine Staying.trans ?_ (staying_checkWaitOut _)
    split <;> exact ⟨hset.alive, hset.evLoop⟩
  | delList =>
    simp only [register]
    split <;> exact ⟨hset.alive, hset.evLoop⟩
  | delOnInstall => exact hset

theorem staying_request (x : EventId) (r : Request) (outq : Option Nat) (s : EvLoop) :
    Staying s (s.request x r outq) := by
  have hset := staying_setEvent x ((s.events x).flags r).1 s (flags_evLoop r _)
  simp only [request]
  split
  · exact hset
  · exact hset.trans (staying_register x _ _)

theorem staying_notify (b : Bool) (x : EventId) (r : Request) (outq : Option Nat) (s : EvLoop) :
    Staying s (if b then s.request x r outq else s) := by
  cases b with
  | true => exact staying_request x r outq s
  | false => exact .refl s

/-- An error sends an event of the loop to `del_list`, whatever its output. -/
theorem marked_fail {s : EvLoop} (h : Filed s) (ha : s.alive x = true)
    (hl : (s.events x).evLoop = true) (outq : Option Nat) :
    Marked x (s.request x .fail outq) := by
  have ht : s.target x .fail outq = some .delList := by
    simp [target, Event.flags, Event.closeFdFlags, Event.delTarget, hl]
  simp only [request, ht, register]
  split
  · next hd => exact .inl (h x ha (by simpa [setEvent, Event.flags, Event.closeFdFlags] using hd))
  · exact .inl (List.mem_append_right _ (List.mem_singleton_self x))

/-- `run` will still call `on_rd_hup`, `on_hup` or an error for this notification. -/
def ahead (mask : Mask) : Stage → Bool
  | .err => mask.err
  | .hup => mask.hup || mask.err
  | _ => mask.rdHup || mask.hup || mask.err

def failures (batch : List (EventId × Mask)) : List EventId :=
  (batch.filter (fun p => ahead p.2 .want)).map Prod.fst

/-- The events with such a notification in the batch. -/
def failing : Phase → List EventId
  | .batch x mask stage rest => (if ahead mask stage then [x] else []) ++ failures rest
  | _ => []

theorem mem_failing {mask : Mask} :
    x ∈ failing (.batch y mask stage rest) ↔
      (x = y ∧ ahead mask stage = true) ∨ x ∈ failures rest := by
  cases h : ahead mask stage <;> simp [failing, h]

theorem failing_stage {s : EvLoop} {t : Stage} (hp : s.phase = .batch y mask stage rest)
    (ht : ahead mask t = ahead mask stage) (x : EventId) (hx : x ∈ failing s.phase) :
    x ∈ failing (.batch y mask t rest) := by
  rw [hp, mem_failing] at hx
  rwa [mem_failing, ht]

theorem failing_fail {s : EvLoop} {t : Stage} (hp : s.phase = .batch y mask stage rest)
    (ht : ahead mask stage = (b || ahead mask t)) (hx : x ∈ failing s.phase) :
    (x = y ∧ b = true) ∨ x ∈ failing (.batch y mask t rest) := by
  rw [hp, mem_failing, ht] at hx
  rw [mem_failing]
  cases b with
  | true => exact hx.imp (fun h => ⟨h.1, rfl⟩) .inr
  | false => exact .inr hx

theorem failing_advance (rest : List (EventId × Mask)) (s : EvLoop) :
    failing (s.advance rest).phase = failures rest := by
  cases rest with
  | nil => rfl
  | cons p rest =>
    cases h : ahead p.2 .want <;> simp [advance, goto, failing, failures, h]

/-- The event will be destroyed before the loop sleeps. -/
def Doomed (x : EventId) (s : EvLoop) : Prop :=
  Marked x s ∨ (s.alive x = true ∧ (s.events x).evLoop = true ∧ x ∈ failing s.phase)

theorem doomed_of_steps {s s' : EvLoop} (hf : Filing s s') (hs : Staying s s')
    (hx : x ∈ failing s.phase → x ∈ failing s'.phase) (h : Doomed x s) : Doomed x s' :=
  h.imp (hf.marked x) (fun h => ⟨hs.alive x h.1, hs.evLoop x h.2.1, hx h.2.2⟩)

/-- A step in which the loop reports an error, or does not. -/
theorem doomed_of_fail {s s' : EvLoop} (hF : Filed s) (b : Bool)
    (hf : Filing (if b then s.request y .fail outq else s) s')
    (hs : Staying (if b then s.request y .fail outq else s) s')
    (hx : x ∈ failing s.phase → (x = y ∧ b = true) ∨ x ∈ failing s'.phase) (h : Doomed x s) :
    Doomed x s' := by
  rcases h with h | ⟨ha, hl, hm⟩
  · exact .inl (hf.marked x ((filing_notify b y .fail outq s).marked x h))
  · rcases hx hm with ⟨rfl, rfl⟩ | hx
    · exact .inl (hf.marked x (marked_fail hF ha hl outq))
    · have hstay := (staying_notify b y .fail outq s).trans hs
      exact .inr ⟨hstay.alive x ha, hstay.evLoop x hl, hx⟩

theorem doomed_destroy (y : EventId) (h : Doomed x s) : Doomed x (s.destroy y) := by
  by_cases hy : x = y
  · exact .inl (.inr (by simp [destroy, hy]))
  · refine h.imp ((filing_destroy y s).marked x) (fun h => ⟨?_, h.2⟩)
    simpa [destroy, hy] using h.1

theorem doomed_tick {s : EvLoop} (hp : s.phase = .batch w mask .tick rest) (outq : Option Nat)
    (h : Doomed x s) :
    (s.tick w outq (.batch w mask .rdHup rest)).Split (Doomed x) (fun _ => True) := by
  have hdone := failing_stage (t := .rdHup) hp rfl x
  unfold tick
  split
  · next y chain hc =>
    split
    · split
      · exact h
      · have hpop : Doomed x { s with chain := chain } := h
        exact doomed_destroy y hpop
    · trivial
  · dsimp only
    split
    · have hf := filing_request w (.close true) none
        { s with
          waitOutList := s.renewed ++ s.waitOutList
          renewed := []
          waitOutTimer := none }
      have hs := staying_request w (.close true) none
        { s with
          waitOutList := s.renewed ++ s.waitOutList
          renewed := []
          waitOutTimer := none }
      exact doomed_of_steps (s := s) ⟨hf.filed, hf.marked⟩ ⟨hs.alive, hs.evLoop⟩ hdone h
    · exact doomed_of_steps (s := s) (.of_eq rfl rfl rfl rfl) ⟨fun _ => id, fun _ => id⟩ hdone h

theorem doomed_handle {s : EvLoop} (hF : Filed s) (hp : s.phase = .batch y mask stage rest)
    (outAreSent : Bool) (outq : Option Nat) (h : Doomed x s) :
    (s.handle y mask stage rest outAreSent outq).Split (Doomed x) (fun _ => True) := by
  have hgoto : ∀ (s : EvLoop) p, Filing s (s.goto p) ∧ Staying s (s.goto p) :=
    fun s p => ⟨(Filing.refl s).goto p, ⟨fun _ => id, fun _ => id⟩⟩
  have hadvance : ∀ s : EvLoop, Filing s (s.advance rest) ∧ Staying s (s.advance rest) :=
    fun s => ⟨(Filing.refl s).advance rest, by cases rest <;> exact ⟨fun _ => id, fun _ => id⟩⟩
  cases stage with
  | want =>
    dsimp only [handle]
    split
    · next hd =>
      -- the rest of the notification is left out, but the event is in `del_list`
      rcases h with h | ⟨ha, hl, hm⟩
      · exact .inl ((hadvance s).1.marked x h)
      · rw [hp, mem_failing] at hm
        rcases hm with ⟨rfl, -⟩ | hm
        · exact .inl ((hadvance s).1.marked x (.inl (hF x ha hd)))
        · exact .inr ⟨(hadvance s).2.alive x ha, (hadvance s).2.evLoop x hl,
            (failing_advance rest s).symm ▸ hm⟩
    · exact doomed_of_steps (hgoto s _).1 (hgoto s _).2 (failing_stage hp rfl x) h
  | out =>
    exact doomed_of_steps ((filing_notify _ y .del outq s).goto _)
      ((staying_notify _ y .del outq s).trans (hgoto _ _).2) (failing_stage hp rfl x) h
  | inp =>
    dsimp only [handle]
    split
    · exact doomed_of_steps (s := s) (.of_eq rfl rfl rfl rfl) ⟨fun _ => id, fun _ => id⟩
        (failing_stage hp rfl x) h
    · exact doomed_of_steps (hgoto s _).1 (hgoto s _).2 (failing_stage hp rfl x) h
  | tick => exact doomed_tick hp outq h
  | rdHup =>
    exact doomed_of_fail hF mask.rdHup (hgoto _ _).1 (hgoto _ _).2
      (failing_fail hp (Bool.or_assoc _ _ _)) h
  | hup =>
    exact doomed_of_fail hF mask.hup (hgoto _ _).1 (hgoto _ _).2 (failing_fail hp rfl) h
  | err =>
    refine doomed_of_fail hF mask.err (hadvance _).1 (hadvance _).2 (fun hx => ?_) h
    rw [hp, mem_failing] at hx
    rw [failing_advance]
    exact hx

theorem doomed_next {s : EvLoop} (hF : Filed s) (outAreSent : Bool) (outq : Option Nat)
    (h : Doomed x s) : (s.next outAreSent outq).Split (Doomed x) (fun _ => True) := by
  cases hp : s.phase with
  | batch y mask stage rest =>
    cases ha : s.alive y with
    | true =>
      have hnext : s.next outAreSent outq = s.handle y mask stage rest outAreSent outq := by
        simp [next, hp, ha]
      rw [hnext]
      exact doomed_handle hF hp outAreSent outq h
    | false => simp [next, hp, ha]
  | _ =>
    -- no notification is left
    have hm : Marked x s := h.resolve_right (fun h => by simp [hp, failing] at h)
    exact (filing_next outAreSent outq s).mono (fun _ hf => .inl (hf.marked x hm)) (fun _ h => h)

def stageWeight : Stage → Nat
  | .want => 6
  | .out => 5
  | .inp => 4
  | .tick => 3
  | .rdHup => 2
  | .hup => 1
  | .err => 0

/-- What is left to do before the loop sleeps: notifications and tests of one, then events of the
list that is gone through. -/
def weight (s : EvLoop) : Nat ×ₗ Nat ×ₗ Nat :=
  match s.phase with
  | .batch _ _ stage rest => toLex (rest.length + 3, toLex (stageWeight stage, s.chain.length))
  | .work => toLex (2, toLex (0, s.workList.length))
  | .dels => toLex (1, toLex (0, s.delList.length))
  | .poll => toLex (0, toLex (0, 0))

/-- The next test of the notification -/
theorem weight_goto {s s' : EvLoop} {t : Stage} (hp : s.phase = .batch x mask stage rest)
    (ht : stageWeight t < stageWeight stage) :
    (s'.goto (.batch x mask t rest)).weight < s.weight := by
  simp [weight, hp, goto, Prod.Lex.toLex_lt_toLex, ht]

/-- The next notification, or the next round -/
theorem weight_advance {s s' : EvLoop} (hp : s.phase = .batch x mask stage rest) :
    (s'.advance rest).weight < s.weight := by
  cases rest <;> simp [weight, hp, advance, goto, Prod.Lex.toLex_lt_toLex]

theorem weight_tick {s : EvLoop} (hp : s.phase = .batch w mask .tick rest) (outq : Option Nat) :
    (s.tick w outq (.batch w mask .rdHup rest)).Split (fun s' => s'.weight < s.weight)
      (fun _ => True) := by
  unfold tick
  split
  · next y chain hc =>
    split
    · split <;> simp [weight, hp, hc, destroy, Prod.Lex.toLex_lt_toLex]
    · trivial
  · dsimp only
    split <;> exact weight_goto hp (by decide)

theorem weight_handle {s : EvLoop} (hp : s.phase = .batch x mask stage rest)
    (outAreSent : Bool) (outq : Option Nat) :
    (s.handle x mask stage rest outAreSent outq).Split (fun s' => s'.weight < s.weight)
      (fun _ => True) := by
  cases stage with
  | want =>
    dsimp only [handle]
    split
    · exact weight_advance hp
    · exact weight_goto hp (by decide)
  | inp =>
    dsimp only [handle]
    split <;> exact weight_goto hp (by decide)
  | tick => exact weight_tick hp outq
  | err => exact weight_advance hp
  | _ => exact weight_goto hp (by decide)

theorem weight_next {s : EvLoop} (hp : s.phase ≠ .poll) (outAreSent : Bool) (outq : Option Nat) :
    (s.next outAreSent outq).Split (fun s' => s'.weight < s.weight) (fun _ => True) := by
  cases h : s.phase with
  | poll => exact absurd h hp
  | work =>
    cases hw : s.workList with
    | nil =>
      simp only [next, h, hw, Exec.split_ret, weight, goto]
      exact Prod.Lex.left _ _ (by decide)
    | cons x workList =>
      cases ha : s.alive x with
      | false => simp [next, h, hw, ha]
      | true => simp [next, h, hw, ha, weight, setEvent, Prod.Lex.toLex_lt_toLex]
  | dels =>
    cases hd : s.delList with
    | nil =>
      simp only [next, h, hd, Exec.split_ret, weight, goto]
      exact Prod.Lex.left _ _ (by decide)
    | cons x delList =>
      cases ha : s.alive x with
      | false => simp [next, h, hd, ha]
      | true => simp [next, h, hd, ha, weight, setEvent, destroy, Prod.Lex.toLex_lt_toLex]
  | batch x mask stage rest =>
    cases ha : s.alive x with
    | false => simp [next, h, ha]
    | true =>
      have hnext : s.next outAreSent outq = s.handle x mask stage rest outAreSent outq := by
        simp [next, h, ha]
      rw [hnext]
      exact weight_handle h outAreSent outq

/-- The loop sleeps with nothing to delete. -/
def Emptied (s : EvLoop) : Prop := s.phase = .poll → s.delList = []

theorem emptied_handle {s : EvLoop} (hp : s.phase = .batch x mask stage rest)
    (outAreSent : Bool) (outq : Option Nat) :
    (s.handle x mask stage rest outAreSent outq).Split Emptied (fun _ => True) := by
  have hadvance : ∀ s : EvLoop, Emptied (s.advance rest) := by
    intro s h
    cases rest <;> cases h
  cases stage with
  | want =>
    dsimp only [handle]
    split
    · exact hadvance s
    · intro h
      cases h
  | inp =>
    dsimp only [handle]
    split <;> (intro h; cases h)
  | tick =>
    dsimp only [handle]
    unfold tick
    split
    · split_ifs
      · simp [Emptied, hp]
      · simp [Emptied, destroy, hp]
      · trivial
    · dsimp only
      split <;> (intro h; cases h)
  | err => exact hadvance _
  | _ =>
    intro h
    cases h

theorem emptied_next {s : EvLoop} (h : Emptied s) (outAreSent : Bool) (outq : Option Nat) :
    (s.next outAreSent outq).Split Emptied (fun _ => True) := by
  cases hp : s.phase with
  | poll => simpa [next, hp] using h
  | work =>
    cases hw : s.workList with
    | nil => simp [next, hp, hw, Emptied, goto]
    | cons x workList => cases ha : s.alive x <;> simp [next, hp, hw, ha, Emptied, setEvent]
  | dels =>
    cases hd : s.delList with
    | nil => simp [next, hp, hd, Emptied, goto]
    | cons x delList => cases ha : s.alive x <;> simp [next, hp, hd, ha, Emptied, setEvent, destroy]
  | batch x mask stage rest =>
    cases ha : s.alive x with
    | false => simp [next, hp, ha]
    | true =>
      have hnext : s.next outAreSent outq = s.handle x mask stage rest outAreSent outq := by
        simp [next, hp, ha]
      rw [hnext]
      exact emptied_handle hp outAreSent outq

/-- On the way from `s₀` to the next `epoll_wait`. -/
structure Underway (s₀ s : EvLoop) : Prop where
  filed : Filed s
  emptied : Emptied s
  doomed : ∀ x, Doomed x s₀ → Doomed x s

theorem Underway.next {s₀ s : EvLoop} (h : Underway s₀ s) (outAreSent : Bool)
    (outq : Option Nat) : (s.next outAreSent outq).Split (Underway s₀) (fun _ => True) := by
  have hf := filing_next outAreSent outq s
  have he := emptied_next h.emptied outAreSent outq
  have hd : ∀ x, Doomed x s₀ → (s.next outAreSent outq).Split (Doomed x) (fun _ => True) :=
    fun x hx => doomed_next h.filed outAreSent outq (h.doomed x hx)
  cases hn : s.next outAreSent outq with
  | ret s' =>
    rw [hn] at hf he hd
    exact ⟨hf.filed h.filed, he, hd⟩
  | hang s' => trivial
  | undef s' => trivial

end Evel.EvLoop
