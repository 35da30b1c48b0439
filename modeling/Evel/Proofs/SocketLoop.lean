import Evel.General.Runs
import Evel.Proofs.SocketInput

namespace Evel.EvLoop
open General Loop

/-- A loop that returns from each of its steps may come from one state to the other. -/
abbrev Reach (s s' : EvLoop) : Prop := Reaches step (.ret s) (.ret s')

theorem reach_of_apply {s s' : EvLoop} (i : Input) (h : s.apply i = .ret s') : Reach s s' :=
  ⟨[i], h⟩

/-- What a step leaves to an event of its own making. -/
structure Elder (s s' : EvLoop) : Prop where
  nextId : s.nextId ≤ s'.nextId
  kind : ∀ x, x < s.nextId → s'.kind x = s.kind x

theorem Elder.refl (s : EvLoop) : Elder s s := ⟨Nat.le_refl _, fun _ _ => rfl⟩

theorem Elder.trans (h : Elder s s') (h' : Elder s' s'') : Elder s s'' :=
  ⟨Nat.le_trans h.nextId h'.nextId,
    fun x hx => (h'.kind x (Nat.lt_of_lt_of_le hx h.nextId)).trans (h.kind x hx)⟩

theorem elder_create (k : Kind) (e : Event) (s : EvLoop) : Elder s (s.create k e) := by
  refine ⟨Nat.le_succ _, fun x hx => ?_⟩
  simp [EvLoop.create, Nat.ne_of_lt hx]

theorem elder_register (x : EventId) (t : Event.DelTarget) (s : EvLoop) :
    Elder s (s.register x t) := by
  have hcheck : ∀ s : EvLoop, Elder s s.checkWaitOut := by
    intro s
    rw [checkWaitOut]
    split
    · exact .refl s
    · exact (elder_create .waitOut { Event.new 3 true with evLoop := true } s).trans
        ⟨Nat.le_refl _, fun _ _ => rfl⟩
  cases t with
  | waitOutList =>
    simp only [register]
    refine Elder.trans ?_ (hcheck _)
    split <;> exact ⟨Nat.le_refl _, fun _ _ => rfl⟩
  | delList =>
    simp only [register]
    split <;> exact ⟨Nat.le_refl _, fun _ _ => rfl⟩
  | delOnInstall => exact ⟨Nat.le_refl _, fun _ _ => rfl⟩

theorem elder_request (x : EventId) (r : Request) (outq : Option Nat) (s : EvLoop) :
    Elder s (s.request x r outq) := by
  simp only [request]
  split
  · exact ⟨Nat.le_refl _, fun _ _ => rfl⟩
  · have h : Elder s (s.setEvent x ((s.events x).flags r).1) := ⟨Nat.le_refl _, fun _ _ => rfl⟩
    exact h.trans (elder_register x _ _)

theorem elder_notify (b : Bool) (x : EventId) (r : Request) (outq : Option Nat) (s : EvLoop) :
    Elder s (if b then s.request x r outq else s) := by
  cases b with
  | true => exact elder_request x r outq s
  | false => exact .refl s

theorem elder_advance (batch : List (EventId × Mask)) (s : EvLoop) :
    Elder s (s.advance batch) := by
  cases batch <;> exact ⟨Nat.le_refl _, fun _ _ => rfl⟩

theorem Elder.goto {s s' : EvLoop} (h : Elder s s') (p : Phase) : Elder s (s'.goto p) :=
  ⟨h.nextId, h.kind⟩

theorem elder_install (x : EventId) (outq : Option Nat) (s : EvLoop) :
    Elder s (s.install x outq) := by
  simp only [install]
  split
  · exact .refl s
  · have h : Elder s (s.setEvent x { s.events x with evLoop := true }) :=
      ⟨Nat.le_refl _, fun _ _ => rfl⟩
    split
    · exact h.trans (elder_request x .del outq _)
    · exact h

theorem elder_tick (w : EventId) (outq : Option Nat) (done : Phase) (s : EvLoop) :
    (s.tick w outq done).Split (Elder s) (Elder s) := by
  unfold tick
  split
  · split_ifs <;> exact ⟨Nat.le_refl _, fun _ _ => rfl⟩
  · dsimp only
    split
    · refine Elder.goto (Elder.trans ?_ (elder_request w (.close true) none _)) done
      exact ⟨Nat.le_refl _, fun _ _ => rfl⟩
    · exact ⟨Nat.le_refl _, fun _ _ => rfl⟩

theorem elder_next (outAreSent : Bool) (outq : Option Nat) (s : EvLoop) :
    (s.next outAreSent outq).Split (Elder s) (Elder s) := by
  have hself : ∀ s' : EvLoop, s'.nextId = s.nextId → s'.kind = s.kind → Elder s s' :=
    fun s' hn hk => ⟨Nat.le_of_eq hn.symm, fun x _ => congrFun hk x⟩
  rw [next]
  split
  · split
    · exact hself _ rfl rfl
    · split <;> exact hself _ rfl rfl
  · split
    · exact hself _ rfl rfl
    · split <;> exact hself _ rfl rfl
  · exact .refl s
  · next x mask stage rest hp =>
    split
    · cases stage with
      | want =>
        dsimp only [handle]
        split
        · exact elder_advance rest s
        · exact hself _ rfl rfl
      | out => exact (elder_notify _ x .del outq s).goto _
      | inp =>
        dsimp only [handle]
        split <;> exact hself _ rfl rfl
      | tick => exact elder_tick x outq _ s
      | rdHup => exact (elder_notify _ x .fail outq s).goto _
      | hup => exact (elder_notify _ x .fail outq s).goto _
      | err => exact (elder_notify _ x .fail outq s).trans (elder_advance rest _)
    · exact .refl s

theorem elder_apply (s : EvLoop) (i : Input) : (s.apply i).Split (Elder s) (Elder s) := by
  have hwork : ∀ x, Elder s (s.regWork x) := by
    intro x
    simp only [regWork]
    split_ifs <;> exact ⟨Nat.le_refl _, fun _ _ => rfl⟩
  cases i with
  | create fd needWait mayHaveOut => exact elder_create _ _ s
  | install x outq =>
    dsimp only [apply]
    rw [Exec.split_ret]
    split
    · exact elder_install x outq s
    · exact .refl s
  | request x r outq =>
    dsimp only [apply]
    rw [Exec.split_ret]
    split
    · exact elder_request x r outq s
    · exact .refl s
  | regWork x =>
    dsimp only [apply]
    rw [Exec.split_ret]
    split
    · exact hwork x
    · exact .refl s
  | addWork x =>
    dsimp only [apply]
    rw [Exec.split_ret]
    simp only [addWork]
    split_ifs <;> exact ⟨Nat.le_refl _, fun _ _ => rfl⟩
  | poll batch =>
    dsimp only [apply]
    rw [Exec.split_ret]
    split
    · exact elder_advance batch s
    · exact .refl s
  | next outAreSent outq => exact elder_next outAreSent outq s

theorem elder_step {s : EvLoop} (he : Exec.Split (Elder s) (Elder s) e) (i : Input) :
    (step e i).Split (Elder s) (Elder s) := by
  refine Exec.Split.andThen he (fun t ht => ?_)
  exact (elder_apply t i).mono (fun _ h => ht.trans h) (fun _ h => ht.trans h)

/-- An event keeps its class. -/
theorem Reach.elder {s s' : EvLoop} (h : Reach s s') : Elder s s' := by
  obtain ⟨is, h⟩ := h
  have hrun := run_invariant_all (Exec.Split (Elder s) (Elder s)) (fun _ i he => elder_step he i)
    (show Exec.Split (Elder s) (Elder s) (.ret s) from .refl s) is
  rw [h] at hrun
  exact hrun

theorem reach_next {s s' : EvLoop} (outAreSent : Bool) (outq : Option Nat)
    (h : s.next outAreSent outq = .ret s') : Reach s s' :=
  reach_of_apply (.next outAreSent outq) h

theorem reach_request {s : EvLoop} (ha : s.alive x = true) (r : Request) (outq : Option Nat) :
    Reach s (s.request x r outq) :=
  reach_of_apply (.request x r outq) (by simp [apply, ha])

theorem checkWaitOut_goto (p : Phase) (s : EvLoop) :
    (s.goto p).checkWaitOut = s.checkWaitOut.goto p := by
  rw [checkWaitOut, checkWaitOut]
  cases h : s.waitOutTimer <;> simp [goto, h, EvLoop.create]

theorem register_goto (x : EventId) (t : Event.DelTarget) (p : Phase) (s : EvLoop) :
    (s.goto p).register x t = (s.register x t).goto p := by
  cases t with
  | waitOutList =>
    simp only [register]
    rw [← checkWaitOut_goto]
    by_cases hw : (s.events x).nextWaitOut = true <;> simp [goto, setEvent, hw]
  | delList =>
    simp only [register]
    by_cases hd : (s.events x).nextDel = true <;> simp [goto, setEvent, hd]
  | delOnInstall => rfl

/-- A request does not read where the loop is. -/
theorem request_goto (x : EventId) (r : Request) (outq : Option Nat) (p : Phase) (s : EvLoop) :
    (s.goto p).request x r outq = (s.request x r outq).goto p := by
  have htarget : (s.goto p).target x r outq = s.target x r outq := rfl
  simp only [request, htarget]
  cases s.target x r outq with
  | none => rfl
  | some t => exact register_goto x t p (s.setEvent x ((s.events x).flags r).1)

/-- A step of the loop in a batch, where the event at hand is alive -/
theorem reach_handle {s : EvLoop} (hp : s.phase = .batch x mask stage rest)
    (ha : s.alive x = true) (outAreSent : Bool) (outq : Option Nat)
    (h : s.handle x mask stage rest outAreSent outq = .ret s') : Reach s s' :=
  reach_next outAreSent outq (by simp [next, hp, ha, h])

end Evel.EvLoop

namespace Evel.Sockets
open General Loop EvLoop
variable {Addr : Type u}

/-- A socket is an event of the class that may have output. -/
def Classed (s : Sockets Addr) : Prop :=
  ∀ x k, s.sock x = some k → s.loop.kind x = .user true

/-- What the loop alone could have done, with the sockets that there were. -/
structure Driven (s s' : Sockets Addr) : Prop where
  reach : Reach s.loop s'.loop
  sock : ∀ x k, s'.sock x = some k → ∃ k', s.sock x = some k'

theorem Driven.refl (s : Sockets Addr) : Driven s s := ⟨.refl _ _, fun _ k hk => ⟨k, hk⟩⟩

theorem Driven.trans {s s' s'' : Sockets Addr} (h : Driven s s') (h' : Driven s' s'') :
    Driven s s'' := by
  refine ⟨Reaches.trans h.reach h'.reach, fun x k hk => ?_⟩
  obtain ⟨k', hk'⟩ := h'.sock x k hk
  exact h.sock x k' hk'

theorem Driven.of_loop {s : Sockets Addr} (h : Reach s.loop l) : Driven s { s with loop := l } :=
  ⟨h, fun _ k hk => ⟨k, hk⟩⟩

theorem driven_request {s : Sockets Addr} (ha : s.loop.alive x = true) (r : Request)
    (outq : Option Nat) : Driven s (s.request x r outq) :=
  ⟨reach_request ha (s.actual x r) outq, fun _ k hk => ⟨k, hk⟩⟩

theorem driven_update {s : Sockets Addr} (hk : s.sock x ≠ none) (k : Sock Addr) :
    Driven s { s with sock := Function.update s.sock x (some k) } := by
  refine ⟨.refl _ _, fun y k' hy => ?_⟩
  by_cases hyx : y = x
  · exact hyx ▸ Option.ne_none_iff_exists'.mp hk
  · exact ⟨k', by simpa [hyx] using hy⟩

theorem driven_put {s : Sockets Addr} (hk : s.sock x ≠ none) (ha : s.loop.alive x = true)
    (k : Sock Addr) : Driven s (s.put x k) := by
  have hset := driven_update hk k
  simp only [put]
  split
  · exact hset
  · refine hset.trans (driven_request ?_ .fail none)
    exact ha

/-- The loop at the test after `on_out` of the socket `x`, whose state is that of `s'`. -/
structure Midway (x : EventId) (mask : Mask) (rest : List (EventId × Mask))
    (s s' : Sockets Addr) : Prop where
  reach : Reach s.loop (s'.loop.goto (.batch x mask .out rest))
  alive : s'.loop.alive x = true
  reading : s'.reading = s.reading
  sock : ∀ y k, s'.sock y = some k → ∃ k', s.sock y = some k'

theorem midway_start {s : Sockets Addr} (hp : s.loop.phase = .batch x mask .want rest)
    (ha : s.loop.alive x = true) (hd : (s.loop.events x).nextDel = false) :
    Midway x mask rest s s :=
  ⟨reach_handle hp ha false none (by simp [EvLoop.handle, hd]), ha, rfl,
    fun _ k hk => ⟨k, hk⟩⟩

theorem Midway.request {s s' : Sockets Addr} (h : Midway x mask rest s s') (r : Request)
    (outq : Option Nat) : Midway x mask rest s (s'.request x r outq) := by
  refine ⟨?_, (apart_request x (s'.actual x r) outq s'.loop).alive x h.alive, h.reading, h.sock⟩
  have hreach := reach_request (s := s'.loop.goto (.batch x mask .out rest)) h.alive
    (s'.actual x r) outq
  rw [request_goto] at hreach
  exact Reaches.trans h.reach hreach

theorem Midway.put {s s' : Sockets Addr} (h : Midway x mask rest s s') (hk : s.sock x ≠ none)
    (k : Sock Addr) : Midway x mask rest s (s'.put x k) := by
  have hset : Midway x mask rest s { s' with sock := Function.update s'.sock x (some k) } := by
    refine ⟨h.reach, h.alive, h.reading, fun y k' hy => ?_⟩
    by_cases hyx : y = x
    · exact hyx ▸ Option.ne_none_iff_exists'.mp hk
    · exact h.sock y k' (by simpa [hyx] using hy)
  simp only [Sockets.put]
  split
  · exact hset
  · exact hset.request .fail none

theorem Midway.past {s s' : Sockets Addr} (h : Midway x mask rest s s')
    (outq : Option Nat) :
    Driven s ((s'.afterOut x mask outq).goto (.batch x mask .inp rest)) := by
  have hnext := reach_handle (s := s'.loop.goto (.batch x mask .out rest)) rfl h.alive
    (s'.outAreSent x true) outq rfl
  refine ⟨Reaches.trans h.reach ?_, ?_⟩
  · have hgoto : ((s'.afterOut x mask outq).goto (.batch x mask .inp rest)).loop =
        (if mask.out && (s'.loop.events x).wantCloseFd && s'.outAreSent x true
          then (s'.loop.goto (.batch x mask .out rest)).request x .del outq
          else s'.loop.goto (.batch x mask .out rest)).goto (.batch x mask .inp rest) := by
      rw [afterOut]
      split
      · rw [request_goto]
        rfl
      · rfl
    rw [hgoto]
    exact hnext
  · rw [afterOut]
    split
    · exact h.sock
    · exact h.sock

/-- `on_out` and the test after it are two steps of the loop, with a request between them where a
send has failed. `on_inp` of a socket is none. -/
theorem driven_handle {s : Sockets Addr} (hp : s.loop.phase = .batch x mask stage rest)
    (hr : s.reading = .no) (hk : s.sock x = some k) (hc : s.loop.kind x = .user true)
    (ha : s.loop.alive x = true) (outq : Option Nat) (script : List SysAnswer) :
    (s.handle x mask stage rest outq script k).Split
      (fun s' => Driven s s' ∧ (s'.reading ≠ .no → stage = .inp)) (fun _ => True) := by
  have hsock : s.sock x ≠ none := by simp [hk]
  have hturn : ∀ s' : Sockets Addr, s.loop.handle x mask stage rest false outq = .ret s'.loop →
      s'.sock = s.sock → s'.reading = s.reading →
        Driven s s' ∧ (s'.reading ≠ .no → stage = .inp) :=
    fun s' h hsame hread => ⟨⟨reach_handle hp ha false outq h, fun y k hy => ⟨k, hsame ▸ hy⟩⟩,
      fun hne => absurd (hread.trans hr) hne⟩
  have hnotify : ∀ (b : Bool) (f : EvLoop → EvLoop),
      s.loop.handle x mask stage rest false outq =
        .ret (f (if b then s.loop.request x .fail outq else s.loop)) →
      ∀ s', (if b then s.request x .fail outq else s) = s' →
        Driven s { s' with loop := f s'.loop } ∧ (s'.reading ≠ .no → stage = .inp) := by
    rintro b f h s' rfl
    cases b <;> exact hturn _ h rfl rfl
  cases stage with
  | want =>
    dsimp only [handle]
    split
    · next hd => exact hturn (s.advance rest) (by simp [EvLoop.handle, hd, advance]) rfl rfl
    · next hd =>
      have hstart := midway_start hp ha (by simpa using hd)
      have hsent : (if mask.out then ((k.withEvent (s.loop.events x)).onOut script).map
          (fun k => s.put x k) else .ret s).Split (Midway x mask rest s) (fun _ => True) := by
        split
        · rw [Exec.split_map]
          exact Exec.Split.all (fun k' => hstart.put hsock k') (fun _ => trivial) _
        · exact hstart
      refine hsent.andThen (fun s' h => ⟨h.past outq, fun hne => absurd ?_ hne⟩)
      rw [← hr, ← h.reading]
      exact (place_notify _ x .del outq s').reading
  | out => exact ⟨.refl s, fun h => absurd hr h⟩
  | tick => exact ⟨.refl s, fun h => absurd hr h⟩
  | inp =>
    dsimp only [handle]
    split
    · exact ⟨⟨.refl _ _, fun _ k hk => ⟨k, hk⟩⟩, fun _ => rfl⟩
    · exact hturn (s.goto _) (by simp [EvLoop.handle, hc, goto]) rfl rfl
  | rdHup => exact hnotify mask.rdHup (fun l => l.goto (.batch x mask .hup rest)) rfl _ rfl
  | hup => exact hnotify mask.hup (fun l => l.goto (.batch x mask .err rest)) rfl _ rfl
  | err => exact hnotify mask.err (fun l => l.advance rest) rfl _ rfl

/-- `on_inp` is called at one stage of a notification. -/
def Entered (s : Sockets Addr) : Prop :=
  s.reading ≠ .no → ∃ x mask rest, s.loop.phase = .batch x mask .inp rest

/-- What is seen of a step from outside of the sockets. -/
structure Shown (s s' : Sockets Addr) : Prop extends Driven s s' where
  entered : Entered s'

theorem shown_of_no {s s' : Sockets Addr} (h : Driven s s') (hr : s'.reading = .no) :
    Shown s s' := ⟨h, fun hne => absurd hr hne⟩

theorem Driven.leave {s s' : Sockets Addr} (h : Driven s s')
    (hp : s'.loop.phase = .batch x mask .inp rest) (ha : s'.loop.alive x = true)
    (hc : s'.loop.kind x = .user true) : Shown s s'.leave := by
  have hnext : Driven s' { s' with loop := s'.loop.goto (.batch x mask .rdHup rest) } :=
    .of_loop (reach_handle hp ha false none (by simp [EvLoop.handle, hc]))
  refine shown_of_no ?_ (leave_reading hp)
  rw [Sockets.leave, hp]
  exact h.trans ⟨hnext.reach, hnext.sock⟩

theorem shown_of_place {s s' : Sockets Addr} (he : Entered s) (hp : Place s s')
    (h : Driven s s') : Shown s s' :=
  ⟨h, fun hne => hp.phase ▸ he (hp.reading ▸ hne)⟩

/-- The invariant of the run. -/
structure Alone (s : Sockets Addr) : Prop extends Sound s where
  classed : Classed s
  entered : Entered s

theorem alone_new : Alone (new : Sockets Addr) :=
  ⟨sound_new, fun x k hk => by simp [new] at hk, fun hne => absurd rfl hne⟩

theorem shown_next {s : Sockets Addr} (h : Alone s) (outAreSent : Bool) (outq : Option Nat)
    (script : List SysAnswer) :
    (s.next outAreSent outq script).Split (Shown s) (fun _ => True) := by
  have hothers : (∀ y k, s.loop.atHand = some y → s.sock y ≠ some k) →
      (s.others outAreSent outq).Split (Shown s) (fun _ => True) := by
    intro hnone
    have hr := h.seated.idle hnone
    rw [others]
    cases hl : s.loop.next outAreSent outq with
    | ret l => exact shown_of_no ⟨reach_next outAreSent outq hl, fun _ k hk => ⟨k, hk⟩⟩ hr
    | hang l => trivial
    | undef l => trivial
  rw [next]
  split
  · next x mask stage rest hp =>
    split
    · next k hk =>
      split
      · next ha =>
        have hc := h.classed x k hk
        split
        · next hr =>
          have hphase := steps_handle hp hr hk outq script
          have hdriven := driven_handle hp hr hk hc ha outq script
          refine (hdriven.and hphase).mono (fun s' h => ⟨h.1.1, fun hne => ?_⟩) (fun _ _ => trivial)
          rw [(h.2.reading hne).1, hp, h.1.2 hne]
          exact ⟨x, mask, rest, rfl⟩
        · exact shown_of_place h.entered (.refl s) (.refl s)
        · next hr =>
          obtain ⟨y, mask', rest', hp'⟩ := h.entered (by simp [hr])
          obtain ⟨rfl, -, rfl, -⟩ : x = y ∧ mask = mask' ∧ stage = .inp ∧ rest = rest' := by
            simpa [hp] using hp'
          rw [Exec.split_ret]
          split
          · exact (Driven.refl s).leave hp ha hc
          · exact ⟨⟨.refl _ _, fun _ k hk => ⟨k, hk⟩⟩, fun _ => ⟨x, mask, rest, hp⟩⟩
      · trivial
    · next hk =>
      refine hothers (fun y k hy => ?_)
      obtain rfl : x = y := by simpa [atHand, hp] using hy
      simp [hk]
  · exact hothers (fun y k hy => by simp [atHand] at hy)

theorem shown_recv {s : Sockets Addr} (h : Alone s) (a : SysAnswer) :
    (s.recv a).Split (Shown s) (fun _ => True) := by
  rw [recv]
  split
  · next x mask stage rest hr hp =>
    obtain ⟨y, mask', rest', hp'⟩ := h.entered (by simp [hr])
    obtain ⟨rfl, -, rfl, -⟩ : x = y ∧ mask = mask' ∧ stage = .inp ∧ rest = rest' := by
      simpa [hp] using hp'
    split
    · next k hk =>
      have hc := h.classed x k hk
      split
      · next ha =>
        have hfail := driven_request ha .fail none
        have hplace := place_request x .fail none s
        split_ifs
        · exact ⟨⟨.refl _ _, fun _ k hk => ⟨k, hk⟩⟩, fun _ => ⟨x, mask, rest, hp⟩⟩
        · exact shown_of_place h.entered (.refl s) (.refl s)
        · exact (Driven.refl s).leave hp ha hc
        · refine hfail.leave (hplace.phase.trans hp) ?_ ?_
          · exact (apart_request x _ none s.loop).alive x ha
          · rw [hfail.reach.elder.kind x (h.old x ha), hc]
      · trivial
    · exact shown_of_place h.entered (.refl s) (.refl s)
  · exact shown_of_place h.entered (.refl s) (.refl s)

theorem driven_install {s : Sockets Addr} (ha : s.loop.alive x = true) (outq : Option Nat) :
    Driven s (s.install x outq) := by
  have hloop : (s.install x outq).loop = s.loop.install x outq := by
    simp only [install, EvLoop.install]
    split_ifs <;> rfl
  have hsock : (s.install x outq).sock = s.sock := by
    rw [install_eq]
    split_ifs <;> rfl
  exact ⟨reach_of_apply (.install x outq) (by simp [EvLoop.apply, ha, hloop]),
    fun y k hy => ⟨k, hsock ▸ hy⟩⟩

/-- The creation of a socket is one of an event, of the class that may have output. -/
theorem Classed.create {s : Sockets Addr} (h : Classed s) (k : Sock Addr) :
    Classed (s.create k) := by
  intro x k' hx
  by_cases hne : x = s.loop.nextId
  · simp [Sockets.create, EvLoop.create, hne]
  · have hold : s.sock x = some k' := by simpa [Sockets.create, hne] using hx
    simpa [Sockets.create, EvLoop.create, hne] using h x k' hold

theorem Classed.driven {s s' : Sockets Addr} (h : Classed s) (hk : Known s)
    (hd : Driven s s') : Classed s' := by
  intro x k hx
  obtain ⟨k', hx'⟩ := hd.sock x k hx
  have hold : x < s.loop.nextId := by
    refine by_contra fun hn => ?_
    rw [hk.sock x (Nat.le_of_not_lt hn)] at hx'
    cases hx'
  rw [hd.reach.elder.kind x hold]
  exact h x k' hx'

/-- User code makes a socket, or does what it may do in a loop without sockets. -/
theorem user_forms (s : Sockets Addr) (i : Input Addr) :
    (∃ k fd needWait, k.event = Event.new fd needWait ∧ s.user i = .ret (s.create k)) ∨
      (s.user i).Split (Driven s) (fun _ => True) := by
  have hput : ∀ x k k', s.load x = some k → Driven s (s.put x k') :=
    fun x k k' hk => driven_put (load_sock hk) (load_alive hk) k'
  have hguard : ∀ (b : Bool) s', (b = true → Driven s s') → Driven s (if b then s' else s) := by
    intro b s' hs
    cases b with
    | true => exact hs rfl
    | false => exact .refl s
  cases i with
  | tcp fd waiting => exact .inl ⟨_, fd, true, rfl, rfl⟩
  | udp fd needWait => exact .inl ⟨_, fd, needWait, rfl, rfl⟩
  | create fd needWait mayHaveOut =>
    exact .inr (Driven.of_loop (reach_of_apply (.create fd needWait mayHaveOut) rfl))
  | tcpSend x data rese allow script =>
    refine .inr ?_
    simp only [user]
    split
    · next c hc =>
      rw [Exec.split_map]
      exact Exec.Split.all (fun r => hput x _ _ hc) (fun _ => trivial) _
    · exact .refl s
  | udpSend x dst data allow script =>
    refine .inr ?_
    simp only [user]
    split
    · next u hu =>
      rw [Exec.split_map]
      exact Exec.Split.all (fun r => hput x _ _ hu) (fun _ => trivial) _
    · exact .refl s
  | install x outq => exact .inr (hguard _ _ fun ha => driven_install ha outq)
  | request x r outq => exact .inr (hguard _ _ fun ha => driven_request ha r outq)
  | regWork x =>
    exact .inr (hguard _ _ fun ha =>
      .of_loop (reach_of_apply (.regWork x) (by simp [EvLoop.apply, ha])))
  | addWork x =>
    exact .inr (hguard _ _ fun ha =>
      .of_loop (reach_of_apply (.addWork x) (by simp [EvLoop.apply, ha])))
  | poll batch =>
    refine .inr ?_
    dsimp only [user]
    rw [Exec.split_ret]
    split
    · next hb => exact .of_loop (reach_of_apply (.poll batch) (by rw [EvLoop.apply, if_pos hb]))
    · exact .refl s
  | next outAreSent outq script => exact .inr (Driven.refl s)
  | recv a => exact .inr (Driven.refl s)

theorem Alone.create {s : Sockets Addr} (h : Alone s) (k : Sock Addr) (hs : Sound (s.create k)) :
    Alone (s.create k) :=
  ⟨hs, h.classed.create k, h.entered⟩

/-- What a step comes to: the loop could have made it alone. -/
def Kept (s s' : Sockets Addr) : Prop := Reach s.loop s'.loop ∧ Alone s'

theorem kept_of_shown {s : Sockets Addr} (h : Alone s) (i : Input Addr)
    (hs : (s.apply i).Split (Shown s) (fun _ => True)) :
    (s.apply i).Split (Kept s) (fun _ => True) := by
  have hsound := h.toSound.apply i
  cases he : s.apply i with
  | ret s' =>
    rw [he] at hs hsound
    exact ⟨hs.reach, hsound, h.classed.driven h.toKnown hs.toDriven, hs.entered⟩
  | hang s' => trivial
  | undef s' => trivial

theorem kept_apply {s : Sockets Addr} (h : Alone s) (i : Input Addr) :
    (s.apply i).Split (Kept s) (fun _ => True) := by
  have huser : s.apply i = (if s.reading = .recv then .ret s else s.user i) →
      (s.apply i).Split (Kept s) (fun _ => True) := by
    intro hi
    by_cases hr : s.reading = .recv
    · rw [hi, if_pos hr]
      exact ⟨.refl _ _, h⟩
    · rw [if_neg hr] at hi
      rcases user_forms s i with ⟨k, fd, needWait, hk, hu⟩ | hd
      · have hsound := h.toSound.apply i
        rw [hi, hu] at hsound ⊢
        refine ⟨reach_of_apply (.create fd needWait true) ?_, h.create k hsound⟩
        rw [EvLoop.apply, ← hk]
        rfl
      · refine kept_of_shown h i ?_
        rw [hi]
        have hsteps := (steps_user h.seated i).and (user_reading s i)
        refine (hd.and hsteps).mono (fun s' h' => ⟨h'.1, fun hne => ?_⟩) (fun _ _ => trivial)
        rw [(h'.2.1.reading hne).1]
        exact h.entered (h'.2.2 ▸ hne)
  cases i with
  | next outAreSent outq script => exact kept_of_shown h _ (shown_next h outAreSent outq script)
  | recv a => exact kept_of_shown h _ (shown_recv h a)
  | _ => exact huser rfl

/-- The loop alone is where the loop with its sockets is. -/
def Above (e : Exec (Sockets Addr)) (e' : Exec EvLoop) : Prop :=
  e.Split (fun s => e' = .ret s.loop ∧ Alone s) (fun _ => True)

theorem above_step {e : Exec (Sockets Addr)} (h : Above e e') (i : Input Addr) :
    ∃ e'', Reaches EvLoop.step e' e'' ∧ Above (step e i) e'' := by
  cases e with
  | ret s =>
    obtain ⟨rfl, hs⟩ := h
    have hstep := kept_apply hs i
    rw [step, Exec.andThen]
    cases he : s.apply i with
    | ret s' =>
      rw [he] at hstep
      exact ⟨.ret s'.loop, hstep.1, rfl, hstep.2⟩
    | hang s' => exact ⟨.ret s.loop, .refl _ _, trivial⟩
    | undef s' => exact ⟨.ret s.loop, .refl _ _, trivial⟩
  | hang s => exact ⟨e', .refl _ e', trivial⟩
  | undef s => exact ⟨e', .refl _ e', trivial⟩

/-- Whatever happens to the sockets, the loop under them is in a state that it comes to without
them, by requests, notifications and turns of its own. -/
theorem loop_under_sockets (inputs : List (Input Addr)) (s : Sockets Addr)
    (h : run step (.ret new) inputs = .ret s) :
    ∃ js, run EvLoop.step (.ret EvLoop.new) js = .ret s.loop := by
  have hnew : Above (.ret (new : Sockets Addr)) (.ret EvLoop.new) := ⟨rfl, alone_new⟩
  obtain ⟨e, ⟨js, hjs⟩, he⟩ := run_matched Above (fun _ _ i he => above_step he i) hnew inputs
  rw [h] at he
  exact ⟨js, hjs.trans he.1⟩

/-- A client sends and reads, and closes in `parse`. -/
theorem loop_under_sockets_client :
    let inputs : List (Input Nat) := [.tcp 7 true, .install 0 none,
      .tcpSend 0 ⟨0, [97, 98]⟩ 2 true [], .next true none [], .next true none [],
      .poll [(0, ⟨true, true, false, false, false⟩)], .next true none [⟨2, .zero⟩],
      .next true none [], .recv ⟨3, .zero⟩, .request 0 (.close true) (some 0),
      .next true none [], .next true none [], .next true none [], .next true none [],
      .next true none [], .next true none []]
    let s := (run step (.ret new) inputs).state
    s.log = [.parsed 0, .told 0, .asked 0 (some 0), .destroyed 0 7 true] ∧
      ∃ js, run EvLoop.step (.ret EvLoop.new) js = .ret s.loop := by
  intro inputs s
  have h : run step (.ret new) inputs = .ret s := rfl
  exact ⟨by decide, loop_under_sockets inputs s h⟩

end Evel.Sockets
