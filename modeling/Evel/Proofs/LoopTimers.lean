import Evel.Proofs.LoopProgress
import Evel.Proofs.MainLoop

namespace Evel.EvLoop
open General Loop
variable {s s' : EvLoop}

/-- A step of the loop brings no notification to the batch, and only the timer of `wait_out_list`
comes to its `timeout`. -/
structure Paced (s s' : EvLoop) : Prop where
  pending : ∀ p ∈ pending s'.phase, p ∈ pending s.phase
  ticks : ∀ w mask rest, s'.phase = .batch w mask .tick rest →
    s.phase = .batch w mask .tick rest ∨ s.kind w = .waitOut

theorem paced_of_phase (h : s'.phase = s.phase) : Paced s s' :=
  ⟨fun _ hp => h ▸ hp, fun _ _ _ hp => .inl (h ▸ hp)⟩

/-- The loop goes to a stage of the event at hand that is not `tick`. -/
theorem paced_stage (hp : s.phase = .batch x mask stage rest) (t : Stage) (hn : t ≠ .tick)
    (h : s'.phase = .batch x mask t rest) : Paced s s' := by
  refine ⟨fun p hm => ?_, fun w m r he => ?_⟩
  · rw [h] at hm
    rw [hp]
    exact hm
  · rw [h] at he
    cases he
    exact absurd rfl hn

theorem paced_advance (hp : s.phase = .batch x mask stage rest) (s' : EvLoop) :
    Paced s (s'.advance rest) := by
  cases rest with
  | nil => exact ⟨fun p hm => (by cases hm), fun w m r he => (by cases he)⟩
  | cons q rest =>
    refine ⟨fun p hm => ?_, fun w m r he => (by cases he)⟩
    rw [hp]
    exact List.mem_cons_of_mem _ hm

theorem paced_tick (hp : s.phase = .batch x mask .tick rest) (outq : Option Nat) :
    (s.tick x outq (.batch x mask .rdHup rest)).Split (Paced s) (fun _ => True) := by
  have hdone : ∀ s' : EvLoop, Paced s (s'.goto (.batch x mask .rdHup rest)) :=
    fun s' => paced_stage hp .rdHup (by decide) rfl
  unfold tick
  split
  · split
    · split
      · exact paced_of_phase rfl
      · exact paced_of_phase rfl
    · trivial
  · dsimp only
    split
    · exact hdone _
    · exact hdone _

theorem paced_handle (hp : s.phase = .batch x mask stage rest) (outAreSent : Bool)
    (outq : Option Nat) :
    (s.handle x mask stage rest outAreSent outq).Split (Paced s) (fun _ => True) := by
  have hstage : ∀ (s' : EvLoop) t, t ≠ .tick →
      Paced s (s'.goto (.batch x mask t rest)) :=
    fun s' t hn => paced_stage hp t hn rfl
  cases stage with
  | want =>
    dsimp only [handle]
    split
    · exact paced_advance hp s
    · exact hstage _ _ (by decide)
  | out => exact hstage _ _ (by decide)
  | inp =>
    dsimp only [handle]
    split
    · next hb =>
      simp only [Bool.and_eq_true, decide_eq_true_eq] at hb
      refine ⟨fun p hm => ?_, fun w m r he => .inr ?_⟩
      · rw [hp]
        exact hm
      · cases he
        exact hb.1.2
    · exact hstage _ _ (by decide)
  | tick => exact paced_tick hp outq
  | rdHup => exact hstage _ _ (by decide)
  | hup => exact hstage _ _ (by decide)
  | err => exact paced_advance hp _

theorem paced_next (outAreSent : Bool) (outq : Option Nat) (s : EvLoop) :
    (s.next outAreSent outq).Split (Paced s) (fun _ => True) := by
  have hquiet : ∀ s' : EvLoop, pending s'.phase = [] →
      (∀ w m r, s'.phase ≠ .batch w m .tick r) → Paced s s' := by
    intro s' hn ht
    refine ⟨fun p hm => ?_, fun w m r he => absurd he (ht w m r)⟩
    rw [hn] at hm
    cases hm
  cases hp : s.phase with
  | work =>
    simp only [next, hp]
    split
    · exact hquiet _ rfl (fun w m r he => by cases he)
    · split
      · exact hquiet _ rfl (fun w m r he => by cases he)
      · trivial
  | dels =>
    simp only [next, hp]
    split
    · exact hquiet _ rfl (fun w m r he => by cases he)
    · split
      · exact hquiet _ rfl (fun w m r he => by cases he)
      · trivial
  | poll =>
    simp only [next, hp]
    exact paced_of_phase rfl
  | batch x mask stage rest =>
    simp only [next, hp]
    split
    · exact paced_handle hp outAreSent outq
    · trivial

/-- A step that destroys nothing leaves the events in their loop. -/
structure Lives (s s' : EvLoop) : Prop extends Keeps s s' where
  evLoop : ∀ y, y < s.nextId → (s.events y).evLoop = true → (s'.events y).evLoop = true

theorem Lives.of_eq (he : s'.events = s.events) (hl : s'.log = s.log)
    (hn : s'.nextId = s.nextId) (ha : s'.alive = s.alive) : Lives s s' :=
  ⟨.of_eq hl hn ha, fun _ _ h => he ▸ h⟩

theorem Lives.trans (h : Lives s s') (h' : Lives s' s'') : Lives s s'' :=
  ⟨h.toKeeps.trans h'.toKeeps,
    fun y hy hl => h'.evLoop y (Nat.lt_of_lt_of_le hy h.nextId) (h.evLoop y hy hl)⟩

theorem Lives.goto (h : Lives s s') (p : Phase) : Lives s (s'.goto p) :=
  h.trans (.of_eq rfl rfl rfl rfl)

theorem Lives.advance (h : Lives s s') (batch : List (EventId × Mask)) :
    Lives s (s'.advance batch) := by
  cases batch <;> exact h.goto _

theorem lives_setEvent (x : EventId) (e : Event) (s : EvLoop)
    (he : (s.events x).evLoop = true → e.evLoop = true) : Lives s (s.setEvent x e) := by
  refine ⟨.of_eq rfl rfl rfl, fun y _ hl => ?_⟩
  by_cases hy : y = x
  · subst hy
    simpa [setEvent] using he hl
  · simpa [setEvent, hy] using hl

theorem lives_create (k : Kind) (e : Event) (s : EvLoop) : Lives s (s.create k e) := by
  refine ⟨keeps_create k e s, fun y hy hl => ?_⟩
  simpa [EvLoop.create, Nat.ne_of_lt hy] using hl

theorem lives_request (x : EventId) (r : Request) (outq : Option Nat) (s : EvLoop) :
    Lives s (s.request x r outq) :=
  ⟨keeps_request x r outq s, fun y _ => (staying_request x r outq s).evLoop y⟩

theorem lives_notify (b : Bool) (x : EventId) (r : Request) (outq : Option Nat) (s : EvLoop) :
    Lives s (if b then s.request x r outq else s) := by
  cases b with
  | true => exact lives_request x r outq s
  | false => exact .of_eq rfl rfl rfl rfl

theorem lives_install (x : EventId) (outq : Option Nat) (s : EvLoop) :
    Lives s (s.install x outq) := by
  have hset := lives_setEvent x { s.events x with evLoop := true } s (fun _ => rfl)
  simp only [install]
  split_ifs
  · exact .of_eq rfl rfl rfl rfl
  · exact hset.trans (lives_request x .del outq _)
  · exact hset

theorem lives_addWork (x : EventId) (s : EvLoop) : Lives s (s.addWork x) := by
  have hset := lives_setEvent x { s.events x with nextWork := true } s id
  simp only [addWork]
  split
  · exact hset
  · exact hset.trans (.of_eq rfl rfl rfl rfl)

theorem lives_regWork (x : EventId) (s : EvLoop) : Lives s (s.regWork x) := by
  by_cases hl : (s.events x).evLoop = true
  · rw [regWork_installed hl]
    exact lives_addWork x s
  · rw [regWork, if_neg hl]
    exact lives_setEvent x _ s id

/-- The end of an event in a step of the loop. -/
structure Ends (x : EventId) (s s' : EvLoop) : Prop where
  before : s.alive x = true
  alive : s'.alive = Function.update s.alive x false
  nextId : s'.nextId = s.nextId
  evLoop : ∀ y, (s.events y).evLoop = true → (s'.events y).evLoop = true
  log : ∃ d : Destruction, d.event = x ∧ s'.log = s.log ++ [d]

/-- A step of the loop destroys one event, or none. -/
def Passes (s s' : EvLoop) : Prop := Lives s s' ∨ ∃ x, Ends x s s'

theorem passes_tick (w : EventId) (outq : Option Nat) (done : Phase) (s : EvLoop) :
    (s.tick w outq done).Split (Passes s) (fun _ => True) := by
  unfold tick
  split
  · next x chain hc =>
    split
    · next ha =>
      split
      · exact .inl (.of_eq rfl rfl rfl rfl)
      · exact .inr ⟨x, ha, rfl, rfl, fun _ => id, _, rfl, rfl⟩
    · trivial
  · have hprepend : Lives s { s with waitOutList := s.renewed ++ s.waitOutList, renewed := [] } :=
      .of_eq rfl rfl rfl rfl
    dsimp only
    split
    · refine .inl (Lives.goto (Lives.trans ?_ (lives_request w (.close true) none _)) done)
      exact .of_eq rfl rfl rfl rfl
    · exact .inl (hprepend.goto done)

theorem passes_next (outAreSent : Bool) (outq : Option Nat) (s : EvLoop) :
    (s.next outAreSent outq).Split (Passes s) (fun _ => True) := by
  have hself : Lives s s := .of_eq rfl rfl rfl rfl
  cases hp : s.phase with
  | work =>
    simp only [next, hp]
    split
    · exact .inl (hself.goto .dels)
    · next x workList hw =>
      split
      · refine .inl (Lives.trans ?_ (lives_setEvent x _ _ id))
        exact .of_eq rfl rfl rfl rfl
      · trivial
  | dels =>
    simp only [next, hp]
    split
    · exact .inl (hself.goto .poll)
    · next x xs hd =>
      split
      · next ha =>
        refine .inr ⟨x, ha, rfl, rfl, fun y hl => ?_, _, rfl, rfl⟩
        exact (setEvent_link (s := s) Event.evLoop { s.events x with nextDel := false } rfl y).trans
          hl
      · trivial
  | poll =>
    simp only [next, hp]
    exact .inl hself
  | batch x mask stage rest =>
    simp only [next, hp]
    split
    · cases stage with
      | want =>
        dsimp only [handle]
        split
        · exact .inl (hself.advance rest)
        · exact .inl (hself.goto _)
      | out => exact .inl ((lives_notify _ x .del outq s).goto _)
      | inp =>
        dsimp only [handle]
        split
        · refine .inl (Lives.goto ?_ _)
          exact .of_eq rfl rfl rfl rfl
        · exact .inl (hself.goto _)
      | tick => exact passes_tick x outq _ s
      | rdHup => exact .inl ((lives_notify _ x .fail outq s).goto _)
      | hup => exact .inl ((lives_notify _ x .fail outq s).goto _)
      | err => exact .inl ((lives_notify _ x .fail outq s).advance rest)
    · trivial

/-- An event that is asked nothing but to expire: at hand, it has no other notification, and it is
not the timer of `wait_out_list`. -/
structure Reserved (w : EventId) (s : EvLoop) : Prop where
  made : w < s.nextId
  kind : s.kind w = .user false
  wait : w ∉ s.waiting
  batch : ∀ mask, (w, mask) ∈ pending s.phase → mask.onlyInp = true
  ticks : ∀ mask rest, s.phase ≠ .batch w mask .tick rest

/-- A step leaves such an event alone, unless it pops it from `del_list`. -/
theorem Reserved.next (h : Reserved w s) (outAreSent : Bool) (outq : Option Nat) :
    (s.next outAreSent outq).Split (fun s' => Aloof w s s' ∨
      (w ∈ s.delList ∧ s'.nextId = s.nextId ∧ s'.kind = s.kind ∧ s'.waiting = s.waiting ∧
        s'.alive w = false)) (fun _ => True) := by
  by_cases hx : s.examined = some w
  · cases hp : s.phase with
    | dels =>
      cases hd : s.delList with
      | nil => simp [examined, hp, hd] at hx
      | cons x xs =>
        obtain rfl : x = w := by simpa [examined, hp, hd] using hx
        cases ha : s.alive x with
        | false =>
          simp only [EvLoop.next, hp, hd, ha]
          trivial
        | true =>
          simp only [EvLoop.next, hp, hd, ha, if_true]
          exact .inr ⟨List.mem_cons_self, rfl, rfl, rfl, by simp [EvLoop.destroy]⟩
    | batch x mask stage rest =>
      have hin : w ∈ s.chain := by
        cases stage with
        | tick => exact List.mem_of_mem_head? (by simpa [examined, hp] using hx)
        | _ => simp [examined, hp] at hx
      exact absurd (by simp [waiting, hin]) h.wait
    | work => simp [examined, hp] at hx
    | poll => simp [examined, hp] at hx
  · by_cases hn : s.atHand = some w
    · cases hp : s.phase with
      | batch x mask stage rest =>
        obtain rfl : x = w := by simpa [atHand, hp] using hn
        have hm := h.batch mask (by simp [pending, hp])
        simp only [Mask.onlyInp, Bool.and_eq_true, Bool.not_eq_true'] at hm
        obtain ⟨⟨⟨ho, hr⟩, hh⟩, he⟩ := hm
        simp only [EvLoop.next, hp]
        split
        · cases stage with
          | want =>
            dsimp only [handle]
            split
            · exact .inl (aloof_advance x rest s)
            · exact .inl (aloof_goto x _ s)
          | out =>
            simp only [handle, ho, Bool.false_and]
            exact .inl (aloof_goto x _ s)
          | inp =>
            dsimp only [handle]
            split
            · next hb => simp [h.kind] at hb
            · exact .inl (aloof_goto x _ s)
          | tick => exact absurd hp (h.ticks mask rest)
          | rdHup =>
            simp only [handle, hr]
            exact .inl (aloof_goto x _ s)
          | hup =>
            simp only [handle, hh]
            exact .inl (aloof_goto x _ s)
          | err =>
            simp only [handle, he]
            exact .inl (aloof_advance x rest s)
        · trivial
      | _ => simp [atHand, hp] at hn
    · exact (aloof_next hn hx outAreSent outq).mono (fun _ h => .inl h) (fun _ _ => trivial)

/-- A timer that is at work. -/
structure Clean (w : EventId) (s : EvLoop) : Prop where
  alive : s.alive w = true
  evLoop : (s.events w).evLoop = true
  wantCloseFd : (s.events w).wantCloseFd = false
  hasError : (s.events w).hasError = false
  nextDel : (s.events w).nextDel = false
  del : w ∉ s.delList

/-- A timer that has been asked to go. -/
structure Gone (w : EventId) (s : EvLoop) : Prop where
  marked : Marked w s
  nextDel : s.alive w = true → (s.events w).nextDel = true

/-- What a step keeps of a timer. -/
structure Leaves (w : EventId) (s s' : EvLoop) : Prop where
  reserved : Reserved w s → Reserved w s'
  clean : Clean w s → Clean w s'
  gone : Gone w s → Gone w s'

theorem Reserved.paced (h : Reserved w s) (hm : w < s'.nextId) (hk : s'.kind w = s.kind w)
    (hw : w ∈ s'.waiting → w ∈ s.waiting) (hp : Paced s s') : Reserved w s' where
  made := hm
  kind := hk.trans h.kind
  wait := fun hi => h.wait (hw hi)
  batch := fun mask hi => h.batch mask (hp.pending _ hi)
  ticks := by
    intro mask rest he
    obtain ht | ht := hp.ticks w mask rest he
    · exact h.ticks mask rest ht
    · rw [h.kind] at ht
      cases ht

theorem Clean.aloof (h : Clean w s) (hw : w < s.nextId) (ha : Aloof w s s') : Clean w s' := by
  have hs := ha.same (.inl hw)
  obtain ⟨work, later, he⟩ := hs.event
  exact {
    alive := hs.alive.trans h.alive
    evLoop := by rw [he]; exact h.evLoop
    wantCloseFd := by rw [he]; exact h.wantCloseFd
    hasError := by rw [he]; exact h.hasError
    nextDel := by rw [he]; exact h.nextDel
    del := fun hd => h.del (hs.del hd) }

theorem Gone.aloof (h : Gone w s) (hw : w < s.nextId) (ha : Aloof w s s') (hf : Filing s s') :
    Gone w s' := by
  have hs := ha.same (.inl hw)
  obtain ⟨work, later, he⟩ := hs.event
  refine ⟨hf.marked w h.marked, fun hl => ?_⟩
  rw [he]
  exact h.nextDel (hs.alive ▸ hl)

theorem leaves_aloof (hw : w < s.nextId) (ha : Aloof w s s') (hf : Filing s s')
    (hp : Paced s s') : Leaves w s s' := by
  have hs := ha.same (.inl hw)
  refine ⟨fun h => ?_, fun h => h.aloof hw ha, fun h => h.aloof hw ha hf⟩
  exact h.paced (Nat.lt_of_lt_of_le hw ha.nextId) hs.kind hs.wait hp

theorem Reserved.leaves_next (h : Reserved w s) (outAreSent : Bool) (outq : Option Nat) :
    (s.next outAreSent outq).Split (Leaves w s) (fun _ => True) := by
  have hstep := (h.next outAreSent outq).and
    ((paced_next outAreSent outq s).and (filing_next outAreSent outq s))
  refine hstep.mono ?_ (fun _ _ => trivial)
  rintro s' ⟨ha | ⟨hd, hn, hk, hw, hdead⟩, hp, hf⟩
  · exact leaves_aloof h.made ha hf hp
  · refine ⟨fun _ => ?_, fun hc => absurd hd hc.del, fun hg => ⟨hf.marked w hg.marked, ?_⟩⟩
    · exact h.paced (hn ▸ h.made) (by rw [hk]) (by rw [hw]; exact id) hp
    · intro hl
      rw [hdead] at hl
      cases hl

/-- `add_event_obj` of an event that has just been made -/
theorem create_install (k : Kind) (fd : Int) (needWait : Bool) (outq : Option Nat) (s : EvLoop) :
    (s.create k (Event.new fd needWait)).install s.nextId outq =
      s.create k { Event.new fd needWait with evLoop := true } := by
  simp [install, EvLoop.create, Event.new, setEvent]

theorem install_installed (x : EventId) (outq : Option Nat) (s : EvLoop) :
    ((s.install x outq).events x).evLoop = true := by
  simp only [install]
  split_ifs with hl
  · exact hl
  · exact (staying_request x .del outq _).evLoop x (by simp [setEvent])
  · simp [setEvent]

theorem aloof_install (hne : x ≠ y) (outq : Option Nat) (s : EvLoop) :
    Aloof x s (s.install y outq) := by
  have hset := aloof_setEvent hne { s.events y with evLoop := true } s
  simp only [install]
  split_ifs
  · exact .refl x s
  · exact hset.trans (aloof_request hne .del outq _)
  · exact hset

theorem Manned.reserved_new (h : Manned s) (e : Event) :
    Reserved s.nextId (s.create (.user false) e) where
  made := Nat.lt_succ_self _
  kind := by simp [EvLoop.create]
  wait := fun hw => Nat.lt_irrefl _ (h.old _ (.inr hw))
  batch := fun _ hm => absurd (h.batch _ hm).1 (Nat.lt_irrefl _)
  ticks := by
    intro mask rest hp
    have hp : s.phase = .batch s.nextId mask .tick rest := hp
    exact Nat.lt_irrefl _ (h.batch (s.nextId, mask) (by simp [pending, hp])).1

theorem Manned.clean_new (h : Manned s) (k : Kind) (fd : Int) (needWait : Bool) :
    Clean s.nextId (s.create k { Event.new fd needWait with evLoop := true }) where
  alive := by simp [EvLoop.create]
  evLoop := by simp [EvLoop.create]
  wantCloseFd := by simp [EvLoop.create, Event.new]
  hasError := by simp [EvLoop.create, Event.new]
  nextDel := by simp [EvLoop.create, Event.new]
  del := fun hd => Nat.lt_irrefl _ (h.old _ (.inl hd))

/-- A step of the loop, or of user code that has no way to the timers `ts`. -/
structure Carries (ts : EventId → Prop) (s s' : EvLoop) : Prop where
  guarded : Guarded s'
  passes : Passes s s'
  leaves : ∀ w, ts w → Leaves w s s'

end Evel.EvLoop
