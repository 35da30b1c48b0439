import Evel.Model.WaitOut
import Evel.Proofs.CiList

namespace Evel.WaitOut
open General CiList

/-- The lists through `next_wait_out`, and what is left of the chain that has been disconnected. -/
structure Threads (back renewed rest : List EventId) (h : Heap Waits EventId)
    (alive : EventId → Bool) (q : Queues Waits EventId) : Prop where
  refines : Refines h q
  usable : ∀ l, l ∉ q.gone
  waitOutList : q.queue .waitOutList = back
  nWaitOutList : q.queue .nWaitOutList = renewed
  loose : ∀ x ∈ q.loose, x ∈ rest ∨ alive x = false
  linked : ∀ x ∈ rest, x ∈ q.loose
  chain : Looped h.next rest

namespace Threads
variable {back renewed rest : List EventId} {h : Heap Waits EventId} {alive : EventId → Bool}
  {q : Queues Waits EventId} {x : EventId}

/-- A destructor pushes an event that is in neither `n_wait_out_list` nor the chain. -/
theorem push (ht : Threads back renewed rest h alive q) (ha : alive x = true) (hn : x ∉ renewed)
    (hx : x ∉ rest) : Threads (enqueue back x) renewed rest (h.pushBack .waitOutList x) alive
      (q.push .waitOutList x) := by
  have hloose : x ∉ q.loose := by
    intro hl
    obtain hr | hd := ht.loose x hl
    · exact hx hr
    · rw [ha] at hd
      cases hd
  refine ⟨ht.refines.pushBack (ht.usable _) hloose, fun l => ?_, ?_, ?_, fun y hy => ?_,
    fun y hy => ?_, ?_⟩
  · rw [Queues.push_gone]
    exact ht.usable l
  · rw [Queues.push_enqueue, ht.waitOutList]
    intro l hl
    cases l with
    | waitOutList => rfl
    | nWaitOutList =>
      rw [ht.nWaitOutList] at hl
      exact absurd hl hn
  · rw [Queues.push_of_ne (by decide), ht.nWaitOutList]
  · rw [Queues.push_loose] at hy
    exact ht.loose y hy
  · rw [Queues.push_loose]
    exact ht.linked y hy
  · exact ht.chain.congr fun y hy => ht.refines.pushBack_loose (ht.usable _) hloose (ht.linked y hy)

/-- The first event of the chain is pushed to `n_wait_out_list`. -/
theorem renew (ht : Threads back renewed (x :: rest) h alive q) (hx : x ∉ rest) :
    Threads back (renewed ++ [x]) rest ((h.setNext x none).pushBack .nWaitOutList x) alive
      ((q.reset x).push .nWaitOutList x) := by
  have hxl := ht.linked x List.mem_cons_self
  have hreset := ht.refines.reset hxl
  have hloose : x ∉ (q.reset x).loose := fun hl => hl.2 rfl
  have hm : ¬ (q.reset x).Member x := ht.refines.apart.loose x hxl
  have hrest : ∀ y ∈ rest, y ∈ (q.reset x).loose := by
    intro y hy
    refine ⟨ht.linked y (List.mem_cons_of_mem x hy), ?_⟩
    rintro rfl
    exact hx hy
  refine ⟨hreset.pushBack (ht.usable _) hloose, fun l => ?_, ?_, ?_, fun y hy => ?_,
    fun y hy => ?_, ?_⟩
  · rw [Queues.push_gone]
    exact ht.usable l
  · rw [Queues.push_of_ne (by decide)]
    exact ht.waitOutList
  · rw [Queues.push_self hm]
    exact congrArg (· ++ [x]) ht.nWaitOutList
  · rw [Queues.push_loose] at hy
    obtain hr | hd := ht.loose y hy.1
    · exact .inl ((List.mem_cons.mp hr).resolve_left hy.2)
    · exact .inr hd
  · rw [Queues.push_loose]
    exact hrest y hy
  · refine ht.chain.tail.congr fun y hy => ?_
    rw [hreset.pushBack_loose (ht.usable _) hloose (hrest y hy)]
    refine Function.update_of_ne ?_ _ _
    rintro rfl
    exact hx hy

/-- The first event of the chain is destroyed. Its link is not read again. -/
theorem kill (ht : Threads back renewed (x :: rest) h alive q) :
    Threads back renewed rest h (Function.update alive x false) q := by
  refine ⟨ht.refines, ht.usable, ht.waitOutList, ht.nWaitOutList, fun y hy => ?_,
    fun y hy => ht.linked y (List.mem_cons_of_mem x hy), ht.chain.tail⟩
  by_cases hyx : y = x
  · subst hyx
    exact .inr (Function.update_self y false alive)
  · rw [Function.update_of_ne hyx]
    exact (ht.loose y hy).imp_left fun hr => (List.mem_cons.mp hr).resolve_left hyx

end Threads

/-- What the loop in `timeout` reads of an event. -/
structure Same (e e' : Event) : Prop where
  fd : e'.fd = e.fd
  evLoop : e'.evLoop = e.evLoop
  hasError : e'.hasError = e.hasError
  wantCloseFd : e'.wantCloseFd = e.wantCloseFd

namespace Same
variable {e e' : Event}

theorem register (h : Same e e') (t : Event.DelTarget) : Same e (e'.register t) := by
  cases t <;> exact ⟨h.fd, h.evLoop, h.hasError, h.wantCloseFd⟩

theorem delTarget (h : Same e e') (m : Bool) (outq : Option Nat) :
    e'.delTarget m outq = e.delTarget m outq := by
  simp only [Event.delTarget, h.fd, h.evLoop, h.hasError]

theorem pendingOut (h : Same e e') (outq : Option Nat) :
    EvLoop.pendingOut outq e' = EvLoop.pendingOut outq e := by
  simp only [EvLoop.pendingOut, h.fd]

end Same

/-- `del_list` -/
structure Registered (h : Heap Unit EventId) (alive : EventId → Bool) (q : Queues Unit EventId) :
    Prop where
  refines : Refines h q
  usable : () ∉ q.gone
  loose : ∀ x ∈ q.loose, alive x = false

theorem Registered.push {h : Heap Unit EventId} {alive : EventId → Bool} {q : Queues Unit EventId}
    (hq : Registered h alive q) (ha : alive x = true) :
    Registered (h.pushBack () x) alive (q.push () x) ∧ x ∈ (q.push () x).queue () := by
  have hloose : x ∉ q.loose := by
    intro hl
    have hdead := hq.loose x hl
    rw [ha] at hdead
    cases hdead
  refine ⟨⟨hq.refines.pushBack hq.usable hloose, ?_, fun y hy => ?_⟩, ?_⟩
  · rw [Queues.push_gone]
    exact hq.usable
  · rw [Queues.push_loose] at hy
    exact hq.loose y hy
  · by_cases hm : q.Member x
    · rw [Queues.push_member hm]
      exact hm.choose_spec
    · exact (Queues.mem_push hm).mpr (.inr ⟨rfl, rfl⟩)

/-- What a call of `del` adds to `wait_out_list`. -/
def pushing (s₀ : WaitOut) (back : List EventId) (d : Del) : List EventId :=
  if (s₀.events d.event).delTarget (s₀.mayHaveOut d.event) d.outq = .waitOutList
  then enqueue back d.event else back

/-- The loop in `timeout` has come to the events of `rest`: from the state `s₀` it has destroyed
those of `dead`, pushed those of `renewed` to `n_wait_out_list`, and the destructors have pushed
those of `back`. -/
structure Walking (s₀ : WaitOut) (w : EventId) (back renewed rest dead : List EventId)
    (s : WaitOut) : Prop where
  events : ∀ x, Same (s₀.events x) (s.events x)
  mayHaveOut : s.mayHaveOut = s₀.mayHaveOut
  alive : ∀ x, s.alive x = true ↔ s₀.alive x = true ∧ x ∉ dead
  destroyed : s.destroyed = s₀.destroyed ++ dead
  timer : s.waitOutTimer = some w
  waits : ∃ q, Threads back renewed rest s.waits s.alive q
  dels : ∃ q, Registered s.dels s.alive q

namespace Walking
variable {s₀ s : WaitOut} {w : EventId} {back renewed rest dead : List EventId}

theorem setEvent (hW : Walking s₀ w back renewed rest dead s) (x : EventId) (t : Event.DelTarget) :
    Walking s₀ w back renewed rest dead (s.setEvent x ((s.events x).register t)) := by
  refine ⟨fun y => ?_, hW.mayHaveOut, hW.alive, hW.destroyed, hW.timer, hW.waits, hW.dels⟩
  by_cases hyx : y = x
  · subst hyx
    simpa [WaitOut.setEvent] using (hW.events y).register t
  · simpa [WaitOut.setEvent, hyx] using hW.events y

/-- The timer is there, so that `check_wait_out` does nothing. -/
theorem check (hW : Walking s₀ w back renewed rest dead s) :
    Walking s₀ w back renewed rest dead s.checkWaitOut := by
  have hcheck : s.checkWaitOut = s := by simp only [checkWaitOut, hW.timer]
  rwa [hcheck]

/-- A call of `del` on an event that is not at stake. -/
theorem del (hW : Walking s₀ w back renewed rest dead s) {d : Del}
    (ha : s₀.alive d.event = true) (hd : d.event ∉ dead) (hn : d.event ∉ renewed)
    (hr : d.event ∉ rest) :
    (s.del d).Returns (Walking s₀ w (pushing s₀ back d) renewed rest dead) := by
  have halive := (hW.alive d.event).mpr ⟨ha, hd⟩
  have htarget : (s.events d.event).delTarget (s.mayHaveOut d.event) d.outq =
      (s₀.events d.event).delTarget (s₀.mayHaveOut d.event) d.outq := by
    rw [(hW.events d.event).delTarget, hW.mayHaveOut]
  simp only [WaitOut.del, if_pos halive, htarget, pushing]
  have hset := hW.setEvent d.event
  cases (s₀.events d.event).delTarget (s₀.mayHaveOut d.event) d.outq with
  | waitOutList =>
    have h := hset .waitOutList
    obtain ⟨q, hq⟩ := h.waits
    rw [if_pos rfl]
    exact Walking.check
      ⟨h.events, h.mayHaveOut, h.alive, h.destroyed, h.timer, ⟨_, hq.push halive hn hr⟩, h.dels⟩
  | delList =>
    have h := hset .delList
    obtain ⟨q, hq⟩ := h.dels
    simp only [reduceCtorEq, if_false]
    exact ⟨h.events, h.mayHaveOut, h.alive, h.destroyed, h.timer, h.waits, ⟨_, (hq.push halive).1⟩⟩
  | delOnInstall =>
    simp only [reduceCtorEq, if_false]
    exact hset .delOnInstall

theorem destructor (hW : Walking s₀ w back renewed rest dead s) (ds : List Del)
    (hds : ∀ d ∈ ds, s₀.alive d.event = true ∧ d.event ∉ dead ∧ d.event ∉ renewed ∧
      d.event ∉ rest) :
    (s.destructor ds).Returns (Walking s₀ w (ds.foldl (pushing s₀) back) renewed rest dead) := by
  induction ds generalizing back s with
  | nil => exact hW
  | cons d ds ih =>
    obtain ⟨ha, hd, hn, hr⟩ := hds d List.mem_cons_self
    rw [WaitOut.destructor, Exec.returns_andThen]
    exact (hW.del ha hd hn hr).mono fun _ h =>
      ih h fun d' hd' => hds d' (List.mem_cons_of_mem d hd')

end Walking

/-- The calls of `del` in the destructors of the events that do not stay. -/
def destructorDels (r : EventId → Reaction) (events : EventId → Event) (l : List EventId) :
    List Del :=
  (l.filter fun x => !stays r events x).flatMap fun x => (r x).dels

/-- The events `l` have had their turns. -/
def Walked (s₀ : WaitOut) (w : EventId) (r : EventId → Reaction)
    (back renewed rest dead l : List EventId) (s : WaitOut) : Prop :=
  Walking s₀ w ((destructorDels r s₀.events l).foldl (pushing s₀) back)
    (renewed ++ l.filter (stays r s₀.events)) rest
    (dead ++ l.filter fun x => !stays r s₀.events x) s

namespace Walking
variable {s₀ s : WaitOut} {w : EventId} {back renewed rest dead l : List EventId}
  {r : EventId → Reaction}

/-- What is not in the list is not at stake. -/
theorem outside (hl : ∀ y ∈ dead ++ renewed ++ rest, y ∈ l) (h : s₀.alive y = true ∧ y ∉ l) :
    s₀.alive y = true ∧ y ∉ dead ∧ y ∉ renewed ∧ y ∉ rest :=
  ⟨h.1, fun hy => h.2 (hl y (by simp [hy])), fun hy => h.2 (hl y (by simp [hy])),
    fun hy => h.2 (hl y (by simp [hy]))⟩

/-- One turn: the event stays and is pushed to `n_wait_out_list`, or it is destroyed. -/
theorem turn (hW : Walking s₀ w back renewed (x :: rest) dead s) (hx : x ∉ rest)
    (hds : ∀ d ∈ (r x).dels, s₀.alive d.event = true ∧ d.event ∉ dead ∧ d.event ∉ renewed ∧
      d.event ∉ x :: rest) :
    (s.turn r x).Returns (Walked s₀ w r back renewed rest dead [x]) := by
  have hstays : stays r s.events x = stays r s₀.events x := by
    rw [stays, (hW.events x).pendingOut]
    rfl
  rw [WaitOut.turn, hstays]
  by_cases hs : stays r s₀.events x = true
  · rw [if_pos hs]
    obtain ⟨q, hq⟩ := hW.waits
    have h : Walking s₀ w back (renewed ++ [x]) rest dead
        { s with waits := (s.waits.setNext x none).pushBack .nWaitOutList x } :=
      ⟨hW.events, hW.mayHaveOut, hW.alive, hW.destroyed, hW.timer, ⟨_, hq.renew hx⟩, hW.dels⟩
    simpa [Walked, destructorDels, hs] using h
  · rw [if_neg hs, delete, Exec.returns_map]
    refine (hW.destructor _ hds).mono fun s' h => ?_
    obtain ⟨q, hq⟩ := h.waits
    obtain ⟨q', hq'⟩ := h.dels
    have hkill : Walking s₀ w ((r x).dels.foldl (pushing s₀) back) renewed rest (dead ++ [x])
        { s' with
          alive := Function.update s'.alive x false
          destroyed := s'.destroyed ++ [x] } := by
      refine ⟨h.events, h.mayHaveOut, fun y => ?_, ?_, h.timer, ⟨q, hq.kill⟩,
        ⟨q', hq'.refines, hq'.usable, fun y hy => ?_⟩⟩
      · by_cases hyx : y = x
        · simp [hyx]
        · simpa [hyx] using h.alive y
      · rw [h.destroyed, List.append_assoc]
      · by_cases hyx : y = x
        · simp [hyx]
        · simpa [hyx] using hq'.loose y hy
    simpa [Walked, destructorDels, hs] using hkill

theorem Walked.append (h : Walked s₀ w r ((destructorDels r s₀.events l).foldl (pushing s₀) back)
    (renewed ++ l.filter (stays r s₀.events)) rest
    (dead ++ l.filter fun x => !stays r s₀.events x) l' s) :
    Walked s₀ w r back renewed rest dead (l ++ l') s := by
  simpa only [Walked, destructorDels, List.filter_append, List.flatMap_append, List.foldl_append,
    List.append_assoc] using h

/-- The next turn is that of the next event of the chain. -/
theorem walk_cons (hW : Walking s₀ w back renewed (x :: rest) dead s)
    (hx : s₀.alive x = true ∧ x ∉ dead) (n : Nat) :
    s.walk r (n + 1) (some x) = (s.turn r x).andThen fun s' =>
      if s.waits.next x = some x then .ret s' else WaitOut.walk r n (s.waits.next x) s' := by
  rw [WaitOut.walk, if_pos ((hW.alive x).mpr hx)]

/-- The loop comes to the end of the chain. -/
theorem walk (hW : Walking s₀ w back renewed (x :: rest) dead s) (hd : (x :: rest).Nodup)
    (hlive : ∀ y ∈ x :: rest, s₀.alive y = true ∧ y ∉ dead)
    (hl : ∀ y ∈ dead ++ renewed ++ x :: rest, y ∈ l)
    (hds : ∀ y ∈ l, ∀ d ∈ (r y).dels, s₀.alive d.event = true ∧ d.event ∉ l)
    (hn : (x :: rest).length ≤ n) :
    (s.walk r n (some x)).Returns (Walked s₀ w r back renewed [] dead (x :: rest)) := by
  induction rest generalizing x n s back renewed dead with
  | nil =>
    obtain ⟨n, rfl⟩ := Nat.exists_eq_add_of_le' (show 1 ≤ n from hn)
    obtain ⟨q, hq⟩ := hW.waits
    have hself := Looped.singleton_iff.mp hq.chain
    rw [hW.walk_cons (hlive x List.mem_cons_self), Exec.returns_andThen]
    refine (hW.turn List.not_mem_nil ?_).mono fun s' h => ?_
    · exact fun d hdel => outside hl (hds x (hl x (by simp)) d hdel)
    · rw [if_pos hself]
      exact h
  | cons y rest ih =>
    obtain ⟨n, rfl⟩ := Nat.exists_eq_add_of_le' (Nat.one_le_of_lt hn)
    obtain ⟨q, hq⟩ := hW.waits
    obtain ⟨hnext, -⟩ := Looped.cons_cons_iff.mp hq.chain
    obtain ⟨hx, hd'⟩ := List.nodup_cons.mp hd
    have hyx : y ≠ x := fun he => hx (by simp [he])
    rw [hW.walk_cons (hlive x List.mem_cons_self), Exec.returns_andThen]
    refine (hW.turn hx ?_).mono fun s' h => ?_
    · exact fun d hdel => outside hl (hds x (hl x (by simp)) d hdel)
    · rw [hnext, if_neg (fun he => hyx (Option.some.inj he))]
      refine (ih h hd' (fun z hz => ?_) (fun z hz => hl z ?_) ?_).mono
        fun s'' h' => Walked.append h'
      · obtain ⟨halive, hdead⟩ := hlive z (List.mem_cons_of_mem x hz)
        refine ⟨halive, fun hm => ?_⟩
        obtain hm | hm := List.mem_append.mp hm
        · exact hdead hm
        · obtain rfl := List.mem_singleton.mp (List.mem_of_mem_filter hm)
          exact hx hz
      · simp only [List.mem_append, List.mem_filter, List.mem_cons, List.not_mem_nil,
          or_false] at hz ⊢
        tauto
      · exact Nat.le_of_succ_le_succ hn

end Walking

/-- Between two calls of `timeout`: the events of `wait_out_list`, which are not destroyed. -/
structure Holds (s : WaitOut) (l : List EventId) : Prop where
  waits : ∃ q : Queues Waits EventId, Refines s.waits q ∧ .waitOutList ∉ q.gone ∧
    q.queue .waitOutList = l ∧ q.queue .nWaitOutList = [] ∧ ∀ x ∈ q.loose, s.alive x = false
  dels : ∃ q, Registered s.dels s.alive q
  live : ∀ x ∈ l, s.alive x = true

/-- The loop of events runs `timeout` of a timer that it has installed and that is not closed. -/
structure Installed (s : WaitOut) (w : EventId) : Prop where
  timer : s.waitOutTimer = some w
  alive : s.alive w = true
  evLoop : (s.events w).evLoop = true
  mayHaveOut : s.mayHaveOut w = false
  wantCloseFd : (s.events w).wantCloseFd = false

/-- The timer goes to `del_list`, whatever its descriptor. -/
theorem closeFd_timer {s : WaitOut} (ha : s.alive w = true) (he : (s.events w).evLoop = true)
    (hm : s.mayHaveOut w = false) (hc : (s.events w).wantCloseFd = false) :
    ∃ events, s.closeFd w = .ret { s with events := events, dels := s.dels.pushBack () w } := by
  have hflags : ((s.events w).closeFdFlags true).2 = true ∧
      ((s.events w).closeFdFlags true).1.evLoop = true := by
    rw [Event.closeFdFlags]
    split
    · exact ⟨rfl, he⟩
    · rw [hc, if_neg Bool.false_ne_true]
      exact ⟨rfl, he⟩
  have htarget : ((s.events w).closeFdFlags true).1.delTarget false none = .delList := by
    simp [Event.delTarget, hflags.2]
  refine ⟨((s.setEvent w ((s.events w).closeFdFlags true).1).setEvent w
    (((s.events w).closeFdFlags true).1.register .delList)).events, ?_⟩
  simp only [closeFd, hflags.1, if_true, WaitOut.del, WaitOut.setEvent, ha, hm,
    Function.update_self, htarget]

namespace Walking
variable {s₀ s : WaitOut} {w : EventId} {back renewed dead : List EventId}

/-- `n_wait_out_list` comes before what has been pushed meanwhile. -/
theorem finish (hW : Walking s₀ w back renewed [] dead s) (hw : Installed s₀ w) (hd : w ∉ dead) :
    (s.finish w).Returns fun s' =>
      (∃ q : Queues Waits EventId, Refines s'.waits q ∧ .waitOutList ∉ q.gone ∧
        q.queue .waitOutList = renewed ++ back ∧ q.queue .nWaitOutList = [] ∧
        ∀ x ∈ q.loose, s'.alive x = false) ∧
      s'.alive = s.alive ∧ s'.destroyed = s.destroyed ∧
      ∃ q, Registered s'.dels s'.alive q ∧
        if renewed ++ back = [] then s'.waitOutTimer = none ∧ w ∈ q.queue ()
        else s'.waitOutTimer = some w := by
  obtain ⟨q, hq⟩ := hW.waits
  obtain ⟨q', hq'⟩ := hW.dels
  have hne : Waits.nWaitOutList ≠ .waitOutList := by decide
  obtain ⟨h, hret, hr⟩ := (hq.refines.prepend hne (hq.usable _) (hq.usable _)).exists
  have hqueue : (q.prepend .waitOutList .nWaitOutList).queue .waitOutList = renewed ++ back := by
    rw [Queues.prepend_queue, if_neg hne.symm, if_pos rfl, hq.nWaitOutList, hq.waitOutList]
  have hgone : Waits.waitOutList ∉ (q.prepend .waitOutList .nWaitOutList).gone := by
    rw [Queues.prepend_gone, Set.mem_insert_iff, not_or]
    exact ⟨hne.symm, hq.usable _⟩
  have hloose : ∀ x ∈ (q.prepend .waitOutList .nWaitOutList).loose, s.alive x = false :=
    fun x hx => (hq.loose x hx).resolve_left List.not_mem_nil
  have hlists : ∃ q : Queues Waits EventId, Refines h q ∧ .waitOutList ∉ q.gone ∧
      q.queue .waitOutList = renewed ++ back ∧ q.queue .nWaitOutList = [] ∧
      ∀ x ∈ q.loose, s.alive x = false :=
    ⟨_, hr, hgone, hqueue, by rw [Queues.prepend_queue, if_pos rfl], hloose⟩
  have hempty : h.empty .waitOutList = (renewed ++ back).isEmpty := by
    rw [hr.empty hgone, hqueue]
  simp only [WaitOut.finish, hret, Exec.map, Exec.andThen, hempty, List.isEmpty_iff]
  by_cases hnil : renewed ++ back = []
  · have halive := (hW.alive w).mpr ⟨hw.alive, hd⟩
    obtain ⟨events, he⟩ := closeFd_timer (s := { s with waits := h, waitOutTimer := none }) halive
      ((hW.events w).evLoop.trans hw.evLoop) ((congrFun hW.mayHaveOut w).trans hw.mayHaveOut)
      ((hW.events w).wantCloseFd.trans hw.wantCloseFd)
    rw [if_pos hnil, he]
    obtain ⟨hpush, hmem⟩ := hq'.push halive
    simp only [if_pos hnil]
    exact ⟨hlists, rfl, rfl, _, hpush, rfl, hmem⟩
  · rw [if_neg hnil]
    simp only [if_neg hnil]
    exact ⟨hlists, rfl, rfl, q', hq', hW.timer⟩

end Walking

theorem mem_pushing {s₀ : WaitOut} {ds : List Del} {back : List EventId}
    (hx : x ∈ ds.foldl (pushing s₀) back) : x ∈ back ∨ ∃ d ∈ ds, d.event = x := by
  induction ds generalizing back with
  | nil => exact .inl hx
  | cons d ds ih =>
    obtain hx | ⟨d', hd', rfl⟩ := ih hx
    · rw [pushing] at hx
      split at hx
      · rw [enqueue] at hx
        split at hx
        · exact .inl hx
        · obtain hx | hx := List.mem_append.mp hx
          · exact .inl hx
          · exact .inr ⟨d, List.mem_cons_self, (List.mem_singleton.mp hx).symm⟩
      · exact .inl hx
    · exact .inr ⟨d', List.mem_cons_of_mem d hd', rfl⟩

/-- The events that destructors push to `wait_out_list`, in the order of the calls. -/
def pushedMeanwhile (r : EventId → Reaction) (s : WaitOut) (l : List EventId) : List EventId :=
  (destructorDels r s.events l).foldl (pushing s) []

/-- The chain is disconnected, and `n_wait_out_list` is made. -/
theorem Holds.walking {s : WaitOut} (hs : s.Holds l) (ht : s.waitOutTimer = some w) :
    (s.waits.disconnect .waitOutList).2 = l.head? ∧ Walking s w [] [] l []
      { s with waits := (s.waits.disconnect .waitOutList).1.setList .nWaitOutList CiList.new } := by
  obtain ⟨q, hr, hgone, hqueue, hnew, hloose⟩ := hs.waits
  obtain ⟨hdis, hhead⟩ := hr.disconnect hgone
  have hempty : (q.disconnect .waitOutList).queue .nWaitOutList = [] := by
    rw [Queues.disconnect_of_ne (by decide), hnew]
  refine ⟨by rw [hhead, hqueue], fun x => ⟨rfl, rfl, rfl, rfl⟩, rfl, fun x => by simp, by simp, ht,
    ⟨_, hdis.construct hempty, fun l' => ?_, Queues.disconnect_self, hempty, fun x hx => ?_,
      fun x hx => ?_, ?_⟩, hs.dels⟩
  · intro hl'
    cases l' with
    | waitOutList => exact hgone hl'.1
    | nWaitOutList => exact hl'.2 rfl
  · obtain hx | hx := hx
    · exact .inr (hloose x hx)
    · exact .inl (hqueue ▸ hx)
  · exact .inr (hqueue ▸ hx)
  · rw [← hqueue]
    exact hr.looped .waitOutList

/-- The events whose output is sent are destroyed. The others stay, before those that are pushed
meanwhile, and if there are none the timer goes. -/
theorem timeout_ticks {s : WaitOut} {l : List EventId} {w : EventId} {r : EventId → Reaction}
    (hs : s.Holds l) (hl : l ≠ []) (hw : s.Installed w) (hwl : w ∉ l)
    (hds : ∀ x ∈ l, ∀ d ∈ (r x).dels, s.alive d.event = true ∧ d.event ∉ l)
    (hn : l.length ≤ fuel) :
    (s.timeout r w fuel).Returns fun s' =>
      let l' := l.filter (stays r s.events) ++ pushedMeanwhile r s l
      s'.destroyed = s.destroyed ++ (l.filter fun x => !stays r s.events x) ∧ l.Nodup ∧
        s'.Holds l' ∧ (s'.waitOutTimer = none ↔ l' = []) ∧
        (s'.waitOutTimer = none → ∃ q, Refines s'.dels q ∧ w ∈ q.queue ()) := by
  obtain ⟨hhead, hW⟩ := hs.walking hw.timer
  have hd : l.Nodup := by
    obtain ⟨q, hr, -, hqueue, -⟩ := hs.waits
    exact hqueue ▸ hr.apart.nodup .waitOutList
  obtain ⟨x, rest, rfl⟩ := List.exists_cons_of_ne_nil hl
  simp only [timeout, hhead, List.head?_cons, Option.isSome_some, if_true, Exec.returns_andThen]
  refine (hW.walk hd (fun y hy => ⟨hs.live y hy, List.not_mem_nil⟩) (fun y hy => by simpa using hy)
    hds hn).mono fun s₁ h₁ => ?_
  simp only [Walked, List.nil_append] at h₁
  refine (h₁.finish hw (fun hm => hwl (List.mem_of_mem_filter hm))).mono fun s₂ h₂ => ?_
  obtain ⟨hwaits, halive, hdestroyed, q, hq, htimer⟩ := h₂
  have hlive : ∀ y ∈ (x :: rest).filter (stays r s.events) ++ pushedMeanwhile r s (x :: rest),
      s₂.alive y = true := by
    intro y hy
    rw [halive, h₁.alive]
    obtain hy | hy := List.mem_append.mp hy
    · obtain ⟨hmem, hstays⟩ := List.mem_filter.mp hy
      refine ⟨hs.live y hmem, fun hdead => ?_⟩
      simp [hstays] at hdead
    · obtain hnil | ⟨d, hdel, rfl⟩ := mem_pushing hy
      · cases hnil
      · obtain ⟨z, hz, hdel⟩ := List.mem_flatMap.mp hdel
        obtain ⟨hlived, hout⟩ := hds z (List.mem_of_mem_filter hz) d hdel
        exact ⟨hlived, fun hdead => hout (List.mem_of_mem_filter hdead)⟩
  refine ⟨hdestroyed.trans h₁.destroyed, hd, ⟨hwaits, ⟨q, hq⟩, hlive⟩, ?_, fun hnone => ?_⟩
  · split at htimer
    · next hnil => exact iff_of_true htimer.1 hnil
    · next hne => exact iff_of_false (by simp [htimer]) hne
  · split at htimer
    · exact ⟨q, hq.refines, htimer.2⟩
    · simp [htimer] at hnone

/-- Two events wait for their output, and 9 is the timer. -/
def two : WaitOut :=
  { events := fun _ => { Event.new 7 true with evLoop := true }
    mayHaveOut := fun x => x ≠ 9
    alive := fun _ => true
    nextId := 10
    waits := (CiList.Machine.new.heap.pushBack .waitOutList 1).pushBack .waitOutList 2
    dels := CiList.Machine.new.heap
    waitOutTimer := some 9
    destroyed := [] }

/-- The first event is sent, and its destructor calls `del` on the event 5. -/
def firstSent (x : EventId) : Reaction := if x = 1 then ⟨some 0, [⟨5, some 3⟩]⟩ else ⟨some 4, []⟩

theorem holds_two : two.Holds [1, 2] := by
  have hnew := (Machine.follows_new (ι := Waits) (α := EventId)).2
  have hfirst := hnew.pushBack (l := .waitOutList) (x := 1) (by simp [Spec.new])
    (by simp [Spec.new])
  have hboth := hfirst.pushBack (l := .waitOutList) (x := 2) (by simp [Spec.new])
    (by simp [Spec.new])
  have hempty (x : EventId) : ¬ (Spec.new : Spec Waits EventId).queues.Member x := by
    simp [Queues.Member, Spec.new]
  refine ⟨⟨_, hboth, by simp [Spec.new], ?_, ?_, by simp [Spec.new]⟩,
    ⟨_, (Machine.follows_new (ι := Unit) (α := EventId)).2, by simp [Spec.new], by simp [Spec.new]⟩,
    fun _ _ => rfl⟩
  · rw [Queues.push_self (by simp [Queues.member_push, hempty]), Queues.push_self (hempty 1)]
    rfl
  · simp [Queues.push_of_ne, Spec.new]

theorem timeout_ticks_two : (two.timeout firstSent 9 2).Returns fun s' =>
    let l' := [1, 2].filter (stays firstSent two.events) ++ pushedMeanwhile firstSent two [1, 2]
    s'.destroyed = two.destroyed ++ ([1, 2].filter fun x => !stays firstSent two.events x) ∧
      [1, 2].Nodup ∧ s'.Holds l' ∧ (s'.waitOutTimer = none ↔ l' = []) ∧
      (s'.waitOutTimer = none → ∃ q, Refines s'.dels q ∧ 9 ∈ q.queue ()) :=
  timeout_ticks holds_two (by simp) ⟨rfl, rfl, rfl, rfl, rfl⟩ (by simp) (by
    intro x hx d hd
    refine ⟨rfl, ?_⟩
    obtain rfl | rfl : x = 1 ∨ x = 2 := by simpa using hx
    · obtain rfl : d = ⟨5, some 3⟩ := by simpa [firstSent] using hd
      simp
    · simp [firstSent] at hd) (by simp)

end Evel.WaitOut
