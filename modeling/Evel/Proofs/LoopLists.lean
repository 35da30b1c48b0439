import Evel.General.Linked
import Evel.Model.EvLoop

namespace Evel.EvLoop
open General Loop

/-- The event is in no list at the end of its life. -/
def Alone (d : Destruction) : Prop := d.inDel = false ∧ d.inWork = false ∧ d.inWaitOut = false

instance : DecidablePred Alone := fun d =>
  inferInstanceAs (Decidable (d.inDel = false ∧ d.inWork = false ∧ d.inWaitOut = false))

/-- The loop is inside `WaitOut::timeout`. -/
def ticking : Phase → Bool
  | .batch _ _ .tick _ => true
  | _ => false

/-- The links agree with the lists, and no live event waits for both ways to die. -/
structure Owned (s : EvLoop) : Prop where
  known : ∀ x, s.alive x = true → x < s.nextId
  del : Linked s.alive (fun x => (s.events x).nextDel) s.delList
  work : Linked s.alive (fun x => (s.events x).nextWork) s.workList
  wait : Linked s.alive (fun x => (s.events x).nextWaitOut) s.waiting
  apart : ∀ x ∈ s.delList, x ∉ s.waiting
  idle : ticking s.phase = false → s.chain = [] ∧ s.renewed = []
  dels : s.phase = .dels → ∀ x ∈ s.delList, x ∉ s.workList

/-- The destructions so far: each event died once, and alone. -/
structure Buried (s : EvLoop) : Prop where
  alone : ∀ d ∈ s.log, Alone d
  gone : ∀ d ∈ s.log, d.event < s.nextId ∧ s.alive d.event = false
  once : (s.log.map Destruction.event).Nodup

theorem setEvent_field (f : Event → β) (x : EventId) (e : Event) (s : EvLoop) (y : EventId) :
    f ((s.setEvent x e).events y) = if y = x then f e else f (s.events y) := by
  by_cases hy : y = x
  · subst hy
    simp [setEvent]
  · simp [setEvent, hy]

/-- A link that the new event keeps. -/
theorem setEvent_link (f : Event → Bool) {s : EvLoop} (e : Event) (hf : f e = f (s.events x))
    (y : EventId) : f ((s.setEvent x e).events y) = f (s.events y) := by
  rw [setEvent_field f]
  split
  · next hy => rw [hf, hy]
  · rfl

theorem Owned.setEvent {s : EvLoop} (h : Owned s) (hd : e.nextDel = (s.events x).nextDel)
    (hk : e.nextWork = (s.events x).nextWork)
    (hw : e.nextWaitOut = (s.events x).nextWaitOut) : Owned (s.setEvent x e) :=
  { h with
    del := h.del.congr (fun y _ => setEvent_link Event.nextDel e hd y)
    work := h.work.congr (fun y _ => setEvent_link Event.nextWork e hk y)
    wait := h.wait.congr (fun y _ => setEvent_link Event.nextWaitOut e hw y) }

theorem Owned.fresh (h : Owned s) : s.alive s.nextId = false := by
  by_contra hne
  exact absurd (h.known _ (by simpa using hne)) (Nat.lt_irrefl _)

theorem create_field (f : Event → β) (k : Kind) (e : Event) (s : EvLoop) (y : EventId) :
    f ((s.create k e).events y) = if y = s.nextId then f e else f (s.events y) :=
  setEvent_field f s.nextId e s y

theorem Owned.create (h : Owned s) (k : Kind) (e : Event) (hd : e.nextDel = false)
    (hk : e.nextWork = false) (hw : e.nextWaitOut = false) : Owned (s.create k e) where
  known := by
    intro x hx
    by_cases hy : x = s.nextId
    · simp [EvLoop.create, hy]
    · exact Nat.lt_succ_of_lt (h.known x (by simpa [EvLoop.create, hy] using hx))
  del := h.del.birth h.fresh (fun y => by rw [create_field Event.nextDel, hd])
  work := h.work.birth h.fresh (fun y => by rw [create_field Event.nextWork, hk])
  wait := h.wait.birth h.fresh (fun y => by rw [create_field Event.nextWaitOut, hw])
  apart := h.apart
  idle := h.idle
  dels := h.dels

theorem Owned.checkWaitOut (h : Owned s) : Owned s.checkWaitOut := by
  rw [EvLoop.checkWaitOut]
  split
  · exact h
  · exact { h.create .waitOut { Event.new 3 true with evLoop := true } rfl rfl rfl with }

/-- The registration of an event takes it to one list, which is not the other one. -/
def Free (x : EventId) (t : Event.DelTarget) (s : EvLoop) : Prop :=
  match t with
  | .delList => (s.events x).nextWaitOut = false ∧
      (s.phase = .dels → (s.events x).nextWork = false)
  | .waitOutList => (s.events x).nextDel = false
  | .delOnInstall => True

instance Free.decidable (x : EventId) (s : EvLoop) : (t : Event.DelTarget) → Decidable (Free x t s)
  | .delList => inferInstanceAs (Decidable ((s.events x).nextWaitOut = false ∧
      (s.phase = .dels → (s.events x).nextWork = false)))
  | .waitOutList => inferInstanceAs (Decidable ((s.events x).nextDel = false))
  | .delOnInstall => .isTrue trivial

/-- An event goes to the end of `del_list`. -/
theorem Owned.pushDel (h : Owned s) (ha : s.alive x = true)
    (hd : (s.events x).nextDel = false) (hf : Free x .delList s) :
    Owned { s.setEvent x ((s.events x).register .delList) with delList := s.delList ++ [x] } where
  known := h.known
  del := h.del.push ha hd (setEvent_field Event.nextDel x _ s)
  work := h.work.congr (fun y _ => setEvent_link Event.nextWork
    ((s.events x).register .delList) rfl y)
  wait := h.wait.congr (fun y _ => setEvent_link Event.nextWaitOut
    ((s.events x).register .delList) rfl y)
  apart := by
    intro y hy
    rcases List.mem_append.mp hy with hy | hy
    · exact h.apart y hy
    · rw [List.mem_singleton.mp hy]
      exact h.wait.notMem hf.1
  idle := h.idle
  dels := by
    intro hp y hy
    rcases List.mem_append.mp hy with hy | hy
    · exact h.dels hp y hy
    · rw [List.mem_singleton.mp hy]
      exact h.work.notMem (hf.2 hp)

/-- An event goes to the end of `wait_out_list`, before the events that a tick has taken out. -/
theorem Owned.pushWaitOut (h : Owned s) (ha : s.alive x = true)
    (hw : (s.events x).nextWaitOut = false) (hf : Free x .waitOutList s) :
    Owned { s.setEvent x ((s.events x).register .waitOutList) with
      waitOutList := s.waitOutList ++ [x] } := by
  have hperm : (s.waiting ++ [x]).Perm (s.waitOutList ++ [x] ++ s.chain ++ s.renewed) := by
    simp only [waiting, List.append_assoc]
    refine List.Perm.append_left _ ?_
    rw [← List.append_assoc]
    exact List.perm_append_comm
  exact {
    known := h.known
    del := h.del.congr (fun y _ => setEvent_link Event.nextDel
      ((s.events x).register .waitOutList) rfl y)
    work := h.work.congr (fun y _ => setEvent_link Event.nextWork
      ((s.events x).register .waitOutList) rfl y)
    wait := (h.wait.push ha hw (setEvent_field Event.nextWaitOut x _ s)).perm hperm
    apart := by
      intro y hy hm
      rcases List.mem_append.mp (hperm.mem_iff.mpr hm) with hm | hm
      · exact h.apart y hy hm
      · rw [List.mem_singleton.mp hm] at hy
        exact h.del.notMem hf hy
    idle := h.idle
    dels := h.dels }

theorem Owned.register (h : Owned s) (ha : s.alive x = true) (hf : Free x t s) :
    Owned (s.register x t) := by
  cases t with
  | delOnInstall => exact h.setEvent rfl rfl rfl
  | delList =>
    simp only [EvLoop.register]
    split
    · next hd => exact h.setEvent hd.symm rfl rfl
    · next hd => exact h.pushDel ha (by simpa using hd) hf
  | waitOutList =>
    simp only [EvLoop.register]
    apply Owned.checkWaitOut
    split
    · next hw => exact h.setEvent rfl rfl hw.symm
    · next hw => exact h.pushWaitOut ha (by simpa using hw) hf

/-- A request that registers the event keeps it in one list. -/
def Exclusive (x : EventId) (r : Request) (outq : Option Nat) (s : EvLoop) : Prop :=
  ∀ t ∈ s.target x r outq, Free x t s

instance (x : EventId) (r : Request) (outq : Option Nat) (s : EvLoop) :
    Decidable (Exclusive x r outq s) :=
  inferInstanceAs (Decidable (∀ t ∈ s.target x r outq, Free x t s))

theorem flags_links (r : Request) (e : Event) :
    (e.flags r).1.nextDel = e.nextDel ∧ (e.flags r).1.nextWork = e.nextWork ∧
      (e.flags r).1.nextWaitOut = e.nextWaitOut := by
  cases r with
  | close outAreSent =>
    simp only [Event.flags, Event.closeFdFlags]
    split_ifs <;> simp
  | del => simp [Event.flags]
  | fail => simp [Event.flags, Event.closeFdFlags]

theorem Owned.request (h : Owned s) (ha : s.alive x = true) (hx : Exclusive x r outq s) :
    Owned (s.request x r outq) := by
  obtain ⟨hd, hk, hw⟩ := flags_links r (s.events x)
  have hs := h.setEvent hd hk hw
  simp only [EvLoop.request]
  split
  · exact hs
  · next t ht =>
    have hf := hx t ht
    refine hs.register ha ?_
    have hself : (s.setEvent x ((s.events x).flags r).1).events x = ((s.events x).flags r).1 := by
      simp [EvLoop.setEvent]
    cases t with
    | delList =>
      refine ⟨?_, fun hp => ?_⟩
      · rw [hself, hw]
        exact hf.1
      · rw [hself, hk]
        exact hf.2 hp
    | waitOutList =>
      change ((s.setEvent x _).events x).nextDel = false
      rw [hself, hd]
      exact hf
    | delOnInstall => trivial

theorem regWork_installed {s : EvLoop} (hl : (s.events x).evLoop = true) :
    s.regWork x = s.addWork x := by
  simp [EvLoop.regWork, EvLoop.addWork, hl]

theorem Owned.addWork (h : Owned s) (ha : s.alive x = true)
    (hx : s.phase = .dels → (s.events x).nextDel = false) : Owned (s.addWork x) := by
  have hlink : ∀ y, ((s.setEvent x { s.events x with nextWork := true }).events y).nextWork =
      if y = x then true else (s.events y).nextWork := setEvent_field Event.nextWork x _ s
  simp only [EvLoop.addWork]
  split
  · next hk => exact h.setEvent rfl hk.symm rfl
  · next hk =>
    have hk : (s.events x).nextWork = false := by simpa using hk
    exact {
      known := h.known
      del := h.del.congr (fun y _ => setEvent_link Event.nextDel
        { s.events x with nextWork := true } rfl y)
      work := h.work.push ha hk hlink
      wait := h.wait.congr (fun y _ => setEvent_link Event.nextWaitOut
        { s.events x with nextWork := true } rfl y)
      apart := h.apart
      idle := h.idle
      dels := by
        intro hp y hy hm
        rcases List.mem_append.mp hm with hm | hm
        · exact h.dels hp y hy hm
        · rw [List.mem_singleton.mp hm] at hy
          exact h.del.notMem (hx hp) hy }

theorem Owned.regWork (h : Owned s) (ha : s.alive x = true)
    (hx : s.phase = .dels → (s.events x).nextDel = false) : Owned (s.regWork x) := by
  by_cases hl : (s.events x).evLoop = true
  · rw [regWork_installed hl]
    exact h.addWork ha hx
  · rw [EvLoop.regWork, if_neg hl]
    exact h.setEvent rfl rfl rfl

theorem Owned.goto (h : Owned s) (hi : ticking p = false → s.chain = [] ∧ s.renewed = [])
    (hd : p = .dels → ∀ x ∈ s.delList, x ∉ s.workList) : Owned (s.goto p) :=
  { h with idle := hi, dels := hd }

theorem Owned.known_destroy (h : Owned s) {x y : EventId}
    (hy : Function.update s.alive x false y = true) : y < s.nextId := by
  refine h.known y ?_
  by_cases hyx : y = x
  · simp [hyx] at hy
  · simpa [hyx] using hy

/-- An event leaves the loop alone: no list refers to it. -/
theorem Owned.destroy (h : Owned s) (hd : x ∉ s.delList) (hk : x ∉ s.workList)
    (hw : x ∉ s.waiting) : Owned (s.destroy x) where
  known := fun _ hy => h.known_destroy hy
  del := h.del.death hd
  work := h.work.death hk
  wait := h.wait.death hw
  apart := h.apart
  idle := h.idle
  dels := h.dels

theorem Buried.destroy (h : Buried s) (hk : s.alive x = true) (hx : x < s.nextId)
    (hd : x ∉ s.delList) (hw : x ∉ s.workList) (hq : x ∉ s.waiting) :
    Buried (s.destroy x) where
  alone := by
    intro d hm
    rcases List.mem_append.mp hm with hm | hm
    · exact h.alone d hm
    · rw [List.mem_singleton.mp hm]
      simp [Alone, hd, hw, hq]
  gone := by
    intro d hm
    rcases List.mem_append.mp hm with hm | hm
    · obtain ⟨hlt, hdead⟩ := h.gone d hm
      refine ⟨hlt, ?_⟩
      by_cases hdx : d.event = x
      · simp [EvLoop.destroy, hdx]
      · simpa [EvLoop.destroy, hdx] using hdead
    · rw [List.mem_singleton.mp hm]
      exact ⟨hx, by simp [EvLoop.destroy]⟩
  once := by
    have hfresh : x ∉ s.log.map Destruction.event := by
      intro hm
      obtain ⟨d, hlog, rfl⟩ := List.mem_map.mp hm
      simp [(h.gone d hlog).2] at hk
    simp only [EvLoop.destroy, List.map_append, List.map_cons, List.map_nil]
    rw [List.nodup_append_comm]
    exact List.nodup_cons.mpr ⟨hfresh, h.once⟩

/-- Nothing dies in a step, and new events get new addresses. -/
structure Keeps (s s' : EvLoop) : Prop where
  log : s'.log = s.log
  nextId : s.nextId ≤ s'.nextId
  alive : ∀ x, x < s.nextId → s'.alive x = s.alive x

theorem Keeps.trans (h : Keeps s s') (h' : Keeps s' s'') : Keeps s s'' :=
  ⟨h'.log.trans h.log, Nat.le_trans h.nextId h'.nextId, fun x hx =>
    (h'.alive x (Nat.lt_of_lt_of_le hx h.nextId)).trans (h.alive x hx)⟩

theorem Keeps.of_eq (hl : s'.log = s.log) (hn : s'.nextId = s.nextId)
    (ha : s'.alive = s.alive) : Keeps s s' :=
  ⟨hl, Nat.le_of_eq hn.symm, fun x _ => by rw [ha]⟩

theorem Buried.keeps (h : Buried s) (hk : Keeps s s') : Buried s' := by
  refine ⟨?_, ?_, ?_⟩
  · rw [hk.log]
    exact h.alone
  · intro d hd
    rw [hk.log] at hd
    obtain ⟨hlt, hdead⟩ := h.gone d hd
    exact ⟨Nat.lt_of_lt_of_le hlt hk.nextId, (hk.alive _ hlt).trans hdead⟩
  · rw [hk.log]
    exact h.once

theorem keeps_create (k : Kind) (e : Event) (s : EvLoop) : Keeps s (s.create k e) := by
  refine ⟨rfl, Nat.le_succ _, fun x hx => ?_⟩
  simp [EvLoop.create, Nat.ne_of_lt hx]

theorem keeps_checkWaitOut (s : EvLoop) : Keeps s s.checkWaitOut := by
  rw [EvLoop.checkWaitOut]
  split
  · exact .of_eq rfl rfl rfl
  · exact (keeps_create .waitOut { Event.new 3 true with evLoop := true } s).trans
      (.of_eq rfl rfl rfl)

theorem keeps_register (x : EventId) (t : Event.DelTarget) (s : EvLoop) :
    Keeps s (s.register x t) := by
  cases t with
  | waitOutList =>
    simp only [EvLoop.register]
    refine Keeps.trans ?_ (keeps_checkWaitOut _)
    split <;> exact .of_eq rfl rfl rfl
  | delList =>
    simp only [EvLoop.register]
    split <;> exact .of_eq rfl rfl rfl
  | delOnInstall => exact .of_eq rfl rfl rfl

theorem keeps_request (x : EventId) (r : Request) (outq : Option Nat) (s : EvLoop) :
    Keeps s (s.request x r outq) := by
  simp only [EvLoop.request]
  split
  · exact .of_eq rfl rfl rfl
  · have h : Keeps s (s.setEvent x ((s.events x).flags r).1) := .of_eq rfl rfl rfl
    exact h.trans (keeps_register _ _ _)

theorem register_chain (x : EventId) (t : Event.DelTarget) (s : EvLoop) :
    (s.register x t).chain = s.chain ∧ (s.register x t).renewed = s.renewed := by
  cases t with
  | waitOutList =>
    simp only [EvLoop.register, EvLoop.checkWaitOut]
    split <;> split <;> exact ⟨rfl, rfl⟩
  | delList =>
    simp only [EvLoop.register]
    split <;> exact ⟨rfl, rfl⟩
  | delOnInstall => exact ⟨rfl, rfl⟩

/-- A request does not meddle with `WaitOut::timeout`. -/
theorem request_chain (x : EventId) (r : Request) (outq : Option Nat) (s : EvLoop) :
    (s.request x r outq).chain = s.chain ∧ (s.request x r outq).renewed = s.renewed := by
  simp only [EvLoop.request]
  split
  · exact ⟨rfl, rfl⟩
  · exact register_chain x _ _

/-- What the lists and the destructions of a run satisfy. -/
structure Orderly (s : EvLoop) : Prop extends Owned s, Buried s

theorem Orderly.request (h : Orderly s) (ha : s.alive x = true)
    (hx : Exclusive x r outq s) : Orderly (s.request x r outq) :=
  ⟨h.toOwned.request ha hx, h.toBuried.keeps (keeps_request x r outq s)⟩

theorem Orderly.addWork (h : Orderly s) (ha : s.alive x = true)
    (hx : s.phase = .dels → (s.events x).nextDel = false) : Orderly (s.addWork x) := by
  refine ⟨h.toOwned.addWork ha hx, h.toBuried.keeps ?_⟩
  simp only [EvLoop.addWork]
  split_ifs <;> exact .of_eq rfl rfl rfl

theorem Orderly.regWork (h : Orderly s) (ha : s.alive x = true)
    (hx : s.phase = .dels → (s.events x).nextDel = false) : Orderly (s.regWork x) := by
  refine ⟨h.toOwned.regWork ha hx, h.toBuried.keeps ?_⟩
  simp only [EvLoop.regWork]
  split_ifs <;> exact .of_eq rfl rfl rfl

theorem Orderly.install (h : Orderly s) (ha : s.alive x = true)
    (hx : (s.events x).evLoop = false → (s.events x).delOnInstall = true →
      Exclusive x .del outq (s.setEvent x { s.events x with evLoop := true })) :
    Orderly (s.install x outq) := by
  have hs : Orderly (s.setEvent x { s.events x with evLoop := true }) :=
    ⟨h.toOwned.setEvent rfl rfl rfl, h.toBuried.keeps (.of_eq rfl rfl rfl)⟩
  simp only [EvLoop.install]
  split_ifs with hl hd
  · exact h
  · exact hs.request ha (hx (by simpa using hl) hd)
  · exact hs

theorem Orderly.goto (h : Orderly s) (hi : ticking p = false → s.chain = [] ∧ s.renewed = [])
    (hd : p = .dels → ∀ x ∈ s.delList, x ∉ s.workList) : Orderly (s.goto p) :=
  ⟨h.toOwned.goto hi hd, h.toBuried.keeps (.of_eq rfl rfl rfl)⟩

theorem Orderly.destroy (h : Orderly s) (ha : s.alive x = true) (hd : x ∉ s.delList)
    (hk : x ∉ s.workList) (hw : x ∉ s.waiting) : Orderly (s.destroy x) :=
  ⟨h.toOwned.destroy hd hk hw, h.toBuried.destroy ha (h.known x ha) hd hk hw⟩

/-- The next batch, or the next round, starts outside `WaitOut::timeout`. -/
theorem Orderly.advance (h : Orderly s) (hi : s.chain = [] ∧ s.renewed = [])
    (batch : List (EventId × Mask)) : Orderly (s.advance batch) := by
  cases batch with
  | nil => exact h.goto (fun _ => hi) nofun
  | cons p rest => exact h.goto (fun _ => hi) nofun

/-- The head of the chain is pushed again. -/
theorem Orderly.renew (h : Orderly s) (hp : ticking s.phase = true)
    (hc : s.chain = x :: xs) :
    Orderly { s with chain := xs, renewed := s.renewed ++ [x] } := by
  have hperm : s.waiting.Perm (s.waitOutList ++ xs ++ (s.renewed ++ [x])) := by
    simp only [waiting, hc, List.append_assoc, List.cons_append]
    refine List.Perm.append_left _ ?_
    rw [← List.append_assoc]
    exact (List.perm_append_singleton x (xs ++ s.renewed)).symm
  refine ⟨{ h.toOwned with wait := h.wait.perm hperm, apart := ?_, idle := ?_ },
    h.toBuried.keeps (.of_eq rfl rfl rfl)⟩
  · exact fun y hy hm => h.apart y hy (hperm.mem_iff.mpr hm)
  · intro hi
    have : ticking s.phase = false := hi
    simp [hp] at this

/-- The head of the chain is destroyed. -/
theorem Orderly.expire (h : Orderly s) (hp : ticking s.phase = true)
    (hc : s.chain = x :: xs) (hk : (s.events x).nextWork = false) :
    Orderly ({ s with chain := xs }.destroy x) := by
  have hmem : x ∈ s.waiting := by simp [waiting, hc]
  have halive := ((h.wait.mem x).mp hmem).1
  have hperm : s.waiting.Perm (x :: (s.waitOutList ++ xs ++ s.renewed)) := by
    simp only [waiting, hc, List.append_assoc, List.cons_append]
    exact List.perm_middle
  have hwait := h.wait.perm hperm
  have hdel : x ∉ s.delList := fun hd => h.apart x hd hmem
  have hwork : x ∉ s.workList := h.work.notMem hk
  have hb : Buried { s with chain := xs } := h.toBuried.keeps (.of_eq rfl rfl rfl)
  refine ⟨?_, hb.destroy halive (h.known x halive) hdel hwork
    (List.nodup_cons.mp hwait.nodup).1⟩
  exact {
    known := fun _ hy => h.known_destroy hy
    del := h.del.death hdel
    work := h.work.death hwork
    wait := hwait.kill
    apart := fun y hy hm => h.apart y hy (hperm.mem_iff.mpr (List.mem_cons_of_mem x hm))
    idle := by
      intro hi
      have : ticking s.phase = false := hi
      simp [hp] at this
    dels := h.dels }

/-- The renewed events are put before those pushed meanwhile. -/
theorem Orderly.prepend (h : Orderly s) (hc : s.chain = []) :
    Orderly { s with waitOutList := s.renewed ++ s.waitOutList, renewed := [] } := by
  have hperm : s.waiting.Perm (s.renewed ++ s.waitOutList ++ s.chain ++ []) := by
    simp only [waiting, hc, List.append_nil]
    exact List.perm_append_comm
  refine ⟨{ h.toOwned with
    wait := h.wait.perm hperm, apart := ?_, idle := fun _ => ⟨hc, rfl⟩ },
    h.toBuried.keeps (.of_eq rfl rfl rfl)⟩
  exact fun y hy hm => h.apart y hy (hperm.mem_iff.mpr hm)

/-- `WaitOut::timeout` takes the whole list. -/
theorem Orderly.disconnect (h : Orderly s) (hi : s.chain = [] ∧ s.renewed = [])
    (hp : ticking p = true) :
    Orderly ({ s with chain := s.waitOutList, waitOutList := [] }.goto p) := by
  have heq : s.waiting = [] ++ s.waitOutList ++ s.renewed := by simp [waiting, hi]
  have hw := h.wait
  have ha := h.apart
  rw [heq] at hw ha
  refine ⟨{ h.toOwned with
    wait := hw, apart := ha, idle := fun hn => ?_, dels := fun hd => ?_ },
    h.toBuried.keeps (.of_eq rfl rfl rfl)⟩
  · have : ticking p = false := hn
    simp [hp] at this
  · have : p = .dels := hd
    simp [this, ticking] at hp

theorem Orderly.popWork (h : Orderly s) (hw : s.workList = x :: xs) (hp : s.phase ≠ .dels) :
    Orderly ({ s with workList := xs }.setEvent x { s.events x with nextWork := false }) := by
  have hlink : ∀ y, ((s.setEvent x { s.events x with nextWork := false }).events y).nextWork =
      if y = x then false else (s.events y).nextWork := setEvent_field Event.nextWork x _ s
  have hwork := h.work
  rw [hw] at hwork
  refine ⟨{ h.toOwned with
    del := h.del.congr (fun y _ => setEvent_link Event.nextDel
      { s.events x with nextWork := false } rfl y)
    work := hwork.pop hlink
    wait := h.wait.congr (fun y _ => setEvent_link Event.nextWaitOut
      { s.events x with nextWork := false } rfl y)
    dels := fun hd => absurd hd hp }, h.toBuried.keeps (.of_eq rfl rfl rfl)⟩

/-- The loop pops an event from `del_list` and destroys it. -/
theorem Orderly.popDel (h : Orderly s) (hd : s.delList = x :: xs) (hp : s.phase = .dels) :
    Orderly (({ s with delList := xs }.setEvent x { s.events x with nextDel := false }).destroy
      x) := by
  have hmem : x ∈ s.delList := by simp [hd]
  have hlink : ∀ y, ((s.setEvent x { s.events x with nextDel := false }).events y).nextDel =
      if y = x then false else (s.events y).nextDel := setEvent_field Event.nextDel x _ s
  have hdel := h.del
  rw [hd] at hdel
  have hsub : ∀ y ∈ xs, y ∈ s.delList := fun y hy => by simp [hd, hy]
  have hpop : Orderly ({ s with delList := xs }.setEvent x
      { s.events x with nextDel := false }) :=
    ⟨{ h.toOwned with
      del := hdel.pop hlink
      work := h.work.congr (fun y _ => setEvent_link Event.nextWork
        { s.events x with nextDel := false } rfl y)
      wait := h.wait.congr (fun y _ => setEvent_link Event.nextWaitOut
        { s.events x with nextDel := false } rfl y)
      apart := fun y hy => h.apart y (hsub y hy)
      dels := fun hp y hy => h.dels hp y (hsub y hy) }, h.toBuried.keeps (.of_eq rfl rfl rfl)⟩
  exact hpop.destroy ((h.del.mem x).mp hmem).1 (List.nodup_cons.mp hdel.nodup).1
    (h.dels hp x hmem) (h.apart x hmem)

end Evel.EvLoop
