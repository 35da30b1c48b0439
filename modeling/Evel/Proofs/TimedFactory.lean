import Evel.Model.TimedFactory
import Evel.Proofs.ConnFactory
import Evel.Proofs.WheelShort

namespace Evel.ExpIndexed
open General
variable {T : Type u} [DecidableEq T] {g : Geometry} {l : ExpIndexedList T g} {f : Flat T}

theorem Flat.put_listed (hx : x ∈ f.entries.map Prod.fst) (i : Nat) : f.put x i = f := by
  simp [Flat.put, hx]

theorem Flat.put_entries (hx : x ∉ f.entries.map Prod.fst) (i : Nat) :
    (f.put x i).entries = (x, i) :: f.entries ∧ (f.put x i).tick = f.tick := by
  simp only [Flat.put, hx, ↓reduceDIte, and_self]

theorem Flat.mem_drop (e : T × Nat) (x : T) :
    e ∈ (f.drop x).entries ↔ e ∈ f.entries ∧ e.1 ≠ x := by
  simp [Flat.drop]

/-- The items that are destroyed leave the map. -/
theorem destroyed_agrees (h : Agrees offset l f) (xs : List T) :
    ∃ f', Agrees offset (xs.foldl ExpIndexedList.destroy l) f' ∧ f'.tick = f.tick ∧
      ∀ e, e ∈ f'.entries ↔ e ∈ f.entries ∧ e.1 ∉ xs := by
  induction xs generalizing l f with
  | nil => exact ⟨f, h, rfl, fun e => by simp⟩
  | cons x xs ih =>
    have hdrop : Agrees offset (l.destroy x) (f.drop x) := drop_agrees h
    obtain ⟨f', hf, ht, hmem⟩ := ih hdrop
    refine ⟨f', hf, ht, fun e => ?_⟩
    rw [hmem, Flat.mem_drop, List.mem_cons, not_or, and_assoc]

end Evel.ExpIndexed

namespace Evel.ConnFactory
open General
variable {Addr : Type u} {s g : ConnFactory Addr}

/-- Connections may have been made, and asked to go. -/
structure Grown (s g : ConnFactory Addr) : Prop where
  made : s.made.length ≤ g.made.length
  asked : s.asked ⊆ g.asked
  destroyed : g.destroyed = s.destroyed
  evLoop : g.evLoop = s.evLoop

theorem Grown.refl (s : ConnFactory Addr) : Grown s s :=
  ⟨Nat.le_refl _, List.Subset.refl _, rfl, rfl⟩

theorem Grown.trans (h : Grown s s') (h' : Grown s' s'') : Grown s s'' :=
  ⟨h.made.trans h'.made, List.Subset.trans h.asked h'.asked, h'.destroyed.trans h.destroyed,
    h'.evLoop.trans h.evLoop⟩

theorem Grown.alive (h : Grown s g) (hc : s.alive c = true) : g.alive c = true := by
  rw [alive_iff] at hc ⊢
  exact ⟨Nat.lt_of_lt_of_le hc.1 h.made, h.destroyed ▸ hc.2⟩

theorem Grown.alive_old (h : Grown s g) (hlt : c < s.made.length) (hc : g.alive c = true) :
    s.alive c = true := by
  rw [alive_iff] at hc ⊢
  exact ⟨hlt, h.destroyed ▸ hc.2⟩

theorem callDel_evLoop (c : Nat) (s : ConnFactory Addr) : (s.callDel c).evLoop = s.evLoop := by
  unfold ConnFactory.callDel ConnFactory.delConn
  dsimp only
  split <;> rfl

theorem grown_callDel (c : Nat) (s : ConnFactory Addr) : Grown s (s.callDel c) := by
  obtain ⟨-, hmade, hdestroyed, hasked, -⟩ := callDel_same c s
  refine ⟨by rw [hmade], ?_, hdestroyed, callDel_evLoop c s⟩
  rw [hasked]
  exact List.subset_append_left _ _

theorem grown_delAlive (c : Nat) (s : ConnFactory Addr) : Grown s (s.delAlive c) := by
  unfold ConnFactory.delAlive
  split
  · exact grown_callDel c s
  · exact .refl s

variable [DecidableEq Addr]

theorem grown_insert (dst : Addr) (s : ConnFactory Addr) : Grown s (s.insert dst) := by
  refine ⟨?_, List.Subset.refl _, rfl, rfl⟩
  simp [ConnFactory.insert]

theorem grown_connection (dst : Addr) (fails : Bool) (s : ConnFactory Addr) :
    Grown s (s.connection dst true fails).1 := by
  rw [ConnFactory.connection]
  cases hc : s.connections dst with
  | some c =>
    simp only [mapIter, hc]
    exact .refl s
  | none =>
    rw [mapIter_new fails hc]
    split
    · exact (grown_insert dst s).trans (grown_callDel _ _)
    · exact grown_insert dst s

/-- The constructor that `connection` calls has made a connection with the next number. -/
theorem connection_alive (hs : s.Settled) (hnew : s.connections dst = none) (fails : Bool) :
    (s.connection dst true fails).1.alive s.made.length = true := by
  obtain ⟨xs, hi, -⟩ := hs
  have hunknown : s.made.length ∉ s.destroyed := fun hd => Nat.lt_irrefl _ (hi.known _ hd)
  have hinsert : (s.insert dst).alive s.made.length = true := by
    rw [alive_iff]
    exact ⟨by simp [ConnFactory.insert], hunknown⟩
  rw [ConnFactory.connection, mapIter_new fails hnew]
  split
  · exact (grown_callDel _ _).alive hinsert
  · exact hinsert

/-- What `work` does: connections are destroyed. -/
structure Followed (s g : ConnFactory Addr) : Prop where
  made : g.made = s.made
  asked : s.asked ⊆ g.asked
  destroyed : s.destroyed <+: g.destroyed

omit [DecidableEq Addr] in
theorem Followed.refl (s : ConnFactory Addr) : Followed s s :=
  ⟨rfl, List.Subset.refl _, List.prefix_refl _⟩

omit [DecidableEq Addr] in
theorem delAlives_evLoop (cs : List Nat) (s : ConnFactory Addr) :
    (cs.foldl (fun s c => s.delAlive c) s).evLoop = s.evLoop := by
  induction cs generalizing s with
  | nil => rfl
  | cons c cs ih =>
    rw [List.foldl_cons, ih]
    exact (grown_delAlive c s).evLoop

theorem del_evLoop (src : Addr) (u : Users Addr) (s : ConnFactory Addr) :
    (s.del src u).evLoop = s.evLoop := by
  have hconn : (s.mapIter src true (u.fails src)).1.evLoop = s.evLoop :=
    (grown_connection src (u.fails src) s).evLoop
  unfold ConnFactory.del
  dsimp only
  split
  · rw [ConnFactory.erase, delAlives_evLoop]
    exact hconn
  · exact hconn

theorem workLoop_evLoop (u : Users Addr) (fuel : Nat) (s : ConnFactory Addr) :
    (workLoop u fuel s).Split (fun g => g.evLoop = s.evLoop) (fun _ => True) := by
  induction fuel generalizing s with
  | zero => trivial
  | succ fuel ih =>
    unfold workLoop
    dsimp only
    split
    · rfl
    · split
      · exact (ih _).mono (fun g hg => hg.trans (del_evLoop _ u _)) (fun _ _ => trivial)
      · trivial

theorem Inv.follows (h : Inv s xs) (u : Users Addr) :
    (s.work u).Returns fun g => Followed s g ∧ g.evLoop = s.evLoop := by
  have hfuel : s.made.length < s.made.length + 1 + s.destroyed.length := by omega
  have hloop := workLoop_evLoop u (s.made.length + 1) s
  obtain ⟨g, hg, -, hmade, hdestroyed, hasked⟩ := (workLoop_returns u h hfuel).exists
  rw [hg] at hloop
  rw [ConnFactory.work, hg]
  exact ⟨⟨hmade, hasked.subset, hdestroyed⟩, hloop⟩

end Evel.ConnFactory

namespace Evel.TimedFactory
open General ExpIndexed ConnFactory
variable {Addr : Type u} {s : TimedFactory Addr} {f : Flat Nat}

/-- There is a timer, or there will be one when the factory is installed. -/
def Ticks (s : TimedFactory Addr) : Prop :=
  (s.timeoutsTimer || !s.factory.evLoop && s.needToInstallTimeoutsTimer) = true

/-- What holds between two steps, with `f` for the timeouts: a connection that is silent waits for
its tick, or this tick has come, or it has been asked to go. -/
structure Kept (s : TimedFactory Addr) (f : Flat Nat) : Prop where
  settled : s.factory.Settled
  agrees : Agrees 0 s.timeoutList f
  tick : f.tick = s.now
  timer : f.entries ≠ [] → Ticks s
  armed : ∀ e ∈ f.entries, s.factory.alive e.1 = true ∧
    (e.1 ∈ s.factory.asked ∨ ∃ t, s.waits e.1 = some t ∧ e.2 = t + delay)
  once : s.due.Nodup
  due : ∀ c ∈ s.due, s.factory.alive c = true ∧
    (c ∈ s.factory.asked ∨ ∃ t, s.waits c = some t ∧ s.now = t + delay + 1)
  silent : ∀ c t, s.waits c = some t → s.factory.alive c = true →
    c ∈ s.factory.asked ∨ (c ∈ s.due ∧ s.now = t + delay + 1) ∨ (c, t + delay) ∈ f.entries
  known : ∀ c, s.factory.made.length ≤ c → s.waits c = none

theorem kept_new : Kept (new : TimedFactory Addr) (.new Nat) where
  settled := settled_new
  agrees := new_agrees _ (by decide)
  tick := rfl
  timer he := absurd rfl he
  armed e he := by cases he
  once := List.nodup_nil
  due c hc := by cases hc
  silent c t hc := by cases hc
  known c _ := rfl

theorem Kept.waits_lt (h : Kept s f) (hc : s.waits c = some t) : c < s.factory.made.length := by
  by_contra hle
  rw [h.known c (Nat.le_of_not_lt hle)] at hc
  cases hc

/-- The factory alone may go on, while it destroys nothing. -/
theorem Kept.grown (h : Kept s f) (hg : Grown s.factory g) (hs : g.Settled) :
    Kept { s with factory := g } f where
  settled := hs
  agrees := h.agrees
  tick := h.tick
  timer he := by
    have ht := h.timer he
    rw [Ticks] at ht ⊢
    rw [hg.evLoop]
    exact ht
  armed e he := by
    obtain ⟨ha, hw⟩ := h.armed e he
    exact ⟨hg.alive ha, hw.imp_left (fun hin => hg.asked hin)⟩
  once := h.once
  due c hc := by
    obtain ⟨ha, hw⟩ := h.due c hc
    exact ⟨hg.alive ha, hw.imp_left (fun hin => hg.asked hin)⟩
  silent c t hc ha :=
    (h.silent c t hc (hg.alive_old (h.waits_lt hc) ha)).imp_left (fun hin => hg.asked hin)
  known c hc := h.known c (Nat.le_trans hg.made hc)

/-- A connection that asks for a timeout waits from now on, unless it waits already or has been
asked to go. -/
theorem Kept.addTimeout (h : Kept s f) (hdue : s.due = []) (hc : s.factory.alive c = true)
    (hroom : s.now + delay < sizeMod) :
    Kept (s.addTimeout c) (f.put c (s.now + delay)) := by
  have hput : Agrees 0 (s.timeoutList.add c delay) (f.put c (s.now + delay)) := by
    rw [← h.tick]
    exact put_agrees_short ⟨by decide, by decide⟩ (by decide) h.agrees (by decide)
      (by rw [h.tick]; omega)
  have hother : ∀ d, d ≠ c → (s.addTimeout c).waits d = s.waits d :=
    fun d hd => Function.update_of_ne hd _ _
  have hself : (s.addTimeout c).waits c = some ((s.waits c).getD s.now) := Function.update_self ..
  have hlt : c < s.factory.made.length := (alive_iff.mp hc).1
  have hknown : ∀ d, s.factory.made.length ≤ d → (s.addTimeout c).waits d = none := by
    intro d hd
    rw [hother d (Nat.ne_of_gt (Nat.lt_of_lt_of_le hlt hd))]
    exact h.known d hd
  have hticks : Ticks (s.addTimeout c) := by
    simp only [Ticks, TimedFactory.addTimeout]
    cases s.timeoutsTimer <;> cases s.factory.evLoop <;> simp
  have hold : ∀ t, s.waits c = some t → (s.addTimeout c).waits c = some t := by
    intro t ht
    rw [hself, ht, Option.getD_some]
  have harmed : ∀ e ∈ f.entries, s.factory.alive e.1 = true ∧
      (e.1 ∈ s.factory.asked ∨ ∃ t, (s.addTimeout c).waits e.1 = some t ∧ e.2 = t + delay) := by
    intro e he
    obtain ⟨ha, hw⟩ := h.armed e he
    refine ⟨ha, hw.imp_right ?_⟩
    rintro ⟨t, ht, hi⟩
    refine ⟨t, ?_, hi⟩
    by_cases hd : e.1 = c
    · rw [hd] at ht ⊢
      exact hold t ht
    · rw [hother _ hd, ht]
  -- who does not wait for a tick has been asked to go
  have hwaits : ∀ d t, s.waits d = some t → s.factory.alive d = true →
      d ∈ s.factory.asked ∨ (d, t + delay) ∈ f.entries := by
    intro d t ht ha
    refine (h.silent d t ht ha).imp_right (fun hd => hd.resolve_left ?_)
    rintro ⟨hin, -⟩
    rw [hdue] at hin
    cases hin
  have hnone : ∀ d ∈ s.due, False := by
    intro d hd
    rw [hdue] at hd
    cases hd
  by_cases hl : c ∈ f.entries.map Prod.fst
  · rw [Flat.put_listed hl] at hput ⊢
    refine ⟨h.settled, hput, h.tick, fun _ => hticks, harmed, h.once,
      fun d hd => (hnone d hd).elim, fun d t ht ha => ?_, hknown⟩
    by_cases hd : d = c
    · subst hd
      obtain ⟨e, he, rfl⟩ := List.mem_map.mp hl
      obtain ⟨-, hasked | ⟨t', ht', hi⟩⟩ := harmed e he
      · exact .inl hasked
      · obtain rfl : t' = t := Option.some_inj.mp (ht'.symm.trans ht)
        exact .inr (.inr (hi ▸ he))
    · rw [hother d hd] at ht
      exact (hwaits d t ht ha).imp_right .inr
  · obtain ⟨hentries, htick⟩ := Flat.put_entries hl (s.now + delay)
    refine ⟨h.settled, hput, htick.trans h.tick, fun _ => hticks, fun e he => ?_, h.once,
      fun d hd => (hnone d hd).elim, fun d t ht ha => ?_, hknown⟩
    · rw [hentries, List.mem_cons] at he
      rcases he with rfl | he
      · refine ⟨hc, ?_⟩
        cases hw : s.waits c with
        | none => exact .inr ⟨s.now, by rw [hself, hw, Option.getD_none], rfl⟩
        | some t =>
          refine .inl ((hwaits c t hw hc).resolve_right (fun he => hl ?_))
          exact List.mem_map.mpr ⟨_, he, rfl⟩
      · exact harmed e he
    · rw [hentries]
      by_cases hd : d = c
      · subst hd
        cases hw : s.waits d with
        | none =>
          rw [hself, hw, Option.getD_none, Option.some.injEq] at ht
          exact .inr (.inr (ht ▸ List.mem_cons_self))
        | some t' =>
          obtain rfl : t' = t := Option.some_inj.mp ((hold t' hw).symm.trans ht)
          exact (hwaits d t' hw ha).imp_right (fun he => .inr (List.mem_cons_of_mem _ he))
      · rw [hother d hd] at ht
        exact (hwaits d t ht ha).imp_right (fun he => .inr (List.mem_cons_of_mem _ he))

theorem Kept.remTimeout (h : Kept s f) (hdue : s.due = []) (c : Nat) :
    Kept (s.remTimeout c) (f.drop c) where
  settled := h.settled
  agrees := drop_agrees h.agrees
  tick := h.tick
  timer he := by
    obtain ⟨e, hm⟩ := List.exists_mem_of_ne_nil _ he
    exact h.timer (List.ne_nil_of_mem ((Flat.mem_drop e c).mp hm).1)
  armed e he := by
    obtain ⟨hm, hd⟩ := (Flat.mem_drop e c).mp he
    obtain ⟨ha, hw⟩ := h.armed e hm
    refine ⟨ha, hw.imp_right ?_⟩
    rintro ⟨t, ht, hi⟩
    exact ⟨t, (Function.update_of_ne hd _ _).trans ht, hi⟩
  once := h.once
  due d hd := by
    simp only [TimedFactory.remTimeout, hdue] at hd
    cases hd
  silent d t ht ha := by
    by_cases hd : d = c
    · subst hd
      simp only [TimedFactory.remTimeout, Function.update_self] at ht
      cases ht
    · simp only [TimedFactory.remTimeout, Function.update_of_ne hd] at ht
      obtain hasked | hin | hin := h.silent d t ht ha
      · exact .inl hasked
      · exact .inr (.inl hin)
      · exact .inr (.inr ((Flat.mem_drop _ c).mpr ⟨hin, hd⟩))
  known d hd := by
    by_cases hc : d = c
    · subst hc
      exact Function.update_self ..
    · exact (Function.update_of_ne hc _ _).trans (h.known d hd)

/-- The connections that are destroyed leave the timeouts. -/
theorem Kept.follow (h : Kept s f) (hdue : s.due = []) (hg : Followed s.factory g)
    (hs : g.Settled) (ht : Ticks s → Ticks (s.follow g)) : ∃ f', Kept (s.follow g) f' := by
  obtain ⟨dead, hdead⟩ := hg.destroyed
  have hdrop : g.destroyed.drop s.factory.destroyed.length = dead := by
    rw [← hdead, List.drop_left]
  have halive : ∀ c, g.alive c = true ↔ s.factory.alive c = true ∧ c ∉ dead := by
    intro c
    rw [alive_iff, alive_iff, hg.made, ← hdead, List.mem_append, not_or, and_assoc]
  obtain ⟨f', hf, htick, hmem⟩ := destroyed_agrees h.agrees dead
  refine ⟨f', ?_⟩
  simp only [TimedFactory.follow, hdrop] at ht ⊢
  exact {
    settled := hs
    agrees := hf
    tick := htick.trans h.tick
    timer := fun he => by
      obtain ⟨e, hm⟩ := List.exists_mem_of_ne_nil _ he
      exact ht (h.timer (List.ne_nil_of_mem ((hmem e).mp hm).1))
    armed := fun e he => by
      obtain ⟨hm, hd⟩ := (hmem e).mp he
      obtain ⟨ha, hw⟩ := h.armed e hm
      exact ⟨(halive e.1).mpr ⟨ha, hd⟩, hw.imp_left (fun hin => hg.asked hin)⟩
    once := h.once
    due := fun c hc => by
      rw [hdue] at hc
      cases hc
    silent := fun c t hc ha => by
      obtain ⟨ha, hd⟩ := (halive c).mp ha
      obtain hasked | hin | hin := h.silent c t hc ha
      · exact .inl (hg.asked hasked)
      · exact .inr (.inl hin)
      · exact .inr (.inr ((hmem _).mpr ⟨hin, hd⟩))
    known := fun c hc => h.known c (hg.made ▸ hc) }

/-- A shift takes over the connections that have been silent for the whole delay, and those that
have been asked to go. -/
theorem Kept.shift (h : Kept s f) (hdue : s.due = []) :
    Kept { s with timeoutList := s.timeoutList.shift, due := s.timeoutList.shifted.out,
                  now := s.now + 1 } f.shift := by
  obtain ⟨hnext, hout⟩ := shift_agrees ⟨by decide, by decide⟩ h.agrees
  have hready : ∀ c, c ∈ s.timeoutList.shifted.out ↔ (c, s.now) ∈ f.entries := by
    intro c
    rw [hout.mem_iff, Flat.due, List.mem_map]
    constructor
    · rintro ⟨e, he, rfl⟩
      obtain ⟨he, hi⟩ := List.mem_filter.mp he
      have htime : e.2 = s.now := (of_decide_eq_true hi).trans h.tick
      exact htime ▸ he
    · intro he
      exact ⟨_, List.mem_filter.mpr ⟨he, by simp [h.tick]⟩, rfl⟩
  refine ⟨h.settled, hnext, by simp [Flat.shift, h.tick], fun he => ?_, fun e he => ?_,
    hout.nodup_iff.mpr (f.single_filter _), fun c hc => ?_, fun c t hc ha => ?_, h.known⟩
  · obtain ⟨e, hm⟩ := List.exists_mem_of_ne_nil _ he
    exact h.timer (List.ne_nil_of_mem (List.mem_filter.mp hm).1)
  · exact h.armed e (List.mem_filter.mp he).1
  · obtain ⟨ha, hw⟩ := h.armed _ ((hready c).mp hc)
    refine ⟨ha, hw.imp_right ?_⟩
    rintro ⟨t, ht, hi⟩
    exact ⟨t, ht, congrArg (· + 1) hi⟩
  · obtain hasked | ⟨hin, -⟩ | hin := h.silent c t hc ha
    · exact .inl hasked
    · rw [hdue] at hin
      cases hin
    · by_cases hi : t + delay = s.now
      · exact .inr (.inl ⟨(hready c).mpr (hi ▸ hin), by simp [hi]⟩)
      · refine .inr (.inr (List.mem_filter.mpr ⟨hin, ?_⟩))
        simpa [h.tick] using hi

/-- `on_timeout` asks the connection to go. -/
theorem Kept.expire (h : Kept s f) (hdue : s.due = c :: left) :
    Kept { s with factory := s.factory.callDel c, due := left } f := by
  have hc := (h.due c (hdue ▸ List.mem_cons_self)).1
  have hg := grown_callDel c s.factory
  have hs : (s.factory.callDel c).Settled := by
    have hset := h.settled.delAlive c
    rwa [delAlive, if_pos hc] at hset
  have hasks : c ∈ (s.factory.callDel c).asked := by
    rw [(callDel_same c s.factory).2.2.2.1]
    exact List.mem_append_right _ (List.mem_singleton_self c)
  have hgrown := h.grown hg hs
  have honce := h.once
  rw [hdue, List.nodup_cons] at honce
  refine { hgrown with
    once := honce.2
    due := fun d hd => hgrown.due d (hdue ▸ List.mem_cons_of_mem c hd)
    silent := fun d t hw ha => ?_ }
  obtain hasked | ⟨hin, hnow⟩ | hin := hgrown.silent d t hw ha
  · exact .inl hasked
  · rcases List.mem_cons.mp (hdue ▸ hin) with rfl | hin
    · exact .inl hasks
    · exact .inr (.inl ⟨hin, hnow⟩)
  · exact .inr (.inr hin)

/-- Between two shifts, at the time `n`. -/
structure Idle (n : Nat) (s : TimedFactory Addr) : Prop where
  due : s.due = []
  now : s.now = n
  kept : ∃ f, Kept s f

theorem Idle.addTimeout (h : Idle n s) (hc : s.factory.alive c = true)
    (hroom : n + delay < sizeMod) : Idle n (s.addTimeout c) := by
  obtain ⟨hdue, rfl, f, hf⟩ := h
  exact ⟨hdue, rfl, _, hf.addTimeout hdue hc hroom⟩

theorem Idle.remTimeout (h : Idle n s) (c : Nat) : Idle n (s.remTimeout c) := by
  obtain ⟨hdue, hnow, f, hf⟩ := h
  exact ⟨hdue, hnow, _, hf.remTimeout hdue c⟩

theorem Idle.grown (h : Idle n s) (hg : Grown s.factory g) (hs : g.Settled) :
    Idle n { s with factory := g } := by
  obtain ⟨hdue, hnow, f, hf⟩ := h
  exact ⟨hdue, hnow, f, hf.grown hg hs⟩

theorem Idle.settled (h : Idle n s) : s.factory.Settled := by
  obtain ⟨f, hf⟩ := h.kept
  exact hf.settled

theorem Idle.delAlive (h : Idle n s) (c : Nat) :
    Idle n { s with factory := s.factory.delAlive c } :=
  h.grown (grown_delAlive c s.factory) (h.settled.delAlive c)

theorem Idle.follow (h : Idle n s) (hg : Followed s.factory g) (hs : g.Settled)
    (ht : Ticks s → Ticks (s.follow g)) : Idle n (s.follow g) := by
  obtain ⟨hdue, hnow, f, hf⟩ := h
  exact ⟨hdue, hnow, hf.follow hdue hg hs ht⟩

variable [DecidableEq Addr]

theorem Idle.connection (h : Idle n s) (hroom : n + delay < sizeMod) (dst : Addr)
    (fails arms : Bool) : Idle n (s.connection dst fails arms) := by
  have hmade := h.grown (grown_connection dst fails s.factory) (h.settled.connection dst fails)
  unfold TimedFactory.connection
  dsimp only
  split
  · next hnew =>
    rw [Bool.and_eq_true, Option.isNone_iff_eq_none] at hnew
    exact hmade.addTimeout (connection_alive h.settled hnew.1 fails) hroom
  · exact hmade

theorem Idle.act (h : Idle n s) (hroom : n + delay < sizeMod) (a : Act Addr) :
    Idle n (s.act a) := by
  cases a with
  | connection dst fails arms => exact h.connection hroom dst fails arms
  | del c => exact h.delAlive c
  | close c now =>
    cases now with
    | false => exact h
    | true => exact h.delAlive c
  | addTimeout c =>
    simp only [TimedFactory.act]
    split
    · next hc => exact h.addTimeout hc hroom
    · exact h
  | remTimeout c =>
    simp only [TimedFactory.act]
    split
    · exact h.remTimeout c
    · exact h

theorem Idle.acts (h : Idle n s) (hroom : n + delay < sizeMod) (as : List (Act Addr)) :
    Idle n (s.acts as) :=
  List.foldlRecOn as TimedFactory.act h (fun _ hs a _ => hs.act hroom a)

theorem Idle.parse (h : Idle n s) (hroom : n + delay < sizeMod) (src : Addr)
    (fails arms dtls : Bool) (as : List (Act Addr)) :
    Idle n (s.parse src fails arms dtls as) := by
  have hconn := h.connection hroom src fails arms
  unfold TimedFactory.parse
  dsimp only
  split
  · exact h
  · split
    · next c _ =>
      cases dtls with
      | false => exact hconn.acts hroom as
      | true => exact (hconn.remTimeout c).acts hroom as
    · exact hconn

theorem Idle.work (h : Idle n s) (u : Users Addr) :
    ((s.factory.apply (.work u)).map s.follow).Returns (Idle n) := by
  rw [Exec.returns_map]
  have hset := h.settled.apply (.work u)
  have hfollow : (s.factory.apply (.work u)).Returns
      fun g => Followed s.factory g ∧ g.evLoop = s.factory.evLoop := by
    rw [ConnFactory.apply]
    split
    · obtain ⟨xs, hi, -⟩ := h.settled
      have hi' : Inv { s.factory with nextWork := false } xs :=
        ⟨hi.toDel, hi.owned, hi.waiting, hi.asked, hi.once, hi.known⟩
      exact (hi'.follows u).mono fun g hg => ⟨⟨hg.1.made, hg.1.asked, hg.1.destroyed⟩, hg.2⟩
    · exact ⟨.refl _, rfl⟩
  refine (hset.and hfollow).mono fun g hg => h.follow hg.2.1 hg.1 (fun ht => ?_)
  rw [Ticks] at ht ⊢
  rw [TimedFactory.follow, hg.2.2]
  exact ht

theorem Idle.install (h : Idle n s) (u : Users Addr) : (s.install u).Returns (Idle n) := by
  have hset := h.settled.apply (.install u)
  unfold TimedFactory.install
  by_cases hl : s.factory.evLoop = true
  · simp only [hl, if_true, ConnFactory.apply, ConnFactory.install]
    exact h.follow (.refl _) h.settled (fun ht => ht)
  · have hl : s.factory.evLoop = false := by simpa using hl
    obtain ⟨xs, hi, -⟩ := h.settled
    have hi' : Inv { s.factory with evLoop := true } xs :=
      ⟨hi.toDel, hi.owned, hi.waiting, hi.asked, hi.once, hi.known⟩
    have hfollow : (s.factory.apply (.install u)).Returns (Followed s.factory) := by
      simp only [ConnFactory.apply, ConnFactory.install, hl, Bool.false_eq_true, if_false]
      split
      · exact (hi'.follows u).mono fun g hg => ⟨hg.1.made, hg.1.asked, hg.1.destroyed⟩
      · exact ⟨rfl, List.Subset.refl _, List.prefix_refl _⟩
    let s₁ := { s with timeoutsTimer := s.timeoutsTimer || s.needToInstallTimeoutsTimer }
    have hticks : Ticks s → s₁.timeoutsTimer = true := by
      intro ht
      rw [Ticks, hl] at ht
      exact ht
    have h₁ : Idle n s₁ := by
      obtain ⟨hdue, hnow, f, hf⟩ := h
      refine ⟨hdue, hnow, f, { hf with timer := fun he => ?_ }⟩
      rw [Ticks, hticks (hf.timer he), Bool.true_or]
    simp only [hl, Bool.false_eq_true, if_false, Exec.returns_map]
    refine (hset.and hfollow).mono fun g hg => h₁.follow hg.2 hg.1 (fun ht => ?_)
    have htimer : s₁.timeoutsTimer = true := by
      refine hticks ?_
      simp only [Ticks, s₁, hl] at ht ⊢
      revert ht
      cases s.timeoutsTimer <;> cases s.needToInstallTimeoutsTimer <;> simp
    rw [Ticks]
    simp only [TimedFactory.follow, htimer, Bool.true_or]

/-- Time goes on with the shifts only. -/
theorem Kept.apply (h : Kept s f) (hroom : s.now + delay < sizeMod) (i : Input Addr) :
    (s.apply i).Returns fun s' =>
      s'.now ≤ s.now + (if i.shifts then 1 else 0) ∧ ∃ f', Kept s' f' := by
  cases hdue : s.due with
  | cons c left =>
    have hstay : s.now ≤ s.now + (if i.shifts then 1 else 0) ∧ ∃ f', Kept s f' :=
      ⟨Nat.le_add_right _ _, f, h⟩
    cases i with
    | expire =>
      have hc := (h.due c (hdue ▸ List.mem_cons_self)).1
      simp only [TimedFactory.apply, hdue, hc, if_true]
      exact ⟨Nat.le_refl _, f, h.expire hdue⟩
    | _ =>
      simp only [TimedFactory.apply, hdue]
      exact hstay
  | nil =>
    have hidle : Idle s.now s := ⟨hdue, rfl, f, h⟩
    have hdone : ∀ s' : TimedFactory Addr, Idle s.now s' →
        s'.now ≤ s.now + (if i.shifts then 1 else 0) ∧ ∃ f', Kept s' f' :=
      fun s' hs => ⟨by rw [hs.now]; exact Nat.le_add_right _ _, hs.kept⟩
    cases i with
    | act a =>
      simp only [TimedFactory.apply, hdue]
      exact hdone _ (hidle.act hroom a)
    | send dst fails arms as =>
      simp only [TimedFactory.apply, hdue]
      exact hdone _ ((hidle.connection hroom dst fails arms).acts hroom as)
    | parse src fails arms dtls as =>
      simp only [TimedFactory.apply, hdue]
      exact hdone _ (hidle.parse hroom src fails arms dtls as)
    | eventDel =>
      simp only [TimedFactory.apply, hdue, ConnFactory.apply]
      exact hdone _ (hidle.follow ⟨rfl, List.Subset.refl _, List.prefix_refl _⟩
        (h.settled.apply .eventDel) (fun ht => ht))
    | install u =>
      simp only [TimedFactory.apply, hdue]
      exact (hidle.install u).mono hdone
    | work u =>
      simp only [TimedFactory.apply, hdue]
      exact (hidle.work u).mono hdone
    | shift =>
      cases ht : s.timeoutsTimer with
      | false =>
        simp only [TimedFactory.apply, hdue, ht]
        exact hdone _ hidle
      | true =>
        have hshift := h.shift hdue
        rw [ht] at hshift
        simp only [TimedFactory.apply, hdue, ht, if_true]
        exact ⟨Nat.le_refl _, _, hshift⟩
    | expire =>
      simp only [TimedFactory.apply, hdue]
      exact hdone _ hidle

/-- Connections that are silent for the whole delay are asked to go, and no others because of the
time: those in the timeouts are there and not late, a shift hands over the ones whose time has
come, and the factory has work while one that has been asked to go is still there. -/
structure Punctual (s : TimedFactory Addr) : Prop where
  listed : ∀ c, (s.timeoutList.items c).lst ≠ none → s.factory.alive c = true ∧ Ticks s
  once : s.due.Nodup
  due : ∀ c ∈ s.due, s.factory.alive c = true ∧
    (c ∈ s.factory.asked ∨ ∃ t, s.waits c = some t ∧ s.now = t + delay + 1)
  silent : ∀ c t, s.waits c = some t → s.factory.alive c = true →
    c ∈ s.factory.asked ∨ (c ∈ s.due ∧ s.now = t + delay + 1) ∨
      ((s.timeoutList.items c).lst ≠ none ∧ s.now ≤ t + delay)
  work : ∀ c ∈ s.factory.asked, s.factory.alive c = true →
    (if s.factory.evLoop then s.factory.nextWork else s.factory.workOnInstall) = true
  ends : ∀ u, (s.factory.work u).Returns fun g => ∀ c ∈ s.factory.asked, g.alive c = false

theorem Kept.punctual (h : Kept s f) : Punctual s where
  listed c hc := by
    obtain ⟨e, he, rfl⟩ := List.mem_map.mp (h.agrees.held.mp hc)
    exact ⟨(h.armed e he).1, h.timer (List.ne_nil_of_mem he)⟩
  once := h.once
  due := h.due
  silent c t hc ha := by
    refine (h.silent c t hc ha).imp_right (fun hw => hw.imp_right (fun he => ⟨?_, ?_⟩))
    · exact h.agrees.held.mpr (List.mem_map.mpr ⟨_, he, rfl⟩)
    · exact h.tick ▸ (h.agrees.ahead _ he).1
  work c hc ha := by
    obtain ⟨xs, hi, hdue⟩ := h.settled
    refine hdue (List.ne_nil_of_mem (((hi.asked c).mp hc).resolve_left ?_))
    exact (alive_iff.mp ha).2
  ends u := by
    obtain ⟨xs, hi, -⟩ := h.settled
    refine (hi.work u).mono fun g hg c hc => ?_
    have hgone : c ∈ g.destroyed := (hg.2.destroyed c).mpr (hg.2.asked.subset hc)
    simp [ConnFactory.alive, hgone]

/-- What the inputs so far leave, where the number of shifts does not wrap. -/
def Timed (past : List (Input Addr)) (e : Exec (TimedFactory Addr)) : Prop :=
  past.countP Input.shifts + delay < sizeMod →
    e.Returns fun s => s.now ≤ past.countP Input.shifts ∧ ∃ f, Kept s f

theorem Timed.step (h : Timed past e) (i : Input Addr) : Timed (past ++ [i]) (step e i) := by
  have hcount : (past ++ [i]).countP Input.shifts =
      past.countP Input.shifts + (if i.shifts then 1 else 0) := by
    rw [List.countP_append, List.countP_singleton]
  rw [Timed, hcount]
  intro hroom
  have hpast : past.countP Input.shifts + delay < sizeMod := by omega
  rw [TimedFactory.step, Exec.returns_andThen]
  refine (h hpast).mono ?_
  rintro s ⟨hnow, f, hf⟩
  refine (hf.apply (by omega) i).mono (fun s' hs => ⟨?_, hs.2⟩)
  exact Nat.le_trans hs.1 (Nat.add_le_add_right hnow _)

/-- In every run each step returns, and after it the connections that are silent wait for their
tick or have been asked to go. -/
theorem silent_connections_end (inputs : List (Input Addr))
    (hroom : inputs.countP Input.shifts + delay < sizeMod) :
    (run step (.ret new) inputs).Returns Punctual := by
  have hnew : Timed [] (.ret (new : TimedFactory Addr)) :=
    fun _ => ⟨Nat.le_refl _, _, kept_new⟩
  have hrun : Timed inputs (run step (.ret new) inputs) :=
    run_history (P := fun _ _ => True) Timed (fun _ _ i h _ => h.step i) hnew
      (along_of_mem (fun _ _ _ => trivial) _)
  refine (hrun hroom).mono ?_
  rintro s ⟨-, f, hf⟩
  exact hf.punctual

def calmUsers : Users Nat := { fails := fun _ => false, dtor := fun _ => [] }

/-- One of two connections hears of its peer in time. -/
theorem silent_connections_end_one :
    let inputs := [.install calmUsers, .act (.connection 5 false true),
      .act (.connection 6 false true)] ++ List.replicate 5 .shift ++
      .parse 6 false false true [.addTimeout 1] :: List.replicate 4 .shift ++ [.expire]
    let s := (run step (.ret new) inputs).state
    s.factory.asked = [0] ∧ (s.factory.work calmUsers).Returns (fun g => g.alive 0 = false) ∧
      (s.timeoutList.items 1).lst ≠ none ∧ s.now ≤ 5 + delay := by
  intro inputs s
  have h : run step (.ret new) inputs = .ret s := rfl
  have hs := silent_connections_end inputs (by decide)
  rw [h] at hs
  have hasked : s.factory.asked = [0] := by decide
  have hends : (s.factory.work calmUsers).Returns (fun g => g.alive 0 = false) :=
    (hs.ends calmUsers).mono fun g hg => hg 0 (by rw [hasked]; exact List.mem_singleton_self 0)
  have hwaits := hs.silent 1 5 rfl (by decide)
  rw [hasked] at hwaits
  have hdue : s.due = [] := by decide
  rw [hdue] at hwaits
  obtain hin | ⟨hin, -⟩ | hlisted := hwaits
  · cases hin with
    | tail _ hin => cases hin
  · cases hin
  · exact ⟨hasked, hends, hlisted⟩

end Evel.TimedFactory
