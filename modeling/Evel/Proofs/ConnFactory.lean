import Mathlib.Data.List.Perm.Subperm
import Evel.Model.ConnFactory
import Evel.Proofs.CiList

namespace Evel.ConnFactory
open General
variable {Addr : Type u}

/-- The one list of a factory. -/
def only (xs : List Nat) : Queues Unit Nat := { queue := fun _ => xs, loose := ∅, gone := ∅ }

theorem only_of {q : Queues Unit Nat} (hq : q.queue () = xs) (hl : q.loose = ∅)
    (hg : q.gone = ∅) : q = only xs := by
  obtain ⟨queue, loose, gone⟩ := q
  obtain rfl : queue = fun _ => xs := funext fun _ => hq
  obtain rfl : loose = ∅ := hl
  obtain rfl : gone = ∅ := hg
  rfl

/-- `to_del` holds the connections `xs`. -/
def Holds (h : CiList.Heap Unit Nat) (xs : List Nat) : Prop := CiList.Refines h (only xs)

theorem Holds.nodup {h : CiList.Heap Unit Nat} (hh : Holds h xs) : xs.Nodup := hh.apart.nodup ()

theorem Holds.push {h : CiList.Heap Unit Nat} (hh : Holds h xs) (c : Nat) :
    Holds (h.pushBack () c) (enqueue xs c) := by
  have hp := CiList.Refines.pushBack (l := ()) (x := c) hh (fun hg => hg) (fun hl => hl)
  have hq : (only xs).push () c = only (enqueue xs c) :=
    only_of (Queues.push_enqueue fun _ _ => rfl) Queues.push_loose Queues.push_gone
  rwa [hq] at hp

theorem Holds.pop {h : CiList.Heap Unit Nat} (hh : Holds h xs) :
    Holds (h.popFront ()).1 xs.tail ∧ (h.popFront ()).2 = xs.head? := by
  obtain ⟨hp, hres⟩ := CiList.Refines.popFront (l := ()) hh (fun hg => hg)
  have hq : (only xs).pop () = only xs.tail := only_of Queues.pop_self rfl rfl
  rw [hq] at hp
  exact ⟨hp, hres⟩

/-- What holds of a factory whose `to_del` holds `xs`: the map owns the connections that are not
destroyed, under their own addresses, and those whose `del` has been called wait in `to_del` until
they are destroyed. -/
structure Inv (s : ConnFactory Addr) (xs : List Nat) : Prop where
  toDel : Holds s.toDel xs
  owned : ∀ a c, s.connections a = some c ↔ s.addr c = some a ∧ c ∉ s.destroyed
  waiting : ∀ c ∈ xs, c < s.made.length ∧ c ∉ s.destroyed
  asked : ∀ c, c ∈ s.asked ↔ c ∈ s.destroyed ∨ c ∈ xs
  once : s.destroyed.Nodup
  known : ∀ c ∈ s.destroyed, c < s.made.length

theorem alive_iff {s : ConnFactory Addr} :
    s.alive c = true ↔ c < s.made.length ∧ c ∉ s.destroyed := by
  simp [alive]

section del
variable {s : ConnFactory Addr} {xs : List Nat}

/-- A call of `del` leaves all but `to_del`, its own note, and what says that there is work. -/
theorem callDel_same (c : Nat) (s : ConnFactory Addr) :
    (s.callDel c).connections = s.connections ∧ (s.callDel c).made = s.made ∧
      (s.callDel c).destroyed = s.destroyed ∧ (s.callDel c).asked = s.asked ++ [c] ∧
      (s.callDel c).toDel = s.toDel.pushBack () c := by
  unfold callDel delConn
  dsimp only
  split <;> exact ⟨rfl, rfl, rfl, rfl, rfl⟩

theorem Inv.callDel (h : Inv s xs) (hc : c < s.made.length ∧ c ∉ s.destroyed) :
    Inv (s.callDel c) (enqueue xs c) := by
  obtain ⟨hconns, hmade, hdestroyed, hasked, htoDel⟩ := callDel_same c s
  refine ⟨?_, fun a d => ?_, fun d hd => ?_, fun d => ?_, ?_, fun d hd => ?_⟩
  · rw [htoDel]
    exact h.toDel.push c
  · rw [hconns, addr, hmade, hdestroyed]
    exact h.owned a d
  · rw [hmade, hdestroyed]
    rcases mem_enqueue.mp hd with hd | rfl
    · exact h.waiting d hd
    · exact hc
  · rw [hasked, hdestroyed, mem_enqueue, List.mem_append, List.mem_singleton, h.asked d, or_assoc]
  · rw [hdestroyed]
    exact h.once
  · rw [hmade]
    exact h.known d (hdestroyed ▸ hd)

/-- Whoever waits in `to_del` has been registered for work. -/
def Due (s : ConnFactory Addr) (xs : List Nat) : Prop :=
  xs ≠ [] → (if s.evLoop then s.nextWork else s.workOnInstall) = true

theorem callDel_due (c : Nat) (s : ConnFactory Addr) (xs : List Nat) : Due (s.callDel c) xs := by
  intro _
  unfold callDel delConn
  dsimp only
  cases s.evLoop <;> rfl

/-- Between two calls. -/
def Settled (s : ConnFactory Addr) : Prop := ∃ xs, Inv s xs ∧ Due s xs

theorem Settled.delAlive (h : Settled s) (c : Nat) : Settled (s.delAlive c) := by
  unfold ConnFactory.delAlive
  split
  · rename_i hc
    obtain ⟨xs, hi, -⟩ := h
    exact ⟨_, hi.callDel (alive_iff.mp hc), callDel_due c s _⟩
  · exact h

/-- What the destructor of a connection leaves. -/
theorem Inv.delAlives (h : Inv s xs) (cs : List Nat) :
    ∃ ys, Inv (cs.foldl (fun s c => s.delAlive c) s) ys ∧
      (cs.foldl (fun s c => s.delAlive c) s).made = s.made ∧
      (cs.foldl (fun s c => s.delAlive c) s).destroyed = s.destroyed ∧
      s.asked <+: (cs.foldl (fun s c => s.delAlive c) s).asked := by
  induction cs generalizing s xs with
  | nil => exact ⟨xs, h, rfl, rfl, List.prefix_refl _⟩
  | cons c cs ih =>
    rw [List.foldl_cons]
    by_cases hc : s.alive c = true
    · have hdel : s.delAlive c = s.callDel c := if_pos hc
      obtain ⟨-, hmade, hdestroyed, hasked, -⟩ := callDel_same c s
      rw [hdel]
      obtain ⟨ys, hi, hm, hd, ha⟩ := ih (h.callDel (alive_iff.mp hc))
      refine ⟨ys, hi, hm.trans hmade, hd.trans hdestroyed, ?_⟩
      rw [hasked] at ha
      exact (List.prefix_append _ _).trans ha
    · have hdel : s.delAlive c = s := if_neg hc
      rw [hdel]
      exact ih h

end del

section connection
variable {s : ConnFactory Addr} {xs : List Nat}

theorem addr_concat (made : List Addr) (dst a : Addr) (c : Nat) :
    (made ++ [dst])[c]? = some a ↔ made[c]? = some a ∨ (c = made.length ∧ dst = a) := by
  rcases Nat.lt_trichotomy c made.length with hc | hc | hc
  · rw [List.getElem?_append_left hc]
    simp [Nat.ne_of_lt hc]
  · subst hc
    simp
  · rw [List.getElem?_append_right (Nat.le_of_lt hc)]
    have hnone : made[c]? = none := List.getElem?_eq_none (Nat.le_of_lt hc)
    have hpos : c - made.length ≠ 0 := by omega
    simp [hnone, hpos, Nat.ne_of_gt hc]

variable [DecidableEq Addr]

/-- A new connection in the map. -/
def insert (dst : Addr) (s : ConnFactory Addr) : ConnFactory Addr :=
  { s with made := s.made ++ [dst],
           connections := Function.update s.connections dst (some s.made.length) }

theorem Inv.insert (h : Inv s xs) (hnew : s.connections dst = none) : Inv (s.insert dst) xs := by
  have hunknown : s.made.length ∉ s.destroyed := fun hd => Nat.lt_irrefl _ (h.known _ hd)
  have hlen : (s.insert dst).made.length = s.made.length + 1 := by simp [ConnFactory.insert]
  refine ⟨h.toDel, fun a c => ?_, fun c hc => ?_, h.asked, h.once, fun c hc => ?_⟩
  · change Function.update s.connections dst (some s.made.length) a = some c ↔
      (s.made ++ [dst])[c]? = some a ∧ c ∉ s.destroyed
    rw [addr_concat, or_and_right]
    have hold := h.owned a c
    rw [addr] at hold
    rw [← hold]
    by_cases ha : a = dst
    · subst ha
      rw [Function.update_self, hnew]
      simp only [Option.some.injEq, reduceCtorEq, false_or, and_true]
      exact ⟨fun he => he ▸ ⟨rfl, hunknown⟩, fun hc => hc.1.symm⟩
    · rw [Function.update_of_ne ha]
      simp [Ne.symm ha]
  · rw [hlen]
    exact ⟨Nat.lt_succ_of_lt (h.waiting c hc).1, (h.waiting c hc).2⟩
  · rw [hlen]
    exact Nat.lt_succ_of_lt (h.known c hc)

/-- It makes no difference that a constructor calls `del` before the connection is in the map. -/
theorem mapIter_new (fails : Bool) (hnew : s.connections dst = none) :
    (s.mapIter dst true fails).1 =
      if fails then (s.insert dst).callDel s.made.length else s.insert dst := by
  cases fails with
  | false => simp [mapIter, hnew, factory, ConnFactory.insert]
  | true =>
    simp only [mapIter, hnew, factory, ConnFactory.insert, if_true, callDel, delConn]
    by_cases he : s.evLoop = true
    · simp only [he, if_true]
    · simp only [he]
      rfl

theorem Settled.connection (h : Settled s) (dst : Addr) (fails : Bool) :
    Settled (s.connection dst true fails).1 := by
  obtain ⟨xs, hi, hdue⟩ := h
  rw [ConnFactory.connection]
  cases hc : s.connections dst with
  | some c =>
    simp only [mapIter, hc]
    exact ⟨xs, hi, hdue⟩
  | none =>
    rw [mapIter_new fails hc]
    split
    · have halive : s.made.length < (s.insert dst).made.length ∧
          s.made.length ∉ (s.insert dst).destroyed := by
        refine ⟨?_, fun hd => Nat.lt_irrefl _ (hi.known _ hd)⟩
        simp [ConnFactory.insert]
      exact ⟨_, (hi.insert hc).callDel halive, callDel_due _ _ _⟩
    · exact ⟨xs, hi.insert hc, hdue⟩

theorem Settled.acts (h : Settled s) (as : List (Act Addr)) : Settled (s.acts as) := by
  induction as generalizing s with
  | nil => exact h
  | cons a as ih =>
    refine ih (?_ : Settled (s.act a))
    cases a with
    | connection dst fails => exact h.connection dst fails
    | del c => exact h.delAlive c
    | close c now =>
      cases now with
      | false => exact h
      | true => exact h.delAlive c

end connection

section work
variable {s : ConnFactory Addr} {xs : List Nat} [DecidableEq Addr]

omit [DecidableEq Addr] in
theorem Inv.destroyed_le (h : Inv s xs) : s.destroyed.length ≤ s.made.length := by
  have hsub : s.destroyed.Subperm (List.range s.made.length) :=
    List.subperm_of_subset h.once fun c hc => List.mem_range.mpr (h.known c hc)
  simpa using hsub.length_le

/-- The lookup finds the connection that has been popped, and it leaves the map. -/
theorem Inv.erase (h : Inv s (c :: xs)) : ∃ a, s.addr c = some a ∧ s.connections a = some c ∧
    Inv { s with toDel := (s.toDel.popFront ()).1,
                 connections := Function.update s.connections a none,
                 destroyed := s.destroyed ++ [c] } xs := by
  obtain ⟨hc, hnot⟩ := h.waiting c List.mem_cons_self
  have haddr : s.addr c = some s.made[c] := List.getElem?_eq_getElem hc
  have hconn : s.connections s.made[c] = some c := (h.owned _ c).mpr ⟨haddr, hnot⟩
  have hfresh : c ∉ xs := (List.nodup_cons.mp h.toDel.nodup).1
  refine ⟨_, haddr, hconn, h.toDel.pop.1, fun b d => ?_, fun d hd => ?_, fun d => ?_, ?_,
    fun d hd => ?_⟩
  · have hold := h.owned b d
    change Function.update s.connections s.made[c] none b = some d ↔
      s.addr d = some b ∧ d ∉ s.destroyed ++ [c]
    by_cases hb : b = s.made[c]
    · subst hb
      rw [Function.update_self]
      refine ⟨fun he => (by cases he), fun hd => ?_⟩
      have he := hold.mpr ⟨hd.1, fun hm => hd.2 (List.mem_append_left _ hm)⟩
      rw [hconn, Option.some.injEq] at he
      exact absurd (by simp [he]) hd.2
    · have hdc : s.addr d = some b → d ≠ c := by
        rintro hd rfl
        rw [haddr, Option.some.injEq] at hd
        exact hb hd.symm
      rw [Function.update_of_ne hb, hold, List.mem_append, List.mem_singleton, not_or]
      exact ⟨fun hd => ⟨hd.1, hd.2, hdc hd.1⟩, fun hd => ⟨hd.1, hd.2.1⟩⟩
  · obtain ⟨hlt, hd'⟩ := h.waiting d (List.mem_cons_of_mem c hd)
    refine ⟨hlt, ?_⟩
    rw [List.mem_append, List.mem_singleton, not_or]
    exact ⟨hd', fun he => hfresh (he ▸ hd)⟩
  · rw [h.asked d, List.mem_append, List.mem_singleton, List.mem_cons, or_assoc]
  · exact List.nodup_append.mpr ⟨h.once, by simp, fun d hd e he => by
      rw [List.mem_singleton.mp he]
      exact fun hde => hnot (hde ▸ hd)⟩
  · rcases List.mem_append.mp hd with hd | hd
    · exact h.known d hd
    · exact List.mem_singleton.mp hd ▸ hc

/-- The loop ends with an empty `to_del`, and `factory` has not been called. -/
theorem workLoop_returns (u : Users Addr) (h : Inv s xs)
    (hfuel : s.made.length < fuel + s.destroyed.length) :
    (workLoop u fuel s).Returns fun s' => Inv s' [] ∧ s'.made = s.made ∧
      s.destroyed <+: s'.destroyed ∧ s.asked <+: s'.asked := by
  induction fuel generalizing s xs with
  | zero =>
    have hle := h.destroyed_le
    omega
  | succ fuel ih =>
    obtain ⟨hpop, hres⟩ := h.toDel.pop
    rw [workLoop, hres]
    cases xs with
    | nil =>
      exact ⟨⟨hpop, h.owned, h.waiting, h.asked, h.once, h.known⟩, rfl, List.prefix_refl _,
        List.prefix_refl _⟩
    | cons c xs =>
      obtain ⟨a, haddr, hconn, hi⟩ := h.erase
      have haddr' : addr c { s with toDel := (s.toDel.popFront ()).1 } = some a := haddr
      obtain ⟨ys, hi', hmade, hdestroyed, hasked⟩ := hi.delAlives (u.dtor c)
      have hdel : del a u { s with toDel := (s.toDel.popFront ()).1 } =
          (u.dtor c).foldl (fun s d => s.delAlive d)
            { s with toDel := (s.toDel.popFront ()).1,
                     connections := Function.update s.connections a none,
                     destroyed := s.destroyed ++ [c] } := by
        simp only [del, mapIter, hconn, ConnFactory.erase]
      simp only [List.head?_cons, haddr', hdel]
      have hlen : s.made.length < fuel + (s.destroyed ++ [c]).length := by
        rw [List.length_append, List.length_singleton]
        omega
      refine (ih hi' (by rw [hmade, hdestroyed]; exact hlen)).mono ?_
      rintro s' ⟨hend, hm, hd, ha⟩
      rw [hdestroyed] at hd
      exact ⟨hend, hm.trans hmade, (List.prefix_append _ _).trans hd, hasked.trans ha⟩

end work

section run
variable {s : ConnFactory Addr} {xs : List Nat}

/-- What `work` leaves: the connections whose `del` has been called are destroyed, all others stay
where they are, and no connection is made. -/
structure Worked (s s' : ConnFactory Addr) : Prop where
  made : s'.made = s.made
  asked : s.asked <+: s'.asked
  kept : ∀ a c, s'.connections a = some c ↔ s.connections a = some c ∧ c ∉ s'.asked
  destroyed : ∀ c, c ∈ s'.destroyed ↔ c ∈ s'.asked

/-- The deletions are exact: who waits in `to_del` is in the map under its own address and has been
registered for work, `work` removes who waits and nobody else, and a connection is in the map until
it is destroyed, once. -/
structure Exact [DecidableEq Addr] (s : ConnFactory Addr) : Prop where
  waiting : ∃ xs, Holds s.toDel xs ∧ Due s xs ∧
    ∀ c ∈ xs, ∃ a, s.addr c = some a ∧ s.connections a = some c
  work : ∀ u, (s.work u).Returns (Worked s)
  once : s.destroyed.Nodup
  owned : ∀ c a, s.addr c = some a → (s.connections a = some c ↔ c ∉ s.destroyed)

variable [DecidableEq Addr]

theorem Inv.work (h : Inv s xs) (u : Users Addr) :
    (s.work u).Returns fun s' => Inv s' [] ∧ Worked s s' := by
  refine (workLoop_returns u h (by omega)).mono ?_
  rintro s' ⟨hend, hmade, hdestroyed, hasked⟩
  have hall : ∀ c, c ∈ s'.destroyed ↔ c ∈ s'.asked := fun c => by
    rw [hend.asked c]
    simp
  refine ⟨hend, hmade, hasked, fun a c => ?_, hall⟩
  rw [hend.owned, h.owned, ← hall c, addr, addr, hmade, and_assoc]
  refine and_congr_right fun _ => ⟨fun hc => ⟨fun hd => hc (hdestroyed.subset hd), hc⟩, And.right⟩

theorem Settled.exact (h : Settled s) : Exact s := by
  obtain ⟨xs, hi, hdue⟩ := h
  refine ⟨⟨xs, hi.toDel, hdue, fun c hc => ?_⟩, fun u => (hi.work u).mono fun _ h => h.2, hi.once,
    fun c a hc => ?_⟩
  · obtain ⟨hlt, hnot⟩ := hi.waiting c hc
    have haddr : s.addr c = some s.made[c] := List.getElem?_eq_getElem hlt
    exact ⟨_, haddr, (hi.owned _ c).mpr ⟨haddr, hnot⟩⟩
  · rw [hi.owned, and_iff_right hc]

/-- After `work` nobody waits. -/
theorem Inv.settled_work (h : Inv s xs) (u : Users Addr) : (s.work u).Returns Settled :=
  (h.work u).mono fun _ h => ⟨[], h.1, fun hne => absurd rfl hne⟩

theorem Settled.apply (h : Settled s) (o : Op Addr) : (s.apply o).Returns Settled := by
  cases o with
  | connection dst fails => exact h.connection dst fails
  | send dst fails as => exact (h.connection dst fails).acts as
  | parse src fails as =>
    rw [ConnFactory.apply]
    split
    · exact h
    · exact (h.connection src fails).acts as
  | del c => exact h.delAlive c
  | close c now => exact h.acts [.close c now]
  | timeout as => exact h.acts as
  | eventDel =>
    obtain ⟨xs, hi, hdue⟩ := h
    exact ⟨xs, ⟨hi.toDel, hi.owned, hi.waiting, hi.asked, hi.once, hi.known⟩, hdue⟩
  | install u =>
    obtain ⟨xs, hi, hdue⟩ := h
    have hi' : Inv { s with evLoop := true } xs :=
      ⟨hi.toDel, hi.owned, hi.waiting, hi.asked, hi.once, hi.known⟩
    simp only [ConnFactory.apply, install]
    split
    · exact ⟨xs, hi, hdue⟩
    · rename_i hloop
      split
      · exact hi'.settled_work u
      · rename_i hwork
        -- there was no work, so nobody waits
        refine ⟨xs, hi', fun hne => ?_⟩
        have hd := hdue hne
        rw [if_neg hloop] at hd
        exact absurd hd hwork
  | work u =>
    obtain ⟨xs, hi, hdue⟩ := h
    rw [ConnFactory.apply]
    split
    · have hi' : Inv { s with nextWork := false } xs :=
        ⟨hi.toDel, hi.owned, hi.waiting, hi.asked, hi.once, hi.known⟩
      exact hi'.settled_work u
    · exact ⟨xs, hi, hdue⟩

omit [DecidableEq Addr] in
theorem settled_new : Settled (new : ConnFactory Addr) := by
  have hholds : Holds (new : ConnFactory Addr).toDel [] := by
    refine ⟨⟨fun _ => List.nodup_nil, fun _ _ _ _ _ => rfl, fun _ hx => hx.elim,
      fun _ hl => hl.elim⟩, fun _ _ => rfl, fun _ _ => rfl, fun _ => Looped.nil _, fun x => ?_⟩
    simp [new, only, Queues.Member]
  refine ⟨[], ⟨hholds, fun a c => ?_, fun c hc => ?_, fun c => ?_, List.nodup_nil, fun c hc => ?_⟩,
    fun hne => absurd rfl hne⟩
  · simp [new, addr]
  · cases hc
  · simp [new]
  · cases hc

/-- In every run each step returns, and the deletions are exact after it. -/
theorem deletions_exact (os : List (Op Addr)) : (run step (.ret new) os).Returns Exact := by
  have hnew : Exec.Returns Settled (.ret (new : ConnFactory Addr)) := settled_new
  have hrun : (run step (.ret (new : ConnFactory Addr)) os).Returns Settled := by
    refine run_invariant_all (Exec.Returns Settled) (fun e o he => ?_) hnew os
    rw [step, Exec.returns_andThen]
    exact he.mono fun s h => h.apply o
  exact hrun.mono fun s h => h.exact

end run

end Evel.ConnFactory
