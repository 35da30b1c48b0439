import Evel.Model.ResolverLoop
import Evel.Proofs.DnsCallbacks
import Evel.Proofs.MainLoop
import Evel.Proofs.TimedDns

namespace Evel.Dns
open General
variable {s : Dns}

/-- Each callback that was given to `query` has been called or is due. -/
def NoneLost (s : Dns) : Prop := ∀ c < s.nextCb, c ∈ s.called ∨ ∃ n, c ∈ s.due n

theorem NoneLost.of_eq (h : NoneLost s) (hn : d.nextCb = s.nextCb) (hc : d.called = s.called)
    (hd : d.due = s.due) : NoneLost d := by
  rwa [NoneLost, hn, hc, hd]

/-- A new callback is called. -/
theorem NoneLost.callNew (h : NoneLost s) :
    NoneLost ({ s with nextCb := s.nextCb + 1 }.call s.nextCb err ips) := by
  intro c hc
  rw [called_call, due_call]
  obtain hlt | rfl := Nat.lt_succ_iff_lt_or_eq.mp hc
  · exact (h c hlt).imp_left (List.mem_append_left _)
  · exact .inl (by simp)

/-- A new callback is registered. -/
theorem NoneLost.push (h : NoneLost s) (hl : s.looping n = false)
    (hcbs : w.cbs = s.cbsOf n ++ [s.nextCb]) :
    NoneLost ({ s with nextCb := s.nextCb + 1 }.setWcb n w) := by
  have hdue : ({ s with nextCb := s.nextCb + 1 }.setWcb n w).due =
      Function.update s.due n (s.due n ++ [s.nextCb]) := by
    rw [due_setWcb (s := { s with nextCb := s.nextCb + 1 }) hl, hcbs, due_not_looping hl]
    rfl
  intro c hc
  rw [hdue]
  obtain hlt | rfl := Nat.lt_succ_iff_lt_or_eq.mp hc
  · refine (h c hlt).imp_right ?_
    rintro ⟨m, hm⟩
    refine ⟨m, ?_⟩
    by_cases hmn : m = n
    · subst hmn
      rw [Function.update_self]
      exact List.mem_append_left _ hm
    · rwa [Function.update_of_ne hmn]
  · exact .inr ⟨n, by simp⟩

theorem NoneLost.proceed (h : NoneLost s) : NoneLost s.proceed := by
  obtain ⟨-, he⟩ | ⟨l, hl, hleft, he⟩ | ⟨l, c, left, hl, hleft, he⟩ := proceed_cases s
  · rwa [he]
  · rw [he]
    refine h.of_eq erase_nextCb erase_called ?_
    rw [due_idle (by simp), cbsOf_erase]
    funext n
    by_cases hn : n = l.name
    · simp [hn, due, hl, hleft]
    · rw [Function.update_of_ne hn, due_not_looping (by simpa [looping, hl] using Ne.symm hn)]
      rfl
  · rw [he]
    intro x hx
    rw [called_call, due_call]
    obtain hc | ⟨n, hn⟩ := h x hx
    · exact .inl (List.mem_append_left _ hc)
    · by_cases hnl : l.name = n
      · have hxs : x ∈ c :: left := by simpa [due, hl, hnl, hleft] using hn
        obtain rfl | hxs := List.mem_cons.mp hxs
        · exact .inl (by simp)
        · exact .inr ⟨n, by simpa [due, hnl] using hxs⟩
      · exact .inr ⟨n, by simpa [due, hl, hnl, cbsOf] using hn⟩

theorem NoneLost.startLoop (h : NoneLost s) (hl : s.loop = none) (hw : s.waitingReqs n = some w) :
    NoneLost (s.startLoop ⟨n, w.cbs, err, ips⟩) := by
  refine NoneLost.proceed (h.of_eq rfl rfl ?_)
  rw [due_idle hl]
  funext m
  by_cases hm : n = m
  · subst hm
    simp [due, cbsOf, hw]
  · simp [due, cbsOf, hm]

/-- With a server, `query` calls no callback that it registers. -/
theorem NoneLost.send (h : NoneLost s) (hs : s.HasServer conf) :
    (s.send c conf).Split NoneLost (fun _ => True) := by
  unfold Dns.send
  obtain hs | ⟨hused, hconf⟩ := hs
  · have hne : s.serverIps.isEmpty = false := by simpa using hs
    simp only [hne, Bool.false_and, Bool.false_eq_true, if_false]
    exact h
  · by_cases hne : s.serverIps.isEmpty = true
    · simp only [hne, hused, Bool.not_false, Bool.and_self, if_true]
      cases conf with
      | none => trivial
      | some lines =>
        have hlines : (readResolvConf lines).isEmpty = false := by simpa using hconf lines rfl
        simp only [hlines, Bool.false_eq_true, if_false]
        exact h
    · simp only [hne, Bool.false_and, Bool.false_eq_true, if_false]
      exact h

theorem NoneLost.query (h : NoneLost s) (hx : Served s (.query addr num moved conf)) :
    (s.query addr num moved conf).Split NoneLost (fun _ => True) := by
  cases hc : s.cachedEntries addr with
  | some e =>
    simp only [Dns.query, hc]
    exact h.callNew
  | none =>
    obtain ⟨hl, hserver⟩ := hx hc
    cases hw : s.waitingReqs addr with
    | some w =>
      have hl' : looping addr { s with nextCb := s.nextCb + 1 } = false := hl
      simp only [Dns.query, hc, hw, hl', Bool.and_false, Bool.false_eq_true, if_false]
      exact h.push hl (by rw [cbsOf, hw]; rfl)
    | none =>
      simp only [Dns.query, hc, hw]
      split
      · trivial
      · exact (h.push hl (by rw [cbsOf, hw]; rfl)).send (hserver hw)

theorem NoneLost.setEntry (h : NoneLost s) (n : Name) (e : Entry) : NoneLost (s.setEntry n e) := h

theorem NoneLost.ans (h : NoneLost s) (hl : s.loop = none) (d : Datagram) :
    (s.ans d).Split NoneLost (fun _ => True) := by
  obtain he | he | ⟨n, e, -, -, he | ⟨w, ips, hw, he⟩⟩ := ans_cases d s
  · rw [he]
    exact h
  · rw [he]
    trivial
  · rw [he]
    exact h.setEntry n e
  · rw [he]
    exact (h.setEntry n e).startLoop hl hw

theorem NoneLost.onTimeout (h : NoneLost s) (hl : s.loop = none)
    (hnamed : ∀ n w, s.waitingReqs n = some w → w.name = n) (n : Name) :
    NoneLost (s.onTimeout n) := by
  unfold Dns.onTimeout
  cases hw : s.waitingReqs n with
  | none => exact h
  | some w =>
    rw [← hnamed n w hw] at hw
    exact h.startLoop hl hw

theorem NoneLost.ret (h : NoneLost s) : NoneLost s.ret := by
  unfold Dns.ret
  split
  · exact h
  · exact NoneLost.proceed (s := { s with depth := 0 }) h
  · exact h

/-- What holds between two steps. -/
structure Answering (s : Dns) : Prop extends Settled s where
  noneLost : NoneLost s

/-- Without a request every callback has been called. -/
theorem Answering.told (h : Answering s) (hd : s.depth = 0) (hn : ∀ n, s.waitingReqs n = none) :
    s.called.Nodup ∧ ∀ c < s.nextCb, c ∈ s.called := by
  refine ⟨h.ledger.once, fun c hc => (h.noneLost c hc).resolve_right ?_⟩
  rintro ⟨n, hin⟩
  rw [due_idle (h.resting hd), cbsOf, hn] at hin
  cases hin

end Evel.Dns

namespace Evel.TimedDns
open General Dns
variable {s : TimedDns}

/-- What a step of the resolver asks. -/
def Served (s : TimedDns) : Input → Prop
  | .query addr num moved conf => Dns.Served s.dns (.query addr num moved conf)
  | _ => True

instance (s : TimedDns) : DecidablePred (Served s)
  | .query addr num moved conf =>
    inferInstanceAs (Decidable (Dns.Served s.dns (.query addr num moved conf)))
  | .ans _ | .shift | .expire | .ret => .isTrue trivial

end Evel.TimedDns

namespace Evel.MainLoop
open General

/-- Only user code counts waiting events itself. -/
theorem held_apply (s : MainLoop) (i : Input) (hi : i ≠ .incNbWaitingEvents)
    (hd : i ≠ .decNbWaitingEvents) :
    (s.apply i).Split (fun s' => s'.held = s.held) (fun _ => True) := by
  have hagain : ∀ s : MainLoop, s.again.held = s.held := by
    intro s
    rw [again]
    split <;> rfl
  cases i with
  | loop i =>
    rw [MainLoop.apply]
    split_ifs
    · rfl
    · refine (Exec.Split.all (P := fun _ => True) (Q := fun _ => True) (fun _ => trivial)
        (fun _ => trivial) _).thenWith (fun l _ => ?_) (fun _ _ => trivial)
      split
      · trivial
      · change (s.follow i l).held = s.held
        rw [MainLoop.follow]
        split
        · exact hagain _
        · rfl
    · rfl
  | run =>
    change (if s.running then s else _ : MainLoop).held = s.held
    split <;> rfl
  | stop retVal => rfl
  | incNbWaitingEvents => exact absurd rfl hi
  | decNbWaitingEvents => exact absurd rfl hd
  | remEventObj x =>
    rw [MainLoop.apply]
    split
    · simp only [MainLoop.remEventObj]
      split
      · rfl
      · split
        · trivial
        · rfl
    · rfl
  | pollError intr =>
    change (if _ then if intr then s.again else s.leave .failed (-1) else s : MainLoop).held = _
    split_ifs
    · exact hagain s
    · rfl
    · rfl

/-- The test of `nb_waiting_events` comes to an end. -/
theorem asks_returns {s : MainLoop} {i : Input} (h : s.asks i = true) :
    ∃ s', s.apply i = .ret s' := by
  by_cases hn : s.nbWaitingEvents = 0
  · exact ⟨_, apply_idle h hn⟩
  · exact ⟨_, apply_polls h hn⟩

end Evel.MainLoop

namespace Evel.ResolverLoop
open General Dns
variable {s : ResolverLoop}

/-- The main loop counts the requests of the resolver. -/
structure Sound (s : ResolverLoop) : Prop where
  main : MainLoop.Sound s.main
  resolver : TimedDns.Steady s.resolver
  held : s.main.held = s.own + s.resolver.nbWaitingEvents.toNat

theorem sound_new : Sound new := ⟨MainLoop.sound_new, TimedDns.steady_new, rfl⟩

theorem nonneg (h : TimedDns.Steady d) : 0 ≤ d.nbWaitingEvents := by
  obtain ⟨ns, -, -, hn⟩ := h.counted
  rw [hn]
  exact Int.natCast_nonneg _

theorem Sound.recount (h : Sound s) (hd : TimedDns.Steady d) : Sound (s.recount d) := by
  refine ⟨{ h.main with count := ?_ }, hd, rfl⟩
  have hcount := h.main.count
  have hheld := h.held
  have hold := nonneg h.resolver
  have hnew := nonneg hd
  change s.main.nbWaitingEvents + (d.nbWaitingEvents - s.resolver.nbWaitingEvents) =
    (s.main.awaited.length : Int) + (s.own + d.nbWaitingEvents.toNat : Nat)
  omega

theorem Sound.withMain (h : Sound s) {m : MainLoop} (hm : MainLoop.Sound m)
    (hheld : m.held = s.main.held) : Sound (s.withMain m) :=
  ⟨hm, h.resolver, hheld.trans h.held⟩

/-- What user code does not count goes to the main loop as it is. -/
theorem apply_main (R : BinStream κ) (s : ResolverLoop) {i : MainLoop.Input}
    (hi : i ≠ .incNbWaitingEvents) (hd : i ≠ .decNbWaitingEvents) :
    s.apply R (.main i) =
      if ofRun i && s.resolver.dns.depth ≠ 0 then .ret s else (s.main.apply i).map s.withMain := by
  cases i with
  | incNbWaitingEvents => exact absurd rfl hi
  | decNbWaitingEvents => exact absurd rfl hd
  | _ => rfl

theorem Sound.apply (R : BinStream κ) (h : Sound s) (i : Input) :
    (s.apply R i).Split Sound (fun _ => True) := by
  cases i with
  | resolver i =>
    rw [ResolverLoop.apply, Exec.split_map]
    exact (h.resolver.apply R i).mono (fun d hd => h.recount hd) (fun _ _ => trivial)
  | main i =>
    have hm := h.main.apply i
    by_cases hi : i = .incNbWaitingEvents
    · subst hi
      refine ⟨hm, h.resolver, ?_⟩
      have hheld := h.held
      simp only
      omega
    · by_cases hd : i = .decNbWaitingEvents
      · subst hd
        rw [ResolverLoop.apply]
        split
        · exact h
        · next hown =>
          have hheld := h.held
          have hpos : s.main.held ≠ 0 := by omega
          have hdec : s.main.apply .decNbWaitingEvents = .ret { s.main with
              nbWaitingEvents := s.main.nbWaitingEvents - 1, held := s.main.held - 1 } := by
            rw [MainLoop.apply, if_neg hpos]
          rw [hdec] at hm ⊢
          refine ⟨hm, h.resolver, ?_⟩
          simp only
          omega
      · rw [apply_main R s hi hd]
        split
        · exact h
        · rw [Exec.split_map]
          exact (hm.and (s.main.held_apply i hi hd)).mono (fun m hm => h.withMain hm.1 hm.2)
            (fun _ _ => trivial)

theorem sound_step (R : BinStream κ) {e : Exec ResolverLoop} (h : e.Split Sound (fun _ => True))
    (i : Input) : (step R e i).Split Sound (fun _ => True) := h.andThen (fun _ hs => hs.apply R i)

/-- When `run` comes to its test of `nb_waiting_events`, it returns without a request pending, or
calls `epoll_wait`. -/
def Decided (R : BinStream κ) (e : Exec ResolverLoop) (i : Input) : Prop :=
  match e with
  | .ret s =>
    let s' := (step R e i).state
    s.asks i = true →
      (s'.main.running = false ∧ ∀ n, ¬ s'.resolver.Pending n) ∨
        (s'.main.running = true ∧ s'.main.loop.phase = .poll)
  | _ => True

/-- If it returns, each callback that was given to `query` has been called, once. -/
def Answered (R : BinStream κ) (e : Exec ResolverLoop) (i : Input) : Prop :=
  match e with
  | .ret s =>
    let s' := (step R e i).state
    s.asks i = true → s'.main.running = false →
      s'.resolver.dns.called.Nodup ∧ ∀ c < s'.resolver.dns.nextCb, c ∈ s'.resolver.dns.called
  | _ => True

/-- What each step asks of the queries. -/
def Served (s : ResolverLoop) : Input → Prop
  | .resolver i => TimedDns.Served s.resolver i
  | .main _ => True

instance (s : ResolverLoop) : DecidablePred (Served s)
  | .resolver i => inferInstanceAs (Decidable (TimedDns.Served s.resolver i))
  | .main _ => .isTrue trivial

/-- The test is one of the main loop, and no callback runs. -/
theorem asks_step (R : BinStream κ) (h : s.asks i = true) :
    ∃ j m, s.resolver.dns.depth = 0 ∧ s.main.asks j = true ∧ s.main.apply j = .ret m ∧
      step R (.ret s) i = .ret (s.withMain m) := by
  cases i with
  | resolver i => cases h
  | main j =>
    simp only [ResolverLoop.asks, Bool.and_eq_true, decide_eq_true_eq] at h
    obtain ⟨hd, hj⟩ := h
    obtain ⟨m, hm⟩ := MainLoop.asks_returns hj
    refine ⟨j, m, hd, hj, hm, ?_⟩
    rw [step, Exec.andThen, apply_main R s (fun he => by simp [he, MainLoop.asks] at hj)
      (fun he => by simp [he, MainLoop.asks] at hj)]
    simp [hd, hm, Exec.map]

theorem Sound.decided (R : BinStream κ) (h : Sound s) (i : Input) : Decided R (.ret s) i := by
  intro ha
  obtain ⟨j, m, -, hj, hm, hstep⟩ := asks_step R ha
  have hs : Sound (s.withMain m) := by
    have hsound : (Exec.ret s).Split Sound (fun _ => True) := h
    have := sound_step R hsound i
    rwa [hstep] at this
  have hmain := h.main.decided j hj
  rw [MainLoop.step, Exec.andThen, hm] at hmain
  rw [hstep]
  refine hmain.imp (fun hl => ⟨hl.1, fun n hn => ?_⟩) (fun hr => ⟨hr.1, hr.2.1⟩)
  -- a request that is pending would be awaited
  obtain ⟨ns, -, hmem, hcount⟩ := hs.resolver.counted
  have hpos : 0 < ns.length := List.length_pos_of_mem ((hmem n).mpr hn)
  refine hl.2.1 (.inl ?_)
  have hheld := hs.held
  rw [hcount, Int.toNat_natCast] at hheld
  have hle : ns.length ≤ m.held := hheld ▸ Nat.le_add_left _ _
  exact Nat.lt_of_lt_of_le hpos hle

theorem Sound.answered (R : BinStream κ) (h : Sound s) (ha : s.resolver.dns.Answering)
    (i : Input) : Answered R (.ret s) i := by
  intro hasks hstop
  have hdec := h.decided R i hasks
  obtain ⟨j, m, hd, -, -, hstep⟩ := asks_step R hasks
  rw [hstep] at hdec hstop ⊢
  obtain ⟨-, hnone⟩ | ⟨hrun, -⟩ := hdec
  · exact ha.told hd (fun n => not_not.mp (hnone n))
  · rw [hrun] at hstop
    cases hstop

end Evel.ResolverLoop
