import Evel.General.Ledger
import Evel.General.Runs
import Evel.Proofs.DnsAnswer

namespace Evel.Dns
open General
variable {s : Dns} {c : CallbackId} {w : Wcb} {l : Loop}

/-- The callbacks that are registered for a name. -/
def cbsOf (s : Dns) (n : Name) : List CallbackId := (s.waitingReqs n).elim [] Wcb.cbs

/-- The callbacks of a name that are still to be called. -/
def due (s : Dns) (n : Name) : List CallbackId :=
  match s.loop with
  | none => s.cbsOf n
  | some l => if l.name = n then l.left else s.cbsOf n

/-- No callback is called twice, and a request goes when all of its callbacks have been called. -/
structure ExactlyOnce (s : Dns) : Prop where
  once : s.called.Nodup
  complete : ∀ r ∈ s.removals, ∀ c ∈ r.cbs, c ∈ r.called

/-- Each callback that is registered is due or has been called, and what is due is called once. -/
structure Accounted (s : Dns) : Prop where
  ledger : Ledger s.nextCb s.due s.called
  covered : ∀ n, ∀ c ∈ s.cbsOf n, c ∈ s.due n ∨ c ∈ s.called
  named : ∀ n w, s.waitingReqs n = some w → w.name = n
  complete : ∀ r ∈ s.removals, ∀ c ∈ r.cbs, c ∈ r.called

/-- A loop waits only while a callback runs. -/
def Resting (s : Dns) : Prop := s.depth = 0 → s.loop = none

theorem accounted_new : Accounted new where
  ledger := Ledger.empty
  covered := nofun
  named := nofun
  complete := nofun

theorem Accounted.exactlyOnce (h : Accounted s) : ExactlyOnce s := ⟨h.ledger.once, h.complete⟩

@[simp] theorem called_call : (call c err ips s).called = s.called ++ [c] := by
  simp [called, call]

@[simp] theorem due_call : (call c err ips s).due = s.due := rfl

theorem due_idle (h : s.loop = none) : s.due = s.cbsOf := by
  funext n
  simp only [due, h]

theorem due_not_looping (h : s.looping n = false) : s.due n = s.cbsOf n := by
  unfold due
  cases hl : s.loop with
  | none => rfl
  | some l =>
    rw [looping, hl] at h
    exact if_neg (by simpa using h)

/-- A callback that was never seen is called. -/
theorem Accounted.callNew (h : Accounted s) :
    Accounted ({ s with nextCb := s.nextCb + 1 }.call s.nextCb err ips) where
  ledger := by
    rw [called_call, due_call]
    exact h.ledger.direct
  covered n c hc := by
    rw [called_call]
    exact (h.covered n c hc).imp_right (List.mem_append_left _)
  named := h.named
  complete := h.complete

@[simp] theorem setWcb_waitingReqs :
    (setWcb n w s).waitingReqs = Function.update s.waitingReqs n (some w) := rfl

theorem cbsOf_setWcb : (setWcb n w s).cbsOf = Function.update s.cbsOf n w.cbs := by
  funext m
  by_cases hm : m = n
  · subst hm
    simp [cbsOf]
  · simp [cbsOf, hm]

theorem mem_cbsOf_setWcb (hc : c ∈ (setWcb n w s).cbsOf m) :
    m = n ∧ c ∈ w.cbs ∨ m ≠ n ∧ c ∈ s.cbsOf m := by
  rw [cbsOf_setWcb] at hc
  by_cases hm : m = n
  · rw [hm, Function.update_self] at hc
    exact .inl ⟨hm, hc⟩
  · rw [Function.update_of_ne hm] at hc
    exact .inr ⟨hm, hc⟩

theorem due_setWcb (hl : s.looping n = false) :
    (setWcb n w s).due = Function.update s.due n w.cbs := by
  funext m
  by_cases hm : m = n
  · subst hm
    rw [due_not_looping (s := setWcb m w s) hl, cbsOf_setWcb, Function.update_self,
      Function.update_self]
  · have hcbs : (setWcb n w s).cbsOf m = s.cbsOf m := by
      rw [cbsOf_setWcb, Function.update_of_ne hm]
    rw [Function.update_of_ne hm, due, due, hcbs]
    rfl

/-- A callback that was never seen is registered, with no loop over the callbacks of its name. -/
theorem Accounted.push (h : Accounted s) (hl : s.looping n = false) (hw : w.name = n)
    (hcbs : w.cbs = s.cbsOf n ++ [s.nextCb]) :
    Accounted ({ s with nextCb := s.nextCb + 1 }.setWcb n w) := by
  have hdue : ({ s with nextCb := s.nextCb + 1 }.setWcb n w).due =
      Function.update s.due n (s.due n ++ [s.nextCb]) := by
    rw [due_setWcb (s := { s with nextCb := s.nextCb + 1 }) hl, hcbs, due_not_looping hl]
    rfl
  refine ⟨hdue ▸ h.ledger.enqueue n, ?_, ?_, h.complete⟩
  · intro m c hc
    rw [cbsOf_setWcb, hcbs] at hc
    rw [hdue]
    by_cases hm : m = n
    · subst hm
      rw [Function.update_self] at hc ⊢
      exact .inl (due_not_looping hl ▸ hc)
    · rw [Function.update_of_ne hm] at hc ⊢
      exact h.covered m c hc
  · intro m w' hm
    by_cases he : m = n
    · subst he
      rw [setWcb_waitingReqs, Function.update_self, Option.some_inj] at hm
      exact hm ▸ hw
    · rw [setWcb_waitingReqs, Function.update_of_ne he] at hm
      exact h.named m w' hm

/-- The loop calls its next callback. -/
theorem Accounted.callNext (h : Accounted s) (hl : s.loop = some l) (hleft : l.left = c :: left) :
    Accounted ({ s with loop := some { l with left := left } }.call c err ips) := by
  have hdue : ({ s with loop := some { l with left := left } } : Dns).due =
      Function.update s.due l.name left := by
    funext n
    by_cases hn : n = l.name
    · subst hn
      simp [due]
    · simp [due, hl, hn, Ne.symm hn, cbsOf]
  have hhead : s.due l.name = c :: left := by simp [due, hl, hleft]
  refine ⟨?_, ?_, h.named, h.complete⟩
  · rw [called_call, due_call, hdue]
    exact h.ledger.serve hhead
  · intro n x hx
    rw [called_call, due_call, hdue]
    rcases h.covered n x hx with hd | hd
    · by_cases hn : n = l.name
      · subst hn
        rw [hhead] at hd
        rw [Function.update_self]
        rcases List.mem_cons.mp hd with rfl | hd
        · exact .inr (by simp)
        · exact .inl hd
      · rw [Function.update_of_ne hn]
        exact .inl hd
    · exact .inr (List.mem_append_left _ hd)

theorem erase_waitingReqs : (erase n s).waitingReqs = Function.update s.waitingReqs n none := by
  unfold erase
  cases hw : s.waitingReqs n with
  | none => exact (Function.update_eq_self_iff.mpr hw.symm).symm
  | some w => rfl

theorem erase_removals (hr : r ∈ (erase n s).removals) :
    r ∈ s.removals ∨ r = ⟨s.cbsOf n, s.called⟩ := by
  unfold erase at hr
  cases hw : s.waitingReqs n with
  | none =>
    rw [hw] at hr
    exact .inl hr
  | some w =>
    simp only [hw] at hr
    rcases List.mem_append.mp hr with hr | hr
    · exact .inl hr
    · exact .inr (by rw [List.mem_singleton.mp hr, cbsOf, hw]; rfl)

@[simp] theorem erase_loop : (erase n s).loop = s.loop := by
  unfold erase
  split <;> rfl

@[simp] theorem erase_nextCb : (erase n s).nextCb = s.nextCb := by
  unfold erase
  split <;> rfl

@[simp] theorem erase_called : (erase n s).called = s.called := by
  unfold erase
  split <;> rfl

theorem cbsOf_erase : (erase n s).cbsOf = Function.update s.cbsOf n [] := by
  funext m
  by_cases hm : m = n
  · subst hm
    simp [cbsOf, erase_waitingReqs]
  · simp [cbsOf, erase_waitingReqs, hm]

theorem mem_cbsOf_erase (hc : c ∈ (erase m s).cbsOf n) : n ≠ m ∧ c ∈ s.cbsOf n := by
  rw [cbsOf_erase] at hc
  by_cases hn : n = m
  · rw [hn, Function.update_self] at hc
    exact absurd hc List.not_mem_nil
  · rw [Function.update_of_ne hn] at hc
    exact ⟨hn, hc⟩

/-- The loop has called all its callbacks, and the request is erased. -/
theorem Accounted.eraseDone (h : Accounted s) (hl : s.loop = some l) (hleft : l.left = []) :
    Accounted ({ s with loop := none }.erase l.name) := by
  have hnone : s.due l.name = [] := by simp [due, hl, hleft]
  have hdue : ({ s with loop := none }.erase l.name).due = s.due := by
    rw [due_idle (by simp), cbsOf_erase]
    funext n
    by_cases hn : n = l.name
    · rw [hn, Function.update_self, hnone]
    · rw [Function.update_of_ne hn, due_not_looping (by simpa [looping, hl] using Ne.symm hn)]
      rfl
  refine ⟨by rw [hdue, erase_called, erase_nextCb]; exact h.ledger, ?_, ?_, ?_⟩
  · intro n c hc
    obtain ⟨-, hc⟩ := mem_cbsOf_erase hc
    rw [hdue, erase_called]
    exact h.covered n c hc
  · intro n w hw
    rw [erase_waitingReqs] at hw
    by_cases hn : n = l.name
    · rw [hn, Function.update_self] at hw
      exact absurd hw nofun
    · rw [Function.update_of_ne hn] at hw
      exact h.named n w hw
  · intro r hr c hc
    rcases erase_removals hr with hr | rfl
    · exact h.complete r hr c hc
    · rcases h.covered l.name c hc with hd | hd
      · rw [hnone] at hd
        exact absurd hd List.not_mem_nil
      · exact hd

theorem proceed_cases (s : Dns) :
    (s.loop = none ∧ s.proceed = s) ∨
    (∃ l, s.loop = some l ∧ l.left = [] ∧ s.proceed = { s with loop := none }.erase l.name) ∨
    ∃ l c left, s.loop = some l ∧ l.left = c :: left ∧
      s.proceed = { s with loop := some { l with left := left } }.call c l.err l.ipAddrs := by
  cases hl : s.loop with
  | none => exact .inl ⟨rfl, by rw [proceed, hl]⟩
  | some l =>
    right
    cases hleft : l.left with
    | nil => exact .inl ⟨l, rfl, hleft, by simp only [proceed, hl, hleft]⟩
    | cons c left => exact .inr ⟨l, c, left, rfl, hleft, by simp only [proceed, hl, hleft]⟩

theorem Accounted.proceed (h : Accounted s) : Accounted s.proceed := by
  obtain ⟨-, he⟩ | ⟨l, hl, hleft, he⟩ | ⟨l, c, left, hl, hleft, he⟩ := proceed_cases s
  · rwa [he]
  · rw [he]
    exact h.eraseDone hl hleft
  · rw [he]
    exact h.callNext hl hleft

theorem resting_proceed (s : Dns) : Resting s.proceed := by
  intro hd
  obtain ⟨hl, he⟩ | ⟨l, -, -, he⟩ | ⟨l, c, left, -, -, he⟩ := proceed_cases s
  · rw [he]
    exact hl
  · rw [he, erase_loop]
  · rw [he] at hd
    exact absurd hd (Nat.succ_ne_zero s.depth)

/-- `ans` and `on_timeout` start a loop over the callbacks of a request. -/
theorem Accounted.startLoop (h : Accounted s) (hl : s.loop = none)
    (hw : s.waitingReqs n = some w) :
    Accounted (s.startLoop ⟨n, w.cbs, err, ips⟩) := by
  have hdue : ({ s with loop := some ⟨n, w.cbs, err, ips⟩ } : Dns).due = s.due := by
    rw [due_idle hl]
    funext m
    by_cases hm : n = m
    · subst hm
      simp [due, cbsOf, hw]
    · simp [due, cbsOf, hm]
  refine Accounted.proceed ⟨hdue ▸ h.ledger, ?_, h.named, h.complete⟩
  intro m c hc
  rw [hdue]
  exact h.covered m c hc

theorem Accounted.setEntry (h : Accounted s) : Accounted (s.setEntry n e) := { h with }

/-- `ans` does nothing but change the entry of one accepted name, unless it comes to the callbacks
of its request. -/
theorem ans_cases (d : Datagram) (s : Dns) :
    s.ans d = .ret s ∨ s.ans d = .undef s ∨
      ∃ n e, (∃ i ∈ d.items, i.owner = some n) ∧ s.accepts d.num n = true ∧
        (s.ans d = .ret (s.setEntry n e) ∨ ∃ w ips, s.waitingReqs n = some w ∧
          s.ans d = .ret ((s.setEntry n e).startLoop ⟨n, w.cbs, .ok, ips⟩)) := by
  obtain ⟨num, is⟩ := d
  cases is with
  | nil => exact .inl rfl
  | cons i is =>
    have hr := readAns_cons num i is s
    cases ho : i.owner with
    | none =>
      rw [ho] at hr
      exact .inr (.inl (by rw [ans, hr]))
    | some n =>
      simp only [ho] at hr
      by_cases ha : s.accepts num n = true
      · rw [if_pos ha] at hr
        have hm : ∃ j ∈ i :: is, j.owner = some n := ⟨i, List.mem_cons_self, ho⟩
        obtain ⟨w, hw⟩ : ∃ w, s.waitingReqs n = some w := by
          cases hw : s.waitingReqs n with
          | none => simp [accepts, hw] at ha
          | some w => exact ⟨w, rfl⟩
        right
        right
        by_cases hall : is.all (Item.ownedBy n) = true
        · rw [if_pos hall] at hr
          obtain ⟨e, he, hname⟩ : ∃ e, s.readAns ⟨num, i :: is⟩ =
              .on ⟨some n, some n⟩ (s.setEntry n e) ∧ e.name = n :=
            ⟨_, hr, by rw [gather_name, opened]⟩
          refine ⟨n, e, hm, ha, .inr ⟨w, e.ipAddrs, hw, ?_⟩⟩
          simp only [ans, he, setEntry_waitingReqs, hw, Option.bind_some, setEntry_cachedEntries,
            Function.update_self, hname]
        · rw [if_neg hall] at hr
          exact ⟨n, _, hm, ha, .inl (by rw [ans, hr])⟩
      · rw [if_neg ha] at hr
        exact .inl (by rw [ans, hr])

/-- There is a server, or resolv.conf has not been read and names one. -/
def HasServer (resolvConf : Option (List Name)) (s : Dns) : Prop :=
  s.serverIps ≠ [] ∨
    (s.usedResolv = false ∧ ∀ lines ∈ resolvConf, readResolvConf lines ≠ [])

/-- What a step asks. A query whose answer is not known is not made by a callback of the same
name, and if it registers a request, there is a server to send it to. -/
def Served (s : Dns) : Input → Prop
  | .query addr _ _ resolvConf => s.cachedEntries addr = none →
      s.looping addr = false ∧ (s.waitingReqs addr = none → s.HasServer resolvConf)
  | _ => True

instance (resolvConf : Option (List Name)) (s : Dns) : Decidable (s.HasServer resolvConf) :=
  inferInstanceAs (Decidable (s.serverIps ≠ [] ∨
    (s.usedResolv = false ∧ ∀ lines ∈ resolvConf, readResolvConf lines ≠ [])))

instance (s : Dns) : DecidablePred (Served s)
  | .query addr _ _ resolvConf => inferInstanceAs (Decidable (s.cachedEntries addr = none →
      s.looping addr = false ∧ (s.waitingReqs addr = none → s.HasServer resolvConf)))
  | .ans _ | .timeout _ | .ret => .isTrue trivial

/-- What holds between two steps. -/
structure Settled (s : Dns) : Prop extends Accounted s where
  resting : Resting s

theorem Settled.callNew (h : Accounted s) :
    Settled ({ s with nextCb := s.nextCb + 1 }.call s.nextCb err ips) :=
  ⟨h.callNew, nofun⟩

theorem Settled.push (h : Settled s) (hl : s.looping n = false) (hw : w.name = n)
    (hcbs : w.cbs = s.cbsOf n ++ [s.nextCb]) :
    Settled ({ s with nextCb := s.nextCb + 1 }.setWcb n w) :=
  ⟨h.toAccounted.push hl hw hcbs, h.resting⟩

/-- With a server no callback is called while a request is sent. -/
theorem Settled.send (h : Settled s) (hs : s.HasServer conf) :
    (s.send c conf).Split Settled Settled := by
  unfold Dns.send
  rcases hs with hs | ⟨hused, hconf⟩
  · have hne : s.serverIps.isEmpty = false := by simpa using hs
    simp only [hne, Bool.false_and, Bool.false_eq_true, if_false]
    exact h
  · by_cases hne : s.serverIps.isEmpty = true
    · simp only [hne, hused, Bool.not_false, Bool.and_self, if_true]
      cases conf with
      | none => exact { h with }
      | some lines =>
        have hlines : (readResolvConf lines).isEmpty = false := by simpa using hconf lines rfl
        simp only [hlines, Bool.false_eq_true, if_false]
        exact { h with }
    · simp only [hne, Bool.false_and, Bool.false_eq_true, if_false]
      exact h

theorem Settled.query (h : Settled s) (hx : Served s (.query addr num moved conf)) :
    (s.query addr num moved conf).Split Settled Settled := by
  cases hc : s.cachedEntries addr with
  | some e =>
    have he : s.query addr num moved conf =
        .ret ({ s with nextCb := s.nextCb + 1 }.call s.nextCb .ok e.ipAddrs) := by
      simp only [Dns.query, hc]
    rw [he]
    exact Settled.callNew h.toAccounted
  | none =>
    obtain ⟨hl, hserver⟩ := hx hc
    cases hw : s.waitingReqs addr with
    | some w =>
      have hl' : looping addr { s with nextCb := s.nextCb + 1 } = false := hl
      have he : s.query addr num moved conf = .ret ({ s with nextCb := s.nextCb + 1 }.setWcb addr
          { w with cbs := w.cbs ++ [s.nextCb] }) := by
        simp only [Dns.query, hc, hw, hl', Bool.and_false, Bool.false_eq_true, if_false]
      rw [he]
      exact h.push hl (h.named addr w hw) (by rw [cbsOf, hw]; rfl)
    | none =>
      have hpush : Settled ({ s with nextCb := s.nextCb + 1 }.setWcb addr
          { name := addr, cbs := [s.nextCb], num := num }) :=
        h.push hl rfl (by rw [cbsOf, hw]; rfl)
      simp only [Dns.query, hc, hw]
      split
      · exact hpush
      · exact hpush.send (hserver hw)

theorem Settled.ans (h : Settled s) (hd : s.depth = 0) (d : Datagram) :
    (s.ans d).Split Settled Settled := by
  obtain he | he | ⟨n, e, -, -, he | ⟨w, ips, hw, he⟩⟩ := ans_cases d s
  · rw [he]
    exact h
  · rw [he]
    exact h
  · rw [he]
    exact ⟨h.setEntry, h.resting⟩
  · rw [he]
    exact ⟨h.setEntry.startLoop (h.resting hd) hw, resting_proceed _⟩

theorem Settled.onTimeout (h : Settled s) (hd : s.depth = 0) (n : Name) :
    Settled (s.onTimeout n) := by
  unfold Dns.onTimeout
  cases hw : s.waitingReqs n with
  | none => exact h
  | some w =>
    rw [← h.named n w hw] at hw
    exact ⟨h.startLoop (h.resting hd) hw, resting_proceed _⟩

theorem Settled.ret (h : Settled s) : Settled s.ret := by
  unfold Dns.ret
  split
  · exact h
  · have hs : Accounted { s with depth := 0 } := { h with }
    exact ⟨hs.proceed, resting_proceed _⟩
  · next d hd _ => exact ⟨{ h with }, fun h0 => absurd h0 hd⟩

theorem Settled.apply (R : BinStream κ) (h : Settled s) {i : Input} (hx : Served s i) :
    (s.apply R i).Split Settled Settled := by
  cases i with
  | query addr num moved conf => exact h.query hx
  | ans data =>
    simp only [Dns.apply]
    split
    · next hd => exact h.ans hd (parse R data)
    · exact h
  | timeout name =>
    simp only [Dns.apply]
    split
    · next hd => exact h.onTimeout hd name
    · exact h
  | ret => exact h.ret

/-- In a run of served steps, whatever the datagrams say, no callback is called twice and no
request goes before all of its callbacks have been called. -/
theorem called_once (R : BinStream κ) (inputs : List Input)
    (hx : Along (step R) (fun e i => e.Split (fun s => Served s i) (fun _ => True))
      (.ret new) inputs) :
    ExactlyOnce (run (step R) (.ret new) inputs).state := by
  have hrun : (run (step R) (.ret new) inputs).Split Settled Settled := by
    refine run_invariant (Exec.Split Settled Settled) ?_ ⟨accounted_new, fun _ => rfl⟩ hx
    intro e i he hi
    cases e with
    | ret s => exact Settled.apply R he hi
    | hang s => exact he
    | undef s => exact he
  exact hrun.state.exactlyOnce

/-- The lines of a resolv.conf with one server. -/
def oneServer : List Name := [nameserverWord ++ [49]]

/-- Two queries for one name, and the time of the request is over. -/
theorem called_once_timeout :
    ExactlyOnce (run (step .inOrder) (.ret new) [.query [97] 7 false (some oneServer),
      .query [97] 8 true none, .timeout [97], .ret, .ret]).state :=
  called_once .inOrder _ (by decide)

/-- Without a server the callback is called at once and again at the end of the time. With one,
a query that is made again by the callback of the timeout is forgotten. -/
theorem called_twice :
    let s := (run (step .inOrder) (.ret new) [.query [97] 7 false (some []), .ret,
      .timeout [97]]).state
    let t := (run (step .inOrder) (.ret new) [.query [97] 7 false (some oneServer),
      .timeout [97], .query [97] 8 false none, .ret]).state
    s.called = [0, 0] ∧ ¬ ExactlyOnce s ∧ t.waitingReqs [97] = none ∧ t.called = [0] ∧
      ¬ ExactlyOnce t := by
  refine ⟨by decide, fun h => ?_, by decide, by decide, fun h => ?_⟩
  · exact absurd h.once (by decide)
  · exact absurd h.complete (by decide)

end Evel.Dns
