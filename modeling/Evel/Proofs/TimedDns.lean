import Mathlib.Logic.Relation
import Evel.Model.TimedDns
import Evel.Proofs.DnsEntry
import Evel.Proofs.TimedLoop
import Evel.Proofs.WheelShort

namespace Evel.Dns
open General
variable {s : Dns}

/-- The names that the requests carry, by the names they are registered for. -/
def keys (s : Dns) (n : Name) : Option Name := (s.waitingReqs n).map Wcb.name

theorem keys_eq_none : s.keys n = none ↔ s.waitingReqs n = none := Option.map_eq_none_iff

theorem keys_setWcb : (s.setWcb n w).keys = Function.update s.keys n (some w.name) := by
  funext m
  by_cases hm : m = n
  · subst hm
    simp [keys]
  · simp [keys, hm]

theorem keys_erase : (erase n s).keys = Function.update s.keys n none := by
  funext m
  by_cases hm : m = n
  · subst hm
    simp [keys, erase_waitingReqs]
  · simp [keys, erase_waitingReqs, hm]

/-- A loop over the callbacks of `n` goes on, or has come to its end with the request erased. -/
def GoesOn (n : Name) (err : Err) (s d : Dns) : Prop :=
  d.loop = none ∧ d.keys = Function.update s.keys n none ∨
    d.keys = s.keys ∧ ∃ left ips, d.loop = some ⟨n, left, err, ips⟩

theorem proceed_goesOn (hl : s.loop = some l) : GoesOn l.name l.err s s.proceed := by
  obtain ⟨h, -⟩ | ⟨k, hk, -, he⟩ | ⟨k, c, left, hk, -, he⟩ := proceed_cases s
  · simp [hl] at h
  · obtain rfl : l = k := by simpa [hl] using hk
    rw [he]
    exact .inl ⟨by rw [erase_loop], keys_erase⟩
  · obtain rfl : l = k := by simpa [hl] using hk
    rw [he]
    exact .inr ⟨rfl, left, l.ipAddrs, rfl⟩

/-- The requests and the loop stay as they are. -/
structure Still (s d : Dns) : Prop where
  loop : d.loop = s.loop
  keys : d.keys = s.keys
  depth : d.depth = 0 → s.depth = 0

theorem Still.resting (h : Still s d) (hs : s.Resting) : d.Resting := by
  intro hd
  rw [h.loop]
  exact hs (h.depth hd)

/-- A callback returns: the loop goes on, if there is one and it was its own. -/
theorem ret_cases (h : s.Resting) :
    (s.ret.loop = s.loop ∧ s.ret.keys = s.keys ∧ s.ret.Resting) ∨
      ∃ l, s.loop = some l ∧ GoesOn l.name l.err s s.ret ∧ s.ret.Resting := by
  unfold ret
  split
  · exact .inl ⟨rfl, rfl, h⟩
  · obtain ⟨hl, he⟩ | ⟨l, hl, -, -⟩ | ⟨l, -, -, hl, -, -⟩ := proceed_cases { s with depth := 0 }
    · rw [he]
      exact .inl ⟨rfl, rfl, fun _ => hl⟩
    all_goals
      have hgo : GoesOn l.name l.err { s with depth := 0 } ({ s with depth := 0 } : Dns).proceed :=
        proceed_goesOn hl
      exact .inr ⟨l, hl, hgo, resting_proceed _⟩
  · next d hne hd => exact .inl ⟨rfl, rfl, fun hz => absurd hz (fun he => hne (by simpa using he))⟩

/-- What `query` leaves: the requests are the old ones, and the new one if it makes one. -/
structure Asked (addr : Name) (s d : Dns) : Prop where
  loop : d.loop = s.loop
  keys : d.keys = if s.registers addr then Function.update s.keys addr (some addr) else s.keys
  depth : d.depth = 0 → s.depth = 0

theorem send_still (cb : CallbackId) (conf : Option (List Name)) (s : Dns) :
    (s.send cb conf).Split (Still s) (Still s) := by
  have hfinish : ∀ t : Dns, Still s t →
      Still s (if t.serverIps.isEmpty then t.call cb .noResolvEntry [] else t) := by
    intro t ht
    split
    · exact ⟨ht.loop, ht.keys, nofun⟩
    · exact ht
  simp only [send]
  by_cases hread : (s.serverIps.isEmpty && !s.usedResolv) = true
  · rw [if_pos hread]
    cases conf with
    | none => exact ⟨rfl, rfl, id⟩
    | some lines => exact hfinish { s with usedResolv := true, serverIps := _ } ⟨rfl, rfl, id⟩
  · rw [if_neg hread]
    exact hfinish s ⟨rfl, rfl, id⟩

theorem query_asked (addr : Name) (num : UInt16) (moved : Bool) (conf : Option (List Name)) :
    (s.query addr num moved conf).Split (Asked addr s) (fun _ => True) := by
  cases hc : s.cachedEntries addr with
  | some e =>
    simp only [query, hc]
    exact ⟨rfl, by simp [registers, hc, keys, call, funext_iff], fun h => by cases h⟩
  | none =>
    cases hw : s.waitingReqs addr with
    | some w =>
      have hkeys : Function.update s.keys addr (some w.name) = s.keys := by
        rw [Function.update_eq_self_iff, keys, hw, Option.map_some]
      simp only [query, hc, hw]
      split
      · trivial
      · refine ⟨rfl, ?_, id⟩
        rw [keys_setWcb, registers, hw]
        simp only [Option.isNone_some, Bool.and_false, Bool.false_eq_true, if_false]
        exact hkeys
    | none =>
      simp only [query, hc, hw]
      split
      · trivial
      · refine (send_still _ _ _).mono (fun d h => ⟨h.loop, ?_, h.depth⟩) (fun _ _ => trivial)
        rw [h.keys, keys_setWcb]
        simp [registers, hc, hw]
        rfl

/-- Up to the callbacks `ans` changes the cache only. -/
theorem readAns_still (d : Datagram) (s : Dns) : Still s (s.readAns d).state := by
  obtain ⟨num, is⟩ := d
  cases is with
  | nil => exact ⟨rfl, rfl, id⟩
  | cons i is =>
    rw [readAns_cons]
    split
    · exact ⟨rfl, rfl, id⟩
    split
    · split <;> exact ⟨rfl, rfl, id⟩
    · exact ⟨rfl, rfl, id⟩

/-- `ans` comes to the callbacks of the request that it erases after them, or to none. -/
theorem ans_erases (d : Datagram) (s : Dns) : (s.ans d).Split (fun d' => Still s d' ∨
      ∃ n t, s.erases d = some n ∧ Still s t ∧ GoesOn n .ok t d' ∧ d'.Resting)
      (fun _ => True) := by
  have hstill := readAns_still d s
  unfold ans erases
  cases hr : s.readAns d with
  | early t =>
    rw [hr] at hstill
    exact .inl hstill
  | undef t => trivial
  | on p t =>
    rw [hr] at hstill
    simp only
    cases hw : p.wcb with
    | none => exact .inl hstill
    | some key =>
      simp only [Option.isSome_some, if_true]
      cases hk : t.waitingReqs key with
      | none => trivial
      | some w =>
        cases he : p.entry.bind t.cachedEntries with
        | none => trivial
        | some e =>
          exact .inr ⟨e.name, t, rfl, hstill, proceed_goesOn (s := { t with loop := some _ }) rfl,
            resting_proceed _⟩

end Evel.Dns

namespace Evel.TimedDns
open General ExpIndexed Dns Relation

def Pending (s : TimedDns) (n : Name) : Prop := s.dns.waitingReqs n ≠ none

/-- The callbacks of the request are told of its timeout. -/
def Expiring (s : TimedDns) (n : Name) : Prop :=
  ∃ l, s.dns.loop = some l ∧ l.err = .timeout ∧ l.name = n

/-- The request waits for its timeout. -/
def Armed (s : TimedDns) (n : Name) : Prop := s.Pending n ∧ n ∉ s.due ∧ ¬ s.Expiring n

/-- What the resolver and the timeouts do together, one thing at a time. -/
inductive Moves : TimedDns → TimedDns → Prop
  | still {s : TimedDns} {d : Dns} : d.loop = s.dns.loop → d.keys = s.dns.keys →
      Moves s { s with dns := d }
  | registers {s : TimedDns} {d : Dns} : ¬ s.Pending addr → d.loop = s.dns.loop →
      d.keys = Function.update s.dns.keys addr (some addr) → Moves s (s.register addr d)
  | shifts {s : TimedDns} : s.due = [] → s.dns.loop = none →
      Moves s { s with timeoutList := s.timeoutList.shift, due := s.timeoutList.shifted.out,
                       now := s.now + 1 }
  | answers {s : TimedDns} {d : Dns} : s.due = [] → s.dns.loop = none → d.loop = some l →
      l.err = .ok → d.keys = s.dns.keys → Moves s { s with dns := d }
  | expires {s : TimedDns} {d : Dns} : s.due = n :: left → s.dns.loop = none → d.loop = some l →
      l.err = .timeout → l.name = n → d.keys = s.dns.keys →
      Moves s { s with due := left, dns := d }
  | calls {s : TimedDns} {d : Dns} : s.dns.loop = some l → d.loop = some l' →
      l'.name = l.name → l'.err = l.err → d.keys = s.dns.keys → Moves s { s with dns := d }
  | erases {s : TimedDns} {d : Dns} : s.dns.loop = some l → s.Pending l.name → d.loop = none →
      d.keys = Function.update s.dns.keys l.name none →
      Moves s { s with dns := d, timeoutList := s.timeoutList.destroy l.name,
                       nbWaitingEvents := s.nbWaitingEvents - 1 }
  | ends {s : TimedDns} {d : Dns} : s.dns.loop = some l → ¬ s.Pending l.name → d.loop = none →
      d.keys = s.dns.keys → Moves s { s with dns := d }

variable {s s' : TimedDns} {d : Dns}

theorem pending_iff : s.Pending n ↔ s.dns.keys n ≠ none := not_congr keys_eq_none.symm

theorem forget_pending (hp : s.Pending n) (hk : d.keys = Function.update s.dns.keys n none) :
    s.forget (some n) d = { s with dns := d, timeoutList := s.timeoutList.destroy n,
                                   nbWaitingEvents := s.nbWaitingEvents - 1 } := by
  have hd : d.waitingReqs n = none := keys_eq_none.mp (by rw [hk, Function.update_self])
  have hs : (s.dns.waitingReqs n).isSome = true := Option.isSome_iff_ne_none.mpr hp
  simp only [forget, hs, hd, Option.isNone_none, Bool.and_self, if_true]

theorem forget_still (o : Option Name) (hk : d.keys = s.dns.keys) :
    s.forget o d = { s with dns := d } := by
  cases o with
  | none => rfl
  | some n =>
    have hkeep : (d.waitingReqs n).isNone = (s.dns.waitingReqs n).isNone := by
      have h := congrFun hk n
      rw [keys, keys] at h
      rw [← Option.isNone_map (f := Wcb.name), h, Option.isNone_map]
    have hcond : ((s.dns.waitingReqs n).isSome && (s.dns.waitingReqs n).isNone) = false := by
      cases s.dns.waitingReqs n <;> rfl
    simp only [forget, hkeep, hcond, Bool.false_eq_true, if_false]

@[simp] theorem forget_dns (o : Option Name) (d : Dns) : (s.forget o d).dns = d := by
  cases o with
  | none => rfl
  | some n =>
    simp only [forget]
    split <;> rfl

/-- Only the requests matter. -/
theorem forget_begun (hk : t.keys = s.dns.keys) (n : Name) (d : Dns) :
    ({ s with dns := t } : TimedDns).forget (some n) d = s.forget (some n) d := by
  have hsome : (t.waitingReqs n).isSome = (s.dns.waitingReqs n).isSome := by
    have h := congrFun hk n
    rw [keys, keys] at h
    rw [← Option.isSome_map (f := Wcb.name), h, Option.isSome_map]
  simp only [forget, hsome]

/-- A loop that is under way goes on. -/
theorem moves_goesOn (hl : s.dns.loop = some l) (h : GoesOn l.name l.err s.dns d) :
    Moves s (s.forget (some l.name) d) := by
  obtain ⟨hnone, hk⟩ | ⟨hk, left, ips, hloop⟩ := h
  · by_cases hp : s.Pending l.name
    · rw [forget_pending hp hk]
      exact .erases hl hp hnone hk
    · have hkeep : d.keys = s.dns.keys := by
        rw [hk, Function.update_eq_self_iff]
        exact (keys_eq_none.mpr (not_not.mp hp)).symm
      rw [forget_still _ hkeep]
      exact .ends hl hp hnone hkeep
  · rw [forget_still _ hk]
    exact .calls hl hloop rfl rfl hk

/-- What holds between two steps, whatever the time. -/
structure Sound (s : TimedDns) : Prop where
  named : ∀ n m, s.dns.keys n = some m → m = n
  resting : s.dns.Resting

theorem apply_moves (R : BinStream κ) (h : Sound s) (i : Input) :
    (s.apply R i).Split (fun s' => ReflTransGen Moves s s' ∧ s'.dns.Resting) (fun _ => True) := by
  cases i with
  | query addr num moved conf =>
    simp only [apply, Exec.split_map]
    refine (query_asked addr num moved conf).mono (fun d hd => ?_) (fun _ _ => trivial)
    have hrest : d.Resting := by
      intro hz
      rw [hd.loop]
      exact h.resting (hd.depth hz)
    have hkeys := hd.keys
    by_cases hr : s.dns.registers addr = true
    · have hfree : ¬ s.Pending addr := by
        simp only [Dns.registers, Bool.and_eq_true, Option.isNone_iff_eq_none] at hr
        exact not_not.mpr hr.2
      rw [if_pos hr] at hkeys ⊢
      exact ⟨.single (.registers hfree hd.loop hkeys), hrest⟩
    · rw [if_neg hr] at hkeys ⊢
      exact ⟨.single (.still hd.loop hkeys), hrest⟩
  | ans data =>
    simp only [apply]
    split
    · exact ⟨.refl, h.resting⟩
    · next hq =>
      obtain ⟨hdue, hdepth⟩ := not_or.mp hq
      have hloop := h.resting (not_not.mp hdepth)
      simp only [Exec.split_map]
      refine (ans_erases (parse R data) s.dns).mono (fun d hd => ?_) (fun _ _ => trivial)
      obtain hd | ⟨n, t, he, ht, hgo, hrest⟩ := hd
      · rw [forget_still _ hd.keys]
        exact ⟨.single (.still hd.loop hd.keys), hd.resting h.resting⟩
      · let l : Loop := ⟨n, [], .ok, []⟩
        have hfirst : Moves s { s with dns := { t with loop := some l } } :=
          .answers (not_not.mp hdue) hloop rfl rfl ht.keys
        have hsecond := moves_goesOn (l := l) (s := { s with dns := { t with loop := some l } })
          rfl hgo
        rw [forget_begun (t := { t with loop := some l }) ht.keys] at hsecond
        rw [he]
        exact ⟨.tail (.single hfirst) hsecond, by rwa [forget_dns]⟩
  | shift =>
    simp only [apply]
    split
    · exact ⟨.refl, h.resting⟩
    · next hq =>
      obtain ⟨hdue, hdepth⟩ := not_or.mp hq
      exact ⟨.single (.shifts (not_not.mp hdue) (h.resting (not_not.mp hdepth))), h.resting⟩
  | expire =>
    simp only [apply]
    split
    · exact ⟨.refl, h.resting⟩
    · next n left hdue =>
      split
      · exact ⟨.refl, h.resting⟩
      · next hdepth =>
        split
        · trivial
        · next hw =>
          have hpending : s.dns.waitingReqs n ≠ none := by
            intro he
            exact hw (Option.isNone_iff_eq_none.mpr he)
          obtain ⟨w, hw⟩ := Option.ne_none_iff_exists'.mp hpending
          have hn : w.name = n := h.named n w.name (by rw [keys, hw, Option.map_some])
          have he : s.dns.onTimeout n = s.dns.startLoop ⟨n, w.cbs, .timeout, []⟩ := by
            simp only [onTimeout, hw, hn]
          have hloop := h.resting (not_not.mp hdepth)
          let l : Loop := ⟨n, w.cbs, .timeout, []⟩
          have hfirst : Moves s { s with due := left, dns := { s.dns with loop := some l } } :=
            .expires hdue hloop rfl rfl rfl rfl
          have hsecond := moves_goesOn (l := l)
            (s := { s with due := left, dns := { s.dns with loop := some l } }) rfl
            (proceed_goesOn rfl)
          rw [he]
          exact ⟨.tail (.single hfirst) hsecond, by rw [forget_dns]; exact resting_proceed _⟩
  | ret =>
    simp only [apply]
    obtain ⟨hl, hk, hrest⟩ | ⟨l, hl, hgo, hrest⟩ := ret_cases h.resting
    · rw [forget_still _ hk]
      exact ⟨.single (.still hl hk), hrest⟩
    · rw [hl]
      exact ⟨.single (moves_goesOn hl hgo), by rwa [forget_dns]⟩

/-- One wait for each pending request. -/
def Counted (s : TimedDns) : Prop :=
  ∃ ns : List Name, ns.Nodup ∧ (∀ n, n ∈ ns ↔ s.Pending n) ∧ s.nbWaitingEvents = ns.length

theorem pending_congr (hk : d.keys = s.dns.keys) (n : Name) :
    ({ s with dns := d } : TimedDns).Pending n ↔ s.Pending n := by
  rw [pending_iff, pending_iff, hk]

theorem Counted.moves (h : Counted s) (hm : Moves s s') : Counted s' := by
  obtain ⟨ns, hnodup, hmem, hcount⟩ := h
  cases hm with
  | still _ hk | answers _ _ _ _ hk | calls _ _ _ _ hk | ends _ _ _ hk
  | expires _ _ _ _ _ hk =>
    exact ⟨ns, hnodup, fun n => (hmem n).trans (pending_congr hk n).symm, hcount⟩
  | shifts _ _ => exact ⟨ns, hnodup, hmem, hcount⟩
  | @registers addr _ d hfree _ hk =>
    have hnew : addr ∉ ns := fun hin => hfree ((hmem addr).mp hin)
    refine ⟨addr :: ns, List.nodup_cons.mpr ⟨hnew, hnodup⟩, fun n => ?_, ?_⟩
    · rw [List.mem_cons, hmem, pending_iff, pending_iff]
      by_cases hn : n = addr <;> simp [register, hk, hn]
    · simp [register, hcount]
  | @erases l _ d hl hp _ hk =>
    have hin : l.name ∈ ns := (hmem l.name).mpr hp
    refine ⟨ns.erase l.name, hnodup.erase _, fun n => ?_, ?_⟩
    · rw [hnodup.mem_erase_iff, hmem, pending_iff, pending_iff]
      by_cases hn : n = l.name <;> simp [hk, hn]
    · have hlen := List.length_erase_add_one hin
      simp only [hcount]
      omega

theorem named_moves (h : ∀ n m, s.dns.keys n = some m → m = n) (hm : Moves s s') :
    ∀ n m, s'.dns.keys n = some m → m = n := by
  have hsame : ∀ d : Dns, d.keys = s.dns.keys → ∀ n m, d.keys n = some m → m = n := by
    intro d hk
    rw [hk]
    exact h
  have hupdate : ∀ (d : Dns) (n : Name) (o : Option Name), (∀ m, o = some m → m = n) →
      d.keys = Function.update s.dns.keys n o → ∀ n m, d.keys n = some m → m = n := by
    intro d a o ho hk n m hm
    rw [hk] at hm
    by_cases hn : n = a
    · subst hn
      exact ho m (by rwa [Function.update_self] at hm)
    · exact h n m (by rwa [Function.update_of_ne hn] at hm)
  cases hm with
  | still _ hk | answers _ _ _ _ hk | calls _ _ _ _ hk | ends _ _ _ hk
  | expires _ _ _ _ _ hk => exact hsame _ hk
  | shifts _ _ => exact h
  | registers _ _ hk => exact hupdate _ _ _ (fun m hm => (Option.some_inj.mp hm).symm) hk
  | erases _ _ _ hk => exact hupdate _ _ _ (fun _ he => by cases he) hk

/-- The timeouts keep the requests that wait for theirs, each at its tick. -/
structure Kept (s : TimedDns) : Prop where
  clock : ∃ f : Flat Name, Agrees 0 s.timeoutList f ∧ f.tick = s.now ∧
    ∀ n i, (n, i) ∈ f.entries ↔ s.Armed n ∧ i = s.since n + delay
  dueOnce : s.due.Nodup
  due : ∀ n ∈ s.due, s.Pending n ∧ s.now = s.since n + delay + 1
  expiring : ∀ n, s.Expiring n → s.Pending n ∧ n ∉ s.due ∧ s.now = s.since n + delay + 1
  calm : ∀ l, s.dns.loop = some l → l.err ≠ .timeout → s.due = []

theorem armed_congr (hp : ∀ n, s'.Pending n ↔ s.Pending n) (hd : s'.due = s.due)
    (he : ∀ n, s'.Expiring n ↔ s.Expiring n) (n : Name) : s'.Armed n ↔ s.Armed n := by
  rw [Armed, Armed, hp, hd, he]

/-- Nothing changes for the timeouts while the requests and what expires stay the same. -/
theorem Kept.same (h : Kept s) (hk : d.keys = s.dns.keys)
    (he : ∀ n, ({ s with dns := d } : TimedDns).Expiring n ↔ s.Expiring n)
    (hcalm : ∀ l, d.loop = some l → l.err ≠ .timeout → s.due = []) :
    Kept { s with dns := d } := by
  have hp := pending_congr (s := s) hk
  obtain ⟨f, hf, ht, hmem⟩ := h.clock
  refine ⟨⟨f, hf, ht, fun n i => ?_⟩, h.dueOnce, fun n hn => ?_, fun n hn => ?_, hcalm⟩
  · rw [hmem, armed_congr hp rfl he]
  · exact ⟨(hp n).mpr (h.due n hn).1, (h.due n hn).2⟩
  · obtain ⟨hpn, hrest⟩ := h.expiring n ((he n).mp hn)
    exact ⟨(hp n).mpr hpn, hrest⟩

theorem expiring_loop (hl : s.dns.loop = some l) :
    s.Expiring n ↔ l.err = .timeout ∧ l.name = n := by
  rw [Expiring, hl]
  simp

theorem not_expiring_idle (h : s.dns.loop = none) (n : Name) : ¬ s.Expiring n := by
  rintro ⟨l, hl, -⟩
  rw [h] at hl
  cases hl

theorem Kept.registers (h : Kept s) (hroom : s.now + delay < sizeMod) (hfree : ¬ s.Pending addr)
    (hl : d.loop = s.dns.loop) (hk : d.keys = Function.update s.dns.keys addr (some addr)) :
    Kept (s.register addr d) := by
  obtain ⟨f, hf, ht, hmem⟩ := h.clock
  have hp : ∀ n, (s.register addr d).Pending n ↔ n = addr ∨ s.Pending n := by
    intro n
    rw [pending_iff, pending_iff]
    by_cases hn : n = addr <;> simp [register, hk, hn]
  have he : ∀ n, (s.register addr d).Expiring n ↔ s.Expiring n := by
    intro n
    rw [Expiring, Expiring, register, hl]
  have hsince : ∀ n, s.Pending n → (s.register addr d).since n = s.since n := by
    intro n hn
    exact Function.update_of_ne (fun (he : n = addr) => hfree (he ▸ hn)) _ _
  have hnew : addr ∉ f.entries.map Prod.fst := by
    intro hin
    obtain ⟨e, hentry, rfl⟩ := List.mem_map.mp hin
    exact hfree ((hmem e.1 e.2).mp hentry).1.1
  refine ⟨⟨f.put addr (f.tick + delay), ?_, ?_, fun n i => ?_⟩, h.dueOnce, fun n hn => ?_,
    fun n hn => ?_, fun l hd hne => h.calm l (hl ▸ hd) hne⟩
  · exact put_agrees_short EvLoop.geometry_fits (by decide) hf (by decide) (by rw [ht]; omega)
  · simp only [Flat.put, hnew, ↓reduceDIte, register]
    exact ht
  · simp only [Flat.put, hnew, ↓reduceDIte, List.mem_cons, Prod.mk.injEq, hmem, ht]
    by_cases hn : n = addr
    · subst hn
      have hold : ¬ s.Armed n := fun ha => hfree ha.1
      have harmed : (s.register n d).Armed n :=
        ⟨(hp n).mpr (.inl rfl), fun hin => hfree (h.due n hin).1,
          fun hx => hfree (h.expiring n ((he n).mp hx)).1⟩
      have hnow : (s.register n d).since n = s.now := Function.update_self ..
      simp [hold, harmed, hnow]
    · have harmed : (s.register addr d).Armed n ↔ s.Armed n := by
        simp only [Armed, hp, he, hn, false_or]
        rfl
      have hsame : (s.register addr d).since n = s.since n := Function.update_of_ne hn _ _
      simp [hn, harmed, hsame]
  · obtain ⟨hpn, hnow⟩ := h.due n hn
    exact ⟨(hp n).mpr (.inr hpn), by rw [hsince n hpn]; exact hnow⟩
  · obtain ⟨hpn, hout, hnow⟩ := h.expiring n ((he n).mp hn)
    exact ⟨(hp n).mpr (.inr hpn), hout, by rw [hsince n hpn]; exact hnow⟩

theorem Kept.shifts (h : Kept s) (hdue : s.due = []) (hl : s.dns.loop = none) :
    Kept { s with timeoutList := s.timeoutList.shift, due := s.timeoutList.shifted.out,
                  now := s.now + 1 } := by
  obtain ⟨f, hf, ht, hmem⟩ := h.clock
  obtain ⟨hnext, hout⟩ := shift_agrees EvLoop.geometry_fits hf
  have hready : ∀ n, n ∈ s.timeoutList.shifted.out ↔ s.Armed n ∧ s.now = s.since n + delay := by
    intro n
    rw [hout.mem_iff, Flat.due, List.mem_map]
    constructor
    · rintro ⟨e, he, rfl⟩
      obtain ⟨he, hi⟩ := List.mem_filter.mp he
      obtain ⟨ha, hs⟩ := (hmem e.1 e.2).mp he
      exact ⟨ha, by rw [← hs, of_decide_eq_true hi, ht]⟩
    · rintro ⟨ha, hs⟩
      exact ⟨(n, s.now), List.mem_filter.mpr ⟨(hmem n s.now).mpr ⟨ha, hs⟩, by simp [ht]⟩, rfl⟩
  have hidle := not_expiring_idle hl
  refine ⟨⟨f.shift, hnext, by simp [Flat.shift, ht], fun n i => ?_⟩, ?_, fun n hn => ?_,
    fun n hn => absurd hn (hidle n), fun l hd _ => ?_⟩
  · have harmed : s.Armed n ↔ s.Pending n := by
      simp [Armed, hdue, hidle n]
    simp only [Flat.shift, List.mem_filter, hmem, ht, decide_not, Bool.not_eq_true',
      decide_eq_false_iff_not]
    constructor
    · rintro ⟨⟨ha, rfl⟩, hne⟩
      exact ⟨⟨ha.1, fun hin => hne ((hready n).mp hin).2.symm, hidle n⟩, rfl⟩
    · rintro ⟨⟨hp, hnot, -⟩, rfl⟩
      exact ⟨⟨harmed.mpr hp, rfl⟩, fun he => hnot ((hready n).mpr ⟨harmed.mpr hp, he.symm⟩)⟩
  · exact hout.nodup_iff.mpr (f.single_filter _)
  · obtain ⟨ha, hs⟩ := (hready n).mp hn
    exact ⟨ha.1, by simp [hs]⟩
  · exact absurd (hl.symm.trans hd) (Option.some_ne_none l).symm

theorem Kept.expires (h : Kept s) (hdue : s.due = n :: left) (hl : s.dns.loop = none)
    (hd : d.loop = some l) (herr : l.err = .timeout) (hname : l.name = n)
    (hk : d.keys = s.dns.keys) : Kept { s with due := left, dns := d } := by
  obtain ⟨f, hf, ht, hmem⟩ := h.clock
  have hp := pending_congr (s := s) hk
  have hidle := not_expiring_idle hl
  have honce := h.dueOnce
  rw [hdue, List.nodup_cons] at honce
  have he : ∀ m, ({ s with due := left, dns := d } : TimedDns).Expiring m ↔ m = n := by
    intro m
    constructor
    · rintro ⟨k, hk, -, rfl⟩
      obtain rfl : l = k := by simpa [hd] using hk
      exact hname
    · rintro rfl
      exact ⟨l, hd, herr, hname⟩
  have hready := h.due n (hdue ▸ List.mem_cons_self)
  refine ⟨⟨f, hf, ht, fun m i => ?_⟩, honce.2, fun m hm => ?_, fun m hm => ?_, fun k hk hne => ?_⟩
  · have harmed : ({ s with due := left, dns := d } : TimedDns).Armed m ↔ s.Armed m := by
      have hpm : ({ s with due := left, dns := d } : TimedDns).Pending m ↔ s.Pending m := hp m
      rw [Armed, Armed, he, hpm, hdue]
      simp only [List.mem_cons, not_or, hidle m, not_false_eq_true, and_true]
      tauto
    rw [hmem, harmed]
  · obtain ⟨hpm, hnow⟩ := h.due m (hdue ▸ List.mem_cons_of_mem n hm)
    exact ⟨(hp m).mpr hpm, hnow⟩
  · obtain rfl := (he m).mp hm
    exact ⟨(hp m).mpr hready.1, honce.1, hready.2⟩
  · obtain rfl : l = k := by simpa [hd] using hk
    exact absurd herr hne

theorem Kept.erases (h : Kept s) (hl : s.dns.loop = some l) (hd : d.loop = none)
    (hk : d.keys = Function.update s.dns.keys l.name none) :
    Kept { s with dns := d, timeoutList := s.timeoutList.destroy l.name,
                  nbWaitingEvents := s.nbWaitingEvents - 1 } := by
  obtain ⟨f, hf, ht, hmem⟩ := h.clock
  let s' : TimedDns := { s with dns := d, timeoutList := s.timeoutList.destroy l.name,
                                nbWaitingEvents := s.nbWaitingEvents - 1 }
  have hp : ∀ n, s'.Pending n ↔ n ≠ l.name ∧ s.Pending n := by
    intro n
    rw [pending_iff, pending_iff]
    by_cases hn : n = l.name <;> simp [s', hk, hn]
  have hother : ∀ n, n ≠ l.name → ¬ s.Expiring n := by
    rintro n hn ⟨k, hk, -, rfl⟩
    rw [hl, Option.some_inj] at hk
    exact hn (hk ▸ rfl)
  have hspared : ∀ n ∈ s.due, n ≠ l.name := by
    rintro n hn rfl
    by_cases herr : l.err = .timeout
    · exact (h.expiring l.name ⟨l, hl, herr, rfl⟩).2.1 hn
    · rw [h.calm l hl herr] at hn
      cases hn
  have hidle := not_expiring_idle (s := s') hd
  have harmed : ∀ n, s'.Armed n ↔ s.Armed n ∧ n ≠ l.name := by
    intro n
    have hdue : n ∈ s'.due ↔ n ∈ s.due := Iff.rfl
    rw [Armed, Armed, hp, hdue]
    by_cases hn : n = l.name
    · simp [hn]
    · simp [hn, hidle n, hother n hn]
  refine ⟨⟨f.drop l.name, drop_agrees hf, ht, fun n i => ?_⟩, h.dueOnce, fun n hn => ?_,
    fun n hn => absurd hn (hidle n), fun k hk => ?_⟩
  · simp only [Flat.drop, List.mem_filter, hmem, decide_eq_true_eq]
    rw [harmed, and_right_comm]
  · obtain ⟨hpn, hnow⟩ := h.due n hn
    exact ⟨(hp n).mpr ⟨hspared n hn, hpn⟩, hnow⟩
  · have hk : d.loop = some k := hk
    rw [hd] at hk
    cases hk

/-- The timeouts lag behind by one step at most, unless `size_t` overflows. -/
def InTime (s : TimedDns) : Prop := s.now + delay < sizeMod → Kept s

theorem InTime.moves (h : InTime s) (hm : Moves s s') : InTime s' := by
  intro hroom
  cases hm with
  | still hl hk =>
    have h := h hroom
    refine h.same hk (fun n => ?_) (fun l hd => h.calm l (hl ▸ hd))
    rw [Expiring, Expiring, hl]
  | registers hfree hl hk => exact (h hroom).registers hroom hfree hl hk
  | shifts hdue hl => exact (h (Nat.lt_of_le_of_lt (by simp) hroom)).shifts hdue hl
  | answers hdue hidle hd herr hk =>
    refine (h hroom).same hk (fun n => ?_) (fun _ _ _ => hdue)
    rw [expiring_loop hd, herr]
    exact iff_of_false (fun hc => by cases hc.1) (not_expiring_idle hidle n)
  | expires hdue hidle hl herr hname hk => exact (h hroom).expires hdue hidle hl herr hname hk
  | calls hl hd hname herr hk =>
    have h := h hroom
    refine h.same hk (fun n => ?_) (fun k hdk hne => ?_)
    · rw [expiring_loop hd, expiring_loop hl, hname, herr]
    · rw [hd, Option.some_inj] at hdk
      subst hdk
      exact h.calm _ hl (herr ▸ hne)
  | erases hl _ hd hk => exact (h hroom).erases hl hd hk
  | ends hl hfree hd hk =>
    have h := h hroom
    refine h.same hk (fun n => ?_) (fun k hdk _ => ?_)
    · refine iff_of_false (not_expiring_idle hd n) (fun hx => ?_)
      obtain ⟨-, rfl⟩ := (expiring_loop hl).mp hx
      exact hfree (h.expiring _ hx).1
    · rw [hd] at hdk
      cases hdk

/-- What holds between two steps. -/
structure Steady (s : TimedDns) : Prop extends Sound s where
  counted : Counted s
  inTime : InTime s

theorem steady_new : Steady new where
  named := nofun
  resting := fun _ => rfl
  counted := ⟨[], List.nodup_nil, fun n => iff_of_false nofun (fun h => h rfl), rfl⟩
  inTime _ := by
    refine ⟨⟨.new Name, new_agrees EvLoop.geometry (by decide), rfl, fun n i => ?_⟩,
      List.nodup_nil, nofun, fun n hn => absurd hn (not_expiring_idle rfl n), nofun⟩
    exact iff_of_false nofun (fun h => h.1.1 rfl)

theorem Steady.apply (R : BinStream κ) (h : Steady s) (i : Input) :
    (s.apply R i).Split Steady (fun _ => True) := by
  refine (apply_moves R h.toSound i).mono (fun s' hs' => ?_) (fun _ _ => trivial)
  obtain ⟨hmoves, hrest⟩ := hs'
  have hkeep : ∀ t, ReflTransGen Moves s t →
      (∀ n m, t.dns.keys n = some m → m = n) ∧ Counted t ∧ InTime t := by
    intro t ht
    induction ht with
    | refl => exact ⟨h.named, h.counted, h.inTime⟩
    | tail _ hm ih => exact ⟨named_moves ih.1 hm, ih.2.1.moves hm, ih.2.2.moves hm⟩
  obtain ⟨hnamed, hcounted, htime⟩ := hkeep s' hmoves
  exact ⟨⟨hnamed, hrest⟩, hcounted, htime⟩

theorem run_steady (R : BinStream κ) (inputs : List Input) :
    (run (step R) (.ret new) inputs).Split Steady (fun _ => True) := by
  have hnew : (Exec.ret new).Split Steady (fun _ => True) := steady_new
  refine run_invariant_all (fun e : Exec TimedDns => e.Split Steady (fun _ => True))
    (fun e i he => ?_) hnew inputs
  exact he.andThen (fun s hs => hs.apply R i)

/-- In every run, a request that is pending waits for the tick of its timeout, or this tick is now:
the request is due, or its callbacks are told. -/
theorem requests_in_time (R : BinStream κ) (inputs : List Input)
    (h : run (step R) (.ret new) inputs = .ret s) (hroom : s.now + delay < sizeMod) :
    (∀ n, (s.timeoutList.items n).lst ≠ none ↔ s.Armed n) ∧
      (∀ n, s.Armed n → s.now ≤ s.since n + delay) ∧
      (∀ n ∈ s.due, s.Pending n ∧ s.now = s.since n + delay + 1) ∧
      ∀ n, s.Expiring n → s.Pending n ∧ s.now = s.since n + delay + 1 := by
  have hs := run_steady R inputs
  rw [h] at hs
  have hk : Kept s := Steady.inTime hs hroom
  obtain ⟨f, hf, ht, hmem⟩ := hk.clock
  refine ⟨fun n => ?_, fun n hn => ?_, hk.due, fun n hn => ?_⟩
  · rw [hf.held]
    constructor
    · intro hin
      obtain ⟨e, he, rfl⟩ := List.mem_map.mp hin
      exact ((hmem e.1 e.2).mp he).1
    · intro ha
      exact List.mem_map.mpr ⟨_, (hmem n _).mpr ⟨ha, rfl⟩, rfl⟩
  · have hahead := (hf.ahead _ ((hmem n _).mpr ⟨hn, rfl⟩)).1
    rwa [ht] at hahead
  · obtain ⟨hp, -, hnow⟩ := hk.expiring n hn
    exact ⟨hp, hnow⟩

/-- The one request expires at its tick. -/
theorem requests_in_time_expired :
    let inputs := .query [97] 7 false (some oneServer) :: (List.replicate 41 .shift ++ [.expire])
    let s := (run (step .inOrder) (.ret new) inputs).state
    s.Expiring [97] ∧ s.Pending [97] ∧ s.now = s.since [97] + delay + 1 := by
  intro inputs s
  have h : run (step .inOrder) (.ret new) inputs = .ret s := rfl
  have hx : s.Expiring [97] := ⟨⟨[97], [], .timeout, []⟩, rfl, rfl, rfl⟩
  exact ⟨hx, (requests_in_time .inOrder inputs h (by decide)).2.2.2 [97] hx⟩

/-- The loop waits for as many events as there are requests pending, whatever has become of the
others. -/
theorem requests_counted (R : BinStream κ) (inputs : List Input)
    (h : run (step R) (.ret new) inputs = .ret s) :
    ∃ ns : List Name, ns.Nodup ∧ (∀ n, n ∈ ns ↔ s.Pending n) ∧ s.nbWaitingEvents = ns.length := by
  have hs := run_steady R inputs
  rw [h] at hs
  exact Steady.counted hs

/-- The first of two requests has been answered. -/
theorem requests_counted_answered :
    let inputs := [.query [97] 7 false (some oneServer), .query [98] 8 false none,
      .ans (classAnswer 1), .ret]
    let s := (run (step .inOrder) (.ret new) inputs).state
    ∃ ns : List Name, ns.Nodup ∧ (∀ n, n ∈ ns ↔ s.Pending n) ∧ (1 : Int) = ns.length := by
  intro inputs s
  have h : run (step .inOrder) (.ret new) inputs = .ret s := rfl
  have hone : s.nbWaitingEvents = 1 := by decide +kernel
  exact hone ▸ requests_counted .inOrder inputs h

end Evel.TimedDns
