import Evel.Proofs.DnsEntry
import Evel.Proofs.DnsNames

namespace Evel
open General Dns

/-- A resolver and a network: the requests that it has sent, with their numbers and names, and the
answers that the server has sent. Nothing leaves the network: what is never taken from it is lost,
and what is taken twice has been duplicated. -/
structure DnsNet where
  dns : Dns
  requests : List (UInt16 × Name)
  answers : List (List Byte)

namespace DnsNet

inductive Input
  /-- User code calls `query`. -/
  | query (addr : Name) (num : UInt16) (moved : Bool) (resolvConf : Option (List Name))
  /-- The server answers the request at this place. -/
  | serve (k : Nat) (r : Response)
  /-- The resolver gets the answer at this place. -/
  | deliver (k : Nat)
  | timeout (name : Name)
  /-- The callback that runs returns. -/
  | ret

def new : DnsNet := { dns := Dns.new, requests := [], answers := [] }

/-- The name that the server reads in the question. -/
def asked (addr : Name) : Name := dotted (labels addr [])

instance : DecidablePred Short := fun name =>
  inferInstanceAs (Decidable (∀ l ∈ name.splitOn 46, l.length < 256))

/-- The server knows one address of each name. It answers no request whose labels do not fit their
length octets. -/
def serve (zone : Name → List Byte) (r : Response) (num : UInt16) (addr : Name) (s : DnsNet) :
    DnsNet :=
  if Short addr ∧ r.ip = zone (asked addr) then
    { s with answers := s.answers ++ [r.bytes num addr] }
  else s

def withDns (e : Exec Dns) (s : DnsNet) : Exec DnsNet :=
  e.map (fun dns => { s with dns := dns })

def apply (R : BinStream κ) (zone : Name → List Byte) (s : DnsNet) : Input → Exec DnsNet
  | .query addr num moved conf =>
    let sent := (s.dns.querySends addr num conf).toList.map (fun _ => (num, addr))
    { s with requests := s.requests ++ sent }.withDns (s.dns.query addr num moved conf)
  | .serve k r =>
    .ret (match s.requests[k]? with
      | some (num, addr) => s.serve zone r num addr
      | none => s)
  | .deliver k =>
    match s.answers[k]? with
    | some data => s.withDns (s.dns.apply R (.ans data))
    | none => .ret s
  | .timeout name => s.withDns (s.dns.apply R (.timeout name))
  | .ret => s.withDns (s.dns.apply R .ret)

/-- Nothing follows a step that does not return. -/
def step (R : BinStream κ) (zone : Name → List Byte) (e : Exec DnsNet) (i : Input) : Exec DnsNet :=
  e.andThen (fun s => s.apply R zone i)

/-- The names of the callbacks, in the order of the queries. -/
def queries (inputs : List Input) : List Name :=
  inputs.filterMap fun
    | .query addr _ _ _ => some addr
    | _ => none

end DnsNet

namespace Dns
variable {zone : Name → List Byte} {names : List Name} {s : Dns}

/-- What the server would tell a callback of this name. -/
def told (zone : Name → List Byte) (n : Name) : Err → List InetAddress
  | .ok => [.ofV4 (zone n) 0]
  | .noResolvEntry | .timeout => []

/-- The resolver knows nothing but what the server has told. -/
structure Truthful (zone : Name → List Byte) (names : List Name) (s : Dns) : Prop where
  cache : ∀ n e, s.cachedEntries n = some e → e.name = n ∧ e.ipAddrs = told zone n .ok
  named : ∀ n w, s.waitingReqs n = some w → w.name = n
  fresh : ∀ n, s.waitingReqs n ≠ none → s.cachedEntries n ≠ none → ∃ l, s.loop = some l ∧ l.name = n
  pending : ∀ n, ∀ c ∈ s.cbsOf n, names[c]? = some n
  loop : ∀ l, s.loop = some l →
    (∀ c ∈ l.left, names[c]? = some l.name) ∧ l.ipAddrs = told zone l.name l.err
  calls : ∀ c ∈ s.calls, ∃ n, names[c.cb]? = some n ∧ c.ipAddrs = told zone n c.err

theorem truthful_new : Truthful zone [] new := ⟨nofun, nofun, nofun, nofun, nofun, nofun⟩

theorem Truthful.snoc (h : Truthful zone names s) (n : Name) :
    Truthful zone (names ++ [n]) s := by
  have hold : ∀ {c : CallbackId} {m : Name}, names[c]? = some m →
      (names ++ [n])[c]? = some m := by
    intro c m hc
    obtain ⟨hlt, -⟩ := List.getElem?_eq_some_iff.mp hc
    rw [List.getElem?_append_left hlt, hc]
  exact {
    cache := h.cache
    named := h.named
    fresh := h.fresh
    pending := fun m c hc => hold (h.pending m c hc)
    loop := fun l hl => ⟨fun c hc => hold ((h.loop l hl).1 c hc), (h.loop l hl).2⟩
    calls := fun c hc => by
      obtain ⟨m, hm, hips⟩ := h.calls c hc
      exact ⟨m, hold hm, hips⟩ }

theorem Truthful.call (h : Truthful zone names s) {c : CallbackId} (hn : names[c]? = some n)
    (err : Err) : Truthful zone names (s.call c err (told zone n err)) := by
  refine { h with calls := fun c' hc' => ?_ }
  rcases List.mem_append.mp hc' with hc' | hc'
  · exact h.calls c' hc'
  · rw [List.mem_singleton.mp hc']
    exact ⟨n, hn, rfl⟩

/-- The end of a loop erases the only request whose name may be cached. -/
theorem Truthful.proceed (h : Truthful zone names s) : Truthful zone names s.proceed := by
  obtain ⟨-, he⟩ | ⟨l, hl, -, he⟩ | ⟨l, c, left, hl, hleft, he⟩ := proceed_cases s
  · rwa [he]
  · rw [he]
    have hwaits : ∀ n w, ({ s with loop := none }.erase l.name).waitingReqs n = some w →
        n ≠ l.name ∧ s.waitingReqs n = some w := by
      intro n w hw
      rw [erase_waitingReqs] at hw
      by_cases hn : n = l.name
      · simp [hn] at hw
      · exact ⟨hn, by simpa [hn] using hw⟩
    refine ⟨?_, fun n w hw => h.named n w (hwaits n w hw).2, ?_, ?_, ?_, ?_⟩
    · rw [erase_cachedEntries]
      exact h.cache
    · intro n hw hc
      rw [erase_cachedEntries] at hc
      obtain ⟨w, hw⟩ := Option.ne_none_iff_exists'.mp hw
      obtain ⟨hn, hw⟩ := hwaits n w hw
      obtain ⟨l', hl', rfl⟩ := h.fresh n (by simp [hw]) hc
      rw [hl, Option.some_inj] at hl'
      exact absurd (congrArg Loop.name hl').symm hn
    · exact fun n c hc => h.pending n c (mem_cbsOf_erase hc).2
    · intro l' hl'
      rw [erase_loop] at hl'
      cases hl'
    · rw [erase_calls]
      exact h.calls
  · obtain ⟨hall, hips⟩ := h.loop l hl
    rw [hleft] at hall
    rw [he, hips]
    refine Truthful.call ?_ (hall c List.mem_cons_self) l.err
    refine { h with fresh := fun n hw hc => ?_, loop := ?_ }
    · obtain ⟨l', hl', rfl⟩ := h.fresh n hw hc
      rw [hl, Option.some_inj] at hl'
      exact ⟨_, rfl, hl' ▸ rfl⟩
    · rintro l' ⟨⟩
      exact ⟨fun c' hc' => hall c' (List.mem_cons_of_mem c hc'), rfl⟩

/-- A loop starts over the callbacks of a request, with what there is to tell. -/
theorem Truthful.startLoop (h : Truthful zone names s) (hl : s.loop = none)
    (hw : s.waitingReqs n = some w) (err : Err) :
    Truthful zone names (s.startLoop ⟨n, w.cbs, err, told zone n err⟩) := by
  refine Truthful.proceed { h with fresh := fun m hm hc => ?_, loop := ?_ }
  · obtain ⟨l, he, -⟩ := h.fresh m hm hc
    simp [hl] at he
  · rintro l ⟨⟩
    exact ⟨fun c hc => h.pending n c (by simpa [cbsOf, hw] using hc), rfl⟩

theorem Truthful.answer (h : Truthful zone names s) (hl : s.loop = none)
    (hw : s.waitingReqs n = some w) (hn : e.name = n) (he : e.ipAddrs = told zone n .ok) :
    Truthful zone names ((s.setEntry n e).startLoop ⟨n, w.cbs, .ok, e.ipAddrs⟩) := by
  refine Truthful.proceed { h with cache := ?_, fresh := ?_, loop := ?_ }
  · intro m e' hm
    by_cases hmn : m = n
    · subst hmn
      obtain rfl : e = e' := by simpa using hm
      exact ⟨hn, he⟩
    · exact h.cache m e' (by simpa [hmn] using hm)
  · intro m hm hc
    by_cases hmn : m = n
    · exact ⟨_, rfl, hmn.symm⟩
    · obtain ⟨l, hl', -⟩ := h.fresh m hm (by simpa [hmn] using hc)
      simp [hl] at hl'
  · rintro l ⟨⟩
    exact ⟨fun c hc => h.pending n c (by simpa [cbsOf, hw] using hc), he⟩

/-- A datagram of the server completes a request of its own name, or changes nothing. -/
theorem Truthful.ans (h : Truthful zone names s) (hl : s.loop = none) (num : UInt16) (n : Name)
    (ttl : Nat) : (s.ans ⟨num, [.question n, .address true n ttl (.ofV4 (zone n) 0)]⟩).Split
      (fun s' => Truthful zone names s' ∧ s'.nextCb = s.nextCb ∧ Resting s') (fun _ => False) := by
  have hr := readAns_cons num (.question n) [.address true n ttl (.ofV4 (zone n) 0)] s
  by_cases ha : s.accepts num n = true
  · obtain ⟨w, hw⟩ : ∃ w, s.waitingReqs n = some w := by
      rw [accepts, Option.any_eq_true] at ha
      exact ha.imp (fun _ h => h.1)
    have hnone : s.cachedEntries n = none := by
      by_contra hc
      obtain ⟨l, hl', -⟩ := h.fresh n (by simp [hw]) hc
      simp [hl] at hl'
    let e : Entry := { ipAddrs := told zone n .ok, name := n, ttl := ttl }
    have hread : s.readAns ⟨num, [.question n, .address true n ttl (.ofV4 (zone n) 0)]⟩ =
        .on ⟨some n, some n⟩ (s.setEntry n e) := by
      simpa [Item.owner, Item.ownedBy, ha, gather, opened, hnone, Item.addTo, Entry.addAddr,
        Entry.new, told, e] using hr
    have hans : s.ans ⟨num, [.question n, .address true n ttl (.ofV4 (zone n) 0)]⟩ =
        .ret ((s.setEntry n e).startLoop ⟨n, w.cbs, .ok, e.ipAddrs⟩) := by
      simp only [Dns.ans, hread, setEntry_waitingReqs, hw, Option.bind_some,
        setEntry_cachedEntries, Function.update_self, e]
    rw [hans]
    exact ⟨h.answer hl hw rfl rfl, startLoop_nextCb _ _, resting_proceed _⟩
  · have hread : s.readAns ⟨num, [.question n, .address true n ttl (.ofV4 (zone n) 0)]⟩ =
        .early s := by
      simpa [Item.owner, ha] using hr
    simp only [Dns.ans, hread]
    exact ⟨h, rfl, fun _ => hl⟩

/-- What holds of the resolver between two steps. -/
structure Informed (zone : Name → List Byte) (names : List Name) (s : Dns) : Prop
    extends Truthful zone names s where
  next : s.nextCb = names.length
  resting : Resting s

theorem Informed.callNew (h : Informed zone names s) {c : CallbackId} (hn : names[c]? = some n)
    (err : Err) : Informed zone names (s.call c err (told zone n err)) :=
  ⟨h.toTruthful.call hn err, h.next, fun hd => absurd hd (Nat.succ_ne_zero s.depth)⟩

theorem Informed.setWcb (h : Informed zone names s) (hw : w.name = n)
    (hc : ∀ c ∈ w.cbs, names[c]? = some n)
    (hf : s.cachedEntries n = none) : Informed zone names (s.setWcb n w) := by
  refine ⟨{ h.toTruthful with named := ?_, fresh := ?_, pending := ?_ }, h.next, h.resting⟩
  · intro m w' hm
    by_cases hmn : m = n
    · subst hmn
      obtain rfl : w = w' := by simpa [Dns.setWcb] using hm
      exact hw
    · exact h.named m w' (by simpa [Dns.setWcb, hmn] using hm)
  · intro m hm hcached
    by_cases hmn : m = n
    · subst hmn
      exact absurd hf hcached
    · exact h.fresh m (by simpa [Dns.setWcb, hmn] using hm) hcached
  · intro m c hc'
    obtain ⟨rfl, hmem⟩ | ⟨-, hmem⟩ := mem_cbsOf_setWcb hc'
    · exact hc c hmem
    · exact h.pending m c hmem

theorem Informed.send (h : Informed zone names s) {c : CallbackId} (hn : names[c]? = some n) :
    (s.send c conf).Split (Informed zone names) (fun _ => True) := by
  have hfinish : ∀ t : Dns, Informed zone names t →
      Informed zone names (if t.serverIps.isEmpty then t.call c .noResolvEntry [] else t) := by
    intro t ht
    split
    · exact ht.callNew hn .noResolvEntry
    · exact ht
  simp only [Dns.send]
  by_cases hread : (s.serverIps.isEmpty && !s.usedResolv) = true
  · rw [if_pos hread]
    cases conf with
    | none => trivial
    | some lines =>
      exact hfinish { s with usedResolv := true, serverIps := _ }
        ⟨{ h.toTruthful with }, h.next, h.resting⟩
  · rw [if_neg hread]
    exact hfinish s h

theorem Informed.query (h : Informed zone names s) (addr : Name) (num : UInt16) (moved : Bool)
    (conf : Option (List Name)) :
    (s.query addr num moved conf).Split (Informed zone (names ++ [addr])) (fun _ => True) := by
  have hnew : (names ++ [addr])[s.nextCb]? = some addr := by
    rw [h.next]
    exact List.getElem?_concat_length
  have hnext : Informed zone (names ++ [addr]) { s with nextCb := s.nextCb + 1 } := by
    refine ⟨{ h.toTruthful.snoc addr with }, ?_, h.resting⟩
    rw [List.length_append, ← h.next]
    rfl
  simp only [Dns.query]
  split
  · next e he =>
    rw [(hnext.cache addr e he).2]
    exact hnext.callNew hnew .ok
  · next hc =>
    split
    · next w hw =>
      split
      · trivial
      · refine hnext.setWcb (hnext.named addr w hw) (fun c hm => ?_) hc
        rcases List.mem_append.mp hm with hm | hm
        · exact hnext.pending addr c (by simpa [cbsOf, hw] using hm)
        · rw [List.mem_singleton.mp hm]
          exact hnew
    · split
      · trivial
      · refine Informed.send (hnext.setWcb (n := addr) rfl (fun c hm => ?_) hc) hnew
        rw [List.mem_singleton.mp hm]
        exact hnew

theorem Informed.onTimeout (h : Informed zone names s) (hd : s.depth = 0) (n : Name) :
    Informed zone names (s.onTimeout n) := by
  rw [Dns.onTimeout]
  split
  · exact h
  · next w hw =>
    obtain rfl := h.named n w hw
    refine ⟨h.toTruthful.startLoop (h.resting hd) hw .timeout, ?_, resting_proceed _⟩
    rw [startLoop_nextCb]
    exact h.next

theorem Informed.ret (h : Informed zone names s) : Informed zone names s.ret := by
  rw [Dns.ret]
  split
  · exact h
  · refine ⟨Truthful.proceed { h.toTruthful with }, ?_, resting_proceed _⟩
    rw [proceed_nextCb]
    exact h.next
  · next d hne _ => exact ⟨{ h.toTruthful with }, h.next, fun hd => absurd hd hne⟩

end Dns

namespace DnsNet
variable {zone : Name → List Byte} {R : BinStream κ} {left : κ → List Byte} {past : List Input}
variable {s : DnsNet}

/-- The resolver has been told the truth, and more of it may be under way. -/
structure Consistent (zone : Name → List Byte) (past : List Input) (s : DnsNet) : Prop where
  dns : Informed zone (queries past) s.dns
  answers : ∀ data ∈ s.answers, ∃ (num : UInt16) (addr : Name) (r : Response),
    Short addr ∧ r.ip = zone (asked addr) ∧ data = r.bytes num addr

theorem consistent_new : Consistent zone [] new :=
  ⟨⟨truthful_new, rfl, fun _ => rfl⟩, nofun⟩

theorem queries_snoc (past : List Input) (i : Input) :
    queries (past ++ [i]) = queries past ++ queries [i] := List.filterMap_append ..

theorem Consistent.withDns (h : Consistent zone past s) {e : Exec Dns}
    (he : e.Split (Informed zone (queries (past ++ [i]))) (fun _ => True)) :
    (s.withDns e).Split (Consistent zone (past ++ [i])) (fun _ => True) := by
  rw [DnsNet.withDns, Exec.split_map]
  exact he.mono (fun _ hd => ⟨hd, h.answers⟩) (fun _ h => h)

theorem Consistent.serve (h : Consistent zone past s) (r : Response) (num : UInt16)
    (addr : Name) : Consistent zone past (s.serve zone r num addr) := by
  rw [DnsNet.serve]
  split
  · next hr =>
    refine ⟨h.dns, fun data hm => ?_⟩
    rcases List.mem_append.mp hm with hm | hm
    · exact h.answers data hm
    · exact ⟨num, addr, r, hr.1, hr.2, List.mem_singleton.mp hm⟩
  · exact h

theorem Consistent.apply (hR : R.InOrder left) (h : Consistent zone past s) (i : Input) :
    (s.apply R zone i).Split (Consistent zone (past ++ [i])) (fun _ => True) := by
  have hquiet : queries [i] = [] → queries (past ++ [i]) = queries past := by
    intro hi
    rw [queries_snoc, hi, List.append_nil]
  cases i with
  | query addr num moved conf =>
    let sent := (s.dns.querySends addr num conf).toList.map (fun _ => (num, addr))
    have hs : Consistent zone past { s with requests := s.requests ++ sent } := ⟨h.dns, h.answers⟩
    refine hs.withDns ?_
    rw [queries_snoc]
    exact h.dns.query addr num moved conf
  | serve k r =>
    have hs : ∀ t, Consistent zone past t → Consistent zone (past ++ [.serve k r]) t := by
      intro t ht
      exact ⟨(hquiet rfl).symm ▸ ht.dns, ht.answers⟩
    change Consistent _ _ (match s.requests[k]? with
      | some (num, addr) => s.serve zone r num addr
      | none => s)
    split
    · exact hs _ (h.serve r _ _)
    · exact hs s h
  | deliver k =>
    rw [DnsNet.apply]
    split
    · next data hdata =>
      obtain ⟨num, addr, r, hshort, hip, rfl⟩ := h.answers data (List.mem_of_getElem? hdata)
      refine h.withDns ?_
      rw [hquiet rfl, Dns.apply]
      split
      · next hd =>
        obtain ⟨ttl, hparse⟩ := parse_response hR hshort num (r := r)
        rw [hparse, hip]
        have hans := h.dns.toTruthful.ans (h.dns.resting hd) num (asked addr) ttl
        exact hans.mono (fun t ht => ⟨ht.1, ht.2.1.trans h.dns.next, ht.2.2⟩) (fun _ _ => trivial)
      · exact h.dns
    · exact ⟨(hquiet rfl).symm ▸ h.dns, h.answers⟩
  | timeout name =>
    refine h.withDns ?_
    rw [hquiet rfl]
    change Informed zone _ (if s.dns.depth = 0 then s.dns.onTimeout name else s.dns)
    split
    · next hd => exact h.dns.onTimeout hd name
    · exact h.dns
  | ret =>
    refine h.withDns ?_
    rw [hquiet rfl]
    exact h.dns.ret

/-- Whatever the network loses, repeats or reorders, and whatever requests have expired: a callback
that is called without an error is told the address that the server has for its own name, once and
nothing else, and so is the cache. -/
theorem callbacks_told_truth (R : BinStream κ) (left : κ → List Byte) (hR : R.InOrder left)
    (zone : Name → List Byte) (inputs : List Input) (s : DnsNet)
    (h : run (step R zone) (.ret new) inputs = .ret s) :
    (∀ c ∈ s.dns.calls, ∃ n, (queries inputs)[c.cb]? = some n ∧ c.ipAddrs = told zone n c.err) ∧
      ∀ n e, s.dns.cachedEntries n = some e → e.name = n ∧ e.ipAddrs = told zone n .ok := by
  let Inv (past : List Input) (e : Exec DnsNet) : Prop :=
    e.Split (Consistent zone past) (fun _ => True)
  have hnew : Inv [] (.ret new) := consistent_new
  have hstep : ∀ past e i, Inv past e → True → Inv (past ++ [i]) (step R zone e i) := by
    intro past e i he _
    cases e with
    | ret s => exact Consistent.apply hR he i
    | hang s => trivial
    | undef s => trivial
  have hall : Along (step R zone) (fun _ _ => True) (.ret new) inputs :=
    along_of_mem (fun _ _ _ => trivial) _
  have hrun := run_history Inv hstep hnew hall
  rw [List.nil_append, h] at hrun
  exact ⟨hrun.dns.calls, hrun.dns.cache⟩

/-- The answers to two requests come in the wrong order, one of them twice, and a third query is
answered from the cache. -/
theorem callbacks_told_truth_two :
    let zone : Name → List Byte := fun n => [1, 2, 3, n.headD 0]
    let inputs : List Input := [.query [97] 7 false (some oneServer), .query [98] 8 false none,
      .serve 0 { response with ip := [1, 2, 3, 97], ip_length := rfl },
      .serve 1 { response with ip := [1, 2, 3, 98], ip_length := rfl },
      .deliver 1, .ret, .deliver 0, .ret, .deliver 1, .query [97] 9 false none, .ret]
    let s := (run (step .inOrder zone) (.ret new) inputs).state
    s.dns.called = [1, 0, 2] ∧
      (∀ c ∈ s.dns.calls, ∃ n, (queries inputs)[c.cb]? = some n ∧
        c.ipAddrs = told zone n c.err) ∧
      ∀ n e, s.dns.cachedEntries n = some e → e.name = n ∧ e.ipAddrs = told zone n .ok := by
  intro zone inputs s
  have h : run (step .inOrder zone) (.ret new) inputs = .ret s := rfl
  exact ⟨by decide, callbacks_told_truth .inOrder id BinStream.inOrder_reads zone inputs s h⟩

end DnsNet

end Evel
