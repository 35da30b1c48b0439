import Evel.Model.DtlsExchange
import Evel.Proofs.FactoryCount

namespace Evel
open General

namespace Endpoint
open Dtls
variable {Addr : Type u} {e e' e'' : Endpoint Addr}

/-- The messages that wait are the same, and so is the SSL object. -/
structure Quiet (e e' : Endpoint Addr) : Prop where
  waitingSends : e'.conn.waitingSends = e.conn.waitingSends
  ssl : e'.conn.ssl = e.conn.ssl

theorem Quiet.refl (e : Endpoint Addr) : Quiet e e := ⟨rfl, rfl⟩

theorem Quiet.trans (h : Quiet e e') (h' : Quiet e' e'') : Quiet e e'' :=
  ⟨h'.waitingSends.trans h.waitingSends, h'.ssl.trans h.ssl⟩

theorem quiet_del (e : Endpoint Addr) : Quiet e e.del := ⟨rfl, rfl⟩

theorem flushLoop_quiet (ptr : Ptr) (script : List BioAnswer) (e : Endpoint Addr) :
    (flushLoop ptr script e).Split (Quiet e) (Quiet e) := by
  induction script with
  | nil => exact .refl e
  | cons b bs ih =>
    rw [flushLoop]
    split
    · split
      · rw [Exec.split_map, sendRaw, Exec.split_bimap]
        exact .all (fun _ => ⟨rfl, rfl⟩) (fun _ => ⟨rfl, rfl⟩) _
      · exact .refl e
    · exact .refl e
    · exact ih
    · exact .refl e
    · exact quiet_del e

theorem flushOutBio_quiet (script : List BioAnswer) (e : Endpoint Addr) :
    (e.flushOutBio script).Split (Quiet e) (Quiet e) := by
  rw [flushOutBio]
  split
  · split
    · exact flushLoop_quiet _ script e
    · exact (flushLoop_quiet _ script _).mono (fun _ h => ⟨h.waitingSends, h.ssl⟩)
        (fun _ h => ⟨h.waitingSends, h.ssl⟩)
  · exact .refl e

theorem handshake_quiet (hs : List HandshakeAnswer) (finished : Bool) (e : Endpoint Addr) :
    (e.handshake hs finished).Split (fun h => Quiet e h.endpoint)
      (fun h => Quiet e h.endpoint) := by
  induction hs generalizing finished e with
  | nil => exact .refl e
  | cons h hs ih =>
    rw [handshake]
    split
    · rw [Exec.split_map]
      exact flushOutBio_quiet h.flush e
    · rw [Exec.split_map]
      exact flushOutBio_quiet h.flush e
    · refine .thenWith (flushOutBio_quiet h.flush e) (fun e' h' => ?_) (fun e' h' => h')
      exact (ih _ e').mono (fun _ h'' => h'.trans h'') (fun _ h'' => h'.trans h'')
    · exact ih _ e
    · exact quiet_del e

/-- `send` adds one message to the queue, or none. -/
def grown (stored : Bool) (e e' : Endpoint Addr) : Prop :=
  e'.conn.waitingSends.length = e.conn.waitingSends.length + stored.toNat ∧
    e'.conn.ssl = e.conn.ssl

theorem store_grown (data : Buffer) (allow : Bool) (e : Endpoint Addr) :
    grown (e.conn.stores data) e (e.store data allow).1 := by
  rw [store]
  cases hs : e.conn.stores data with
  | false => exact ⟨rfl, rfl⟩
  | true =>
    cases allow with
    | false => exact ⟨List.length_append, rfl⟩
    | true => exact ⟨List.length_append, rfl⟩

theorem writeLoop_grown (data : Buffer) (allow : Bool) (script : List WriteAnswer)
    (e : Endpoint Addr) :
    (writeLoop data allow script e).Split
      (fun r => grown (e.conn.stores data && (firstWrite script).any (fun w => w.err = .wantRead))
        e r.1) (fun _ => True) := by
  induction script generalizing e with
  | nil => trivial
  | cons w ws ih =>
    have hagain (h : w.err = .wantWrite ∨ w.err = .syscall .intr) :
        firstWrite (w :: ws) = firstWrite ws :=
      List.find?_cons_of_neg (by rcases h with h | h <;> simp [h])
    rw [writeLoop]
    split
    · next he =>
      rw [Exec.split_map]
      refine (flushOutBio_quiet w.flush e).mono (fun e' h => ?_) (fun _ _ => trivial)
      simpa [grown, firstWrite, he] using ⟨congrArg List.length h.waitingSends, h.ssl⟩
    · next he =>
      rw [Exec.split_map]
      refine (flushOutBio_quiet w.flush _).mono (fun e' h => ?_) (fun _ _ => trivial)
      have hstore := store_grown data allow e
      have hany : (firstWrite (w :: ws)).any (fun w => w.err = .wantRead) = true := by
        simp [firstWrite, he]
      rw [hany, Bool.and_true]
      exact ⟨(congrArg List.length h.waitingSends).trans hstore.1, h.ssl.trans hstore.2⟩
    · next he =>
      rw [hagain (.inl he)]
      refine Exec.Split.andThen (P := fun r => Quiet e r.1) ?_ fun r h => ?_
      · rw [Exec.split_map]
        exact (flushOutBio_quiet w.flush e).mono (fun _ h => h) (fun _ _ => trivial)
      · refine (ih r.1).mono (fun r' h' => ?_) (fun _ _ => trivial)
        rw [UdpConnectionDTLS.stores, h.ssl] at h'
        exact ⟨h'.1.trans (by rw [h.waitingSends]; rfl), h'.2.trans h.ssl⟩
    · next he =>
      rw [hagain (.inr he)]
      exact ih e
    · next hr hw hi =>
      have hr : w.err ≠ .wantRead := hr
      have hretry : w.err ≠ .wantWrite ∧ w.err ≠ .syscall .intr := ⟨hw, hi⟩
      have hfirst : firstWrite (w :: ws) = some w := List.find?_cons_of_pos (by simp [hretry])
      simp [grown, hfirst, hr, del]

theorem send_grown (data : Buffer) (allow : Bool) (script : List WriteAnswer)
    (e : Endpoint Addr) :
    (e.send data allow script).Split (fun r => grown (queues data script e.conn) e r.1)
      (fun _ => True) := by
  rw [send]
  split
  · next hc => simp [grown, queues, hc]
  · next hc =>
    refine (writeLoop_grown data allow script e).mono (fun r h => ?_) (fun _ _ => trivial)
    simpa [queues, hc] using h

/-- `flush_sends` takes messages from the queue, and all of them if `SSL_write` does. -/
theorem flushSends_front (script : List FlushAnswer) (e : Endpoint Addr) :
    (flushSends script e).Split
      (fun e' => e'.conn.waitingSends.length ≤ e.conn.waitingSends.length ∧
        e'.conn.ssl = e.conn.ssl ∧
        ((∀ a ∈ script.take e.conn.waitingSends.length, 0 < a.written) →
          e'.conn.waitingSends = []))
      (fun _ => True) := by
  induction script generalizing e with
  | nil =>
    rw [flushSends]
    split
    · next he => exact ⟨Nat.le_refl _, rfl, fun _ => List.isEmpty_iff.mp he⟩
    · trivial
  | cons a as ih =>
    rw [flushSends]
    split
    · next he => exact ⟨Nat.le_refl _, rfl, fun _ => he⟩
    · next p rest he =>
      split
      · next ha =>
        refine ⟨Nat.le_refl _, rfl, fun hall => ?_⟩
        have := hall a (by simp [he])
        omega
      · refine (flushOutBio_quiet a.flush _).mono (fun _ h => h) (fun _ _ => trivial)
          |>.andThen fun e' h => ?_
        refine (ih e').mono (fun e'' h'' => ?_) (fun _ _ => trivial)
        rw [h.waitingSends, h.ssl] at h''
        rw [he]
        exact ⟨Nat.le_succ_of_le h''.1, h''.2.1, fun hall => h''.2.2 fun b hb =>
          hall b (List.mem_cons_of_mem a hb)⟩

end Endpoint

namespace DtlsExchange
open Dtls Endpoint
variable {Addr : Type u} {s : DtlsExchange Addr}

/-- No message is taken while one that was sent before it waits, and no message is left when a
`_parse` that completes the handshake returns. -/
structure Keeps (s : DtlsExchange Addr) : Prop where
  order : ∀ w ∈ s.writes, ∀ m ∈ w.waiting, w.message ≤ m
  sent : ∀ l ∈ s.left, l = []

/-- The messages wait in the order of their numbers. -/
structure Ordered (s : DtlsExchange Addr) : Prop extends Keeps s where
  length : s.waiting.length = s.endpoint.conn.waitingSends.length
  sorted : s.waiting.Pairwise (· < ·)
  bound : ∀ m ∈ s.waiting, m < s.sends
  ready : s.stage = .onRdy → s.waiting = []

/-- A `_parse` that completes the handshake. -/
structure Completes (initFinished : Bool) (handshake : List HandshakeAnswer)
    (s : DtlsExchange Addr) : Prop where
  stage : s.stage = .idle
  ssl : s.endpoint.conn.ssl = true
  before : initFinished = false
  finishes : finishes handshake = true
  err : lastErr handshake = some .none

/-- The step stores a message. -/
def Stores (s : DtlsExchange Addr) : Input → Prop
  | .send data _ script => s.stage ≠ .reading ∧ queues data script s.endpoint.conn = true
  | _ => False

/-- `SSL_write` takes the message of the step. -/
def Takes (s : DtlsExchange Addr) : Input → Prop
  | .send _ _ script => s.stage ≠ .reading ∧ takes script s.endpoint.conn = true
  | _ => False

def Finishes (s : DtlsExchange Addr) : Input → Prop
  | .parse _ initFinished handshake _ => s.Completes initFinished handshake
  | _ => False

/-- In the flush that follows the handshake `SSL_write` takes every message, and no message of
`on_rdy` is stored. -/
def Fits (s : DtlsExchange Addr) : Input → Prop
  | .send data _ script => s.stage = .onRdy → queues data script s.endpoint.conn = false
  | .parse _ initFinished handshake flushSends => s.Completes initFinished handshake →
      ∀ a ∈ flushSends.take s.endpoint.conn.waitingSends.length, 0 < a.written
  | _ => True

/-- A message has been stored, and no `_parse` has completed the handshake since. -/
inductive Outstanding (e : Endpoint Addr) : List Input → Prop
  | stored {s : DtlsExchange Addr} (hs : run step (.ret (new e)) past = .ret s) (h : s.Stores i) :
      Outstanding e (past ++ [i])
  | kept {s : DtlsExchange Addr} (hs : run step (.ret (new e)) past = .ret s)
      (h : Outstanding e past) (hn : ¬ s.Finishes i) : Outstanding e (past ++ [i])

/-- `SSL_write` takes no message of `send` between a `send` that stores one and the `_parse` that
completes the handshake. -/
def Admits (e : Endpoint Addr) (past : List Input) (i : Input) : Prop :=
  ∀ s, run step (.ret (new e)) past = .ret s →
    s.Fits i ∧ (s.Takes i → ¬ Outstanding e past)

theorem Keeps.setEndpoint (h : s.Keeps) (e : Endpoint Addr) : (s.setEndpoint e).Keeps :=
  ⟨h.order, h.sent⟩

theorem Keeps.goto (h : s.Keeps) (t : Stage) : (s.goto t).Keeps := ⟨h.order, h.sent⟩

/-- What is not about messages. -/
theorem Ordered.setEndpoint (h : s.Ordered) (hq : Quiet s.endpoint e) :
    (s.setEndpoint e).Ordered :=
  ⟨h.toKeeps.setEndpoint e, h.length.trans (congrArg List.length hq.waitingSends).symm, h.sorted,
    h.bound, h.ready⟩

theorem Ordered.goto (h : s.Ordered) {t : Stage} (ht : t ≠ .onRdy) : (s.goto t).Ordered :=
  ⟨h.toKeeps.goto t, h.length, h.sorted, h.bound, fun he => absurd he ht⟩

theorem ordered_send (h : s.Ordered) (htakes : takes script s.endpoint.conn = true → s.waiting = [])
    (hrdy : s.Fits (.send data allow script)) :
    (s.send data allow script).Split Ordered Keeps := by
  rw [send, Exec.split_bimap]
  refine (send_grown data allow script s.endpoint).mono (fun r hr => ?_)
    (fun r _ => h.toKeeps.setEndpoint r.1)
  refine ⟨⟨fun w hw => ?_, h.sent⟩, ?_, ?_, fun m hm => ?_, fun hstage => ?_⟩
  · simp only [sent] at hw
    split at hw
    · next ht =>
      obtain hw | hw := List.mem_append.mp hw
      · exact h.order w hw
      · -- nothing waits
        obtain rfl := List.mem_singleton.mp hw
        rw [htakes ht]
        simp
    · exact h.order w hw
  · simp only [sent, hr.1]
    cases queues data script s.endpoint.conn with
    | false => exact h.length
    | true => simpa using h.length
  · simp only [sent]
    split
    · rw [List.pairwise_append]
      refine ⟨h.sorted, List.pairwise_singleton _ _, fun m hm n hn => ?_⟩
      obtain rfl := List.mem_singleton.mp hn
      exact h.bound m hm
    · exact h.sorted
  · simp only [sent] at hm ⊢
    split at hm
    · obtain hm | hm := List.mem_append.mp hm
      · exact Nat.lt_succ_of_lt (h.bound m hm)
      · obtain rfl := List.mem_singleton.mp hm
        exact Nat.lt_succ_self _
    · exact Nat.lt_succ_of_lt (h.bound m hm)
  · rw [Fits] at hrdy
    simp only [sent, hrdy hstage, Bool.false_eq_true, if_false]
    exact h.ready hstage

/-- The first message of an ordered queue is the one that was sent first. -/
theorem front_order (n : Nat) {ms : List Nat} (h : ms.Pairwise (· < ·)) :
    ∀ w ∈ Write.front n ms, ∀ m ∈ w.waiting, w.message ≤ m := by
  induction n generalizing ms with
  | zero =>
    intro w hw
    cases hw
  | succ n ih =>
    cases ms with
    | nil =>
      intro w hw
      cases hw
    | cons m ms =>
      obtain ⟨hm, hms⟩ := List.pairwise_cons.mp h
      intro w hw k hk
      obtain rfl | hw := List.mem_cons.mp hw
      · obtain rfl | hk := List.mem_cons.mp hk
        · exact Nat.le_refl _
        · exact Nat.le_of_lt (hm k hk)
      · exact ih hms w hw k hk

theorem keeps_flushed (h : s.Ordered) (e : Endpoint Addr) : (s.flushed e).Keeps := by
  refine ⟨fun w hw => ?_, h.sent⟩
  obtain hw | hw := List.mem_append.mp hw
  · exact h.order w hw
  · exact front_order _ h.sorted w hw

theorem ordered_parse (h : s.Ordered) (hs : s.stage = .idle)
    (hf : s.Fits (.parse short initFinished shake flush)) :
    (s.parse short initFinished shake flush).Split Ordered Keeps := by
  rw [parse]
  split
  · next hssl =>
    split
    · exact h.toKeeps
    · split
      · exact h.goto (by simp)
      · next hi =>
        refine .thenWith ((handshake_quiet shake false s.endpoint).and
          (handshake_spec shake false s.endpoint)) (fun k hk => ?_)
          (fun k _ => h.toKeeps.setEndpoint k.endpoint)
        obtain ⟨hq, hfin, herr⟩ := hk
        split
        · next hc =>
          rw [Exec.split_map]
          have hall := hf ⟨hs, hssl, by simpa using hi, by simpa [hc.2] using hfin.symm,
            by rw [herr, hc.1]⟩
          refine (flushSends_front flush k.endpoint).mono (fun e' he' => ?_)
            (fun e' _ => ⟨(keeps_flushed h e').order, h.sent⟩)
          rw [hq.waitingSends] at he'
          have hempty := he'.2.2 hall
          have hnone : ((s.flushed e').goto .onRdy).waiting = [] := by
            simp [flushed, goto, hempty]
          refine ⟨⟨(keeps_flushed h e').order, h.sent⟩, ?_, ?_, ?_, fun _ => hnone⟩
          · rw [hnone]
            exact (congrArg List.length hempty).symm
          · rw [hnone]
            exact List.Pairwise.nil
          · rw [hnone]
            exact fun m hm => absurd hm List.not_mem_nil
        · exact h.setEndpoint hq
  · exact h

theorem ordered_read (h : s.Ordered) (err : SslError) (flush : List BioAnswer) :
    (s.read err flush).Split Ordered Keeps := by
  unfold DtlsExchange.read
  split
  · exact h.goto (by simp)
  · rw [Exec.split_map]
    exact (flushOutBio_quiet flush s.endpoint).mono (fun _ hq => (h.setEndpoint hq).goto (by simp))
      (fun e _ => (h.toKeeps.setEndpoint e).goto _)
  · rw [Exec.split_map]
    exact (flushOutBio_quiet flush s.endpoint).mono (fun _ hq => h.setEndpoint hq)
      (fun e _ => h.toKeeps.setEndpoint e)
  · exact h
  · exact (h.setEndpoint (quiet_del _)).goto (by simp)

theorem ordered_apply (h : s.Ordered) (i : Input) (ht : s.Takes i → s.waiting = [])
    (hf : s.Fits i) : (s.apply i).Split Ordered Keeps := by
  cases i with
  | send data allow script =>
    rw [apply]
    split
    · exact h
    · next hs => exact ordered_send h (fun hw => ht ⟨hs, hw⟩) hf
  | close initFinished =>
    rw [apply, close]
    split
    · exact h
    · split
      · split
        · exact h.setEndpoint (quiet_del _)
        · exact h.setEndpoint ⟨rfl, rfl⟩
      · exact h.toKeeps
  | del =>
    rw [apply]
    split
    · exact h
    · exact h.setEndpoint (quiet_del _)
  | parse short initFinished shake flush =>
    rw [apply]
    split
    · next hs => exact ordered_parse h hs hf
    · exact h
  | read err flush =>
    rw [apply]
    split
    · exact ordered_read h err flush
    · exact h
  | returns flush initFinished =>
    rw [apply]
    split
    · next hs =>
      -- nothing is left in the queue
      have hleft : ∀ l ∈ s.ready.left, l = [] := by
        intro l hl
        obtain hl | hl := List.mem_append.mp hl
        · exact h.sent l hl
        · obtain rfl := List.mem_singleton.mp hl
          exact h.ready hs
      have hq : Quiet s.endpoint s.ready.endpoint := by
        simp only [ready]
        split
        · exact quiet_del _
        · exact .refl _
      exact ⟨⟨h.order, hleft⟩, h.length.trans (congrArg List.length hq.waitingSends).symm, h.sorted,
        h.bound, fun hr => by cases hr⟩
    · rw [parsed, Exec.split_map]
      refine (flushOutBio_quiet flush s.endpoint).mono (fun _ hq => (h.setEndpoint hq).goto ?_)
        (fun e _ => (h.toKeeps.setEndpoint e).goto _)
      split <;> simp
    · exact h

/-- Only a `_parse` that completes the handshake is followed by `on_rdy`. -/
theorem parse_finishes (s : DtlsExchange Addr) (short initFinished : Bool)
    (shake : List HandshakeAnswer) (flush : List FlushAnswer) :
    (s.parse short initFinished shake flush).Split
      (fun t => t.stage = .onRdy ∨ t.waiting = s.waiting ∧ ¬ s.Completes initFinished shake)
      (fun _ => True) := by
  rw [parse]
  split
  · split
    · trivial
    · split
      · next hi => exact .inr ⟨rfl, fun hc => by simp [hc.before] at hi⟩
      · refine .thenWith (handshake_spec shake false s.endpoint) (fun k hk => ?_)
          (fun _ _ => trivial)
        obtain ⟨hfin, herr⟩ := hk
        split
        · rw [Exec.split_map]
          exact .all (fun _ => .inl rfl) (fun _ => trivial) _
        · next hc =>
          refine .inr ⟨rfl, fun hcompl => hc ⟨?_, ?_⟩⟩
          · simpa [hcompl.err] using herr.symm
          · simp [hfin, hcompl.finishes]
  · next hssl => exact .inr ⟨rfl, fun hc => hssl hc.ssl⟩

/-- A message that waits has just been stored, or it waited before and the handshake has not been
completed. -/
theorem apply_waiting (s : DtlsExchange Addr) (i : Input) :
    (s.apply i).Split
      (fun t => t.Ordered → t.waiting ≠ [] → s.Stores i ∨ s.waiting ≠ [] ∧ ¬ s.Finishes i)
      (fun _ => True) := by
  cases i with
  | send data allow script =>
    rw [apply]
    split
    · exact fun _ hw => .inr ⟨hw, id⟩
    · next hs =>
      rw [send, Exec.split_bimap]
      refine .all (fun r _ hw => ?_) (fun _ => trivial) _
      cases hq : queues data script s.endpoint.conn with
      | true => exact .inl ⟨hs, hq⟩
      | false => exact .inr ⟨by simpa [sent, hq] using hw, id⟩
  | close initFinished =>
    rw [apply, close]
    split
    · exact fun _ hw => .inr ⟨hw, id⟩
    · split
      · split
        · exact fun _ hw => .inr ⟨hw, id⟩
        · exact fun _ hw => .inr ⟨hw, id⟩
      · trivial
  | del =>
    rw [apply]
    split
    · exact fun _ hw => .inr ⟨hw, id⟩
    · exact fun _ hw => .inr ⟨hw, id⟩
  | parse short initFinished shake flush =>
    rw [apply]
    split
    · refine (parse_finishes s short initFinished shake flush).mono (fun t ht ho hw => ?_)
        (fun _ _ => trivial)
      obtain hrdy | ⟨hsame, hn⟩ := ht
      · exact absurd (ho.ready hrdy) hw
      · exact .inr ⟨hsame ▸ hw, hn⟩
    · next hs => exact fun _ hw => .inr ⟨hw, fun hc => hs hc.stage⟩
  | read err flush =>
    rw [apply]
    split
    · unfold DtlsExchange.read
      split
      · exact fun _ hw => .inr ⟨hw, id⟩
      · rw [Exec.split_map]
        exact .all (fun _ _ hw => .inr ⟨hw, id⟩) (fun _ => trivial) _
      · rw [Exec.split_map]
        exact .all (fun _ _ hw => .inr ⟨hw, id⟩) (fun _ => trivial) _
      · exact fun _ hw => .inr ⟨hw, id⟩
      · exact fun _ hw => .inr ⟨hw, id⟩
    · exact fun _ hw => .inr ⟨hw, id⟩
  | returns flush initFinished =>
    rw [apply]
    split
    · exact fun _ hw => .inr ⟨hw, id⟩
    · rw [parsed, Exec.split_map]
      exact .all (fun _ _ hw => .inr ⟨hw, id⟩) (fun _ => trivial) _
    · exact fun _ hw => .inr ⟨hw, id⟩

/-- What is kept in order, and why a message waits. -/
def InOrder (e : Endpoint Addr) (past : List Input) : Prop :=
  (run step (.ret (new e)) past).Split
    (fun s => s.Ordered ∧ (s.waiting ≠ [] → Outstanding e past)) Keeps

theorem inOrder_step (e : Endpoint Addr) (past : List Input) (i : Input) (h : InOrder e past)
    (ha : Admits e past i) : InOrder e (past ++ [i]) := by
  rw [InOrder] at h ⊢
  rw [run_snoc]
  cases hs : run step (.ret (new e)) past with
  | ret s =>
    rw [hs] at h
    obtain ⟨hord, hout⟩ := h
    obtain ⟨hf, ht⟩ := ha s hs
    have hnone : s.Takes i → s.waiting = [] := fun hw => not_not.mp (mt hout (ht hw))
    refine ((ordered_apply hord i hnone hf).and (apply_waiting s i)).mono (fun t hk => ?_)
      (fun _ hk => hk.1)
    obtain ⟨hk, hwait⟩ := hk
    refine ⟨hk, fun hw => ?_⟩
    obtain hst | ⟨hold, hn⟩ := hwait hk hw
    · exact .stored hs hst
    · exact .kept hs (hout hold) hn
  | hang s =>
    rw [hs] at h
    exact h
  | undef s =>
    rw [hs] at h
    exact h

theorem inOrder_new (e : Endpoint Addr) (he : e.conn.waitingSends = []) : InOrder e [] := by
  refine ⟨⟨⟨fun w hw => ?_, fun l hl => ?_⟩, ?_, List.Pairwise.nil, fun m hm => ?_, fun _ => rfl⟩,
    fun hw => ?_⟩
  · cases hw
  · cases hl
  · simp [new, he]
  · cases hm
  · exact absurd rfl hw

/-- In a run whose steps are all admitted, no message is overtaken or left. -/
theorem messages_kept (e : Endpoint Addr) (he : e.conn.waitingSends = []) (is : List Input)
    (ha : AlongPast (Admits e) [] is) : (run step (.ret (new e)) is).state.Keeps := by
  have hrun := alongPast_invariant _ (inOrder_step e) (inOrder_new e he) ha
  exact (hrun.mono (fun _ h => h.1.toKeeps) fun _ h => h).state

/-- A connection that has just been made. -/
def fresh : Endpoint Nat := ⟨UdpConnectionDTLS.new 7 true, UdpSocket.new 5 true, []⟩

/-- What `flush_out_bio` meets when there is nothing to be read. -/
def nothing : List BioAnswer := [⟨[], .wantRead, []⟩]

/-- The message is stored before the handshake and sent after it. -/
theorem messages_kept_one : (run step (.ret (new fresh))
    [.send ⟨0, [97]⟩ false [⟨.wantRead, nothing⟩],
      .parse false false [⟨.none, true, nothing⟩] [⟨1, nothing⟩],
      .returns [] true]).state.Keeps :=
  messages_kept fresh rfl _ (by
    refine ⟨?_, ?_, ?_, trivial⟩
    · intro s hs
      cases hs
      refine ⟨fun hr => ?_, fun ht => ?_⟩
      · cases hr
      · cases ht.2
    · intro s hs
      cases hs
      refine ⟨fun _ a ha => ?_, fun ht => ht.elim⟩
      obtain rfl := List.mem_singleton.mp ha
      exact Int.one_pos
    · exact fun _ _ => ⟨trivial, fun ht => ht.elim⟩)

/-- `SSL_write` refuses the stored message when the handshake is complete. It stays in the queue,
and the next message is written before it. -/
def refused : List Input :=
  [.send ⟨0, [97]⟩ false [⟨.wantRead, nothing⟩],
    .parse false false [⟨.none, true, nothing⟩] [⟨-1, nothing⟩], .returns [] true,
    .send ⟨1, [98]⟩ false [⟨.none, nothing⟩]]

theorem refused_message_overtaken :
    ¬ ∀ is : List Input, (run step (.ret (new fresh)) is).state.Keeps := by
  intro h
  have hwrites : (run step (.ret (new fresh)) refused).state.writes = [⟨1, [0]⟩] := rfl
  have horder := (h refused).order ⟨1, [0]⟩ (by rw [hwrites]; simp) 0 (by simp)
  cases horder

end DtlsExchange

end Evel
