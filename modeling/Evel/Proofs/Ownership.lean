import Evel.Model.Senders
import Evel.Proofs.Handover

namespace Evel
open General Handover

namespace Endpoint
open Dtls
variable {Addr : Type u} {kept : Prop}

/-- Recording one call of `send_raw` keeps the log lawful. -/
theorem sendRaw_lawful {e : Endpoint Addr}
    (h : Lawful (e.ucf.waitingSends = [] ∧ kept) e.handovers) :
    (e.sendRaw data script).Split
      (fun r => Lawful (r.1.ucf.waitingSends = [] ∧ kept) r.1.handovers ∧ r.1.conn = e.conn)
      (fun r => Lawful True r.1.handovers) := by
  rw [sendRaw, Exec.split_bimap]
  cases hq : e.ucf.queues data script with
  | true =>
    obtain ⟨s', hs, hm⟩ := UdpSocket.sendRaw_queues e.conn.addr hq
    rw [hs]
    exact ⟨h.snoc (fun _ => not_linear rfl (List.count_pos_iff.mpr hm)) (by simp), rfl⟩
  | false =>
    refine (UdpSocket.sendRaw_keeps hq).mono (fun r hr => ⟨h.snoc (by simp) ?_, rfl⟩)
      (fun r _ => h.mono (fun _ => trivial))
    rintro ⟨hempty, hkept⟩ -
    have hw : r.1.waitingSends = [] := hr.1.trans hempty
    exact ⟨⟨hw, hkept⟩, .inl ⟨hr.2, by simp [hw]⟩⟩

theorem flushLoop_lawful {e : Endpoint Addr}
    (h : Lawful (e.ucf.waitingSends = [] ∧ kept) e.handovers) :
    (flushLoop ptr script e).Split
      (fun e' => Lawful (e'.ucf.waitingSends = [] ∧ kept) e'.handovers ∧
        e'.conn.waitingSends = e.conn.waitingSends ∧ e'.conn.ssl = e.conn.ssl)
      (fun e' => Lawful True e'.handovers) := by
  induction script with
  | nil => exact h.mono (fun _ => trivial)
  | cons b bs ih =>
    rw [flushLoop]
    split
    · split
      · rw [Exec.split_map]
        exact (sendRaw_lawful h).mono (fun r hr => ⟨hr.1, by simp [hr.2]⟩) (fun r hr => hr)
      · exact ⟨h, rfl, rfl⟩
    · exact ⟨h, rfl, rfl⟩
    · exact ih
    · exact ⟨h, rfl, rfl⟩
    · exact ⟨h, rfl, rfl⟩

theorem flushOutBio_lawful {e : Endpoint Addr}
    (h : Lawful (e.ucf.waitingSends = [] ∧ kept) e.handovers) :
    (e.flushOutBio script).Split
      (fun e' => Lawful (e'.ucf.waitingSends = [] ∧ kept) e'.handovers ∧
        e'.conn.waitingSends = e.conn.waitingSends ∧ e'.conn.ssl = e.conn.ssl)
      (fun e' => Lawful True e'.handovers) := by
  rw [flushOutBio]
  split
  · split
    · exact flushLoop_lawful h
    · exact flushLoop_lawful (e := { e with
        conn := { e.conn with cipheredOutput := some e.ucf.nextPtr },
        ucf := { e.ucf with nextPtr := e.ucf.nextPtr + 1 } }) h
  · exact ⟨h, rfl, rfl⟩

/-- What `send` adds to the queue of the connection. -/
def stored (data : Buffer) (script : List WriteAnswer) (c : UdpConnectionDTLS Addr) :
    List Dtls.Send :=
  if c.stores data && (firstWrite script).any (fun w => w.err = .wantRead)
  then [⟨data.ptr, data.bytes⟩] else []

theorem store_true (data : Buffer) (e : Endpoint Addr) :
    (e.store data true).1.ucf = e.ucf ∧ (e.store data true).1.handovers = e.handovers ∧
      (e.store data true).1.conn.waitingSends = e.conn.waitingSends ++
        (if e.conn.stores data then [⟨data.ptr, data.bytes⟩] else []) ∧
      (e.store data true).2 = some data.ptr := by
  simp only [store]
  split <;> simp

theorem writeLoop_lawful {e : Endpoint Addr}
    (h : Lawful (e.ucf.waitingSends = [] ∧ kept) e.handovers) :
    (writeLoop data true script e).Split
      (fun r => Lawful (r.1.ucf.waitingSends = [] ∧ kept) r.1.handovers ∧
        r.1.conn.waitingSends = e.conn.waitingSends ++ stored data script e.conn ∧
        r.2 = some data.ptr)
      (fun r => Lawful True r.1.handovers) := by
  induction script generalizing e with
  | nil => exact h.mono (fun _ => trivial)
  | cons w ws ih =>
    rw [writeLoop]
    split
    · next he =>
      rw [Exec.split_map]
      exact (flushOutBio_lawful h).mono
        (fun e' hf => ⟨hf.1, by simp [hf.2.1, stored, firstWrite, he], rfl⟩) (fun e' hf => hf)
    · next he =>
      obtain ⟨hu, hh, hw, hl⟩ := store_true data e
      rw [← hu, ← hh] at h
      rw [Exec.split_map]
      refine (flushOutBio_lawful h).mono (fun e' hf => ⟨hf.1, ?_, hl⟩) (fun e' hf => hf)
      rw [hf.2.1, hw]
      simp [stored, firstWrite, he]
    · next he =>
      have hfirst : firstWrite (w :: ws) = firstWrite ws :=
        List.find?_cons_of_neg (by simp [he])
      refine Exec.Split.andThen (P := fun r => Lawful (r.1.ucf.waitingSends = [] ∧ kept)
        r.1.handovers ∧ r.1.conn.waitingSends = e.conn.waitingSends ∧ r.1.conn.ssl = e.conn.ssl)
        ?_ ?_
      · rw [Exec.split_map]
        exact flushOutBio_lawful h
      · rintro r ⟨hr, hw, hs⟩
        have := ih hr
        rw [hw] at this
        simpa [stored, hfirst, UdpConnectionDTLS.stores, hs] using this
    · next he =>
      have hfirst : firstWrite (w :: ws) = firstWrite ws :=
        List.find?_cons_of_neg (by simp [he])
      simpa [stored, hfirst] using ih h
    · next _ hr hw hi =>
      have hr : w.err ≠ .wantRead := hr
      have hretry : w.err ≠ .wantWrite ∧ w.err ≠ .syscall .intr := ⟨hw, hi⟩
      have hfirst : firstWrite (w :: ws) = some w := List.find?_cons_of_pos (by simp [hretry])
      exact ⟨h, by simp [del, stored, hfirst, hr], rfl⟩

theorem send_lawful {e : Endpoint Addr}
    (h : Lawful (e.ucf.waitingSends = [] ∧ kept) e.handovers) :
    (e.send data true script).Split
      (fun r => Lawful (r.1.ucf.waitingSends = [] ∧ kept) r.1.handovers ∧
        r.1.conn.waitingSends = e.conn.waitingSends ++
          (if queues data script e.conn then [⟨data.ptr, data.bytes⟩] else []) ∧
        r.2 = some data.ptr)
      (fun r => Lawful True r.1.handovers) := by
  by_cases hc : e.conn.wantClose || e.conn.nextDel || !e.conn.ssl
  · rw [send, if_pos hc]
    exact ⟨h, by simp [queues, hc], rfl⟩
  · rw [send, if_neg hc]
    refine (writeLoop_lawful h).mono (fun r hr => ⟨hr.1, ?_, hr.2.2⟩) (fun r hr => hr)
    rw [hr.2.1, stored, queues]
    simp [hc]

end Endpoint

namespace Senders
variable {Addr : Type u}

/-- Nothing waits anywhere. -/
structure Emptied (s : Senders Addr) : Prop where
  tcp : ∀ i, (s.tcp i).waitingSends = []
  dtls : ∀ i, (s.dtls i).waitingSends = []
  ucf : s.ucf.waitingSends = []

theorem Emptied.putTcp {s : Senders Addr} (h : s.Emptied) (hc : c.waitingSends = []) :
    (s.putTcp i c).Emptied := by
  refine ⟨fun j => ?_, h.dtls, h.ucf⟩
  by_cases hj : j = i
  · subst hj
    simpa [Senders.putTcp] using hc
  · simpa [Senders.putTcp, hj] using h.tcp j

theorem Emptied.putEndpoint {s : Senders Addr} (h : s.Emptied)
    (hc : e.conn.waitingSends = []) (hu : e.ucf.waitingSends = []) :
    (s.putEndpoint i e).Emptied := by
  refine ⟨h.tcp, fun j => ?_, hu⟩
  by_cases hj : j = i
  · subst hj
    simpa [Senders.putEndpoint] using hc
  · simpa [Senders.putEndpoint, hj] using h.dtls j

/-- The log is lawful, and says that nothing waits once all calls have returned. -/
def Sound (e : Exec (Senders Addr)) : Prop :=
  e.Split (fun s => Lawful s.Emptied s.handovers) (fun s => Lawful True s.handovers)

theorem tcpSend_lawful {s : Senders Addr} (h : Lawful s.Emptied s.handovers) :
    Sound (s.call (.tcpSend i data rese script)) := by
  rw [Sound, call, Exec.split_bimap]
  cases hq : (s.tcp i).queues data with
  | true =>
    obtain ⟨c', hs, hm⟩ := TcpConnection.send_queues rese script hq
    rw [hs]
    exact h.snoc (fun _ => not_linear rfl (List.count_pos_iff.mpr hm)) (by simp)
  | false =>
    refine (TcpConnection.send_keeps hq).mono (fun r hr => h.snoc (by simp) ?_)
      (fun r _ => h.mono (fun _ => trivial))
    rintro he -
    have hw := hr.1.trans (he.tcp i)
    have he' := he.putTcp (i := i) hw
    exact ⟨⟨he'.tcp, he'.dtls, he'.ucf⟩, .inl ⟨hr.2, by simp [hw]⟩⟩

theorem udpSend_lawful {s : Senders Addr} (h : Lawful s.Emptied s.handovers) :
    Sound (s.call (.udpSend dst data script)) := by
  rw [Sound, call, Exec.split_bimap]
  cases hq : s.ucf.queues data script with
  | true =>
    obtain ⟨u', hs, hm⟩ := UdpSocket.sendRaw_queues dst hq
    rw [hs]
    exact h.snoc (fun _ => not_linear rfl (List.count_pos_iff.mpr hm)) (by simp)
  | false =>
    refine (UdpSocket.sendRaw_keeps hq).mono (fun r hr => h.snoc (by simp) ?_)
      (fun r _ => h.mono (fun _ => trivial))
    rintro he -
    have hw := hr.1.trans he.ucf
    exact ⟨⟨he.tcp, he.dtls, hw⟩, .inl ⟨hr.2, by simp [hw]⟩⟩

/-- Nothing waits at the connections. -/
def Others (s : Senders Addr) : Prop :=
  (∀ j, (s.tcp j).waitingSends = []) ∧ ∀ j, (s.dtls j).waitingSends = []

theorem Emptied.others {s : Senders Addr} (h : s.Emptied) :
    s.ucf.waitingSends = [] ∧ s.Others := ⟨h.ucf, h.tcp, h.dtls⟩

theorem dtlsSend_lawful {s : Senders Addr} (h : Lawful s.Emptied s.handovers) :
    Sound (s.call (.dtlsSend i data script)) := by
  rw [Sound, call, Exec.split_bimap]
  have hl : Lawful ((s.endpoint i).ucf.waitingSends = [] ∧ s.Others)
      (s.endpoint i).handovers := h.mono Emptied.others
  refine (Endpoint.send_lawful hl).mono (fun r hr => ?_) (fun r hr => hr)
  obtain ⟨hlog, hw, hleft⟩ := hr
  refine hlog.snoc ?_ ?_
  · intro hq
    have hq : Endpoint.queues data script (s.endpoint i).conn = true := hq
    refine not_linear hleft (List.count_pos_iff.mpr ?_)
    simp [hw, hq]
  · rintro ⟨hu, ht, hd⟩ hq
    have hw : r.1.conn.waitingSends = [] := by
      simpa [endpoint, hd i, show Endpoint.queues data script (s.dtls i) = false from hq] using hw
    have he := Emptied.putEndpoint (s := { s with ucf := r.1.ucf }) (i := i) ⟨ht, hd, hu⟩ hw hu
    exact ⟨⟨he.tcp, he.dtls, he.ucf⟩, .inl ⟨hleft, by simp [hw]⟩⟩

theorem dtlsFlush_lawful {s : Senders Addr} (h : Lawful s.Emptied s.handovers) :
    Sound (s.call (.dtlsFlush i script)) := by
  rw [Sound, call, Exec.split_map]
  have hl : Lawful ((s.endpoint i).ucf.waitingSends = [] ∧ s.Others)
      (s.endpoint i).handovers := h.mono Emptied.others
  refine (Endpoint.flushOutBio_lawful hl).mono (fun e he => he.1.mono ?_) (fun e he => he)
  rintro ⟨hu, ht, hd⟩
  have he' := Emptied.putEndpoint (s := { s with ucf := e.ucf }) (i := i) ⟨ht, hd, hu⟩
    (he.2.1.trans (hd i)) hu
  exact ⟨he'.tcp, he'.dtls, he'.ucf⟩

/-- An `on_out` records nothing and finds nothing to do as long as nothing waits. -/
theorem out_lawful {s : Senders Addr} (h : Lawful s.Emptied s.handovers) {e : Exec σ}
    {f : σ → Senders Addr} (hf : ∀ c, (f c).handovers = s.handovers)
    (he : s.Emptied → ∃ c, e = .ret c ∧ (f c).Emptied) :
    Sound (e.map f) := by
  have hk : s.Emptied → ∀ c, e = .ret c → (f c).Emptied := by
    intro hs c hc
    obtain ⟨c', hc', hE⟩ := he hs
    rw [hc] at hc'
    cases hc'
    exact hE
  cases e with
  | ret c =>
    simp only [Sound, Exec.split_map, Exec.split_ret, hf]
    exact h.mono (fun hs => hk hs c rfl)
  | hang c =>
    simp only [Sound, Exec.split_map, Exec.split_hang, hf]
    exact h.mono (fun _ => trivial)
  | undef c =>
    simp only [Sound, Exec.split_map, Exec.split_undef, hf]
    exact h.mono (fun _ => trivial)

/-- Every call keeps the law of the log. -/
theorem call_lawful {s : Senders Addr} (h : Lawful s.Emptied s.handovers) (k : Call Addr) :
    Sound (s.call k) := by
  cases k with
  | tcpSend i data rese script => exact tcpSend_lawful h
  | tcpOut i script =>
    exact out_lawful h (fun _ => rfl)
      (fun hs => ⟨_, TcpConnection.onOut_nil (hs.tcp i), hs.putTcp (hs.tcp i)⟩)
  | udpSend dst data script => exact udpSend_lawful h
  | udpOut script =>
    exact out_lawful h (fun _ => rfl) (fun hs => ⟨_, UdpSocket.onOut_nil hs.ucf, hs⟩)
  | dtlsSend i data script => exact dtlsSend_lawful h
  | dtlsFlush i script => exact dtlsFlush_lawful h

/-- No two elements of a queue refer to one buffer. -/
structure OneOwner (s : Senders Addr) : Prop where
  tcp : ∀ i, ((s.tcp i).waitingSends.map Tcp.SendItem.allo).Nodup
  dtls : ∀ i, ((s.dtls i).waitingSends.map Dtls.Send.data).Nodup
  ucf : (s.ucf.waitingSends.map Udp.SendItem.data).Nodup

theorem Emptied.oneOwner {s : Senders Addr} (h : s.Emptied) : s.OneOwner :=
  ⟨fun i => by simp [h.tcp i], fun i => by simp [h.dtls i], by simp [h.ucf]⟩

theorem run_sound {s : Senders Addr} (hs : s.Emptied) (hlog : s.handovers = [])
    (calls : List (Call Addr)) : Sound (run step (.ret s) calls) := by
  refine run_invariant_all Sound (fun e k he => ?_) ?_ calls
  · exact Exec.Split.andThen he (fun s h => call_lawful h k)
  · refine ⟨?_, ?_⟩
    · simp [hlog]
    · simp [hlog, hs]

/-- The buffers of a run have one owner each if and only if no hand-over reaches a branch that
queues the buffer. -/
theorem linear_iff_not_queued {s : Senders Addr} (hs : s.Emptied) (hlog : s.handovers = [])
    (calls : List (Call Addr)) :
    ((∀ h ∈ (run step (.ret s) calls).state.handovers, h.Linear) ∧
        (run step (.ret s) calls).Split OneOwner (fun _ => True)) ↔
      ∀ h ∈ (run step (.ret s) calls).state.handovers, h.queues = false := by
  have hrun := run_sound hs hlog calls
  have hlaw : Lawful True (run step (.ret s) calls).state.handovers :=
    Exec.Split.state (Q := fun s => Lawful True s.handovers)
      (hrun.mono (fun s h => h.mono (fun _ => trivial)) (fun s h => h))
  rw [← hlaw.linear_iff, and_iff_left_iff_imp]
  intro hlin
  cases he : run step (.ret s) calls with
  | ret s' =>
    rw [he] at hrun hlaw hlin
    exact (hrun.linear (hlaw.linear_iff.mp hlin)).1.oneOwner
  | hang s' => trivial
  | undef s' => trivial

theorem new_emptied (fd : Int) (addr : Nat → Addr) : (new fd addr).Emptied :=
  ⟨fun _ => rfl, fun _ => rfl, rfl⟩

theorem linear_two_flushes :
    let e := run step (.ret (new 5 id))
      [.dtlsSend 0 ⟨100, [1]⟩ [⟨.none, [⟨[7], .none, [⟨1, .zero⟩]⟩]⟩],
        .udpSend 1 ⟨101, [2]⟩ [⟨-1, .intr⟩, ⟨1, .zero⟩]]
    (∀ h ∈ e.state.handovers, h.Linear) ∧ e.Split OneOwner (fun _ => True) :=
  (linear_iff_not_queued (new_emptied 5 id) rfl _).mpr (by decide)

/-- With a full socket, two records of one connection wait in the same buffer, which the
connection still believes its own. -/
theorem flushed_twice :
    let s := (run step (.ret (new 5 id))
      [.dtlsSend 0 ⟨100, [1]⟩ [⟨.none, [⟨[7], .none, [⟨-1, .again⟩]⟩]⟩],
        .dtlsSend 0 ⟨101, [2]⟩ [⟨.none, [⟨[8], .none, []⟩]⟩]]).state
    ¬ (∀ h ∈ s.handovers, h.Linear) ∧
      s.ucf.waitingSends.map Udp.SendItem.data = [0, 0] ∧ (s.dtls 0).cipheredOutput = some 0 := by
  decide

end Senders

end Evel
