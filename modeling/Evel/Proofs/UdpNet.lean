import Mathlib.Data.List.Perm.Subperm
import Evel.General.Runs
import Evel.Model.UdpNet
import Evel.Proofs.UdpQueue

namespace Evel.UdpSocket
open General Udp
variable {Addr : Type u} {s s' : UdpSocket Addr}

/-- Each `sendto` that succeeds takes the whole datagram, as the kernel does. -/
def whole : List SysAnswer → List (List Byte) → Bool
  | [], _ | _, [] => true
  | a :: as, d :: ds =>
    if a.count ≤ 0 then !a.intr || whole as (d :: ds)
    else decide (d.length ≤ a.count) && whole as ds

/-- What has been sent and then what waits are what they were, with `part` behind them. -/
structure Passes (part : List (Addr × List Byte)) (s s' : UdpSocket Addr) : Prop where
  sent : s.sent <+: s'.sent
  fifo : Fifo s'.sent s'.queued (s.sent ++ s.queued ++ part)

theorem Passes.news (h : Passes part s s') :
    ∃ news, s.sent ++ news = s'.sent ∧ news ++ s'.queued = s.queued ++ part := by
  obtain ⟨news, hnews⟩ := h.sent
  refine ⟨news, hnews, ?_⟩
  have hfifo := h.fifo
  rw [Fifo, ← hnews, List.append_assoc, List.append_assoc, List.append_cancel_left_eq] at hfifo
  exact hfifo

theorem passes_same (hs : s'.sent = s.sent) (hq : s'.queued = s.queued) : Passes [] s s' :=
  ⟨hs ▸ List.prefix_rfl, by rw [Fifo, hs, hq, List.append_nil]⟩

theorem Passes.trans (h : Passes [] s s') (h' : Passes part s' s'') : Passes part s s'' := by
  refine ⟨h.sent.trans h'.sent, ?_⟩
  have hfirst : s'.sent ++ s'.queued = s.sent ++ s.queued := by
    rw [h.fifo, List.append_nil]
  rw [← hfirst]
  exact h'.fifo

theorem passes_drain (script : List SysAnswer) (s : UdpSocket Addr)
    (hne : ∀ p ∈ s.waitingSends, p.bytes.length ≠ 0)
    (hw : whole script (s.waitingSends.map (·.bytes)) = true) :
    (drain script s.waitingSends s).Split (Passes [] s) (fun _ => True) := by
  induction script generalizing s with
  | nil =>
    cases hq : s.waitingSends with
    | nil => exact passes_same rfl rfl
    | cons p rest => trivial
  | cons a as ih =>
    cases hq : s.waitingSends with
    | nil => exact passes_same rfl rfl
    | cons p rest =>
      have hp := hne p (by simp [hq])
      rw [hq] at hw
      simp only [List.map_cons, whole] at hw
      by_cases hle : a.count ≤ 0
      · rw [if_pos hle] at hw
        cases hi : a.intr with
        | true =>
          rw [drain_intr hp hle hi, ← hq]
          exact ih s hne (by simpa [hi, hq] using hw)
        | false =>
          simp only [drain, SysAnswer.real_nonpos hp, hle, hi, if_true, Bool.false_eq_true,
            if_false]
          split <;> exact passes_same rfl rfl
      · rw [if_neg hle, Bool.and_eq_true, decide_eq_true_eq] at hw
        rw [drain_whole hp hw.1]
        have hpop : Passes [] s (s.popFront p rest) := by
          refine ⟨List.prefix_append _ _, ?_⟩
          have hfifo : Fifo s.sent s.queued (s.sent ++ s.queued) := rfl
          have hhead : s.queued = (p.dst, p.bytes) :: (s.popFront p rest).queued := by
            simp [queued, popFront, hq]
          rw [List.append_nil]
          rw [hhead] at hfifo ⊢
          exact hfifo.pop
        have hrest := ih (s.popFront p rest) (fun q hm => hne q (by rw [hq]; exact .tail _ hm)) hw.2
        exact hrest.mono (fun _ h => hpop.trans h) (fun _ _ => trivial)

/-- The datagram is sent or waits. -/
def keeps (script : List SysAnswer) (s : UdpSocket Addr) : Bool :=
  !s.waitingSends.isEmpty ||
    (SysAnswer.first script).any (fun a => decide (0 < a.count) || a.again)

theorem passes_addSendItem (dst : Addr) (data : Buffer) (allow : Bool) (s : UdpSocket Addr) :
    Passes [(dst, data.bytes)] s (s.addSendItem dst data allow).1 := by
  have hsent : (s.addSendItem dst data allow).1.sent = s.sent := by cases allow <;> rfl
  refine ⟨hsent.symm ▸ List.prefix_rfl, ?_⟩
  rw [Fifo, hsent, queued_addSendItem, List.append_assoc]

theorem passes_sendNow (dst : Addr) (data : Buffer) (allow : Bool) (script : List SysAnswer)
    (hq : s.waitingSends = []) (hb : data.bytes.length ≠ 0)
    (hw : whole script [data.bytes] = true) :
    (sendNow dst data allow script s).Split
      (fun r => Passes (if s.keeps script then [(dst, data.bytes)] else []) s r.1)
      (fun _ => True) := by
  induction script with
  | nil => trivial
  | cons a as ih =>
    simp only [whole] at hw
    simp only [sendNow, SysAnswer.real_nonpos hb, keeps, SysAnswer.first_cons]
    by_cases hle : a.count ≤ 0
    · rw [if_pos hle] at hw
      cases hi : a.intr with
      | true =>
        simpa [hle, keeps] using ih (by simpa [hi] using hw)
      | false =>
        have hnot : ¬ 0 < a.count := Int.not_lt.mpr hle
        simp only [hle, Bool.false_eq_true, and_false, if_false, if_true, hq]
        cases ha : a.again with
        | true => simpa [hnot, ha] using passes_addSendItem dst data allow s
        | false =>
          have hsame : Passes [] s s.onHup := passes_same rfl rfl
          simpa [hnot, ha] using hsame
    · rw [if_neg hle, Bool.and_eq_true, decide_eq_true_eq] at hw
      simp only [hle, false_and, if_false, accept_whole dst hw.1]
      have hpos : 0 < a.count := Int.not_le.mp hle
      let s' : UdpSocket Addr := { s with sent := s.sent ++ [(dst, data.bytes)] }
      have hnow : Passes [(dst, data.bytes)] s s' := by
        refine ⟨List.prefix_append _ _, ?_⟩
        have hnone : s.queued = [] := by simp [queued, hq]
        have hstill : s'.queued = [] := hnone
        simp [Fifo, hnone, hstill, s']
      simpa [hpos] using hnow

theorem passes_sendRaw (dst : Addr) (data : Buffer) (allow : Bool) (script : List SysAnswer)
    (s : UdpSocket Addr) (hw : s.waitingSends = [] → whole script [data.bytes] = true) :
    (s.sendRaw dst data allow script).Split
      (fun r => Passes (if data.bytes ≠ [] ∧ s.keeps script then [(dst, data.bytes)] else [])
        s r.1) (fun _ => True) := by
  simp only [sendRaw]
  by_cases hb : data.bytes = []
  · have hsame : Passes [] s s := passes_same rfl rfl
    simpa [hb] using hsame
  · have hl : data.bytes.length ≠ 0 := by simpa using hb
    rw [if_neg hl]
    cases hq : s.waitingSends with
    | nil =>
      have hnow := passes_sendNow dst data allow script hq hl (hw hq)
      simpa [hb] using hnow
    | cons p rest =>
      simpa [hb, keeps, hq] using passes_addSendItem dst data allow s

end Evel.UdpSocket

namespace Evel.UdpNet
open General Udp UdpSocket
variable {Addr : Type u} [DecidableEq Addr] {s s' : UdpNet Addr} {src dst : Addr}

/-- What of the datagrams is about this address. -/
def about (a : Addr) (ps : List (Addr × List Byte)) : List (List Byte) :=
  ps.filterMap fun p => if p.1 = a then some p.2 else none

/-- The datagrams in the network from one host to another. -/
def flying (src dst : Addr) (air : List (Packet Addr)) : List (List Byte) :=
  air.filterMap fun p => if p.src = src ∧ p.dst = dst then some p.bytes else none

/-- The datagrams from one host to another, as `parse` is given them: those that it has been given,
those in the network and those that wait. -/
def onWay (src dst : Addr) (s : UdpNet Addr) : List (List Byte) :=
  let h := s.hosts dst
  about src h.parsed ++
    (flying src dst s.air ++ about dst (s.hosts src).sock.queued).map (List.take h.inpBufSize)

@[simp] theorem about_append (a : Addr) (ps qs : List (Addr × List Byte)) :
    about a (ps ++ qs) = about a ps ++ about a qs := List.filterMap_append ..

@[simp] theorem flying_append (src dst : Addr) (ps qs : List (Packet Addr)) :
    flying src dst (ps ++ qs) = flying src dst ps ++ flying src dst qs := List.filterMap_append ..

theorem flying_sent (src dst i : Addr) (ps : List (Addr × List Byte)) :
    flying src dst (ps.map fun p => ⟨i, p.1, p.2⟩) = if i = src then about dst ps else [] := by
  rw [flying, List.filterMap_map]
  by_cases hi : i = src
  · simp [hi, about]
  · simp [hi]

/-- No datagram in a queue or in the network is empty, and the buffers are those of the start. -/
structure Sane (inpBufSize : Addr → Nat) (s : UdpNet Addr) : Prop where
  queued : ∀ i, ∀ p ∈ (s.hosts i).sock.queued, p.2 ≠ []
  air : ∀ p ∈ s.air, p.bytes ≠ []
  room : ∀ i, (s.hosts i).inpBufSize = inpBufSize i

/-- What a host sends is all that comes to be on its way. -/
theorem onWay_putOut (src dst : Addr) (hp : Passes part (s.hosts i).sock sock) :
    (s.putOut i sock).onWay src dst = s.onWay src dst ++
      if i = src then (about dst part).map (List.take (s.hosts dst).inpBufSize) else [] := by
  obtain ⟨sent, hsent, hfifo⟩ := hp.news
  have hparsed : ∀ j, ((s.putOut i sock).hosts j).parsed = (s.hosts j).parsed ∧
      ((s.putOut i sock).hosts j).inpBufSize = (s.hosts j).inpBufSize := by
    intro j
    by_cases hj : j = i
    · subst hj
      simp [putOut]
    · simp [putOut, hj]
  have hair : (s.putOut i sock).air = s.air ++ sent.map fun p => ⟨i, p.1, p.2⟩ := by
    simp only [putOut, ← hsent, List.drop_left]
  rw [onWay, onWay, (hparsed dst).1, (hparsed dst).2, hair, flying_append, flying_sent]
  by_cases hi : i = src
  · subst hi
    have hqueue : about dst sent ++ about dst sock.queued =
        about dst (s.hosts i).sock.queued ++ about dst part := by
      rw [← about_append, hfifo, about_append]
    simp only [putOut, Function.update_self, if_true]
    rw [List.append_assoc (flying i dst s.air), hqueue]
    simp [List.append_assoc]
  · have hsame : ((s.putOut i sock).hosts src).sock = (s.hosts src).sock := by
      simp [putOut, Ne.symm hi]
    simp [hi, hsame]

theorem Sane.putOut (h : Sane n s) (hp : Passes part (s.hosts i).sock sock)
    (hpart : ∀ p ∈ part, p.2 ≠ []) : Sane n (s.putOut i sock) := by
  obtain ⟨sent, hsent, hfifo⟩ := hp.news
  have hnew : ∀ p ∈ sent ++ sock.queued, p.2 ≠ [] := by
    intro p hm
    rw [hfifo] at hm
    rcases List.mem_append.mp hm with hm | hm
    · exact h.queued i p hm
    · exact hpart p hm
  refine ⟨fun j p hm => ?_, fun p hm => ?_, fun j => ?_⟩
  · by_cases hj : j = i
    · subst hj
      simp only [UdpNet.putOut, Function.update_self] at hm
      exact hnew p (List.mem_append_right _ hm)
    · simp only [UdpNet.putOut, Function.update_of_ne hj] at hm
      exact h.queued j p hm
  · simp only [UdpNet.putOut, ← hsent, List.drop_left] at hm
    rcases List.mem_append.mp hm with hm | hm
    · exact h.air p hm
    · obtain ⟨q, hq, rfl⟩ := List.mem_map.mp hm
      exact hnew q (List.mem_append_left _ hq)
  · by_cases hj : j = i
    · subst hj
      simpa [UdpNet.putOut] using h.room j
    · simpa [UdpNet.putOut, hj] using h.room j

/-- Only what the events of the sockets say may differ. -/
structure Alike (s s' : UdpNet Addr) : Prop where
  air : s'.air = s.air
  queued : ∀ i, (s'.hosts i).sock.queued = (s.hosts i).sock.queued
  parsed : ∀ i, (s'.hosts i).parsed = (s.hosts i).parsed
  room : ∀ i, (s'.hosts i).inpBufSize = (s.hosts i).inpBufSize

theorem Alike.onWay (h : Alike s s') : s'.onWay src dst = s.onWay src dst := by
  simp only [UdpNet.onWay, h.air, h.queued, h.parsed, h.room]

omit [DecidableEq Addr] in
theorem Alike.sane (h : Alike s s') (hs : Sane n s) : Sane n s' where
  queued i := by
    rw [h.queued]
    exact hs.queued i
  air := by
    rw [h.air]
    exact hs.air
  room i := (h.room i).trans (hs.room i)

theorem alike_update {h : UdpHost Addr} (hq : h.sock.queued = (s.hosts i).sock.queued)
    (hp : h.parsed = (s.hosts i).parsed) (hr : h.inpBufSize = (s.hosts i).inpBufSize) :
    Alike s { s with hosts := Function.update s.hosts i h } := by
  refine ⟨rfl, fun j => ?_, fun j => ?_, fun j => ?_⟩
  all_goals
    by_cases hj : j = i
    · subst hj
      simpa
    · simp [hj]

theorem alike_putEvent (i : Addr) (t : Turn Event) (s : UdpNet Addr) :
    (s.putEvent i t).Split (Alike s) (fun _ => True) := by
  cases t with
  | next e | done e => exact alike_update rfl rfl rfl
  | hang e => trivial

/-- A datagram that is received leaves the network for `parse`. -/
theorem onWay_receive (hs : Sane n s) (hn : 0 < n i) (hk : k < s.air.length)
    (hi : (s.air[k]).dst = i) :
    ((({ s with air := s.air.eraseIdx k } : UdpNet Addr).receive i s.air[k]).onWay src dst).Perm
      (s.onWay src dst) := by
  let p := s.air[k]
  let size := (s.hosts i).inpBufSize
  have hne : p.bytes.take size ≠ [] := by
    have hb := hs.air p (List.getElem_mem hk)
    have hsize : size ≠ 0 := by
      rw [show size = n i from hs.room i]
      exact Nat.ne_of_gt hn
    simp [List.take_eq_nil_iff, hb, hsize]
  have hfly : (flying src dst s.air).Perm
      ((if p.src = src ∧ i = dst then [p.bytes] else []) ++
        flying src dst (s.air.eraseIdx k)) := by
    have hair := ((List.getElem_cons_eraseIdx_perm hk).filterMap
      fun p => if p.src = src ∧ p.dst = dst then some p.bytes else none).symm
    refine hair.trans (.of_eq ?_)
    by_cases hc : p.src = src ∧ i = dst
    · simp [flying, p, hi, hc]
    · rw [if_neg hc, List.nil_append, List.filterMap_cons_none (by rw [hi, if_neg hc])]
      rfl
  rw [receive, if_neg hne]
  have hqueue : ∀ h : UdpHost Addr, h.sock = (s.hosts i).sock →
      (Function.update s.hosts i h src).sock = (s.hosts src).sock := by
    intro h hh
    by_cases hj : src = i
    · subst hj
      simpa using hh
    · simp [hj]
  simp only [onWay, hqueue]
  by_cases hd : i = dst
  · subst hd
    simp only [Function.update_self, about_append, List.append_assoc]
    refine .append_left _ ?_
    by_cases hc : p.src = src
    · have hgiven : about src [(p.src, p.bytes.take size)] = [p.bytes.take size] := by
        simp [about, hc]
      rw [hgiven]
      simpa [hc, size] using ((hfly.append_right _).map (List.take size)).symm
    · have hgiven : about src [(p.src, p.bytes.take size)] = [] := by simp [about, hc]
      rw [hgiven]
      simpa [hc, size] using ((hfly.append_right _).map (List.take size)).symm
  · simp only [Function.update_of_ne (Ne.symm hd)]
    refine .append_left _ ?_
    simpa [hd] using ((hfly.append_right _).map (List.take (s.hosts dst).inpBufSize)).symm

theorem Sane.receive (h : Sane n s) (i : Addr) (p : Packet Addr) (k : Nat) :
    Sane n (({ s with air := s.air.eraseIdx k } : UdpNet Addr).receive i p) := by
  have hair : ∀ q ∈ s.air.eraseIdx k, q.bytes ≠ [] :=
    fun q hq => h.air q (List.mem_of_mem_eraseIdx hq)
  simp only [UdpNet.receive]
  split
  · exact ⟨h.queued, hair, h.room⟩
  · refine ⟨fun j => ?_, hair, fun j => ?_⟩
    · by_cases hj : j = i
      · subst hj
        simpa using h.queued j
      · simpa [hj] using h.queued j
    · by_cases hj : j = i
      · subst hj
        simpa using h.room j
      · simpa [hj] using h.room j

/-- The datagrams that one host was asked to send to another, but for the empty ones. -/
def passed (src dst : Addr) (inputs : List (Input Addr)) : List (List Byte) :=
  inputs.filterMap fun
    | .send i j data _ _ => if i = src ∧ j = dst ∧ data.bytes ≠ [] then some data.bytes else none
    | _ => none

@[simp] theorem passed_append (src dst : Addr) (is js : List (Input Addr)) :
    passed src dst (is ++ js) = passed src dst is ++ passed src dst js := List.filterMap_append ..

/-- The kernel sends a datagram as a whole or not at all. -/
def Whole (s : UdpNet Addr) : Input Addr → Prop
  | .send i _ data _ script =>
    (s.hosts i).sock.waitingSends = [] → whole script [data.bytes] = true
  | .onOut i script => whole script ((s.hosts i).sock.waitingSends.map (·.bytes)) = true
  | _ => True

/-- The network neither loses nor doubles anything, and no datagram is refused by the kernel. -/
def Faithful (s : UdpNet Addr) : Input Addr → Prop
  | .send i _ data _ script => data.bytes = [] ∨ (s.hosts i).sock.keeps script = true
  | .lose _ | .duplicate _ => False
  | _ => True

instance (s : UdpNet Addr) : DecidablePred (Whole s)
  | .send i _ data _ script => inferInstanceAs (Decidable
      ((s.hosts i).sock.waitingSends = [] → whole script [data.bytes] = true))
  | .onOut i script => inferInstanceAs (Decidable
      (whole script ((s.hosts i).sock.waitingSends.map (·.bytes)) = true))
  | .onInp .. | .act .. | .lose _ | .duplicate _ => .isTrue trivial

instance (s : UdpNet Addr) : DecidablePred (Faithful s)
  | .send i _ data _ script => inferInstanceAs (Decidable
      (data.bytes = [] ∨ (s.hosts i).sock.keeps script = true))
  | .lose _ | .duplicate _ => .isFalse id
  | .onOut .. | .onInp .. | .act .. => .isTrue trivial

/-- What a step does to the datagrams on their way from one host to another. -/
def Way (src dst : Addr) (part : List (List Byte)) (k : Input Addr) (s s' : UdpNet Addr) : Prop :=
  ∃ lost copy, (s'.onWay src dst ++ lost).Perm (s.onWay src dst ++ part ++ copy) ∧
    (Faithful s k → lost = []) ∧ ((∀ j, k ≠ .duplicate j) → copy = []) ∧
    copy ⊆ s.onWay src dst

theorem way_kept {k : Input Addr} (h : (s'.onWay src dst).Perm (s.onWay src dst ++ part)) :
    Way src dst part k s s' :=
  ⟨[], [], by simpa using h, fun _ => rfl, fun _ => rfl, List.nil_subset _⟩

theorem way_onInp (hs : Sane n s) (hn : 0 < n i) (k : Option Nat) (errno : Errno)
    (acts : List Event.Act) :
    (s.onInp i k errno acts).Split
      (fun s' => Sane n s' ∧ (s'.onWay src dst).Perm (s.onWay src dst)) (fun _ => True) := by
  have hput : ∀ t s', Sane n s' → (s'.onWay src dst).Perm (s.onWay src dst) →
      (s'.putEvent i t).Split
        (fun s' => Sane n s' ∧ (s'.onWay src dst).Perm (s.onWay src dst)) (fun _ => True) := by
    intro t s' hs' hp
    refine (alike_putEvent i t s').mono (fun s'' h => ⟨h.sane hs', ?_⟩) (fun _ h => h)
    rwa [h.onWay]
  have hstay : (Exec.ret s).Split
      (fun s' => Sane n s' ∧ (s'.onWay src dst).Perm (s.onWay src dst)) (fun _ => True) :=
    ⟨hs, .refl _⟩
  simp only [onInp]
  split
  · exact hstay
  · cases k with
    | none => exact hput _ s hs (.refl _)
    | some k =>
      cases hp : s.air[k]? with
      | none =>
        simp only [hp]
        exact hstay
      | some p =>
        simp only [hp]
        obtain ⟨hk, rfl⟩ := List.getElem?_eq_some_iff.mp hp
        split
        · next hi => exact hput _ _ (hs.receive i _ k) (onWay_receive hs hn hk hi)
        · exact hstay

theorem way_apply (src dst : Addr) (hs : Sane n s) (hn : ∀ i, 0 < n i) {k : Input Addr}
    (hw : Whole s k) :
    (s.apply k).Split (fun s' => Sane n s' ∧
      Way src dst ((passed src dst [k]).map (List.take (n dst))) k s s') (fun _ => True) := by
  cases k with
  | send i j data allow script =>
    simp only [apply, Exec.split_map]
    refine (passes_sendRaw j data allow script (s.hosts i).sock hw).mono (fun r h => ⟨?_, ?_⟩)
      (fun _ _ => trivial)
    · refine hs.putOut h (fun p hp => ?_)
      split at hp
      · next hc =>
        rw [List.mem_singleton.mp hp]
        exact hc.1
      · cases hp
    · have hput := onWay_putOut src dst h
      by_cases hc : data.bytes ≠ [] ∧ (s.hosts i).sock.keeps script
      · rw [if_pos hc] at hput
        refine way_kept (.of_eq (hput.trans ?_))
        rw [hs.room dst]
        by_cases hi : i = src
        · by_cases hj : j = dst <;> simp [passed, about, hi, hj, hc.1]
        · simp [passed, hi]
      · rw [if_neg hc] at hput
        refine ⟨(passed src dst [.send i j data allow script]).map (List.take (n dst)), [], ?_, ?_,
          fun _ => rfl, List.nil_subset _⟩
        · rw [hput]
          simp [about]
        · intro hf
          have hb : data.bytes = [] := by
            by_contra hb
            exact hc ⟨hb, hf.resolve_left hb⟩
          simp [passed, hb]
  | onOut i script =>
    simp only [apply, Exec.split_map]
    have hne : ∀ p ∈ (s.hosts i).sock.waitingSends, p.bytes.length ≠ 0 := by
      intro p hp
      have hq := hs.queued i (p.dst, p.bytes) (List.mem_map_of_mem hp)
      simpa using hq
    have hnone : ∀ p ∈ ([] : List (Addr × List Byte)), p.2 ≠ [] := by simp
    refine (passes_drain script _ hne hw).mono (fun sock h => ⟨hs.putOut h hnone, ?_⟩)
      (fun _ _ => trivial)
    refine way_kept ?_
    rw [onWay_putOut src dst h]
    simp [passed, about]
  | onInp i k errno acts =>
    exact (way_onInp hs (hn i) k errno acts).mono
      (fun s' h => ⟨h.1, way_kept (by simpa [passed] using h.2)⟩) (fun _ _ => trivial)
  | act i a =>
    have h : Alike s (s.act i a) := alike_update rfl rfl rfl
    refine ⟨h.sane hs, way_kept ?_⟩
    rw [h.onWay]
    simp [passed]
  | lose k =>
    have hair : ∀ q ∈ s.air.eraseIdx k, q.bytes ≠ [] :=
      fun q hq => hs.air q (List.mem_of_mem_eraseIdx hq)
    refine ⟨⟨hs.queued, hair, hs.room⟩, ?_⟩
    have hsub : ((⟨s.hosts, s.air.eraseIdx k⟩ : UdpNet Addr).onWay src dst).Sublist
        (s.onWay src dst) := by
      have hfly := (List.eraseIdx_sublist s.air k).filterMap
        fun p => if p.src = src ∧ p.dst = dst then some p.bytes else none
      exact ((hfly.append_right _).map _).append_left _
    obtain ⟨lost, hlost⟩ := hsub.exists_perm_append
    exact ⟨lost, [], by simpa [passed] using hlost.symm, False.elim, fun _ => rfl,
      List.nil_subset _⟩
  | duplicate k =>
    have hcopy : s.air[k]?.toList ⊆ s.air := by
      intro p hp
      exact List.mem_of_getElem? (Option.mem_toList.mp hp)
    refine ⟨⟨hs.queued, fun q hq => ?_, hs.room⟩, ?_⟩
    · rcases List.mem_append.mp hq with hq | hq
      · exact hs.air q hq
      · exact hs.air q (hcopy hq)
    · let copy := (flying src dst s.air[k]?.toList).map (List.take (s.hosts dst).inpBufSize)
      refine ⟨[], copy, ?_, fun _ => rfl, fun hne => absurd rfl (hne k), ?_⟩
      · simp only [onWay, passed, flying_append, List.filterMap_cons, List.filterMap_nil,
          List.map_nil, List.map_append, List.append_nil, List.append_assoc, copy]
        exact .append_left _ (.append_left _ List.perm_append_comm)
      · intro b hb
        obtain ⟨c, hc, rfl⟩ := List.mem_map.mp hb
        have hfly : c ∈ flying src dst s.air := List.filterMap_subset _ hcopy hc
        exact List.mem_append_right _ (List.mem_map_of_mem (List.mem_append_left _ hfly))

/-- What was asked for, as it would arrive. -/
def asked (n : Addr → Nat) (src dst : Addr) (inputs : List (Input Addr)) : List (List Byte) :=
  (passed src dst inputs).map (List.take (n dst))

omit [DecidableEq Addr] in
theorem sane_new (fd : Addr → Int) (n : Addr → Nat) : Sane n (new fd n) := by
  refine ⟨fun i p hp => ?_, fun p hp => ?_, fun i => rfl⟩
  · cases hp
  · cases hp

/-- What every step keeps of a relation between what is on its way and what was asked for. -/
theorem run_way {rel : List (List Byte) → List (List Byte) → Prop}
    {P : UdpNet Addr → Input Addr → Prop} (hnil : rel [] [])
    (hrel : ∀ s s' part asked k, P s k → Way src dst part k s s' →
      rel (s.onWay src dst) asked → rel (s'.onWay src dst) (asked ++ part))
    (hn : ∀ i, 0 < n i) (h : run step (.ret (new fd n)) inputs = .ret s)
    (hw : Along step (fun e k => e.Split (fun s => Whole s k) (fun _ => True)) (.ret (new fd n))
      inputs)
    (hp : Along step (fun e k => e.Split (fun s => P s k) (fun _ => True)) (.ret (new fd n))
      inputs) : rel (s.onWay src dst) (asked n src dst inputs) := by
  let Inv (past : List (Input Addr)) (e : Exec (UdpNet Addr)) : Prop :=
    e.Split (fun s => Sane n s ∧ rel (s.onWay src dst) (asked n src dst past)) (fun _ => True)
  have hnew : Inv [] (.ret (new fd n)) := ⟨sane_new fd n, hnil⟩
  have hstep : ∀ past e k, Inv past e →
      (e.Split (fun s => Whole s k) (fun _ => True) ∧ e.Split (fun s => P s k) (fun _ => True)) →
      Inv (past ++ [k]) (step e k) := by
    intro past e k he hk
    cases e with
    | ret s =>
      refine (way_apply src dst he.1 hn hk.1).mono (fun s' hs' => ⟨hs'.1, ?_⟩) (fun _ h => h)
      rw [asked, passed_append, List.map_append]
      exact hrel s s' _ _ k hk.2 hs'.2 he.2
    | hang s => trivial
    | undef s => trivial
  have hrun := run_history Inv hstep hnew (hw.and hp)
  rw [h] at hrun
  exact hrun.2

/-- However the network mixes, loses and doubles datagrams and whatever else the sockets do,
`parse` is given datagrams that their source was asked to send here, cut to the size of the buffer,
each at most once if the network doubles none. If it loses none and the kernel refuses none, each
has been parsed, is in the network or waits. The bytes of a datagram are those of its call. -/
theorem datagrams_arrive (fd : Addr → Int) (n : Addr → Nat) (hn : ∀ i, 0 < n i)
    (inputs : List (Input Addr)) (h : run step (.ret (new fd n)) inputs = .ret s)
    (hw : Along step (fun e k => e.Split (fun s => Whole s k) (fun _ => True)) (.ret (new fd n))
      inputs) (src dst : Addr) :
    s.onWay src dst ⊆ asked n src dst inputs ∧
      ((∀ k, .duplicate k ∉ inputs) → (s.onWay src dst).Subperm (asked n src dst inputs)) ∧
      (Along step (fun e k => e.Split (fun s => Faithful s k) (fun _ => True)) (.ret (new fd n))
          inputs → (s.onWay src dst).Perm (asked n src dst inputs)) := by
  refine ⟨?_, fun hd => ?_, fun hf => ?_⟩
  · refine run_way (P := fun _ _ => True) (List.nil_subset _) ?_ hn h hw
      (along_of_mem (fun _ _ e => Exec.Split.all (fun _ => trivial) (fun _ => trivial) e) _)
    rintro s s' part asked k - ⟨lost, copy, hperm, -, -, hcopy⟩ hsub b hb
    have hmem := hperm.mem_iff.mp (List.mem_append_left lost hb)
    simp only [List.mem_append, or_assoc] at hmem ⊢
    rcases hmem with hmem | hmem | hmem
    · exact .inl (hsub hmem)
    · exact .inr hmem
    · exact .inl (hsub (hcopy hmem))
  · have hnone : Along step (fun e k => e.Split (fun _ => ∀ j, k ≠ .duplicate j) (fun _ => True))
        (.ret (new fd n)) inputs := by
      refine along_of_mem (fun k hk e => Exec.Split.all (fun _ j he => ?_) (fun _ => trivial) e) _
      exact hd j (he ▸ hk)
    refine run_way (P := fun _ k => ∀ j, k ≠ .duplicate j) (List.Subperm.refl _) ?_ hn h hw hnone
    rintro s s' part asked k hk ⟨lost, copy, hperm, -, hcopy, -⟩ hsub
    rw [hcopy hk, List.append_nil] at hperm
    have hleft : (s'.onWay src dst).Subperm (s'.onWay src dst ++ lost) :=
      (List.sublist_append_left _ _).subperm
    exact (hleft.trans hperm.subperm).trans ((List.subperm_append_right part).mpr hsub)
  · refine run_way (P := Faithful) (.refl _) ?_ hn h hw hf
    rintro s s' part asked k hk ⟨lost, copy, hperm, hlost, hcopy, -⟩ hsub
    have hnot : ∀ j, k ≠ .duplicate j := by
      rintro j rfl
      exact hk
    rw [hlost hk, hcopy hnot, List.append_nil, List.append_nil] at hperm
    exact hperm.trans (hsub.append_right part)

/-- The second of two datagrams overtakes the first, and is cut to the size of the buffer. -/
theorem datagrams_arrive_overtaken :
    let inputs : List (Input Nat) := [.send 1 2 ⟨0, [97]⟩ true [⟨1, .zero⟩],
      .send 1 2 ⟨1, [98, 99, 100]⟩ false [⟨-1, .intr⟩, ⟨-1, .again⟩],
      .onOut 1 [⟨3, .zero⟩], .onInp 2 (some 1) .zero [], .onInp 2 none .again []]
    let s := (run step (.ret (new (fun _ => 5) (fun _ => 2))) inputs).state
    (s.hosts 2).parsed = [(1, [98, 99])] ∧ (s.onWay 1 2).Perm [[97], [98, 99]] := by
  intro inputs s
  have h : run step (.ret (new (fun _ => 5) (fun _ => 2))) inputs = .ret s := rfl
  have hw : Along step (fun e k => e.Split (fun s => Whole s k) (fun _ => True))
      (.ret (new (fun _ => 5) (fun _ => 2))) inputs := by decide
  exact ⟨by decide, (datagrams_arrive _ _ (fun _ => by decide) inputs h hw 1 2).2.2 (by decide)⟩

end Evel.UdpNet
