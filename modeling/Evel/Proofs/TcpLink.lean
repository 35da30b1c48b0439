import Mathlib.Data.List.Forall2
import Evel.General.Runs
import Evel.Model.TcpLink
import Evel.Proofs.TcpStream

namespace Evel.TcpConnection
open General Tcp

/-- The bytes that the kernel takes and then those that wait have `part` behind them. -/
structure Forwards (part : List Byte) (c c' : TcpConnection) : Prop where
  carries : c'.accepted ++ c'.queued = c.accepted ++ c.queued ++ part
  accepted : c.accepted <+: c'.accepted

theorem Forwards.refl (c : TcpConnection) : Forwards [] c c := ⟨by simp, List.prefix_rfl⟩

theorem Forwards.trans (h : Forwards [] c c') (h' : Forwards [] c' c'') : Forwards [] c c'' :=
  ⟨by rw [h'.carries, h.carries]; simp, h.accepted.trans h'.accepted⟩

theorem forwards_tookPart (n : Nat) (f : List Ptr) (c : TcpConnection) :
    Forwards [] c (c.tookPart n f) := by
  refine ⟨?_, List.prefix_append _ _⟩
  rw [queued_tookPart]
  simp [tookPart]

/-- Whatever `sendmsg` answers, a call that returns has lost nothing of what waits. -/
theorem forwards_drain (script : List SysAnswer) (c : TcpConnection)
    (hpos : 0 < c.queued.length) (htot : c.queued.length ≤ tot) :
    (drain tot script (c.waitingSends.map SendItem.data) c).Split (Forwards [] c)
      (fun _ => True) := by
  induction script generalizing c with
  | nil => trivial
  | cons a as ih =>
    have hl : (c.waitingSends.map SendItem.data).flatten.length = c.queued.length := rfl
    by_cases hle : a.count ≤ 0
    · simp only [drain, hl, SysAnswer.real_nonpos (Nat.ne_of_gt hpos), if_pos hle]
      split
      · exact ih c hpos htot
      split
      · exact .refl c
      · exact ⟨by simp [onHup, queued], List.prefix_rfl⟩
    · by_cases hlt : a.count.toNat < c.queued.length
      · obtain ⟨f, hf⟩ := drain_short tot hle hlt (by omega)
        have hrest : (c.tookPart a.count.toNat f).queued.length =
            c.queued.length - a.count.toNat := by simp
        rw [hf]
        refine (ih (c.tookPart a.count.toNat f) (by omega) (by omega)).mono (fun c' h => ?_)
          (fun _ _ => trivial)
        exact (forwards_tookPart _ f c).trans h
      · have hge := Nat.le_of_not_lt hlt
        by_cases heq : c.queued.length = tot
        · subst heq
          rw [drain_whole as hle hge hpos]
          exact ⟨by simp [queued], List.prefix_append _ _⟩
        · rw [drain_past tot as hle hge hpos heq]
          trivial

theorem forwards_onOut (script : List SysAnswer) (c : TcpConnection) :
    (c.onOut script).Split (Forwards [] c) (fun _ => True) := by
  simp only [onOut]
  split
  · exact .refl c
  · next h => exact forwards_drain script c (Nat.pos_of_ne_zero h) (Nat.le_refl _)

/-- What `send` keeps of a message: all of it in the queue, or what the first answer that is no
interruption takes. -/
def keptPart (data : Buffer) (script : List SysAnswer) (c : TcpConnection) : List Byte :=
  if c.waitingForConnection || !c.waitingSends.isEmpty then data.bytes
  else match SysAnswer.first script with
    | some a => data.bytes.take a.count.toNat
    | none => []

theorem keptPart_prefix (data : Buffer) (script : List SysAnswer) (c : TcpConnection) :
    c.keptPart data script <+: data.bytes := by
  rw [keptPart]
  split
  · exact List.prefix_rfl
  · split
    · exact List.take_prefix _ _
    · exact List.nil_prefix

theorem forwards_sendNow (script : List SysAnswer) (c : TcpConnection)
    (hempty : c.waitingSends = []) (hb : bytes ≠ []) :
    (sendNow bytes script c).Split (fun c' => ∃ a ∈ SysAnswer.first script,
      Forwards (bytes.take a.count.toNat) c c') (fun _ => True) := by
  have hpos : bytes.length ≠ 0 := Nat.ne_of_gt (List.length_pos_iff.mpr hb)
  induction script with
  | nil => trivial
  | cons a as ih =>
    simp only [sendNow, SysAnswer.real_nonpos hpos, SysAnswer.first_cons]
    by_cases hle : a.count ≤ 0
    · have hzero : a.count.toNat = 0 := by omega
      cases hi : a.intr with
      | true => simpa [hle] using ih
      | false =>
        simp only [hle, Bool.false_eq_true, and_false, if_false, if_true]
        split
        · exact ⟨a, rfl, by simpa [hzero] using Forwards.refl c⟩
        · exact ⟨a, rfl, by simp [onHup, queued, hzero], List.prefix_rfl⟩
    · simp only [hle, false_and, if_false, SysAnswer.real_toNat]
      refine ⟨a, rfl, ?_, List.prefix_append _ _⟩
      rw [List.take_eq_take_min]
      simp [queued, hempty]

theorem keptPart_nil {data : Buffer} (hb : data.bytes = []) (script : List SysAnswer)
    (c : TcpConnection) : c.keptPart data script = [] := by
  simpa [hb] using keptPart_prefix data script c

theorem forwards_send (data : Buffer) (rese : Nat) (allow : Bool) (script : List SysAnswer)
    (c : TcpConnection) : (c.send data rese allow script).Split
      (fun r => Forwards (c.keptPart data script) c r.1) (fun _ => True) := by
  simp only [send]
  by_cases hb : data.bytes = []
  · rw [keptPart_nil hb]
    simpa [hb] using Forwards.refl c
  · have hl : data.bytes.length ≠ 0 := by simpa using hb
    rw [if_neg hl, keptPart]
    split
    · rw [addSendItem, if_pos hl]
      cases allow <;> exact ⟨by simp [queued], List.prefix_rfl⟩
    · next hq =>
      have hempty : c.waitingSends = [] := by
        have h : c.waitingForConnection = false ∧ c.waitingSends = [] := by
          simpa [List.isEmpty_iff] using hq
        exact h.2
      rw [Exec.split_map]
      refine (forwards_sendNow script c hempty hb).mono (fun c' h => ?_) (fun _ _ => trivial)
      obtain ⟨a, ha, hf⟩ := h
      rw [Option.mem_def.mp ha]
      exact hf

end Evel.TcpConnection

namespace Evel.TcpLink
open General Tcp TcpConnection

/-- The messages that the end `i` was asked to send. -/
def messages (i : Bool) (inputs : List Input) : List (List Byte) :=
  inputs.filterMap fun
    | .send j data _ _ _ => if j = i then some data.bytes else none
    | _ => none

@[simp] theorem messages_append (i : Bool) (is js : List Input) :
    messages i (is ++ js) = messages i is ++ messages i js := List.filterMap_append ..

/-- The bytes on their way from the end `i`, from those that have been parsed to those that wait,
are what is kept of its messages. -/
structure Carried (R : List Byte → List Byte → Prop) (i : Bool) (msgs : List (List Byte))
    (s : TcpLink) : Prop where
  wire : (s.ends (!i)).parsed ++ s.wire i = (s.ends i).out.accepted
  kept : ∃ parts, List.Forall₂ R parts msgs ∧
    (s.ends i).out.accepted ++ (s.ends i).out.queued = parts.flatten

variable {R : List Byte → List Byte → Prop} {s : TcpLink}

theorem carried_new (R : List Byte → List Byte → Prop) (i : Bool) (fd : Bool → Int)
    (offsetParse inpBufferSize : Bool → Nat) : Carried R i [] (new fd offsetParse inpBufferSize) :=
  ⟨rfl, [], .nil, rfl⟩

/-- The end `j` has sent: `part` is what it kept of `msgs'`. -/
theorem Carried.putOut (h : Carried R i msgs s) (j : Bool) (hf : Forwards part (s.ends j).out c)
    (hp : j = i → ∃ parts, List.Forall₂ R parts msgs' ∧ parts.flatten = part)
    (hn : j ≠ i → msgs' = []) : Carried R i (msgs ++ msgs') (s.putOut j c) := by
  obtain ⟨parts, hparts, hcarry⟩ := h.kept
  by_cases hj : j = i
  · subst hj
    obtain ⟨sent, hsent⟩ := hf.accepted
    obtain ⟨parts', hparts', rfl⟩ := hp rfl
    refine ⟨?_, parts ++ parts', List.rel_append hparts hparts', ?_⟩
    · have hne : (!j) ≠ j := by cases j <;> simp
      simp only [TcpLink.putOut, Function.update_of_ne hne, Function.update_self, TcpEnd.putOut]
      rw [← hsent, List.drop_left, ← List.append_assoc, h.wire, hsent]
    · simp only [TcpLink.putOut, Function.update_self, TcpEnd.putOut]
      rw [hf.carries, hcarry, List.flatten_append]
  · rw [hn hj, List.append_nil]
    refine ⟨?_, parts, hparts, ?_⟩
    · have hi : (!i) = j := by cases i <;> cases j <;> simp_all
      subst hi
      simp [TcpLink.putOut, TcpEnd.putOut, h.wire]
    · simpa [TcpLink.putOut, Ne.symm hj] using hcarry

/-- The end `j` has received. -/
theorem Carried.putInp (h : Carried R i msgs s) (j : Bool) (c : TcpInput) (used : Nat) :
    Carried R i msgs (s.putInp j c used) := by
  obtain ⟨parts, hparts, hcarry⟩ := h.kept
  by_cases hj : j = i
  · subst hj
    have hne : (!j) ≠ j := by cases j <;> simp
    refine ⟨?_, parts, hparts, ?_⟩
    · simp [TcpLink.putInp, TcpEnd.putInp, hne, hne.symm, h.wire]
    · simpa [TcpLink.putInp, TcpEnd.putInp, queued] using hcarry
  · have hi : j = !i := by cases i <;> cases j <;> simp_all
    subst hi
    have hne : i ≠ !i := by cases i <;> simp
    refine ⟨?_, parts, hparts, ?_⟩
    · simp [TcpLink.putInp, TcpEnd.putInp, hne, h.wire, List.append_assoc]
    · simpa [TcpLink.putInp, hne] using hcarry

theorem carried_onInp (h : Carried R i msgs s) (j : Bool) (r : Round) :
    (s.onInp j r).Split (Carried R i msgs) (fun _ => True) := by
  simp only [onInp]
  split
  · exact h
  · split
    · exact h.putInp j _ _
    · exact h.putInp j _ 0
    · trivial

/-- What a message leaves behind is of the kind `R`. -/
def Keeps (R : List Byte → List Byte → Prop) (i : Bool) (s : TcpLink) : Input → Prop
  | .send j data _ _ script => j = i → R ((s.ends i).out.keptPart data script) data.bytes
  | _ => True

theorem carried_apply (h : Carried R i msgs s) {k : Input} (hk : Keeps R i s k) :
    (s.apply k).Split (Carried R i (msgs ++ messages i [k])) (fun _ => True) := by
  have hquiet : ∀ j, j = i → ∃ parts, List.Forall₂ R parts [] ∧ parts.flatten = [] :=
    fun _ _ => ⟨[], .nil, rfl⟩
  cases k with
  | send j data rese allow script =>
    dsimp only [apply]
    rw [Exec.split_map]
    refine (forwards_send data rese allow script (s.ends j).out).mono (fun r hf => ?_)
      (fun _ _ => trivial)
    refine h.putOut j hf (fun hj => ?_) (fun hj => by simp [messages, hj])
    subst hj
    exact ⟨[_], by simpa [messages] using hk rfl, by simp⟩
  | onOut j script =>
    dsimp only [apply]
    rw [Exec.split_map]
    refine (forwards_onOut script (s.ends j).out).mono (fun c hf => ?_) (fun _ _ => trivial)
    exact h.putOut j hf (hquiet j) (fun _ => rfl)
  | onInp j r =>
    refine (carried_onInp h j r).mono (fun s' h' => ?_) (fun _ _ => trivial)
    simpa [messages] using h'
  | act j a =>
    have hf : Forwards [] (s.ends j).out
        { (s.ends j).out with event := (s.ends j).out.event.act true a } :=
      ⟨by simp [queued], List.prefix_rfl⟩
    exact h.putOut j hf (hquiet j) (fun _ => rfl)

theorem carried_step {e : Exec TcpLink} (h : e.Split (Carried R i msgs) (fun _ => True))
    (hk : e.Split (fun s => Keeps R i s k) (fun _ => True)) :
    (step e k).Split (Carried R i (msgs ++ messages i [k])) (fun _ => True) := by
  refine (h.and hk).andThen (fun s hs => ?_) |>.mono (fun _ h => h) (fun _ _ => trivial)
  exact (carried_apply hs.1 hs.2).mono (fun _ h => h) (fun _ _ => ⟨trivial, trivial⟩)

theorem carried_run {e : Exec TcpLink} (h : e.Split (Carried R i []) (fun _ => True))
    (hk : Along step (fun e k => e.Split (fun s => Keeps R i s k) (fun _ => True)) e inputs) :
    (run step e inputs).Split (Carried R i (messages i inputs)) (fun _ => True) := by
  let Inv (past : List Input) (e : Exec TcpLink) : Prop :=
    e.Split (Carried R i (messages i past)) (fun _ => True)
  have hstart : Inv [] e := h
  refine run_history Inv (fun past e k he hk => ?_) hstart hk
  have hstep := carried_step he hk
  rwa [← messages_append] at hstep

/-- The message waits, or the first answer that is no interruption takes all of it. -/
def Whole (i : Bool) (s : TcpLink) : Input → Prop
  | .send j data _ _ script => j = i → data.bytes = [] ∨
      (s.ends i).out.waitingForConnection = true ∨ (s.ends i).out.waitingSends ≠ [] ∨
        ∃ a ∈ SysAnswer.first script, data.bytes.length ≤ a.count
  | _ => True

theorem keeps_of_whole {k : Input} (h : Whole i s k) : Keeps Eq i s k := by
  cases k with
  | send j data rese allow script =>
    intro hj
    rcases h hj with hb | hw | hq | ⟨a, ha, hc⟩
    · rw [keptPart_nil hb, hb]
    · simp [keptPart, hw]
    · simp [keptPart, hq]
    · rw [keptPart, Option.mem_def.mp ha]
      have htake : data.bytes.take a.count.toNat = data.bytes :=
        List.take_of_length_le (by omega)
      split <;> first | rfl | exact htake
  | _ => trivial

/-- Nothing is lost between the ends. -/
theorem Carried.onWay (h : Carried R i msgs s) : ∃ parts, List.Forall₂ R parts msgs ∧
    (s.ends (!i)).parsed ++ s.wire i ++ (s.ends i).out.queued = parts.flatten := by
  obtain ⟨parts, hparts, hcarry⟩ := h.kept
  exact ⟨parts, hparts, by rw [h.wire, hcarry]⟩

theorem carried_from_new (R : List Byte → List Byte → Prop) (i : Bool) {fd : Bool → Int}
    {offsetParse inpBufferSize : Bool → Nat}
    (h : run step (.ret (new fd offsetParse inpBufferSize)) inputs = .ret s)
    (hk : Along step (fun e k => e.Split (fun s => Keeps R i s k) (fun _ => True))
      (.ret (new fd offsetParse inpBufferSize)) inputs) : Carried R i (messages i inputs) s := by
  have hnew : Exec.Split (Carried R i []) (fun _ => True)
      (.ret (new fd offsetParse inpBufferSize)) := carried_new R i fd offsetParse inpBufferSize
  have hrun := carried_run hnew hk
  rw [h] at hrun
  exact hrun

/-- Whatever the two ends do and the system answers, `parse` is given the bytes of the messages in
their order: of each message a part from its start, and of nothing else. The rest of what was kept
is in the kernel and in the queue. Only a message that is sent at once may be cut. The bytes of a
message are those of its call: a buffer that has been handed over is left as it is. -/
theorem bytes_arrive_in_order (fd : Bool → Int) (offsetParse inpBufferSize : Bool → Nat)
    (inputs : List Input) (s : TcpLink) (i : Bool)
    (h : run step (.ret (new fd offsetParse inpBufferSize)) inputs = .ret s) :
    (∃ parts, List.Forall₂ (· <+: ·) parts (messages i inputs) ∧
      (s.ends (!i)).parsed ++ s.wire i ++ (s.ends i).out.queued = parts.flatten) ∧
    (Along step (fun e k => e.Split (fun s => Whole i s k) (fun _ => True))
        (.ret (new fd offsetParse inpBufferSize)) inputs →
      (s.ends (!i)).parsed ++ s.wire i ++ (s.ends i).out.queued = (messages i inputs).flatten) := by
  constructor
  · refine (carried_from_new _ i h ?_).onWay
    refine along_of_mem (fun k _ e => Exec.Split.all (fun s => ?_) (fun _ => trivial) e) _
    cases k with
    | send j data rese allow script => exact fun _ => keptPart_prefix data script _
    | _ => trivial
  · intro hw
    have hk := hw.imp (fun _ => True) (fun _ _ _ _ => trivial)
      (fun e k _ hk => hk.mono (fun s => keeps_of_whole) (fun _ h => h)) trivial
    obtain ⟨parts, hparts, hway⟩ := (carried_from_new Eq i h hk).onWay
    rw [List.forall₂_eq_eq_eq] at hparts
    rw [hway, hparts]

/-- A client sends while it connects, and the other end reads in between. -/
theorem bytes_arrive_while_sending :
    let inputs : List Input := [.send true ⟨0, [97, 98]⟩ 2 true [], .send true ⟨1, [99]⟩ 1 false [],
      .onOut true [⟨1, .zero⟩, ⟨-1, .again⟩], .onInp false ⟨[.size 8], ⟨1, .zero⟩, false, []⟩,
      .onOut true [⟨-1, .intr⟩, ⟨2, .zero⟩], .onInp false ⟨[.size 8], ⟨2, .zero⟩, true, []⟩]
    let s := (run step (.ret (new (fun _ => 5) (fun _ => 0) (fun _ => 0))) inputs).state
    (s.ends false).parsed = [97, 98, 99] ∧ ∃ parts, List.Forall₂ (· <+: ·) parts [[97, 98], [99]] ∧
      (s.ends false).parsed ++ s.wire true ++ (s.ends true).out.queued = parts.flatten := by
  intro inputs s
  have h : run step (.ret (new (fun _ => 5) (fun _ => 0) (fun _ => 0))) inputs = .ret s := rfl
  exact ⟨by decide, (bytes_arrive_in_order _ _ _ inputs s true h).1⟩

end Evel.TcpLink
