import Evel.General.Rounds
import Evel.Proofs.TcpDrain

namespace Evel.TcpConnection
open General Tcp
variable {c c' : TcpConnection}

/-- What may happen to a connection that sends. -/
inductive SendCall
  | send (data : Buffer) (rese : Nat) (allowTransferOwnership : Bool) (script : List SysAnswer)
  | onOut (script : List SysAnswer)
deriving DecidableEq

def SendCall.script : SendCall → List SysAnswer
  | .send _ _ _ script => script
  | .onOut script => script

/-- A connection, with the answers of `sendmsg` so far, and whether it has received an `on_out`. -/
structure Watched where
  conn : TcpConnection
  client : Bool
  notified : Bool
  answers : List SysAnswer
deriving DecidableEq

namespace Watched

def start (fd : Int) (client : Bool) : Exec Watched :=
  .ret { conn := TcpConnection.new fd client, client := client, notified := false, answers := [] }

def call (w : Watched) : SendCall → Exec Watched
  | .send data rese allow script =>
    (w.conn.send data rese allow script).map (fun r => { w with
      conn := r.1
      answers := w.answers ++ Exec.taken (w.conn.send data rese allow) script })
  | .onOut script =>
    (w.conn.onOut script).map (fun c => { w with
      conn := c
      notified := true
      answers := w.answers ++ Exec.taken (fun as => w.conn.onOut as) script })

/-- Nothing follows a call that does not return. -/
def step (e : Exec Watched) (k : SendCall) : Exec Watched := e.andThen (fun w => w.call k)

/-- The socket is full: the kernel will tell when it is not. -/
def Full (w : Watched) : Prop := ∃ a ∈ w.answers.getLast?, a.WouldBlock

/-- The end of the connecting is still to be told. -/
def Connecting (w : Watched) : Prop := w.client = true ∧ w.notified = false

/-- Data that waits is written at the next edge: one is owed. -/
def Owed (w : Watched) : Prop := w.conn.waitingSends ≠ [] → w.Connecting ∨ w.Full

/-- A message is queued while an edge is owed, and no count of an `on_out` but the first takes all
that was left. -/
def Clean (w : Watched) : SendCall → Prop
  | .send data _ _ _ => data.bytes = [] ∨ w.client = false ∨ w.Connecting ∨ w.Full
  | .onOut script => w.conn.queued.length ≤ (counts script).headD 0 ∨
      (counts script).sum < w.conn.queued.length

end Watched

/-- Where the loop of `on_out` returns: the queue is empty, or the socket is full. -/
structure Settles (c : TcpConnection) (taken : List SysAnswer) (c' : TcpConnection) : Prop where
  left : c'.waitingSends = [] ∨ ∃ a ∈ taken.getLast?, a.WouldBlock
  messages : ∀ si ∈ c'.waitingSends, si.data ≠ []
  waiting : c'.waitingForConnection = c.waitingForConnection
  carries : c'.accepted ++ c'.queued = c.accepted ++ c.queued

theorem Settles.cons (a : SysAnswer) (h : Settles c taken c') : Settles c (a :: taken) c' :=
  { h with left := h.left.imp_right (exists_getLast_cons a) }

/-- An answer without a count, for all that may follow. -/
theorem drain_wait_fun (tot : Nat) (ha : Mild a) (hle : a.count ≤ 0) (hpos : 0 < c.queued.length) :
    (fun as => drain tot (a :: as) (c.waitingSends.map SendItem.data) c) =
      if a.intr then fun as => drain tot as (c.waitingSends.map SendItem.data) c
      else fun _ => .ret c := by
  funext as
  rw [drain_wait ha hle hpos]
  split <;> rfl

theorem drain_settles (hm : ∀ a ∈ script, Mild a) (hne : ∀ si ∈ c.waitingSends, si.data ≠ [])
    (hpos : 0 < c.queued.length) (htot : c.queued.length ≤ tot)
    (h : drain tot script (c.waitingSends.map SendItem.data) c = .ret c') :
    Settles c (Exec.taken (fun as => drain tot as (c.waitingSends.map SendItem.data) c) script)
      c' := by
  induction script generalizing c with
  | nil => cases h
  | cons a as ih =>
    have has : ∀ b ∈ as, Mild b := fun b hb => hm b (List.mem_cons_of_mem a hb)
    rw [Exec.taken_cons rfl]
    by_cases hle : a.count ≤ 0
    · have hfun := drain_wait_fun tot (hm a List.mem_cons_self) hle hpos
      have heq := congrFun hfun as
      rw [hfun]
      cases hi : a.intr with
      | true =>
        simp only [hi, if_true] at heq ⊢
        exact (ih has hne hpos htot (heq.symm.trans h)).cons a
      | false =>
        simp only [hi, Bool.false_eq_true, if_false] at heq ⊢
        obtain rfl : c = c' := by simpa using heq.symm.trans h
        have hfull := (hm a List.mem_cons_self).again hle hi
        rw [Exec.taken_stop rfl]
        exact ⟨.inr ⟨a, by simp, hfull⟩, hne, rfl, rfl⟩
    · by_cases hlt : a.count.toNat < c.queued.length
      · obtain ⟨f, hf⟩ := drain_short tot hle hlt (by omega)
        have hl : (c.tookPart a.count.toNat f).queued.length =
            c.queued.length - a.count.toNat := by simp
        rw [hf] at h
        have hrest := ih has (c := c.tookPart a.count.toNat f) (unsent_nonempty _ hne) (by omega)
          (by omega) h
        rw [show (fun as => drain tot (a :: as) _ c) = _ from funext hf]
        refine Settles.cons a { hrest with carries := ?_ }
        rw [hrest.carries, queued_tookPart]
        simp [tookPart]
      · have hge := Nat.le_of_not_lt hlt
        by_cases heq : c.queued.length = tot
        · subst heq
          rw [drain_whole as hle hge hpos] at h
          obtain rfl := Exec.ret.inj h
          exact ⟨.inl rfl, fun si hsi => absurd hsi List.not_mem_nil, rfl, by simp [queued]⟩
        · rw [drain_past tot as hle hge hpos heq] at h
          cases h

/-- `send` writes at once, and leaves no message behind. -/
theorem sendNow_leaves (bytes : List Byte) (script : List SysAnswer) (c : TcpConnection) :
    (sendNow bytes script c).Post (fun c' => c'.waitingSends = c.waitingSends ∧
      c'.waitingForConnection = c.waitingForConnection) := by
  induction script generalizing c with
  | nil => trivial
  | cons a as ih =>
    simp only [sendNow]
    split
    · split
      · exact ih c
      split
      · exact ⟨rfl, rfl⟩
      · exact ⟨rfl, rfl⟩
    · exact ⟨rfl, rfl⟩

namespace Watched
variable {w : Watched}

/-- What holds between two calls. -/
structure Settled (w : Watched) : Prop where
  owed : w.Owed
  messages : ∀ si ∈ w.conn.waitingSends, si.data ≠ []
  waiting : w.conn.waitingForConnection = w.client

theorem Settled.onOut (h : w.Settled) (hm : ∀ a ∈ script, Mild a) {P : Watched → Prop}
    (hp : ∀ w', Settled w' → P w') :
    (w.call (.onOut script)).Post P ↔ w.Clean (.onOut script) := by
  have hq : (w.conn.waitingSends.map SendItem.data).flatten.length = w.conn.queued.length := rfl
  have hcarries := onOut_carries_iff hm (c := w.conn) rfl
  simp only [call, Exec.post_map, Clean]
  rw [← hcarries]
  refine Exec.post_congr (fun c' hc' => ?_)
  simp only [TcpConnection.onOut, hq] at hc' ⊢
  by_cases h0 : w.conn.queued.length = 0
  · have hempty : w.conn.waitingSends = [] := by
      rw [← unsent_zero h.messages]
      exact unsent_all (by omega)
    rw [if_pos h0] at hc'
    obtain rfl := Exec.ret.inj hc'
    refine iff_of_true (hp _ ⟨?_, h.messages, h.waiting⟩) rfl
    exact fun hne => absurd hempty hne
  · rw [if_neg h0] at hc'
    have hset := drain_settles hm h.messages (Nat.pos_of_ne_zero h0) (Nat.le_refl _) hc'
    refine iff_of_true (hp _ ⟨?_, hset.messages, hset.waiting.trans h.waiting⟩) hset.carries
    intro hne
    obtain ⟨a, ha, hfull⟩ := hset.left.resolve_left hne
    have hfun : w.conn.onOut = fun as =>
        drain w.conn.queued.length as (w.conn.waitingSends.map SendItem.data) w.conn := by
      funext as
      simp only [TcpConnection.onOut, hq, if_neg h0]
    refine .inr ⟨a, ?_, hfull⟩
    exact List.mem_getLast?_append_of_mem_getLast? (hfun ▸ ha)

theorem Settled.send (h : w.Settled) {P : Watched → Prop} (hp : ∀ w', Settled w' → P w')
    (hq : ∀ w', P w' → w'.Owed) :
    (w.call (.send data rese allow script)).Post P ↔ w.Clean (.send data rese allow script) := by
  simp only [call, Clean]
  by_cases hb : data.bytes.length = 0
  · -- nothing is sent and nothing is asked
    have hsend : w.conn.send data rese allow = fun _ => .ret (w.conn, some data.ptr) := by
      funext as
      rw [TcpConnection.send, if_pos hb]
    rw [congrFun hsend script, hsend, Exec.taken_stop rfl, List.append_nil]
    exact iff_of_true (hp w h) (.inl (List.eq_nil_of_length_eq_zero hb))
  have hne : data.bytes ≠ [] := fun he => hb (by simp [he])
  by_cases hw : (w.conn.waitingForConnection || !w.conn.waitingSends.isEmpty) = true
  · -- the message joins the queue
    have hsend : w.conn.send data rese allow =
        fun _ => .ret (w.conn.addSendItem data rese allow) := by
      funext as
      rw [TcpConnection.send, if_neg hb, if_pos hw]
    obtain ⟨si, hadd, hsi⟩ : ∃ si, (w.conn.addSendItem data rese allow).1.waitingSends =
        w.conn.waitingSends ++ [si] ∧ si.data = data.bytes := by
      cases allow <;> simp [addSendItem, hne]
    have hwait : (w.conn.addSendItem data rese allow).1.waitingForConnection = w.client := by
      rw [← h.waiting]
      cases allow <;> simp [addSendItem, hne]
    have hclean : data.bytes = [] ∨ w.client = false ∨ w.Connecting ∨ w.Full →
        w.Connecting ∨ w.Full := by
      rintro (he | he | he)
      · exact absurd he hne
      · refine h.owed (fun hnil => ?_)
        simp [h.waiting, he, hnil] at hw
      · exact he
    rw [congrFun hsend script, hsend, Exec.taken_stop rfl, List.append_nil]
    constructor
    · intro hP
      have howed : Owed { w with conn := (w.conn.addSendItem data rese allow).1 } := hq _ hP
      exact .inr (.inr (howed (by simp [hadd])))
    · intro hc
      refine hp _ ⟨fun _ => hclean hc, ?_, hwait⟩
      intro sj hj
      rw [hadd] at hj
      rcases List.mem_append.mp hj with hj | hj
      · exact h.messages sj hj
      · rw [List.mem_singleton.mp hj, hsi]
        exact hne
  · -- the kernel is asked, and the queue stays empty
    obtain ⟨hfree, hempty⟩ : w.conn.waitingForConnection = false ∧ w.conn.waitingSends = [] := by
      simpa [List.isEmpty_iff] using hw
    refine iff_of_true ?_ (.inr (.inl (h.waiting.symm.trans hfree)))
    rw [TcpConnection.send, if_neg hb, if_neg hw, Exec.post_map, Exec.post_map]
    refine (sendNow_leaves data.bytes script w.conn).mono (fun c' hc' => hp _ ?_)
    obtain ⟨hsends, hwaiting⟩ := hc'
    rw [hempty] at hsends
    refine ⟨fun hne => absurd hsends hne, ?_, hwaiting.trans h.waiting⟩
    simp [hsends]

/-- A connection queues its data only while an edge is owed, in every state of a run, if and only
if every call is clean. -/
theorem owed_iff_clean (fd : Int) (client : Bool) (calls : List SendCall)
    (hm : ∀ k ∈ calls, ∀ a ∈ k.script, Mild a) :
    (∀ n, (run step (start fd client) (calls.take n)).Post Owed) ↔
      Along step (fun e k => e.Post (fun w => w.Clean k)) (start fd client) calls := by
  have hcall : ∀ w k, Settled w → (∀ a ∈ k.script, Mild a) →
      ((w.call k).Post Owed ↔ w.Clean k) ∧ ((w.call k).Post Settled ↔ w.Clean k) := by
    intro w k hw hk
    cases k with
    | send data rese allow script =>
      exact ⟨hw.send (fun w' h => h.owed) (fun w' h => h),
        hw.send (fun w' h => h) (fun w' h => h.owed)⟩
    | onOut script => exact ⟨hw.onOut hk (fun w' h => h.owed), hw.onOut hk (fun w' h => h)⟩
  have hstart : (start fd client).Post Settled := ⟨fun hne => absurd rfl hne, nofun, rfl⟩
  refine along_observed_iff (fun e : Exec Watched => e.Post Settled)
    (fun e : Exec Watched => e.Post Owed) ?_ ?_ hstart (fun hne => absurd rfl hne)
  · intro e k he hk
    cases e with
    | ret w => exact (hcall w k he (hm k hk)).1
    | hang w => exact Iff.rfl
    | undef w => exact he.elim
  · intro e k he hk hc
    cases e with
    | ret w => exact (hcall w k he (hm k hk)).2.mpr hc
    | hang w => exact he
    | undef w => exact he.elim

/-- A client that sends before it is connected, and again when the socket is full. -/
theorem owed_connecting_then_full :
    (∀ n, (run step (start 5 true) ([.send ⟨0, [97, 98]⟩ 2 false [],
        .onOut [⟨1, .zero⟩, ⟨-1, .again⟩], .send ⟨1, [99]⟩ 1 true []].take n)).Post Owed) ↔
      Along step (fun e k => e.Post (fun w => w.Clean k)) (start 5 true)
        [.send ⟨0, [97, 98]⟩ 2 false [], .onOut [⟨1, .zero⟩, ⟨-1, .again⟩],
          .send ⟨1, [99]⟩ 1 true []] :=
  owed_iff_clean 5 true _ (by decide)

/-- A client is connected, and has nothing to send. The message that it is given then waits, and
no edge will come. -/
theorem connected_client_queues :
    (∀ k ∈ [SendCall.onOut [], .send ⟨0, [97]⟩ 1 false []], ∀ a ∈ k.script, Mild a) ∧
      ¬ (run step (start 5 true) [.onOut [], .send ⟨0, [97]⟩ 1 false []]).Post Owed := by
  refine ⟨by decide, fun h => ?_⟩
  rcases h (by decide) with ⟨-, hn⟩ | ⟨a, ha, -⟩
  · exact absurd hn (by decide)
  · have hnone : none = some a := ha
    cases hnone

end Watched

end Evel.TcpConnection
