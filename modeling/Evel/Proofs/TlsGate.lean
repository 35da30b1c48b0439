import Evel.General.History
import Evel.General.Runs
import Evel.Proofs.TlsMoves

namespace Evel.TlsConnection
open General Tls

/-- What the trace before an entry says when the entry is made. -/
def Gated (mode : CommMode) (pre : List Entry) : Entry → Prop
  | .parsed _ => (mode = .server ∨ .checked true ∈ pre) ∧ .closing ∉ pre ∧ .checked false ∉ pre
  | .wrote _ => mode = .client → .read ∈ pre → .checked true ∈ pre
  | .checked _ => .read ∈ pre
  | _ => True

/-- The flags of a connection remember what the trace holds. -/
structure Gate (c : TlsConnection) : Prop where
  doomed : c.event.Doomed
  rejected : .checked false ∈ c.trace → c.event.hasError = true
  closed : .closing ∈ c.trace →
    c.event.hasError = true ∨ c.event.wantCloseFd = true ∨ c.wantAShutdown = true
  unread : c.commMode = .client → .read ∈ c.trace → c.handshakeDone = true
  checked : c.commMode = .client → c.handshakeDone = true →
    .checked true ∈ c.trace ∨ c.event.hasError = true
  gated : EachEntry (Gated c.commMode) c.trace

theorem gate_new (fd : Int) (mode : CommMode) : Gate (new fd mode) where
  doomed := by simp [Event.Doomed, new, TcpConnection.new, Event.new]
  rejected := by simp [new]
  closed := by simp [new]
  unread := by simp [new]
  checked := by simp [new]
  gated := eachEntry_nil _

/-- Entries that are not silent are older than a quiet move. -/
theorem Quiet.mem (hq : Quiet Silent c c') (he : ¬ Silent e) : e ∈ c'.trace ↔ e ∈ c.trace := by
  obtain ⟨es, ht, hs⟩ := hq.trace
  rw [ht, List.mem_append, or_iff_left]
  exact fun hm => he (hs e hm)

theorem Gate.quiet (h : Gate c) (hq : Quiet Silent c c') : Gate c' := by
  refine ⟨?_, ?_, ?_, ?_, ?_, ?_⟩
  · rw [hq.event]
    exact h.doomed
  · rw [hq.mem (by simp [Silent]), hq.event]
    exact h.rejected
  · rw [hq.mem (by simp [Silent]), hq.event, hq.wantAShutdown]
    exact h.closed
  · rw [hq.mem (by simp [Silent]), hq.commMode, hq.handshakeDone]
    exact h.unread
  · rw [hq.mem (by simp [Silent]), hq.commMode, hq.handshakeDone, hq.event]
    exact h.checked
  · obtain ⟨es, ht, hs⟩ := hq.trace
    rw [hq.commMode, ht]
    refine eachEntry_append h.gated (fun pre e post he => ?_)
    have := hs e (by simp [he])
    cases e <;> trivial

theorem Gate.silent (h : Gate c) (he : Silent e) : Gate (c.log e) := h.quiet (quiet_log he c)

theorem Gate.fail (h : Gate c) : Gate c.fail := by
  refine ⟨Event.doomed_fail c.event, ?_, ?_, ?_, ?_, ?_⟩
  · simp [TlsConnection.fail, log]
  · simp [TlsConnection.fail, log]
  · intro hm hr
    exact h.unread hm (by simpa [TlsConnection.fail, log] using hr)
  · simp [TlsConnection.fail, log]
  · exact eachEntry_snoc h.gated trivial

/-- A change of the flags of the event that keeps an error and a closing. -/
theorem Gate.event (h : Gate c) (hd : e.Doomed) (he : c.event.hasError = true → e.hasError = true)
    (hw : c.event.wantCloseFd = true → e.wantCloseFd = true) : Gate { c with event := e } := by
  refine ⟨hd, ?_, ?_, ?_, ?_, ?_⟩
  · exact fun hr => he (h.rejected hr)
  · exact fun hc => (h.closed hc).imp he (Or.imp_left hw)
  · exact h.unread
  · exact fun hm hdone => (h.checked hm hdone).imp_right he
  · exact h.gated

/-- An entry that asks nothing of the flags is added. -/
theorem Gate.log (h : Gate c) (hg : Gated c.commMode c.trace e)
    (hr : e = .checked false → c.event.hasError = true)
    (hc : e = .closing →
      c.event.hasError = true ∨ c.event.wantCloseFd = true ∨ c.wantAShutdown = true)
    (hu : e = .read → c.commMode = .client → c.handshakeDone = true) : Gate (c.log e) := by
  refine ⟨h.doomed, ?_, ?_, ?_, ?_, eachEntry_snoc h.gated hg⟩
  · intro hm
    rcases List.mem_append.mp hm with hm | hm
    · exact h.rejected hm
    · exact hr (List.mem_singleton.mp hm).symm
  · intro hm
    rcases List.mem_append.mp hm with hm | hm
    · exact h.closed hm
    · exact hc (List.mem_singleton.mp hm).symm
  · intro hcl hm
    rcases List.mem_append.mp hm with hm | hm
    · exact h.unread hcl hm
    · exact hu (List.mem_singleton.mp hm).symm hcl
  · intro hcl hd
    exact (h.checked hcl hd).imp_left (fun hm => List.mem_append_left _ hm)

/-- A message is written on a connection without an error. -/
theorem Gate.wrote (h : Gate c) (bytes : List Byte) (he : c.event.hasError = false) :
    Gate (c.log (.wrote bytes)) := by
  refine h.log (fun hm hr => ?_) (by simp) (by simp) (by simp)
  exact (h.checked hm (h.unread hm hr)).resolve_right (by simp [he])

/-- No move opens the gate. -/
theorem Gate.move (h : Gate c) (m : Move c c') : Gate c' := by
  cases m with
  | quiet hq _ => exact h.quiet (hq.mono (fun _ => Still.silent))
  | queue data rese allow hd => exact (h.quiet (quiet_queue data rese allow c)).silent trivial
  | @refused e _ data rese allow hd he hq =>
    have hgive : Gate (c.give data e) := h.silent trivial
    exact (hgive.quiet (quiet_queue data rese allow _)).silent trivial
  | interrupted data hq => exact h.silent trivial
  | lost data he => exact h.silent trivial
  | acceptedLost bytes hl => exact h.silent trivial
  | wrote data he hd hq =>
    have hgive : Gate (c.give data .none) := h.silent trivial
    exact (hgive.wrote data.bytes he).silent trivial
  | retried hq he => exact h.silent trivial
  | @popFront si _ _ he hq =>
    have hgive : Gate (c.log (.presented si.data .none)) := h.silent trivial
    exact (hgive.wrote si.data he).quiet (.untraced rfl rfl rfl rfl rfl)
  | fill ptr bytes => exact h.quiet (quiet_fill ptr bytes c)
  | fail => exact h.fail
  | wantCloseFd => exact h.event h.doomed id (fun _ => rfl)
  | closeFd outq =>
    refine Gate.log (c := { c with event := c.event.closeFd true c.outAreSent outq }) ?_ trivial
      (by simp) (fun _ => ?_) (by simp)
    · exact h.event h.doomed.closeFd (by simp) (Event.closeFd_wantCloseFd _ _ _ _)
    · exact (Event.closeFd_shuts _ _ _ _).imp_right .inl
  | del outq => exact h.event (Event.doomed_del _ _ _) (by simp) (by simp)
  | closeAgain hc => exact h.log trivial (by simp) (fun _ => hc.imp_right .inr) (by simp)
  | close =>
    refine Gate.log (c := { c with wantAShutdown := true }) ?_ trivial (by simp)
      (fun _ => .inr (.inr rfl)) (by simp)
    exact ⟨h.doomed, h.rejected, fun _ => .inr (.inr rfl), h.unread, h.checked, h.gated⟩
  | readAgain hc =>
    refine h.log trivial (by simp) (by simp) (fun _ hm => ?_)
    simpa [hm] using hc
  | admitted hc =>
    refine ⟨h.doomed, ?_, ?_, fun _ _ => rfl, fun _ _ => .inl (by simp [TlsConnection.log]), ?_⟩
    · exact fun hm => h.rejected (by simpa [TlsConnection.log] using hm)
    · exact fun hm => h.closed (by simpa [TlsConnection.log] using hm)
    · exact eachEntry_snoc (eachEntry_snoc h.gated trivial)
        (List.mem_append_right _ (List.mem_singleton_self _))
  | rejected hc =>
    have he : c.event.fail.hasError = true := Event.fail_hasError _
    refine ⟨Event.doomed_fail c.event, fun _ => he, fun _ => .inl he, fun _ _ => rfl,
      fun _ _ => .inr he, ?_⟩
    exact eachEntry_snoc (eachEntry_snoc (eachEntry_snoc h.gated trivial) trivial)
      (List.mem_append_left _ (List.mem_append_right _ (List.mem_singleton_self _)))
  | parsed bytes hp hl hd =>
    have hp : c.event.wantCloseFd = false ∧ c.event.nextDel = false ∧ c.wantAShutdown = false := by
      simpa [parses, and_assoc] using hp
    have he : c.event.hasError = false := by
      by_contra hne
      have := h.doomed (by simpa using hne)
      rw [if_pos hl, hp.2.1] at this
      exact absurd this (by decide)
    refine h.log ⟨?_, ?_, ?_⟩ (by simp) (by simp) (by simp)
    · cases hm : c.commMode with
      | server => exact .inl rfl
      | client => exact .inr ((h.checked hm (by simpa [hm] using hd)).resolve_right (by simp [he]))
    · exact fun hm => by simpa [he, hp.1, hp.2.2] using h.closed hm
    · exact fun hm => by simpa [he] using h.rejected hm
  | install outq =>
    rw [TlsConnection.install]
    split
    · exact h
    · next hl =>
      dsimp only
      split
      · exact h.event (Event.doomed_del _ _ _) (by simp) (by simp)
      · next hdel =>
        refine h.event (fun he => absurd ?_ hdel) id id
        have := h.doomed he
        rwa [if_neg hl] at this

/-- The gate holds however far the calls of a run have come. -/
theorem run_gate (fd : Int) (mode : CommMode) (calls : List Call) :
    Gate (run step (.ret (new fd mode)) calls).state :=
  run_moves Gate (fun _ _ h m => h.move m) (e := .ret (new fd mode)) (gate_new fd mode) calls

theorem Move.commMode (m : Move c c') : c'.commMode = c.commMode := by
  cases m with
  | quiet hq => exact hq.commMode
  | install outq =>
    rw [TlsConnection.install]
    split
    · rfl
    · dsimp only
      split <;> rfl
  | _ => rfl

theorem run_commMode (fd : Int) (mode : CommMode) (calls : List Call) :
    (run step (.ret (new fd mode)) calls).state.commMode = mode :=
  run_moves (fun c => c.commMode = mode) (fun _ _ h m => m.commMode.trans h) rfl calls

/-- `parse` gets only what a server reads, or a client whose check has passed, and nothing after
a closing or a failed check. -/
theorem parsed_behind_gate (fd : Int) (mode : CommMode) (calls : List Call) :
    EachEntry (fun pre e => ∀ bytes, e = .parsed bytes →
        (mode = .server ∨ .checked true ∈ pre) ∧ .closing ∉ pre ∧ .checked false ∉ pre)
      (run step (.ret (new fd mode)) calls).state.trace := by
  have h := (run_gate fd mode calls).gated
  rw [run_commMode] at h
  refine h.mono (fun pre e he bytes hb => ?_)
  rw [hb] at he
  exact he

/-- A client writes only after its check has passed if and only if each of its writes comes
after a read. -/
theorem checked_before_write_iff (fd : Int) (calls : List Call) :
    EachEntry (fun pre e => ∀ bytes, e = .wrote bytes → .checked true ∈ pre)
        (run step (.ret (new fd .client)) calls).state.trace ↔
      EachEntry (fun pre e => ∀ bytes, e = .wrote bytes → .read ∈ pre)
        (run step (.ret (new fd .client)) calls).state.trace := by
  have h := (run_gate fd .client calls).gated
  rw [run_commMode] at h
  constructor
  · intro hc pre e post ht bytes he
    obtain ⟨l, r, hp⟩ := List.append_of_mem (hc pre e post ht bytes he)
    have : Gated .client l (.checked true) :=
      h l (.checked true) (r ++ e :: post) (by simp [ht, hp])
    rw [hp]
    exact List.mem_append_left _ this
  · intro hr pre e post ht bytes he
    have hg := h pre e post ht
    rw [he] at hg
    exact hg rfl (hr pre e post ht bytes he)

/-- A message queued before the connection is up leaves with the handshake. The certificate is
looked at later, and refused. -/
theorem written_unchecked : ¬ EachEntry
    (fun pre e => ∀ bytes, e = .wrote bytes → .checked true ∈ pre)
    (run step (.ret (new 5 .client)) [.install none, .act (.send ⟨0, [1]⟩ 1 true []),
      .onOut [{ err := .none }, { err := .none }] none,
      .onInp [{ err := .none, verify := 20 }, { err := .wantRead }]]).state.trace := by
  intro h
  have := h [.queued false .nothing, .accepted [1], .presented [1] .none] (.wrote [1])
    [.read, .closing, .checked false, .closing, .readOwes false, .readWants false false]
    (by decide) [1] rfl
  simp at this

end Evel.TlsConnection
