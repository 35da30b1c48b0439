import Evel.Proofs.SocketFrame

namespace Evel.Sockets
open General Loop EvLoop
variable {Addr : Type u}

/-- What the addresses say: an event that is still to be made is nowhere. -/
structure Known (s : Sockets Addr) : Prop where
  old : ∀ x, s.loop.alive x = true → x < s.loop.nextId
  batch : ∀ x ∈ notified s.loop.phase, x < s.loop.nextId
  sock : ∀ x, s.loop.nextId ≤ x → s.sock x = none
  del : ∀ x ∈ s.loop.delList, x < s.loop.nextId
  wait : ∀ x ∈ s.loop.waiting, x < s.loop.nextId
  log : ∀ e ∈ s.log, e.about < s.loop.nextId

theorem known_new : Known (new : Sockets Addr) := by
  constructor <;> simp [new, EvLoop.new, EvLoop.waiting, notified]

/-- The notifications after a step: some of those before it, or a batch of events in the loop. -/
def Follows (s s' : Sockets Addr) : Prop :=
  ∀ x ∈ notified s'.loop.phase,
    x ∈ notified s.loop.phase ∨ (s.loop.alive x = true ∧ (s.loop.events x).evLoop = true)

theorem follows_of_phase {s s' : Sockets Addr} (h : s'.loop.phase = s.loop.phase) :
    Follows s s' := fun _ hx => .inl (h ▸ hx)

/-- What user code and the requests of the loop leave alone. -/
structure Place (s s' : Sockets Addr) : Prop where
  phase : s'.loop.phase = s.loop.phase
  reading : s'.reading = s.reading
  sock : ∀ y k, s.sock y = some k → ∃ k', s'.sock y = some k'

theorem Place.refl (s : Sockets Addr) : Place s s := ⟨rfl, rfl, fun _ k hk => ⟨k, hk⟩⟩

theorem Place.trans {s s' s'' : Sockets Addr} (h : Place s s') (h' : Place s' s'') :
    Place s s'' := by
  refine ⟨h'.phase.trans h.phase, h'.reading.trans h.reading, fun y k hk => ?_⟩
  obtain ⟨k', hk'⟩ := h.sock y k hk
  exact h'.sock y k' hk'

theorem Place.of_apart {s : Sockets Addr} (h : Apart s.loop l) : Place s { s with loop := l } :=
  ⟨h.phase, rfl, fun _ k hk => ⟨k, hk⟩⟩

theorem place_request (x : EventId) (r : Request) (outq : Option Nat) (s : Sockets Addr) :
    Place s (s.request x r outq) :=
  ⟨(apart_request x (s.actual x r) outq s.loop).phase, rfl, fun _ k hk => ⟨k, hk⟩⟩

theorem place_notify (b : Bool) (x : EventId) (r : Request) (outq : Option Nat)
    (s : Sockets Addr) : Place s (if b then s.request x r outq else s) := by
  cases b with
  | true => exact place_request x r outq s
  | false => exact .refl s

theorem place_update (x : EventId) (k : Sock Addr) (s : Sockets Addr) :
    Place s { s with sock := Function.update s.sock x (some k) } := by
  refine ⟨rfl, rfl, fun y k' hk => ?_⟩
  by_cases hyx : y = x
  · exact ⟨k, by simp [hyx]⟩
  · exact ⟨k', by simp [hyx, hk]⟩

theorem place_put (x : EventId) (k : Sock Addr) (s : Sockets Addr) : Place s (s.put x k) := by
  simp only [put]
  split
  · exact place_update x k s
  · exact (place_update x k s).trans (place_request x .fail none _)

theorem place_create (k : Sock Addr) (s : Sockets Addr) : Place s (s.create k) :=
  (place_update s.loop.nextId k s).trans (.of_apart (apart_create (.user true) k.event s.loop))

theorem place_install (x : EventId) (outq : Option Nat) (s : Sockets Addr) :
    Place s (s.install x outq) := by
  simp only [install]
  split
  · exact .refl s
  · have hset : Place s { s with
        loop := s.loop.setEvent x { s.loop.events x with evLoop := true } } :=
      ⟨rfl, rfl, fun _ k hk => ⟨k, hk⟩⟩
    split
    · exact hset.trans (place_request x .del outq _)
    · exact hset

theorem notified_advance (batch : List (EventId × Mask)) (l : EvLoop) :
    notified (l.advance batch).phase = batch.map Prod.fst := by
  cases batch <;> rfl

theorem notified_next (outAreSent : Bool) (outq : Option Nat) (l : EvLoop) :
    ∀ x ∈ notified (l.next outAreSent outq).state.phase, x ∈ notified l.phase := by
  intro x hx
  cases hp : l.phase with
  | work =>
    simp only [EvLoop.next, hp] at hx
    split at hx
    · simp [Exec.state, EvLoop.goto, notified] at hx
    · split at hx <;> simp [Exec.state, EvLoop.setEvent, notified, hp] at hx
  | dels =>
    simp only [EvLoop.next, hp] at hx
    split at hx
    · simp [Exec.state, EvLoop.goto, notified] at hx
    · split at hx <;> simp [Exec.state, EvLoop.setEvent, EvLoop.destroy, notified, hp] at hx
  | poll => simpa [EvLoop.next, Exec.state, hp] using hx
  | batch y mask stage rest =>
    cases ha : l.alive y with
    | false => simpa [EvLoop.next, Exec.state, hp, ha] using hx
    | true =>
      rw [← hp]
      obtain ⟨l', hl, ho, -⟩ | ⟨z, -, hl⟩ | ⟨hl, -⟩ := next_batch hp ha outAreSent outq
      · rw [hl] at hx
        exact ho.notified x hx
      · rwa [hl] at hx
      · rwa [hl] at hx

/-- A step stays in `on_inp` or comes to it at the place that the loop has reached. -/
structure Steps (s s' : Sockets Addr) : Prop where
  follows : Follows s s'
  reading : s'.reading ≠ .no → s'.loop.phase = s.loop.phase ∧
    (s.reading = .no → ∃ y k, s.loop.atHand = some y ∧ s.sock y = some k)
  sock : ∀ y k, s.sock y = some k → ∃ k', s'.sock y = some k'

/-- `on_inp` is a function of the socket at hand. -/
def Seated (s : Sockets Addr) : Prop :=
  s.reading ≠ .no → ∃ y k, s.loop.atHand = some y ∧ s.sock y = some k

theorem Seated.steps {s s' : Sockets Addr} (h : Seated s) (hs : Steps s s') : Seated s' := by
  intro hr
  obtain ⟨hp, ho⟩ := hs.reading hr
  obtain ⟨y, k, hy, hk⟩ : ∃ y k, s.loop.atHand = some y ∧ s.sock y = some k := by
    by_cases hn : s.reading = .no
    · exact ho hn
    · exact h hn
  obtain ⟨k', hk'⟩ := hs.sock y k hk
  exact ⟨y, k', by rw [← hy, atHand, atHand, hp], hk'⟩

theorem Place.steps {s s' : Sockets Addr} (h : Place s s') : Steps s s' :=
  ⟨follows_of_phase h.phase, fun hn => ⟨h.phase, fun hr => absurd (h.reading.trans hr) hn⟩, h.sock⟩

/-- A step of the loop that does not come to `on_inp`. -/
theorem Place.onward {s s' : Sockets Addr} (h : Place s s') (hr : s.reading = .no) {l : EvLoop}
    (hn : ∀ z ∈ notified l.phase, z ∈ notified s.loop.phase) :
    Steps s { s' with loop := l } :=
  ⟨fun z hz => .inl (hn z hz), fun hne => absurd (h.reading.trans hr) hne, h.sock⟩

/-- User code runs away from the loop. -/
theorem place_user (s : Sockets Addr) {i : Input Addr} (hi : ∀ batch, i ≠ .poll batch) :
    (s.user i).Split (Place s) (Place s) := by
  cases i with
  | create fd needWait mayHaveOut => exact Place.of_apart (apart_create _ _ s.loop)
  | tcp fd waiting => exact place_create _ s
  | udp fd needWait => exact place_create _ s
  | tcpSend y data rese allow script =>
    exact split_tcpSend (.refl s) (fun _ k' _ => place_put y k' s)
  | udpSend y dst data allow script =>
    exact split_udpSend (.refl s) (fun _ k' _ => place_put y k' s)
  | install y outq =>
    dsimp only [user]
    rw [Exec.split_ret]
    split
    · exact place_install y outq s
    · exact .refl s
  | request y r outq =>
    dsimp only [user]
    rw [Exec.split_ret]
    split
    · exact place_request y r outq s
    · exact .refl s
  | regWork y =>
    dsimp only [user]
    rw [Exec.split_ret]
    split
    · exact .of_apart (apart_regWork y s.loop)
    · exact .refl s
  | addWork y =>
    dsimp only [user]
    rw [Exec.split_ret]
    split
    · exact .of_apart (apart_addWork y s.loop)
    · exact .refl s
  | poll batch => exact absurd rfl (hi batch)
  | next outAreSent outq script => exact .refl s
  | recv a => exact .refl s

/-- Where no socket is at hand, the loop is in no `on_inp`. -/
theorem Seated.idle {s : Sockets Addr} (hs : Seated s)
    (h : ∀ y k, s.loop.atHand = some y → s.sock y ≠ some k) : s.reading = .no := by
  refine by_contra fun hr => ?_
  obtain ⟨y, k, hy, hk⟩ := hs hr
  exact h y k hy hk

theorem steps_poll (hs : Seated s) (batch : List (EventId × Mask)) :
    (s.user (.poll batch)).Split (Steps s) (Steps s) := by
  dsimp only [user]
  rw [Exec.split_ret]
  split
  · next hb =>
    have hr : s.reading = .no := hs.idle (fun y k hy => by simp [atHand, hb.1] at hy)
    refine ⟨fun z hz => ?_, fun hn => absurd hr hn, fun z k hk => ⟨k, hk⟩⟩
    rw [show (s.advance batch).loop = s.loop.advance batch from rfl, notified_advance] at hz
    obtain ⟨p, hp, rfl⟩ := List.mem_map.mp hz
    exact .inr (hb.2 p hp)
  · exact (Place.refl s).steps

theorem steps_user (hs : Seated s) (i : Input Addr) : (s.user i).Split (Steps s) (Steps s) := by
  by_cases hi : ∃ batch, i = .poll batch
  · obtain ⟨batch, rfl⟩ := hi
    exact steps_poll hs batch
  · have hplace := place_user s (fun batch hb => hi ⟨batch, hb⟩)
    exact hplace.mono (fun _ h => h.steps) (fun _ h => h.steps)

theorem user_reading (s : Sockets Addr) (i : Input Addr) :
    (s.user i).Split (fun s' => s'.reading = s.reading) (fun s' => s'.reading = s.reading) := by
  by_cases hi : ∃ batch, i = .poll batch
  · obtain ⟨batch, rfl⟩ := hi
    dsimp only [user]
    rw [Exec.split_ret]
    split <;> rfl
  · have hplace := place_user s (fun batch hb => hi ⟨batch, hb⟩)
    exact hplace.mono (fun _ h => h.reading) (fun _ h => h.reading)

theorem steps_handle {s : Sockets Addr} (hp : s.loop.phase = .batch x mask stage rest)
    (hr : s.reading = .no) (hk : s.sock x = some k) (outq : Option Nat)
    (script : List SysAnswer) :
    (s.handle x mask stage rest outq script k).Split (Steps s) (Steps s) := by
  have hgoto : ∀ s', Place s s' → ∀ stage', Steps s (s'.goto (.batch x mask stage' rest)) := by
    intro s' h stage'
    exact h.onward hr (fun z hz => by rw [hp]; exact hz)
  have hadvance : ∀ s', Place s s' → Steps s (s'.advance rest) := by
    intro s' h
    refine h.onward hr (fun z hz => ?_)
    rw [notified_advance] at hz
    rw [hp]
    exact List.mem_cons_of_mem x hz
  apply split_handle stage (M := Place s)
  case hskip => exact hadvance s (.refl s)
  case hout => exact fun _ _ _ => place_put x _ s
  case hnone => exact fun _ => .refl s
  case hstuck => exact fun _ h => h.steps
  case hafter => exact fun s' h => hgoto _ (h.trans (place_notify _ x .del outq s')) _
  case hidle => exact (Place.refl s).steps
  case hread =>
    intro _ _
    exact ⟨follows_of_phase rfl, fun _ => ⟨rfl, fun _ => ⟨x, k, by simp [atHand, hp], hk⟩⟩,
      fun _ k hk => ⟨k, hk⟩⟩
  case hpass => exact hgoto s (.refl s) _
  case hfail => exact fun b _ => hgoto _ (place_notify b x .fail outq s) _
  case hlast => exact fun b => hadvance _ (place_notify b x .fail outq s)

theorem steps_others {s : Sockets Addr} (hr : s.reading = .no) (outAreSent : Bool)
    (outq : Option Nat) : (s.others outAreSent outq).Split (Steps s) (Steps s) := by
  have hn := notified_next outAreSent outq s.loop
  rw [others, Exec.split_bimap]
  cases hl : s.loop.next outAreSent outq with
  | ret l =>
    rw [hl] at hn
    have hnote : Place s (s.note (s.entries outq)) := ⟨rfl, rfl, fun _ k hk => ⟨k, hk⟩⟩
    exact hnote.onward (l := l) hr hn
  | hang l =>
    rw [hl] at hn
    exact (Place.refl s).onward hr hn
  | undef l =>
    rw [hl] at hn
    exact (Place.refl s).onward hr hn

theorem steps_leave {s s' : Sockets Addr} (h : Place s s')
    (hp : s.loop.phase = .batch x mask stage rest) : Steps s s'.leave := by
  have hp' := h.phase.trans hp
  simp only [leave, hp']
  exact ⟨fun z hz => .inl (by rw [hp]; exact hz), fun hn => absurd rfl hn, h.sock⟩

theorem steps_next (hs : Seated s) (outAreSent : Bool) (outq : Option Nat)
    (script : List SysAnswer) :
    (s.next outAreSent outq script).Split (Steps s) (Steps s) := by
  apply split_next
  case hidle => exact (Place.refl s).steps
  case hundef => exact (Place.refl s).steps
  case hhandle => exact fun y mask stage rest k hp hk hr => steps_handle hp hr hk outq script
  case hleave => exact fun y mask stage rest hp => steps_leave (.refl s) hp
  case hagain =>
    intro y _ hr _ _
    exact ⟨follows_of_phase rfl, fun _ => ⟨rfl, fun h => by simp [hr] at h⟩,
      fun _ k hk => ⟨k, hk⟩⟩
  case hothers =>
    intro hnone
    exact steps_others (hs.idle fun z k hz => by simp [hnone z hz]) outAreSent outq

theorem steps_recv (s : Sockets Addr) (a : SysAnswer) :
    (s.recv a).Split (Steps s) (Steps s) := by
  apply split_recv
  case hidle => exact (Place.refl s).steps
  case hundef => exact (Place.refl s).steps
  case hparse =>
    intro y hr _ _ _
    exact ⟨follows_of_phase rfl, fun _ => ⟨rfl, fun h => by simp [hr] at h⟩,
      fun _ k hk => ⟨k, hk⟩⟩
  case hleave => exact fun y mask stage rest hp => steps_leave (.refl s) hp
  case hfail => exact fun y mask stage rest hp => steps_leave (place_request y .fail none s) hp

theorem steps_apply (hs : Seated s) (i : Input Addr) :
    (s.apply i).Split (Steps s) (Steps s) := by
  rw [apply.eq_def]
  split
  · next outAreSent outq script => exact steps_next hs outAreSent outq script
  · next a => exact steps_recv s a
  · split
    · exact (Place.refl s).steps
    · exact steps_user hs _

theorem atHand_notified {l : EvLoop} (h : l.atHand = some x) : x ∈ notified l.phase := by
  rw [atHand] at h
  split at h
  · next hp =>
    rw [hp]
    simpa [notified] using .inl (Option.some.inj h).symm
  · simp at h

theorem examined_listed {l : EvLoop} (h : l.examined = some x) :
    x ∈ l.delList ∨ x ∈ l.waiting := by
  rw [examined] at h
  split at h
  · exact .inl (List.mem_of_mem_head? h)
  · have hc := List.mem_of_mem_head? h
    exact .inr (by simp [waiting, hc])
  · simp at h

/-- Only its creation is about an event that is still to be made. -/
theorem Known.concerns {s : Sockets Addr} {i : Input Addr} (hk : Known s)
    (hx : s.loop.nextId ≤ x) (hi : Concerns x s i) :
    x = s.loop.nextId ∧ ∃ k fd needWait, k.event = Event.new fd needWait ∧
      s.apply i = .ret (s.create k) := by
  have hfree : s.loop.alive x = true → False := fun ha =>
    Nat.lt_irrefl _ (Nat.lt_of_lt_of_le (hk.old x ha) hx)
  have hhand : s.loop.atHand = some x → False := fun hh =>
    Nat.lt_irrefl _ (Nat.lt_of_lt_of_le (hk.batch x (atHand_notified hh)) hx)
  have hexam : s.loop.examined = some x → False := fun he =>
    Nat.lt_irrefl _ (Nat.lt_of_lt_of_le ((examined_listed he).elim (hk.del x) (hk.wait x)) hx)
  cases i with
  | tcp fd waiting => exact ⟨hi.2, _, fd, true, rfl, if_neg hi.1⟩
  | udp fd needWait => exact ⟨hi.2, _, fd, needWait, rfl, if_neg hi.1⟩
  | tcpSend y data rese allow script => exact (hfree (hi.2 ▸ hi.1)).elim
  | udpSend y dst data allow script => exact (hfree (hi.2 ▸ hi.1)).elim
  | install y outq => exact (hfree (hi.2 ▸ hi.1)).elim
  | request y r outq => exact (hfree (hi.2 ▸ hi.1)).elim
  | next outAreSent outq script => exact (hi.elim hhand hexam).elim
  | recv a => exact (hhand hi).elim
  | create fd needWait mayHaveOut => exact hi.elim
  | regWork y => exact hi.elim
  | addWork y => exact hi.elim
  | poll batch => exact hi.elim

/-- An event that is still to be made after a step has no part in it. -/
theorem Known.aside {s : Sockets Addr} (hk : Known s) (i : Input Addr)
    (hx : (s.apply i).state.loop.nextId ≤ x) (hs : s.loop.nextId ≤ x) :
    Aside x s (s.apply i).state := by
  by_cases hi : Concerns x s i
  · obtain ⟨rfl, k, fd, needWait, -, hu⟩ := hk.concerns hs hi
    rw [hu] at hx
    exact absurd hx (Nat.not_succ_le_self _)
  · exact (aside_apply hi).state

/-- No step of the loop forgets an address. -/
theorem Known.others {s : Sockets Addr} (hk : Known s) (outAreSent : Bool) (outq : Option Nat) :
    (s.others outAreSent outq).Split (fun s' => s.loop.nextId ≤ s'.loop.nextId)
      (fun s' => s.loop.nextId ≤ s'.loop.nextId) := by
  have hfar := Nat.not_lt.mpr (Nat.le_succ s.loop.nextId)
  have hnext := aside_others (x := s.loop.nextId + 1)
    (fun h => absurd (hk.batch _ (atHand_notified h)) hfar)
    (fun h => absurd ((examined_listed h).elim (hk.del _) (hk.wait _)) hfar) outAreSent outq
  exact hnext.mono (fun _ h => h.loop.nextId) (fun _ h => h.loop.nextId)

theorem Known.nextId {s : Sockets Addr} (hk : Known s) (i : Input Addr) :
    s.loop.nextId ≤ (s.apply i).state.loop.nextId := by
  by_cases hi : Concerns (s.loop.nextId + 1) s i
  · have := (hk.concerns (Nat.le_succ _) hi).1
    exact absurd this (Nat.succ_ne_self _)
  · exact (aside_apply hi).state.loop.nextId

theorem Known.apply {s : Sockets Addr} (hk : Known s) (hs : Seated s) (i : Input Addr) :
    Known (s.apply i).state := by
  have hmono := hk.nextId i
  have haside : ∀ x, (s.apply i).state.loop.nextId ≤ x → Aside x s (s.apply i).state :=
    fun x hx => hk.aside i hx (Nat.le_trans hmono hx)
  have hsame : ∀ x, (s.apply i).state.loop.nextId ≤ x →
      Same x s.loop (s.apply i).state.loop := fun x hx => (haside x hx).loop.same (.inr hx)
  have hold : ∀ x, x < s.loop.nextId → x < (s.apply i).state.loop.nextId :=
    fun x hx => Nat.lt_of_lt_of_le hx hmono
  refine ⟨fun x hx => ?_, fun x hx => ?_, fun x hx => ?_, fun x hx => ?_, fun x hx => ?_,
    fun e he => ?_⟩
  · refine by_contra fun hn => ?_
    have hle := Nat.le_of_not_lt hn
    exact hn (hold x (hk.old x ((hsame x hle).alive ▸ hx)))
  · rcases (steps_apply hs i).state.follows x hx with hx | ⟨ha, -⟩
    · exact hold x (hk.batch x hx)
    · exact hold x (hk.old x ha)
  · rw [(haside x hx).sock]
    exact hk.sock x (Nat.le_trans hmono hx)
  · refine by_contra fun hn => ?_
    exact hn (hold x (hk.del x ((hsame x (Nat.le_of_not_lt hn)).del hx)))
  · refine by_contra fun hn => ?_
    exact hn (hold x (hk.wait x ((hsame x (Nat.le_of_not_lt hn)).wait hx)))
  · refine by_contra fun hn => ?_
    obtain ⟨es, hl, hes⟩ := (haside e.about (Nat.le_of_not_lt hn)).log
    rw [hl] at he
    rcases List.mem_append.mp he with he | he
    · exact hn (hold _ (hk.log e he))
    · exact hes e he rfl

/-- What the places of a run satisfy. -/
structure Sound (s : Sockets Addr) : Prop extends Known s where
  seated : Seated s

theorem sound_new : Sound (new : Sockets Addr) :=
  ⟨known_new, fun hr => absurd rfl hr⟩

theorem Sound.apply {s : Sockets Addr} (h : Sound s) (i : Input Addr) :
    Sound (s.apply i).state :=
  ⟨h.toKnown.apply h.seated i, h.seated.steps (steps_apply h.seated i).state⟩

end Evel.Sockets
