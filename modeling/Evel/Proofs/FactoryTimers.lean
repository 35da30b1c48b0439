import Evel.Model.FactoryTimers
import Evel.Proofs.LoopTimers

namespace Evel.FactoryTimers
open General Loop EvLoop
variable {s : FactoryTimers}

/-- A timer is at work as long as its factory is there, and then until the destructor of the
factory closes it. `busy` is the factory that is in its destructor or in `on_install`. -/
structure Kept (busy : Option EventId) (s : FactoryTimers) : Prop where
  guarded : Guarded s.loop
  pair : ∀ x w, s.timeoutsTimer x = some w ↔ s.ucf w = some x
  owner : ∀ w x, s.ucf w = some x → x < s.loop.nextId
  placed : ∀ w x, s.ucf w = some x →
    (s.loop.events x).evLoop = true ∨ busy = some x ∧ s.loop.alive x = true
  reserved : ∀ w x, s.ucf w = some x → Reserved w s.loop
  clean : ∀ w x, s.ucf w = some x → s.loop.alive x = true ∨ busy = some x → Clean w s.loop
  gone : ∀ w x, s.ucf w = some x → s.loop.alive x = false → busy ≠ some x → Gone w s.loop

theorem kept_new : Kept none new where
  guarded := guarded_new
  pair := fun x w => by simp [new]
  owner := nofun
  placed := nofun
  reserved := nofun
  clean := nofun
  gone := nofun

theorem Kept.installed (h : Kept none s) (hu : s.ucf w = some x) :
    (s.loop.events x).evLoop = true :=
  (h.placed w x hu).resolve_right (fun hb => by cases hb.1)

def Timers (s : FactoryTimers) (w : EventId) : Prop := ∃ x, s.ucf w = some x

theorem Kept.guarded_apply (h : Kept none s) {i : Loop.Input} (hi : s.permits i = true) :
    (s.loop.apply i).Split Guarded (fun _ => True) := by
  let m : MainLoop := { MainLoop.new with loop := s.loop, running := true }
  refine MainLoop.guarded_apply (s := m) h.guarded ?_
  have hseen : ∀ x, s.hidden x = false → s.loop.kind x ≠ .waitOut := by
    intro x hx hk
    simp [hidden, hk] at hx
  cases i with
  | create fd needWait mayHaveOut => rfl
  | install x outq => cases hi
  | request x r outq => simpa [MainLoop.permits, m] using hseen x (by simpa [permits] using hi)
  | regWork x => simpa [MainLoop.permits, m] using hseen x (by simpa [permits] using hi)
  | addWork x => simpa [MainLoop.permits, m] using hseen x (by simpa [permits] using hi)
  | poll batch =>
    simp only [permits, List.all_eq_true, Bool.or_eq_true, Bool.not_eq_true'] at hi
    simp only [MainLoop.permits, m, Bool.true_and, List.all_eq_true]
    intro p hp
    have hseen := (hi p hp).imp_left (hseen p.1)
    simpa [MainLoop.new] using hseen
  | next outAreSent outq => rfl

theorem not_timer (hx : s.hidden x = false) : ¬ s.Timers x := by
  rintro ⟨y, hy⟩
  simp [hidden, hy] at hx

/-- User code that has no way to the timers -/
theorem carries_of_user (h : Kept none s) (hg : Guarded l) (hl : Lives s.loop l)
    (ha : ∀ w, s.Timers w → Aloof w s.loop l) (hp : l.phase = s.loop.phase)
    (hf : Filing s.loop l) : Carries s.Timers s.loop l := by
  refine ⟨hg, .inl hl, fun w hw => ?_⟩
  obtain ⟨x, hx⟩ := hw
  exact leaves_aloof (h.reserved w x hx).made (ha w ⟨x, hx⟩) hf (paced_of_phase hp)

theorem Carries.refl (h : Guarded l) (ts : EventId → Prop) : Carries ts l l :=
  ⟨h, .inl (.of_eq rfl rfl rfl rfl), fun _ _ => ⟨id, id, id⟩⟩

theorem Kept.carries_next (h : Kept none s) (outAreSent : Bool) (outq : Option Nat) :
    (s.loop.next outAreSent outq).Split (Carries s.Timers s.loop) (fun _ => True) := by
  have hg := h.guarded.next outAreSent outq
  have hp := passes_next outAreSent outq s.loop
  have hw : ∀ w x, s.ucf w = some x →
      (s.loop.next outAreSent outq).Split (Leaves w s.loop) (fun _ => True) :=
    fun w x hx => (h.reserved w x hx).leaves_next outAreSent outq
  generalize s.loop.next outAreSent outq = e at hg hp hw
  cases e with
  | ret l => exact ⟨hg, hp, fun w ⟨x, hx⟩ => hw w x hx⟩
  | hang l => trivial
  | undef l => trivial

/-- `epoll_wait` has nothing to report of a timer but its expirations. -/
theorem Kept.carries_poll (h : Kept none s) (hg : Guarded (s.loop.advance batch))
    (hi : s.permits (.poll batch) = true) : Carries s.Timers s.loop (s.loop.advance batch) := by
  have hf := (Filing.refl s.loop).advance batch
  refine ⟨hg, .inl (Lives.advance (.of_eq rfl rfl rfl rfl) batch), ?_⟩
  rintro w ⟨x, hx⟩
  have hr := h.reserved w x hx
  have ha := aloof_advance w batch s.loop
  have hs := ha.same (.inl hr.made)
  have hhidden : s.hidden w = true := by simp [hidden, hx]
  refine ⟨fun _ => ?_, fun hc => hc.aloof hr.made ha, fun hd => hd.aloof hr.made ha hf⟩
  have hbatch : ∀ mask, (w, mask) ∈ batch → mask.onlyInp = true := by
    intro mask hm
    simpa [hhidden] using List.all_eq_true.mp hi (w, mask) hm
  refine ⟨Nat.lt_of_lt_of_le hr.made ha.nextId, hs.kind.trans hr.kind,
    fun hw => hr.wait (hs.wait hw), ?_, ?_⟩
  · cases batch with
    | nil => exact fun mask hm => by cases hm
    | cons p rest => exact hbatch
  · cases batch with
    | nil => exact fun mask rest he => by cases he
    | cons p rest => exact fun mask rest he => by cases he

theorem Kept.carries_apply (h : Kept none s) {i : Loop.Input} (hi : s.permits i = true) :
    (s.loop.apply i).Split (Carries s.Timers s.loop) (fun _ => True) := by
  have hg := h.guarded_apply hi
  have hself := Carries.refl h.guarded s.Timers
  cases i with
  | create fd needWait mayHaveOut =>
    exact carries_of_user h hg (lives_create _ _ _) (fun w _ => aloof_create w _ _ _) rfl
      (filing_create _ _ _ rfl)
  | install x outq => cases hi
  | request x r outq =>
    have hx : s.hidden x = false := by simpa [permits] using hi
    refine carries_of_user h hg (lives_notify _ x r outq _) (fun w hw => ?_)
      (apart_notify _ x r outq _).phase (filing_notify _ x r outq _)
    refine aloof_notify ?_ _ r outq _
    rintro rfl
    exact not_timer hx hw
  | regWork x =>
    change Guarded (if s.loop.alive x then s.loop.regWork x else s.loop) at hg
    change Carries s.Timers s.loop (if s.loop.alive x then s.loop.regWork x else s.loop)
    split at hg
    · next ha =>
      rw [if_pos ha]
      exact carries_of_user h hg (lives_regWork x _) (fun w _ => aloof_regWork w x _)
        (apart_regWork x _).phase (filing_regWork x _)
    · next ha =>
      rwa [if_neg ha]
  | addWork x =>
    change Guarded (if s.loop.alive x then s.loop.addWork x else s.loop) at hg
    change Carries s.Timers s.loop (if s.loop.alive x then s.loop.addWork x else s.loop)
    split at hg
    · next ha =>
      rw [if_pos ha]
      exact carries_of_user h hg (lives_addWork x _) (fun w _ => aloof_addWork w x _)
        (apart_addWork x _).phase (filing_addWork x _)
    · next ha =>
      rwa [if_neg ha]
  | poll batch =>
    change Guarded (if _ then s.loop.advance batch else s.loop) at hg
    change Carries s.Timers s.loop (if _ then s.loop.advance batch else s.loop)
    split at hg
    · next hb =>
      rw [if_pos hb]
      exact h.carries_poll hg hi
    · next hb =>
      rwa [if_neg hb]
  | next outAreSent outq => exact h.carries_next outAreSent outq

theorem Kept.carried (h : Kept none s) (hc : Carries s.Timers s.loop l) :
    ∃ busy : Option EventId, MainLoop.ended s.loop l = busy.toList ∧
      (∀ x, busy = some x → l.alive x = false) ∧ Kept busy { s with loop := l } := by
  have hleaves : ∀ w x, s.ucf w = some x → Leaves w s.loop l := fun w x hx => hc.leaves w ⟨x, hx⟩
  obtain hl | ⟨x, he⟩ := hc.passes
  · have hlive : ∀ w y, s.ucf w = some y → l.alive y = s.loop.alive y :=
      fun w y hy => hl.alive y (h.owner w y hy)
    refine ⟨none, by simp [MainLoop.ended, hl.log], (fun y hy => by cases hy), ?_⟩
    exact {
      guarded := hc.guarded
      pair := h.pair
      owner := fun w y hy => Nat.lt_of_lt_of_le (h.owner w y hy) hl.nextId
      placed := fun w y hy => .inl (hl.evLoop y (h.owner w y hy) (h.installed hy))
      reserved := fun w y hy => (hleaves w y hy).reserved (h.reserved w y hy)
      clean := fun w y hy ha =>
        (hleaves w y hy).clean (h.clean w y hy (ha.imp_left (hlive w y hy ▸ ·)))
      gone := fun w y hy ha hn =>
        (hleaves w y hy).gone (h.gone w y hy (hlive w y hy ▸ ha) hn) }
  · obtain ⟨d, hd, hlog⟩ := he.log
    have hdead : l.alive x = false := by simp [he.alive]
    have hother : ∀ y, y ≠ x → l.alive y = s.loop.alive y := fun y hy => by simp [he.alive, hy]
    refine ⟨some x, by simp [MainLoop.ended, hlog, hd], ?_, ?_⟩
    · rintro y ⟨⟩
      exact hdead
    · exact {
        guarded := hc.guarded
        pair := h.pair
        owner := fun w y hy => he.nextId ▸ h.owner w y hy
        placed := fun w y hy => .inl (he.evLoop y (h.installed hy))
        reserved := fun w y hy => (hleaves w y hy).reserved (h.reserved w y hy)
        clean := by
          -- the factory that is destroyed was there before
          intro w y hy ha
          refine (hleaves w y hy).clean (h.clean w y hy (.inl ?_))
          by_cases hyx : y = x
          · exact hyx ▸ he.before
          · obtain ha | ha := ha
            · exact hother y hyx ▸ ha
            · exact absurd (Option.some.inj ha).symm hyx
        gone := by
          intro w y hy ha hn
          have hyx : y ≠ x := fun hyx => hn (by rw [hyx])
          exact (hleaves w y hy).gone (h.gone w y hy (hother y hyx ▸ ha)
            (fun hb => by cases hb)) }

/-- `close` takes a timer that is at work to `del_list`. -/
theorem request_close (hk : l.kind w = .user false) (hc : Clean w l) :
    Gone w (l.request w (.close true) none) ∧
      (l.request w (.close true) none).waiting = l.waiting ∧
      (l.request w (.close true) none).kind = l.kind := by
  have htarget : l.target w (.close true) none = some .delList := by
    simp [target, Event.flags, Event.closeFdFlags, hc.hasError, hc.wantCloseFd, Event.delTarget,
      hc.evLoop, hk, mayHaveOut]
  have hpush : l.request w (.close true) none =
      { l.setEvent w { l.events w with wantCloseFd := true, nextDel := true } with
        delList := l.delList ++ [w] } := by
    simp [request, htarget, register, setEvent, Event.flags, Event.closeFdFlags, Event.register,
      hc.hasError, hc.wantCloseFd, hc.nextDel]
  rw [hpush]
  exact ⟨⟨.inl (by simp), fun _ => by simp [setEvent]⟩, rfl, rfl⟩

theorem Kept.dtor (h : Kept (some x) s) (hx : s.loop.alive x = false) :
    (s.dtor x).Returns (Kept none) := by
  have hplaced : ∀ w y, s.ucf w = some y → (s.loop.events y).evLoop = true := by
    intro w y hy
    obtain hp | ⟨⟨⟩, hp⟩ := h.placed w y hy
    · exact hp
    · rw [hx] at hp
      cases hp
  rw [FactoryTimers.dtor]
  split
  · next hn =>
    -- no timer has this factory
    have hne : ∀ w y, s.ucf w = some y → some x ≠ some y := by
      rintro w y hy ⟨⟩
      rw [(h.pair x w).mpr hy] at hn
      cases hn
    exact { h with
      placed := fun w y hy => .inl (hplaced w y hy)
      clean := fun w y hy ha => h.clean w y hy (ha.imp_right nofun)
      gone := fun w y hy ha _ => h.gone w y hy ha (hne w y hy) }
  · next w ht =>
    have hu := (h.pair x w).mp ht
    have hr := h.reserved w x hu
    have hc := h.clean w x hu (.inr rfl)
    rw [if_pos hc.alive]
    have hcommon : Common w s.loop := by
      refine ⟨hr.made, fun v hv => ?_⟩
      rintro rfl
      have hkind := (h.guarded.timer v hv).kind
      rw [hr.kind] at hkind
      cases hkind
    have hf := filing_request w (.close true) none s.loop
    have hlive := lives_request w (.close true) none s.loop
    have hpaced : Paced s.loop (s.loop.request w (.close true) none) :=
      paced_of_phase (apart_request w (.close true) none s.loop).phase
    have hother : ∀ v y, s.ucf v = some y → v ≠ w →
        Leaves v s.loop (s.loop.request w (.close true) none) := fun v y hy hne =>
      leaves_aloof (h.reserved v y hy).made (aloof_request hne _ _ _) hf hpaced
    have hself : ∀ y, s.ucf w = some y → y = x := fun y hy => Option.some.inj (hy.symm.trans hu)
    obtain ⟨hgone, hwaiting, hkind⟩ := request_close hr.kind hc
    have hkeep : ∀ y, y < s.loop.nextId →
        (s.loop.request w (.close true) none).alive y = s.loop.alive y := hlive.alive
    exact {
      guarded := h.guarded.request hcommon _ _
      pair := h.pair
      owner := fun v y hy => Nat.lt_of_lt_of_le (h.owner v y hy) hlive.nextId
      placed := fun v y hy => .inl (hlive.evLoop y (h.owner v y hy) (hplaced v y hy))
      reserved := by
        intro v y hy
        by_cases hv : v = w
        · subst hv
          exact hr.paced (Nat.lt_of_lt_of_le hr.made hlive.nextId) (by rw [hkind])
            (by rw [hwaiting]; exact id) hpaced
        · exact (hother v y hy hv).reserved (h.reserved v y hy)
      clean := by
        intro v y hy ha
        obtain ha | ha := ha
        · have hlives := (hkeep y (h.owner v y hy)).symm.trans ha
          have hv : v ≠ w := by
            rintro rfl
            rw [hself y hy, hx] at hlives
            cases hlives
          exact (hother v y hy hv).clean (h.clean v y hy (.inl hlives))
        · cases ha
      gone := by
        intro v y hy ha _
        by_cases hv : v = w
        · exact hv ▸ hgone
        · have hne : some x ≠ some y := by
            rintro ⟨⟩
            exact hv (Option.some.inj (((h.pair x v).mpr hy).symm.trans ht))
          exact (hother v y hy hv).gone
            (h.gone v y hy ((hkeep y (h.owner v y hy)).symm.trans ha) hne) }

/-- A step of the loop, with the destructors that it calls -/
theorem Kept.follow (h : Kept none s) (hc : Carries s.Timers s.loop l) :
    (s.follow l).Returns (Kept none) := by
  obtain ⟨busy, hended, hdead, hk⟩ := h.carried hc
  rw [MainLoop.ended] at hended
  rw [FactoryTimers.follow, hended]
  cases busy with
  | none => exact hk
  | some x => exact hk.dtor (hdead x rfl)

theorem makeTimer_eq (x : EventId) (fd : Int) (s : FactoryTimers) :
    s.makeTimer x fd = { s with
      loop := s.loop.create (.user false) { Event.new fd false with evLoop := true }
      timeoutsTimer := Function.update s.timeoutsTimer x (some s.loop.nextId)
      ucf := Function.update s.ucf s.loop.nextId (some x) } := by
  rw [FactoryTimers.makeTimer, create_install]

/-- A factory that is in the loop, or in its `on_install`, makes its timer. -/
theorem Kept.makeTimer (h : Kept busy s) (hn : s.timeoutsTimer x = none)
    (ha : s.loop.alive x = true) (hl : (s.loop.events x).evLoop = true ∨ busy = some x) (fd : Int) :
    Kept busy (s.makeTimer x fd) := by
  let e : Event := { Event.new fd false with evLoop := true }
  let l := s.loop.create (.user false) e
  have hfresh : ∀ w y, s.ucf w = some y → w ≠ s.loop.nextId := by
    rintro w y hy rfl
    exact Nat.lt_irrefl _ (h.reserved _ y hy).made
  have hnone : ∀ w, s.ucf w ≠ some x := by
    intro w hw
    rw [(h.pair x w).mpr hw] at hn
    cases hn
  have hlives : Lives s.loop l := lives_create (.user false) e s.loop
  have hleaves : ∀ w y, s.ucf w = some y → Leaves w s.loop l := fun w y hy =>
    leaves_aloof (h.reserved w y hy).made (aloof_create w _ _ _) (filing_create _ _ _ rfl)
      (paced_of_phase rfl)
  have hx := h.guarded.known x ha
  have hlx : l.alive x = true := (hlives.alive x hx).trans ha
  have halive : ∀ w y, s.ucf w = some y → l.alive y = s.loop.alive y :=
    fun w y hy => hlives.alive y (h.owner w y hy)
  -- a timer is the new one, or one of the others
  have hcases : ∀ w y, Function.update s.ucf s.loop.nextId (some x) w = some y →
      (w = s.loop.nextId ∧ y = x) ∨ s.ucf w = some y := by
    intro w y hy
    by_cases hw : w = s.loop.nextId
    · subst hw
      exact .inl ⟨rfl, by simpa using hy.symm⟩
    · exact .inr (by simpa [hw] using hy)
  rw [makeTimer_eq]
  exact {
    guarded := ⟨h.guarded.toManned.create _ _, h.guarded.guard⟩
    pair := by
      intro y w
      by_cases hw : w = s.loop.nextId
      · subst hw
        by_cases hy : y = x
        · simp [hy]
        · have hne : s.timeoutsTimer y ≠ some s.loop.nextId :=
            fun ht => hfresh _ y ((h.pair y _).mp ht) rfl
          simp [hy, hne, Ne.symm hy]
      · by_cases hy : y = x
        · subst hy
          simp [hw, hnone w, Ne.symm hw]
        · simpa [hy, hw] using h.pair y w
    owner := by
      intro w y hy
      obtain ⟨-, rfl⟩ | hy := hcases w y hy
      · exact Nat.lt_of_lt_of_le hx hlives.nextId
      · exact Nat.lt_of_lt_of_le (h.owner w y hy) hlives.nextId
    placed := by
      intro w y hy
      obtain ⟨-, rfl⟩ | hy := hcases w y hy
      · exact hl.imp (hlives.evLoop y hx) (fun hb => ⟨hb, hlx⟩)
      · exact (h.placed w y hy).imp (hlives.evLoop y (h.owner w y hy))
          (fun hb => ⟨hb.1, (halive w y hy).trans hb.2⟩)
    reserved := by
      intro w y hy
      obtain ⟨rfl, -⟩ | hy := hcases w y hy
      · exact h.guarded.toManned.reserved_new e
      · exact (hleaves w y hy).reserved (h.reserved w y hy)
    clean := by
      intro w y hy hb
      obtain ⟨rfl, -⟩ | hy := hcases w y hy
      · exact h.guarded.toManned.clean_new (.user false) fd false
      · exact (hleaves w y hy).clean (h.clean w y hy (hb.imp_left ((halive w y hy).symm.trans ·)))
    gone := by
      intro w y hy hdead hb
      obtain ⟨-, rfl⟩ | hy := hcases w y hy
      · exact absurd (hlx.symm.trans hdead) nofun
      · exact (hleaves w y hy).gone (h.gone w y hy ((halive w y hy).symm.trans hdead) hb) }

/-- A factory that is not in the loop has no timer yet. -/
theorem Kept.unplaced (h : Kept none s) (hx : (s.loop.events x).evLoop = false) :
    Kept (some x) s ∧ s.timeoutsTimer x = none := by
  have hne : ∀ w y, s.ucf w = some y → some x ≠ some y := by
    rintro w y hy ⟨⟩
    rw [h.installed hy] at hx
    cases hx
  refine ⟨{ h with
    placed := fun w y hy => .inl (h.installed hy)
    clean := fun w y hy ha => h.clean w y hy (.inl (ha.resolve_right (hne w y hy)))
    gone := fun w y hy ha _ => h.gone w y hy ha nofun }, ?_⟩
  cases ht : s.timeoutsTimer x with
  | none => rfl
  | some w => exact absurd rfl (hne w x ((h.pair x w).mp ht))

/-- `add_event_obj` of a factory that has made its timer if it needs one -/
theorem Kept.enter (h : Kept (some x) s) (hx : ¬ s.Timers x) (hc : Common x s.loop)
    (ha : s.loop.alive x = true) (outq : Option Nat) :
    Kept none { s with loop := s.loop.install x outq } := by
  have hlives := lives_install x outq s.loop
  have hleaves : ∀ w y, s.ucf w = some y → Leaves w s.loop (s.loop.install x outq) := by
    intro w y hy
    have hne : w ≠ x := by
      rintro rfl
      exact hx ⟨y, hy⟩
    exact leaves_aloof (h.reserved w y hy).made (aloof_install hne outq _) (filing_install _ _ _)
      (paced_of_phase (apart_install x outq _).phase)
  have halive : ∀ w y, s.ucf w = some y → (s.loop.install x outq).alive y = s.loop.alive y :=
    fun w y hy => hlives.alive y (h.owner w y hy)
  exact {
    guarded := h.guarded.install hc outq
    pair := h.pair
    owner := fun w y hy => Nat.lt_of_lt_of_le (h.owner w y hy) hlives.nextId
    placed := by
      intro w y hy
      obtain hl | ⟨⟨⟩, -⟩ := h.placed w y hy
      · exact .inl (hlives.evLoop y (h.owner w y hy) hl)
      · exact .inl (install_installed x outq _)
    reserved := fun w y hy => (hleaves w y hy).reserved (h.reserved w y hy)
    clean := by
      intro w y hy hb
      have hlive : s.loop.alive y = true :=
        (halive w y hy).symm.trans (hb.resolve_right (fun hb => by cases hb))
      exact (hleaves w y hy).clean (h.clean w y hy (.inl hlive))
    gone := by
      intro w y hy hdead _
      have hdead : s.loop.alive y = false := (halive w y hy).symm.trans hdead
      have hne : some x ≠ some y := by
        rintro ⟨⟩
        rw [ha] at hdead
        cases hdead
      exact (hleaves w y hy).gone (h.gone w y hy hdead hne) }

theorem Kept.common (h : Kept none s) (ha : s.loop.alive x = true) (hx : s.hidden x = false) :
    Common x s.loop := by
  refine ⟨h.guarded.known x ha, fun w hw => ?_⟩
  rintro rfl
  simp [hidden, (h.guarded.timer w hw).kind] at hx

theorem Kept.install (h : Kept none s) (ha : s.loop.alive x = true) (hx : s.hidden x = false)
    (outq : Option Nat) (fd : Int) : Kept none (s.install x outq fd) := by
  rw [FactoryTimers.install]
  split
  · exact h
  · next hl =>
    obtain ⟨hb, hn⟩ := h.unplaced (by simpa using hl)
    have ht := not_timer hx
    have hc := h.common ha hx
    have hne : x ≠ s.loop.nextId := Nat.ne_of_lt hc.1
    split
    · refine (hb.makeTimer hn ha (.inr rfl) fd).enter ?_ ?_ ?_ outq
      · simpa [makeTimer_eq, Timers, hne] using ht
      · rw [makeTimer_eq]
        exact ⟨Nat.lt_succ_of_lt hc.1, hc.2⟩
      · simp [makeTimer_eq, EvLoop.create, hne, ha]
    · exact hb.enter ht hc ha outq

theorem Kept.addTimeout (h : Kept none s) (ha : s.loop.alive x = true) (fd : Int) :
    Kept none (s.addTimeout x fd) := by
  rw [FactoryTimers.addTimeout]
  split
  · exact h
  · next hn =>
    split
    · next hl => exact h.makeTimer hn ha (.inl hl) fd
    · exact { h with }

/-- A timer calls its factory no more when it has been asked to go. -/
theorem Kept.called (h : Kept none s) (hx : s.called = some x) : s.loop.alive x = true := by
  unfold FactoryTimers.called at hx
  split at hx
  · next w mask rest hp =>
    dsimp only at hx
    split at hx
    · next hb =>
      simp only [Bool.and_eq_true, Bool.not_eq_true'] at hb
      by_contra hdead
      have hg := h.gone w x hx (by simpa using hdead) nofun
      rw [hg.nextDel hb.1.1.1] at hb
      exact absurd hb.2 nofun
    · cases hx
  · cases hx

theorem Kept.not_astray (h : Kept none s) (i : Loop.Input) : s.astray i = false := by
  cases i with
  | next outAreSent outq =>
    cases hc : s.called with
    | none => simp [astray, hc]
    | some x => simp [astray, hc, h.called hc]
  | _ => rfl

theorem Kept.apply (h : Kept none s) (i : Input) :
    (s.apply i).Split (Kept none) (fun _ => True) := by
  cases i with
  | loop i =>
    rw [FactoryTimers.apply]
    split_ifs with hi hs
    · trivial
    · exact (h.carries_apply hi).thenWith (fun l hl => (h.follow hl).split _) (fun _ _ => trivial)
    · exact h
  | install x outq fd =>
    change Kept none (if _ then s.install x outq fd else s)
    split
    · next hb =>
      simp only [Bool.and_eq_true, Bool.not_eq_true'] at hb
      exact h.install hb.1 hb.2 outq fd
    · exact h
  | addTimeout x fd =>
    change Kept none (if _ then s.addTimeout x fd else s)
    split
    · next hb =>
      simp only [Bool.and_eq_true] at hb
      exact h.addTimeout hb.1 fd
    · exact h

/-- Only the loop itself may keep a step from returning. -/
theorem Kept.returns (h : Kept none s) (i : Input)
    (hi : ∀ j, i = .loop j → (s.loop.apply j).Returns (fun _ => True)) :
    (s.apply i).Returns (fun _ => True) := by
  cases i with
  | loop i =>
    rw [FactoryTimers.apply]
    rw [h.not_astray i]
    split
    · next hp =>
      obtain ⟨l, hl, -⟩ := (hi i rfl).exists
      have hc := h.carries_apply hp
      rw [hl] at hc ⊢
      exact (h.follow hc).mono (fun _ _ => trivial)
    · trivial
  | install x outq fd => trivial
  | addTimeout x fd => trivial

/-- What factories and their timers may count on. -/
structure Safe (s : FactoryTimers) : Prop where
  /-- The destructor closes a timer that is there. -/
  closed : ∀ x w, s.timeoutsTimer x = some w → s.loop.alive x = true → s.loop.alive w = true
  /-- A timer calls a factory that is there. -/
  called : ∀ x, s.called = some x → s.loop.alive x = true
  /-- A timer goes with its factory. -/
  ended : ∀ x w, s.timeoutsTimer x = some w → s.loop.alive x = false → Marked w s.loop
  returns : ∀ i, (∀ j, i = .loop j → (s.loop.apply j).Returns (fun _ => True)) →
    (s.apply i).Returns (fun _ => True)

theorem Kept.safe (h : Kept none s) : Safe s where
  closed := fun x w ht ha => (h.clean w x ((h.pair x w).mp ht) (.inl ha)).alive
  called := fun _ hx => h.called hx
  ended := fun x w ht ha => (h.gone w x ((h.pair x w).mp ht) ha nofun).marked
  returns := h.returns

theorem kept_step (h : e.Split (Kept none) (fun _ => True)) (i : Input) :
    (step e i).Split (Kept none) (fun _ => True) := h.andThen (fun _ hs => hs.apply i)

/-- In every run of a loop with factories, a factory and its timer never use each other after their
end, and the timer goes when its factory does. -/
theorem timers_follow_factories (inputs : List Input)
    (h : run step (.ret new) inputs = .ret s) : Safe s := by
  have hnew : (Exec.ret new).Split (Kept none) (fun _ => True) := kept_new
  have hrun := run_invariant_all (Exec.Split (Kept none) (fun _ => True))
    (fun _ i h => kept_step h i) hnew inputs
  rw [h] at hrun
  exact Kept.safe hrun

/-- A factory that has got its timer in `on_install` is destroyed. -/
theorem timers_follow_factories_destroyed :
    let inputs := [.loop (.create 5 true true), .addTimeout 0 7, .install 0 none 7,
      .loop (.request 0 (.close true) none), .loop (.next true none), .loop (.next true none)]
    let s := (run step (.ret new) inputs).state
    s.timeoutsTimer 0 = some 1 ∧ s.loop.alive 0 = false ∧ Marked 1 s.loop := by
  intro inputs s
  have hs : Safe s := timers_follow_factories inputs rfl
  exact ⟨by decide, by decide, hs.ended 0 1 (by decide) (by decide)⟩

end Evel.FactoryTimers
