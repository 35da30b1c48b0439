import Evel.Proofs.WheelTakeLevel
import Evel.Proofs.WheelTakeLast

namespace Evel.ExpIndexed
open General

variable {T : Type u} [DecidableEq T] {g : Geometry}

theorem Settled.returns {m : Memory T} {e : Exec (Memory T)} (h : Settled g safe m due script e)
    (hsafe : safe) : e.Returns (Dispatched g m due script) := by
  cases e with
  | ret m' => exact (h.resolve_right (fun hn => hn.1 hsafe)).2
  | hang m' => exact absurd hsafe h
  | undef m' => exact absurd hsafe h

theorem Settled.honoured_iff {m : Memory T} {e : Exec (Memory T)}
    (h : Settled g safe m due script e) : e.Returns (Honoured due) ↔ safe := by
  constructor
  · intro hh
    obtain ⟨m', rfl, hm'⟩ := hh.exists
    exact (h.resolve_right (fun hn => hn.2 hm')).1
  · intro hsafe
    exact (h.returns hsafe).mono (fun m' hm' => hm'.told.honoured)

section shift
variable {m : Memory T} {l : ExpIndexedList T g} {L : Bucket → List T}

/-- Lists with and without levels. -/
theorem shift_settled (h : Shows m l L) (hroomy : m.Roomy fuel) {script : List (List (Act T))}
    (hscript : OnlyTakes script) :
    Settled g (Safe (fun x => decide (x ∈ l.shifted.out))
      (if g.nb = 0 then L (0, 0) else l.shifted.out) script) m l.shifted.out script
      (m.shift g fuel script) := by
  split
  · rename_i hnb
    exact last_settled h hroomy hnb hscript
  · rename_i hpos
    exact level_settled h hroomy hpos hscript

theorem mem_handed (m : Memory T) (x : T) : x ∈ m.handed ↔ Entry.handed x ∈ m.log := by
  rw [← List.count_pos_iff, ← List.count_pos_iff, m.handed_count]

/-- What a shift hands over when the callbacks do nothing. -/
theorem mem_due (h : Shows m l L) (hroomy : m.Roomy fuel) (x : T) :
    x ∈ m.due g fuel ↔ x ∈ l.shifted.out := by
  have hnothing : OnlyTakes ([] : List (List (Act T))) := fun a ha => by cases ha
  obtain ⟨m', hm', hd⟩ := ((shift_settled h hroomy hnothing).returns trivial).exists
  have hidle : m.due g fuel = m'.handed := by
    rw [Memory.due, hm']
    rfl
  rw [hidle, mem_handed]
  refine ⟨hd.told.only x, fun hx => ?_⟩
  have hkept : Entry.removed x ∉ m'.log := by
    intro hrem
    obtain ⟨a, ha, -⟩ := hd.asked x hrem
    cases ha
  rw [← List.count_pos_iff, hd.told.served x hx List.not_mem_nil hkept]
  exact Nat.one_pos

theorem passed_eq (h : Shows m l L) (hroomy : m.Roomy fuel) :
    m.passed g fuel = if g.nb = 0 then L (0, 0) else l.shifted.out := by
  unfold Memory.passed
  split
  · exact h.chain_eq hroomy (0, 0)
  · rename_i hpos
    exact h.due_eq hroomy hpos

theorem honoured_congr {due due' : List T} (h : ∀ x, x ∈ due ↔ x ∈ due') :
    Honoured due = Honoured due' := by
  funext m
  simp only [Honoured, h]

/-- A shift honours the removals of its callbacks exactly if it is safe; then the list is as good
as before. -/
theorem shift_honoured (h : Shows m l L) (hroomy : m.Roomy fuel) {script : List (List (Act T))}
    (hscript : OnlyTakes script) :
    ((m.shift g fuel script).Returns (Honoured (m.due g fuel)) ↔
        Safe (fun x => decide (x ∈ m.due g fuel)) (m.passed g fuel) script) ∧
      (Safe (fun x => decide (x ∈ m.due g fuel)) (m.passed g fuel) script →
        (m.shift g fuel script).Returns fun m' => (∀ k, m.Roomy k → m'.Roomy k) ∧
          ∃ (l' : ExpIndexedList T g) (L' : Bucket → List T), Shows m' l' L') := by
  have hdue := mem_due h hroomy
  have hsettled := shift_settled h hroomy hscript
  simp only [passed_eq h hroomy, hdue, honoured_congr hdue]
  refine ⟨hsettled.honoured_iff, fun hsafe => (hsettled.returns hsafe).mono fun m' hd => ?_⟩
  exact ⟨fun k hk => hk.shrink hd.listed, hd.shows⟩

end shift

section run
variable {e : Exec (Memory T)} {u : Use T} {us : List (Use T)}

theorem use_honoured_iff (h : Budgeted g fuel e (u :: us))
    (hscript : ∀ script, u = .shift script → OnlyTakes script) :
    HonouredUse g fuel e u ↔ SafeUse g fuel e u := by
  cases u with
  | act a => exact Iff.rfl
  | shift script =>
    obtain ⟨m, rfl, l, L, k, hshows, hroomy, hk⟩ := h
    have hfuel : m.Roomy fuel := hroomy.mono (by omega)
    exact (shift_honoured hshows hfuel (hscript script rfl)).1

theorem useStep_safe (h : Budgeted g fuel e (u :: us))
    (hscript : ∀ script, u = .shift script → OnlyTakes script) (hsafe : SafeUse g fuel e u) :
    Budgeted g fuel (useStep g fuel e u) us := by
  obtain ⟨m, rfl, l, L, k, hshows, hroomy, hk⟩ := h
  simp only [List.map_cons, List.sum_cons] at hk
  cases u with
  | act a =>
    obtain ⟨m', hm', ops, L', h', hroomy', -⟩ := (hshows.act hroomy a).exists
    have hone : (Use.act a).adds = 1 := rfl
    exact ⟨m', hm', _, L', k + 1, h', hroomy', by omega⟩
  | shift script =>
    have hfuel : m.Roomy fuel := hroomy.mono (by omega)
    obtain ⟨m', hm', hroomy', l', L', h'⟩ :=
      ((shift_honoured hshows hfuel (hscript script rfl)).2 hsafe).exists
    exact ⟨m', hm', l', L', k, h', hroomy' k hroomy, by omega⟩

end run

/-- In every run the removals and destructions that the callbacks of a shift make are honoured,
exactly if no callback takes out the item that the loop has read as the next one. The last bucket
of a wheel without levels does not mind if that item is not due and stays alive. -/
theorem removals_honoured_iff (g : Geometry) (offset : Nat) (us : List (Use T))
    (hscript : ∀ script, .shift script ∈ us → OnlyTakes script)
    (hfuel : (us.map Use.adds).sum ≤ fuel) :
    Along (useStep g fuel) (HonouredUse g fuel) (.ret (Memory.new T offset)) us ↔
      Along (useStep g fuel) (SafeUse g fuel) (.ret (Memory.new T offset)) us := by
  refine along_congr
    (fun e vs => Budgeted g fuel e vs ∧ ∀ script, .shift script ∈ vs → OnlyTakes script)
    ?_ ?_ ⟨new_budgeted g offset us hfuel, hscript⟩
  · intro e u vs hvs
    obtain ⟨hbudget, hscript⟩ := hvs
    exact use_honoured_iff hbudget (fun script he => hscript script (by simp [he]))
  · rintro e u vs ⟨hbudget, hscript⟩ hsafe
    exact ⟨useStep_safe hbudget (fun script he => hscript script (by simp [he])) hsafe,
      fun script hm => hscript script (List.mem_cons_of_mem _ hm)⟩

/-- Items that stand further back in the bucket may be taken out. -/
theorem removals_honoured_iff_back :
    Along (useStep ⟨4, 2, by decide⟩ 9) (HonouredUse ⟨4, 2, by decide⟩ 9)
      (.ret (Memory.new Nat 0))
      [.act (.add 0 0), .act (.add 1 0), .act (.add 2 0), .act (.add 3 0),
        .shift [[.rem 0], [.destroy 2, .destroy 3]]] := by
  refine (removals_honoured_iff ⟨4, 2, by decide⟩ 0 _ ?_ (by decide)).mpr (by decide)
  intro script hs a ha
  obtain rfl : script = [[.rem 0], [.destroy 2, .destroy 3]] := by simpa using hs
  have ha : a = .rem 0 ∨ a = .destroy 2 ∨ a = .destroy 3 := by simpa using ha
  rcases ha with rfl | rfl | rfl
  · exact ⟨0, .inl rfl⟩
  · exact ⟨2, .inr rfl⟩
  · exact ⟨3, .inr rfl⟩

/-- The first of three items takes out the second one, which is handed over nevertheless. -/
theorem removed_item_handed :
    ¬ Along (useStep ⟨4, 2, by decide⟩ 9) (HonouredUse ⟨4, 2, by decide⟩ 9)
      (.ret (Memory.new Nat 0))
      [.act (.add 0 0), .act (.add 1 0), .act (.add 2 0), .shift [[.rem 1]]] := by
  decide

end Evel.ExpIndexed
