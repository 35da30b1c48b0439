import Evel.Model.RcPtr

namespace Evel
open General
namespace RcHeap
variable {κ : Type u} {α : Type v} [DecidableEq α]

/-- The reference counts are exact: the count of extra references of an object that lives is one
less than its handles, no handle points to an object that is gone, and an object is gone exactly
when no handle points to it any more. -/
structure Exact (h : RcHeap κ α) : Prop where
  counted : ∀ a ∈ h.created, a ∉ h.deleted → h.cptUse a + 1 = h.pointers a
  valid : ∀ k ∈ h.handles, ∀ a ∈ h.data k, a ∈ h.created ∧ a ∉ h.deleted
  last : ∀ a ∈ h.created, a ∈ h.deleted ↔ h.pointers a = 0
  once : h.deleted.Nodup

/-- One reference to `x` is counted although no handle holds it. -/
def owed (x : Option α) (a : α) : Nat := if x = some a then 1 else 0

/-- What holds inside the operations: `x` has been acquired, or made, and no handle has it yet. -/
structure Owes (x : Option α) (h : RcHeap κ α) : Prop where
  distinct : h.handles.Nodup
  counted : ∀ a ∈ h.created, a ∉ h.deleted → h.cptUse a + 1 = h.pointers a + owed x a
  valid : ∀ k ∈ h.handles, ∀ a ∈ h.data k, a ∈ h.created ∧ a ∉ h.deleted
  gone : ∀ a ∈ h.deleted, a ∈ h.created
  once : h.deleted.Nodup
  due : ∀ a ∈ x, a ∈ h.created ∧ a ∉ h.deleted

theorem pointers_pos_iff {h : RcHeap κ α} {a : α} :
    0 < h.pointers a ↔ ∃ k ∈ h.handles, h.data k = some a := by
  simp [pointers, census, List.countP_pos_iff]

theorem Owes.new : (new : RcHeap κ α).Owes none where
  distinct := List.nodup_nil
  counted := by simp [RcHeap.new]
  valid := by simp [RcHeap.new]
  gone := by simp [RcHeap.new]
  once := List.nodup_nil
  due := by simp

/-- Between the operations nothing is owed. -/
theorem Owes.exact {h : RcHeap κ α} (ho : h.Owes none) : h.Exact where
  counted a ha hd := by simpa [owed] using ho.counted a ha hd
  valid := ho.valid
  last a ha := by
    constructor
    · intro hd
      by_contra hp
      obtain ⟨k, hk, hka⟩ := pointers_pos_iff.mp (Nat.pos_of_ne_zero hp)
      exact (ho.valid k hk a hka).2 hd
    · intro hp
      by_contra hd
      have hc := ho.counted a ha hd
      simp [owed, hp] at hc
  once := ho.once

/-- An object that has been made counts as acquired. -/
theorem Owes.create {h : RcHeap κ α} (ho : h.Owes none) {obj : Option α} (hf : h.Fresh obj) :
    (h.create obj).Owes obj := by
  cases obj with
  | none => exact ho
  | some b =>
    have hb : b ∉ h.created := hf b rfl
    have hp : h.pointers b = 0 := by
      by_contra hp
      obtain ⟨k, hk, hkb⟩ := pointers_pos_iff.mp (Nat.pos_of_ne_zero hp)
      exact hb (ho.valid k hk b hkb).1
    refine ⟨ho.distinct, ?_, ?_, ?_, ho.once, ?_⟩
    · intro a ha hd
      change Function.update h.cptUse b 0 a + 1 = h.pointers a + owed (some b) a
      rcases List.mem_append.mp ha with ha | ha
      · have hab : a ≠ b := fun e => hb (e ▸ ha)
        have hc := ho.counted a ha hd
        rw [Function.update_of_ne hab]
        simpa [owed, Ne.symm hab] using hc
      · cases List.mem_singleton.mp ha
        simp [owed, hp]
    · intro k hk a ha
      exact ⟨List.mem_append_left _ (ho.valid k hk a ha).1, (ho.valid k hk a ha).2⟩
    · exact fun a ha => List.mem_append_left _ (ho.gone a ha)
    · intro a ha
      cases ha
      exact ⟨List.mem_append_right _ List.mem_cons_self, fun hd => hb (ho.gone _ hd)⟩

/-- Acquiring the target of a handle. -/
theorem Owes.acquire {h : RcHeap κ α} (ho : h.Owes none) {k : κ} (hk : k ∈ h.handles) :
    (h.acquire (h.data k)).Returns fun h' => h'.Owes (h.data k) ∧ h'.data = h.data ∧
      h'.handles = h.handles := by
  cases hx : h.data k with
  | none => exact ⟨ho, rfl, rfl⟩
  | some b =>
    obtain ⟨hb, hd⟩ := ho.valid k hk b hx
    simp only [RcHeap.acquire, hd, if_false]
    refine ⟨⟨ho.distinct, ?_, ho.valid, ho.gone, ho.once, ?_⟩, rfl, rfl⟩
    · intro a ha hda
      have hc := ho.counted a ha hda
      change Function.update h.cptUse b (h.cptUse b + 1) a + 1 = h.pointers a + owed (some b) a
      by_cases hab : a = b
      · subst hab
        simpa [owed] using hc
      · rw [Function.update_of_ne hab]
        simpa [owed, Ne.symm hab] using hc
    · intro a ha
      cases ha
      exact ⟨hb, hd⟩

variable [DecidableEq κ]

theorem pointers_setData {h : RcHeap κ α} {k : κ} (hn : h.handles.Nodup) (hk : k ∈ h.handles)
    (x : Option α) (a : α) :
    (h.setData k x).pointers a + owed (h.data k) a = h.pointers a + owed x a := by
  have h1 : census (· == some a) h.handles (Function.update h.data k x) +
      (if (h.data k == some a) = true then 1 else 0) =
        census (· == some a) h.handles h.data + if (x == some a) = true then 1 else 0 :=
    census_update hn hk
  simpa [pointers, owed, setData] using h1

theorem pointers_enter {h : RcHeap κ α} {k : κ} (hk : k ∉ h.handles) (x : Option α) (a : α) :
    (h.enter k x).pointers a = h.pointers a + owed x a := by
  have h1 : census (· == some a) h.handles (Function.update h.data k x) =
      census (· == some a) h.handles h.data := census_update_of_notMem hk
  simp [pointers, enter, setData, census_cons, h1, owed]

/-- A handle that holds the reference that was owed. -/
theorem Owes.enter {h : RcHeap κ α} {x : Option α} (ho : h.Owes x) (hk : k ∉ h.handles) :
    (h.enter k x).Owes none where
  distinct := List.nodup_cons.mpr ⟨hk, ho.distinct⟩
  counted a ha hd := by
    rw [pointers_enter hk]
    exact ho.counted a ha hd
  valid j hj a ha := by
    rcases List.mem_cons.mp hj with rfl | hj
    · exact ho.due a (by simpa [RcHeap.enter, setData] using ha)
    · have hjk : j ≠ k := fun e => hk (e ▸ hj)
      exact ho.valid j hj a (by simpa [RcHeap.enter, setData, hjk] using ha)
  gone := ho.gone
  once := ho.once
  due := by simp

/-- What a handle points to once it has been given another target. -/
theorem Owes.valid_setData {h : RcHeap κ α} {x : Option α} (ho : h.Owes x) (k : κ) :
    ∀ j ∈ h.handles, ∀ a ∈ (h.setData k x).data j, a ∈ h.created ∧ a ∉ h.deleted := by
  intro j hj a ha
  by_cases hjk : j = k
  · subst hjk
    exact ho.due a (by simpa [setData] using ha)
  · exact ho.valid j hj a (by simpa [setData, hjk] using ha)

/-- There was no old target. -/
theorem Owes.take {h : RcHeap κ α} {x : Option α} (ho : h.Owes x) {k : κ} (hk : k ∈ h.handles)
    (hx : h.data k = none) : (h.setData k x).Owes none where
  distinct := ho.distinct
  counted a ha hd := by
    have hc := ho.counted a ha hd
    have hp := pointers_setData ho.distinct hk x a
    simp only [hx, owed, reduceCtorEq, if_false] at hp hc ⊢
    change h.cptUse a + 1 = _
    omega
  valid := ho.valid_setData k
  gone := ho.gone
  once := ho.once
  due := by simp

/-- Other references to the old target remain. -/
theorem Owes.drop {h : RcHeap κ α} {x : Option α} (ho : h.Owes x) {k : κ} (hk : k ∈ h.handles)
    (hx : h.data k = some b) (hz : h.cptUse b ≠ 0) :
    ((h.setCptUse b (h.cptUse b - 1)).setData k x).Owes none where
  distinct := ho.distinct
  counted a ha hd := by
    have hc := ho.counted a ha hd
    have hp := pointers_setData ho.distinct hk x a
    change Function.update h.cptUse b (h.cptUse b - 1) a + 1 =
      (h.setData k x).pointers a + owed none a
    simp only [hx, owed, Option.some.injEq, reduceCtorEq, if_false] at hp hc ⊢
    by_cases hab : a = b
    · subst hab
      simp only [Function.update_self, if_true] at hp ⊢
      omega
    · simp only [Function.update_of_ne hab, Ne.symm hab, if_false] at hp ⊢
      omega
  valid := ho.valid_setData k
  gone := ho.gone
  once := ho.once
  due := by simp

/-- The handle was the last one of its object. -/
theorem Owes.pointers_eq_zero {h : RcHeap κ α} {x : Option α} (ho : h.Owes x) {k : κ}
    (hk : k ∈ h.handles) (hx : h.data k = some b) (hz : h.cptUse b = 0) :
    (h.setData k x).pointers b = 0 := by
  obtain ⟨hb, hd⟩ := ho.valid k hk b hx
  have hc := ho.counted b hb hd
  have hp := pointers_setData ho.distinct hk x b
  simp only [hx, owed, if_true] at hp hc
  omega

theorem Owes.end {h : RcHeap κ α} {x : Option α} (ho : h.Owes x) {k : κ} (hk : k ∈ h.handles)
    (hx : h.data k = some b) (hz : h.cptUse b = 0) :
    ({ h with deleted := h.deleted ++ [b] }.setData k x).Owes none where
  distinct := ho.distinct
  counted a ha hd := by
    have hab : a ≠ b := fun e => hd (List.mem_append_right _ (by simp [e]))
    have hc := ho.counted a ha fun he => hd (List.mem_append_left _ he)
    have hp := pointers_setData ho.distinct hk x a
    simp only [hx, owed, Option.some.injEq, Ne.symm hab, reduceCtorEq, if_false] at hp hc ⊢
    change h.cptUse a + 1 = (h.setData k x).pointers a + 0
    omega
  valid j hj a ha := by
    obtain ⟨hac, had⟩ := ho.valid_setData k j hj a ha
    refine ⟨hac, fun he => ?_⟩
    rcases List.mem_append.mp he with he | he
    · exact had he
    · cases List.mem_singleton.mp he
      have hpos : 0 < (h.setData k x).pointers b := pointers_pos_iff.mpr ⟨j, hj, ha⟩
      rw [ho.pointers_eq_zero hk hx hz] at hpos
      exact Nat.lt_irrefl 0 hpos
  gone a ha := by
    rcases List.mem_append.mp ha with ha | ha
    · exact ho.gone a ha
    · exact List.mem_singleton.mp ha ▸ (ho.valid k hk b hx).1
  once := by
    have hd : b ∉ h.deleted := (ho.valid k hk b hx).2
    refine List.nodup_append.mpr ⟨ho.once, by simp, ?_⟩
    intro a ha c hc e
    exact hd (List.mem_singleton.mp hc ▸ e ▸ ha)
  due := by simp

/-- The handle gives back its old target and takes the reference that was owed, whether this is
the same object or another one. -/
theorem Owes.release {h : RcHeap κ α} {x : Option α} (ho : h.Owes x) {k : κ}
    (hk : k ∈ h.handles) :
    (h.release k).Returns fun h' => (h'.setData k x).Owes none ∧ h'.data = h.data ∧
      h'.handles = h.handles := by
  cases hx : h.data k with
  | none =>
    simp only [RcHeap.release, hx]
    exact ⟨ho.take hk hx, rfl, rfl⟩
  | some b =>
    have hd : b ∉ h.deleted := (ho.valid k hk b hx).2
    by_cases hz : h.cptUse b = 0
    · simp only [RcHeap.release, hx, hd, if_false, hz, ne_eq, not_true, RcHeap.delete]
      exact ⟨ho.end hk hx hz, rfl, rfl⟩
    · simp only [RcHeap.release, hx, hd, if_false, hz, ne_eq, not_false_eq_true, if_true]
      exact ⟨ho.drop hk hx hz, rfl, rfl⟩

/-- A handle that no longer is one. -/
theorem Owes.leave {h : RcHeap κ α} {k : κ} (ho : (h.setData k none).Owes none)
    (hk : k ∈ h.handles) : ({ h with handles := h.handles.erase k } : RcHeap κ α).Owes none where
  distinct := ho.distinct.erase k
  counted a ha hd := by
    have hc : h.cptUse a + 1 = (h.setData k none).pointers a + owed none a := ho.counted a ha hd
    have hnot : k ∉ h.handles.erase k := List.Nodup.not_mem_erase ho.distinct
    have h1 : (h.setData k none).pointers a =
        census (· == some a) (h.handles.erase k) (Function.update h.data k none) := by
      have he : census (· == some a) (h.handles.erase k) (Function.update h.data k none) +
          (if (Function.update h.data k none k == some a) = true then 1 else 0) =
            (h.setData k none).pointers a := census_erase hk
      simpa using he.symm
    rw [h1, census_update_of_notMem hnot] at hc
    exact hc
  valid j hj a ha := by
    have hjk : j ≠ k := fun e => List.Nodup.not_mem_erase ho.distinct (e ▸ hj)
    exact ho.valid j (List.mem_of_mem_erase hj) a (by simpa [setData, hjk] using ha)
  gone := ho.gone
  once := ho.once
  due := by simp

/-- A target that moves from one handle to another, or to itself: what is lost is the old target
of the first one. -/
theorem pointers_move {h : RcHeap κ α} {k j : κ} (hn : h.handles.Nodup) (hk : k ∈ h.handles)
    (hj : j ∈ h.handles) (a : α) :
    ((h.setData k (h.data j)).setData j none).pointers a + owed (h.data k) a = h.pointers a := by
  have h1 := pointers_setData hn hk (h.data j) a
  have h2 := pointers_setData (h := h.setData k (h.data j)) hn hj none a
  have hs : (h.setData k (h.data j)).data j = h.data j := by
    by_cases hjk : j = k
    · simp [setData, hjk]
    · simp [setData, hjk]
  rw [hs] at h2
  simp only [owed, reduceCtorEq, if_false] at h1 h2 ⊢
  omega

theorem Owes.move {h : RcHeap κ α} (ho : h.Owes none) {k j : κ} (hk : k ∈ h.handles)
    (hj : j ∈ h.handles) (hx : h.data k = none) :
    ((h.setData k (h.data j)).setData j none).Owes none where
  distinct := ho.distinct
  counted a ha hd := by
    have hm := pointers_move ho.distinct hk hj a
    have hc := ho.counted a ha hd
    simp only [hx, owed, reduceCtorEq, if_false] at hm hc ⊢
    change h.cptUse a + 1 = _
    omega
  valid i hi a ha := by
    by_cases hij : i = j
    · simp [setData, hij] at ha
    by_cases hik : i = k
    · subst hik
      exact ho.valid j hj a (by simpa [setData, hij] using ha)
    · exact ho.valid i hi a (by simpa [setData, hij, hik] using ha)
  gone := ho.gone
  once := ho.once
  due := by simp

/-- What the move-assignments and `clear` ask for: the handle assigned to has no target that
would be lost, and no other handle refers to the object that is cleared. -/
def Releases (h : RcHeap κ α) : Op κ α → Prop
  | .assignMove k _ => h.data k = none
  | .clear k => ∀ a ∈ h.data k, h.cptUse a = 0
  | _ => True

theorem Owes.enter_null {h : RcHeap κ α} (ho : h.Owes none) {k : κ} (hk : k ∉ h.handles) :
    (h.enter k none).Owes none := ho.enter hk

theorem Owes.constructCopy {h : RcHeap κ α} (ho : h.Owes none) {k j : κ} (hk : k ∉ h.handles)
    (hj : j ∈ h.handles) : (h.constructCopy k j).Returns (Owes none) := by
  have hjk : j ≠ k := fun e => hk (e ▸ hj)
  have ha := ho.acquire hj
  have hd : (h.enter k (h.data j)).data k = h.data j := by simp [RcHeap.enter, setData]
  simp only [RcHeap.constructCopy, hd]
  cases hx : h.data j with
  | none =>
    rw [hx] at ha
    exact ho.enter hk
  | some b =>
    have hb : b ∉ h.deleted := (ho.valid j hj b hx).2
    simp only [hx, RcHeap.acquire, hb, if_false] at ha
    have hb' : b ∉ (h.enter k (some b)).deleted := hb
    simp only [RcHeap.acquire, hb', if_false]
    exact ha.1.enter hk

theorem Owes.assignMove {h : RcHeap κ α} (ho : h.Owes none) {k j : κ} (hk : k ∈ h.handles)
    (hj : j ∈ h.handles) : (h.assignMove k j).Returns Exact ↔ h.data k = none := by
  refine ⟨fun he => ?_, fun hx => (ho.move hk hj hx).exact⟩
  by_contra hx
  obtain ⟨b, hb⟩ := Option.ne_none_iff_exists'.mp hx
  obtain ⟨hbc, hbd⟩ := ho.valid k hk b hb
  have hm := pointers_move ho.distinct hk hj b
  have hc := ho.counted b hbc hbd
  have hc' : h.cptUse b + 1 = ((h.setData k (h.data j)).setData j none).pointers b :=
    he.counted b hbc hbd
  simp only [hb, owed, reduceCtorEq, if_true, if_false] at hm hc
  omega

theorem Owes.clear {h : RcHeap κ α} (ho : h.Owes none) {k : κ} (hk : k ∈ h.handles) :
    (h.clear k).Returns Exact ↔ ∀ a ∈ h.data k, h.cptUse a = 0 := by
  cases hx : h.data k with
  | none =>
    simp only [RcHeap.clear, hx]
    refine ⟨fun _ a ha => ?_, fun _ => ho.exact⟩
    cases ha
  | some b =>
    obtain ⟨hbc, hbd⟩ := ho.valid k hk b hx
    simp only [RcHeap.clear, hx, RcHeap.delete, hbd, if_false]
    constructor
    · intro he a ha
      cases ha
      have hz : ({ h with deleted := h.deleted ++ [b] }.setData k none).pointers b = 0 :=
        (he.last b hbc).mp (List.mem_append_right _ List.mem_cons_self)
      have hp := pointers_setData ho.distinct hk none b
      have hc := ho.counted b hbc hbd
      change (h.setData k none).pointers b = 0 at hz
      simp only [hx, owed, reduceCtorEq, if_true, if_false] at hp hc
      omega
    · exact fun hz => (ho.end hk hx (hz b rfl)).exact

theorem Owes.constructMove {h : RcHeap κ α} (ho : h.Owes none) {k j : κ} (hk : k ∉ h.handles)
    (hj : j ∈ h.handles) : (h.constructMove k j).Returns (Owes none) := by
  have hjk : j ≠ k := fun e => hk (e ▸ hj)
  have hkd : (h.enter k none).data k = none := by simp [RcHeap.enter, setData]
  have hm := (ho.enter_null hk).move (k := k) (j := j) List.mem_cons_self
    (List.mem_cons_of_mem k hj) hkd
  simpa [RcHeap.constructMove, RcHeap.enter, setData, hjk] using hm

theorem Owes.assignCopy {h : RcHeap κ α} (ho : h.Owes none) {k j : κ} (hk : k ∈ h.handles)
    (hj : j ∈ h.handles) : (h.assignCopy k j).Returns (Owes none) := by
  rw [RcHeap.assignCopy, Exec.returns_andThen]
  refine (ho.acquire hj).mono ?_
  rintro h1 ⟨ho1, hd1, hh1⟩
  rw [Exec.returns_map]
  refine (ho1.release (hh1 ▸ hk)).mono ?_
  rintro h2 ⟨ho2, hd2, _⟩
  rwa [hd2, hd1]

/-- Between the operations nothing is owed, and only the move-assignments and `clear` can get
the counts wrong. -/
theorem Owes.call {h : RcHeap κ α} (ho : h.Owes none) {o : Op κ α} (hp : h.Possible o)
    (hr : h.Releases o) : (h.call o).Returns (Owes none) := by
  cases o with
  | construct k => exact ho.enter_null hp
  | constructObj k obj => exact (ho.create hp.2).enter (by cases obj <;> exact hp.1)
  | constructMove k j => exact ho.constructMove hp.1 hp.2
  | constructCopy k j => exact ho.constructCopy hp.1 hp.2
  | destroy k =>
    rw [RcHeap.call, RcHeap.destroy, Exec.returns_map]
    refine (ho.release hp).mono ?_
    rintro h1 ⟨ho1, _, hh1⟩
    exact ho1.leave (hh1 ▸ hp)
  | assignObj k obj =>
    have hk : k ∈ (h.create obj).handles := by cases obj <;> exact hp.1
    rw [RcHeap.call, RcHeap.assignObj, Exec.returns_map]
    exact ((ho.create hp.2).release hk).mono fun h1 h => h.1
  | assignCopy k j => exact ho.assignCopy hp.1 hp.2
  | assignMove k j => exact ho.move hp.1 hp.2 hr
  | clear k =>
    rw [RcHeap.call, RcHeap.clear]
    cases hx : h.data k with
    | none => exact ho
    | some b =>
      have hd : b ∉ h.deleted := (ho.valid k hp b hx).2
      simp only [RcHeap.delete, hd, if_false]
      exact ho.end hp hx (hr b hx)

theorem Owes.call_iff {h : RcHeap κ α} (ho : h.Owes none) {o : Op κ α} (hp : h.Possible o) :
    (h.call o).Returns Exact ↔ h.Releases o := by
  refine ⟨fun he => ?_, fun hr => (ho.call hp hr).mono fun _ => Owes.exact⟩
  cases o with
  | assignMove k j => exact (ho.assignMove hp.1 hp.2).mp he
  | clear k => exact (ho.clear hp).mp he
  | _ => trivial

/-- The operation, if it is a possible one, releases what it has to. -/
def Careful (e : Exec (RcHeap κ α)) (o : Op κ α) : Prop :=
  e.Returns fun h => h.Possible o → h.Releases o

theorem step_iff {e : Exec (RcHeap κ α)} (he : e.Returns (Owes none)) (o : Op κ α) :
    (step e o).Returns Exact ↔ Careful e o := by
  obtain ⟨h, rfl, ho⟩ := he.exists
  by_cases hp : h.Possible o
  · simpa [step, Exec.andThen, Careful, hp] using ho.call_iff hp
  · simpa [step, Exec.andThen, Careful, hp] using ho.exact

theorem step_owes {e : Exec (RcHeap κ α)} (he : e.Returns (Owes none)) {o : Op κ α}
    (hc : Careful e o) : (step e o).Returns (Owes none) := by
  obtain ⟨h, rfl, ho⟩ := he.exists
  by_cases hp : h.Possible o
  · simpa [step, Exec.andThen, hp] using ho.call hp (hc hp)
  · simpa [step, Exec.andThen, hp] using ho

/-- The counts are exact in every state of a run if and only if no handle that points somewhere is
move-assigned to and `clear` is only called on the last handle of an object. -/
theorem counts_exact_iff (os : List (Op κ α)) :
    (∀ n, (run step (.ret new) (os.take n)).Returns Exact) ↔
      Along step Careful (.ret new) os :=
  along_observed_iff (Exec.Returns (Owes none)) (Exec.Returns Exact)
    (fun _ o he _ => step_iff he o) (fun _ _ he _ hc => step_owes he hc) Owes.new Owes.new.exact

/-- A handle that is move-assigned to while it holds the only reference to an object: the object
stays, with no handle. -/
theorem move_assign_leaks :
    ¬ ∀ n, (run step (.ret new) (([.constructObj 0 (some 0), .construct 1, .assignMove 0 1] :
      List (Op Nat Nat)).take n)).Returns Exact := by
  intro h
  have he := (h 3).counted 0 (by decide) (by decide)
  revert he
  decide

end RcHeap
end Evel
