import Evel.General.Threads
import Evel.Model.WheelMemory

namespace Evel.ExpIndexed
open General

namespace Memory
variable {T : Type u}

/-- The links in memory, where each list starts at `root` and behind `back`. -/
def seen (m : Memory T) (root back : Bucket → Option T) : Links T Bucket :=
  { root := root
    back := back
    home := fun x => (m.items x).lst
    prev := fun x => (m.items x).prev
    next := fun x => (m.items x).next }

/-- What the list-level model keeps of an item. -/
def data (m : Memory T) (x : T) : ItemData := ⟨(m.items x).lst, (m.items x).offset⟩

/-- The lists `L` are linked in memory, between items that are there. -/
structure Held (m : Memory T) (root back : Bucket → Option T) (L : Bucket → List T) : Prop where
  links : (m.seen root back).Holds L
  alive : ∀ b, ∀ x ∈ L b, m.alive x = true

/-- Links are all that differs. -/
structure Relinked (m m' : Memory T) : Prop where
  offset : m'.offset = m.offset
  curList : m'.curList = m.curList
  alive : m'.alive = m.alive
  script : m'.script = m.script
  log : m'.log = m.log

theorem Relinked.rfl {m : Memory T} : Relinked m m := ⟨.refl _, .refl _, .refl _, .refl _, .refl _⟩

theorem Relinked.trans {m m' m'' : Memory T} (h : Relinked m m') (h' : Relinked m' m'') :
    Relinked m m'' :=
  ⟨h'.offset.trans h.offset, h'.curList.trans h.curList, h'.alive.trans h.alive,
    h'.script.trans h.script, h'.log.trans h.log⟩

@[simp] theorem setHead_items (m : Memory T) (b : Bucket) (p : Option T) :
    (m.setHead b p).items = m.items := rfl
@[simp] theorem setHead_subLists (m : Memory T) (b : Bucket) (p : Option T) :
    (m.setHead b p).subLists = Function.update m.subLists b p := rfl
@[simp] theorem setHead_alive (m : Memory T) (b : Bucket) (p : Option T) :
    (m.setHead b p).alive = m.alive := rfl

theorem setHead_relinked (m : Memory T) (b : Bucket) (p : Option T) : Relinked m (m.setHead b p) :=
  ⟨rfl, rfl, rfl, rfl, rfl⟩

variable [DecidableEq T] {m : Memory T} {root back : Bucket → Option T} {L : Bucket → List T}

@[simp] theorem setItem_items (m : Memory T) (x : T) (d : Node T) :
    (m.setItem x d).items = Function.update m.items x d := rfl
@[simp] theorem setItem_subLists (m : Memory T) (x : T) (d : Node T) :
    (m.setItem x d).subLists = m.subLists := rfl
@[simp] theorem setItem_alive (m : Memory T) (x : T) (d : Node T) :
    (m.setItem x d).alive = m.alive := rfl

@[simp] theorem setLst_items (m : Memory T) (x : T) (b : Option Bucket) :
    (m.setLst x b).items = Function.update m.items x { m.items x with lst := b } := rfl
@[simp] theorem setLst_alive (m : Memory T) (x : T) (b : Option Bucket) :
    (m.setLst x b).alive = m.alive := rfl
@[simp] theorem setLst_curList (m : Memory T) (x : T) (b : Option Bucket) :
    (m.setLst x b).curList = m.curList := rfl
@[simp] theorem setLst_subLists (m : Memory T) (x : T) (b : Option Bucket) :
    (m.setLst x b).subLists = m.subLists := rfl

/-- When one item gets another list, the others keep theirs, and all keep their date. -/
theorem lst_link {m' : Memory T} (h : m'.data = link m.data x lst) (y : T) :
    (m'.items y).lst = if y = x then lst else (m.items y).lst := by
  have hy := congrArg ItemData.lst (congrFun h y)
  by_cases hyx : y = x
  · subst hyx
    simpa [data, link] using hy
  · simpa [data, link, hyx] using hy

theorem offset_link {m' : Memory T} (h : m'.data = link m.data x lst) (y : T) :
    (m'.items y).offset = (m.items y).offset := by
  have hy := congrArg ItemData.offset (congrFun h y)
  by_cases hyx : y = x
  · subst hyx
    simpa [data, link] using hy
  · simpa [data, link, hyx] using hy

/-- An item that is moved from one bucket to another is in a list before and after. -/
theorem listed_link {m₁ m₂ : Memory T} (h₁ : m₁.data = link m.data x none)
    (h₂ : m₂.data = link m₁.data x (some c)) (hx : (m.items x).lst = some b) (y : T) :
    (m₂.items y).lst = none ↔ (m.items y).lst = none := by
  rw [lst_link h₂ y, lst_link h₁ y]
  by_cases hy : y = x
  · subst hy
    simp [hx]
  · simp [hy]

theorem setItem_relinked (m : Memory T) (x : T) (d : Node T) : Relinked m (m.setItem x d) :=
  ⟨rfl, rfl, rfl, rfl, rfl⟩

/-- A new due tick leaves the links as they are. -/
theorem dated_seen (m : Memory T) (x : T) (index : Nat) (root back : Bucket → Option T) :
    (m.dated x index).seen root back = m.seen root back := by
  simp only [seen, Links.mk.injEq, dated, setItem_items, true_and]
  refine ⟨?_, ?_, ?_⟩ <;> funext y <;> by_cases hy : y = x <;> simp [hy]

theorem Held.dated (h : m.Held root back L) (x : T) (index : Nat) :
    (m.dated x index).Held root back L := by
  refine ⟨?_, h.alive⟩
  rw [dated_seen]
  exact h.links

theorem dated_data (m : Memory T) (x y : T) (index : Nat) : (m.dated x index).data y =
    if y = x then ⟨(m.items x).lst, (m.offset + index) % sizeMod⟩ else m.data y := by
  by_cases hy : y = x <;> simp [Memory.dated, data, hy]

/-- What `push` writes. -/
theorem push_writes (b : Bucket) (x : T) (root back : Bucket → Option T)
    (hroot : root b = m.subLists b) (hfirst : ∀ y, m.subLists b = some y → m.alive y = true) :
    (m.push b x).Returns fun m' =>
      m'.seen (Function.update root b (some x)) back = (m.seen root back).push b x ∧
      m'.subLists = Function.update m.subLists b (some x) ∧
      m'.data = link m.data x (some b) ∧ Relinked m m' := by
  cases hb : m.subLists b with
  | none =>
    simp only [push, hb, Exec.map, Exec.returns_ret]
    refine ⟨?_, rfl, ?_, ⟨rfl, rfl, rfl, rfl, rfl⟩⟩
    · simp only [seen, Links.push, hroot, hb, setHead_items, setItem_items, Links.mk.injEq,
        true_and]
      refine ⟨?_, ?_, ?_⟩ <;> funext y <;> by_cases hy : y = x <;> simp [hy]
    · funext y
      by_cases hy : y = x <;> simp [data, link, hy]
  | some first =>
    simp only [push, hb, setPrev, hfirst first hb, ↓reduceIte, Exec.map, Exec.returns_ret]
    refine ⟨?_, rfl, ?_, ⟨rfl, rfl, rfl, rfl, rfl⟩⟩
    · simp only [seen, Links.push, hroot, hb, setHead_items, setItem_items, Links.mk.injEq,
        true_and]
      refine ⟨?_, ?_, ?_⟩ <;> funext y <;> by_cases hy : y = x <;> by_cases hf : y = first <;>
        simp_all
    · funext y
      by_cases hy : y = x <;> by_cases hf : y = first <;> simp_all [data, link]

/-- What `bridge` writes: the links that cross the item. -/
theorem bridge_writes (b : Bucket) (x : T)
    (hprev : ∀ y, (m.items x).prev = some y → y ≠ x ∧ m.alive y = true)
    (hnext : ∀ y, (m.items x).next = some y → y ≠ x ∧ m.alive y = true) :
    (m.bridge b x).Returns fun m' =>
      (∀ y, (m'.items y).lst = (m.items y).lst ∧ (m'.items y).offset = (m.items y).offset) ∧
      (fun y => (m'.items y).prev) = (match (m.items x).next with
        | some after => Function.update (fun y => (m.items y).prev) after (m.items x).prev
        | none => fun y => (m.items y).prev) ∧
      (fun y => (m'.items y).next) = (match (m.items x).prev with
        | some before => Function.update (fun y => (m.items y).next) before (m.items x).next
        | none => fun y => (m.items y).next) ∧
      m'.subLists = (if (m.items x).prev.isNone then
        Function.update m.subLists b (m.items x).next else m.subLists) ∧
      Relinked m m' := by
  cases hp : (m.items x).prev with
  | none =>
    cases hn : (m.items x).next with
    | none =>
      simp only [bridge, hp, hn, Exec.andThen, setHead_items, Exec.returns_ret]
      exact ⟨by simp, trivial, trivial, rfl, setHead_relinked m b none⟩
    | some after =>
      obtain ⟨hne, halive⟩ := hnext after hn
      simp only [bridge, hp, hn, Exec.andThen, setHead_items, setPrev, setHead_alive, halive,
        ↓reduceIte, Exec.returns_ret]
      refine ⟨fun y => ?_, ?_, ?_, rfl, ⟨rfl, rfl, rfl, rfl, rfl⟩⟩
      · by_cases hy : y = after <;> simp [hy]
      · funext y
        by_cases hy : y = after <;> simp [hy]
      · funext y
        by_cases hy : y = after <;> simp [hy]
  | some before =>
    obtain ⟨hne, halive⟩ := hprev before hp
    have hkeep : (m.setItem before { m.items before with next := (m.items x).next }).items x =
        m.items x := Function.update_of_ne (Ne.symm hne) _ _
    cases hn : (m.items x).next with
    | none =>
      rw [hn] at hkeep
      simp only [bridge, hp, hn, setNext, halive, ↓reduceIte, Exec.andThen, hkeep,
        Exec.returns_ret]
      refine ⟨fun y => ?_, ?_, ?_, rfl, setItem_relinked m before _⟩
      · by_cases hy : y = before <;> simp [hy]
      · funext y
        by_cases hy : y = before <;> simp [hy]
      · funext y
        by_cases hy : y = before <;> simp [hy]
    | some after =>
      obtain ⟨hne', halive'⟩ := hnext after hn
      rw [hn] at hkeep
      simp only [bridge, hp, hn, setNext, halive, ↓reduceIte, Exec.andThen, hkeep, setPrev,
        setItem_alive, halive', Exec.returns_ret]
      refine ⟨fun y => ?_, ?_, ?_, rfl, ⟨rfl, rfl, rfl, rfl, rfl⟩⟩
      · by_cases hy : y = after <;> by_cases hy' : y = before <;> simp_all
      · funext y
        by_cases hy : y = after <;> by_cases hy' : y = before <;> simp_all
      · funext y
        by_cases hy : y = after <;> by_cases hy' : y = before <;> simp_all

/-- An item that is in no list becomes the first one of a bucket that is not walked. -/
theorem Held.push (h : m.Held root back L) (hx : (m.items x).lst = none)
    (ha : m.alive x = true) (hback : back b = none) (hroot : root b = m.subLists b) :
    (m.push b x).Returns fun m' =>
      m'.Held (Function.update root b (some x)) back (Function.update L b (x :: L b)) ∧
      m'.subLists = Function.update m.subLists b (some x) ∧
      m'.data = link m.data x (some b) ∧ Relinked m m' := by
  have hfirst : ∀ y, m.subLists b = some y → m.alive y = true := by
    intro y hy
    have hr := h.links.root b
    refine h.alive b y (List.mem_of_mem_head? ?_)
    rw [← hr]
    exact hroot.trans hy
  refine (push_writes b x root back hroot hfirst).mono ?_
  intro m' hm'
  obtain ⟨hseen, hsub, hdata, hrel⟩ := hm'
  refine ⟨⟨?_, fun c y hy => ?_⟩, hsub, hdata, hrel⟩
  · rw [hseen]
    exact h.links.push hx hback
  · rw [hrel.alive]
    by_cases hc : c = b
    · subst hc
      rcases List.mem_cons.mp (by simpa using hy) with rfl | hy
      · exact ha
      · exact h.alive c y hy
    · exact h.alive c y (by simpa [hc] using hy)

omit [DecidableEq T] in
/-- Only the first member of a list has no predecessor. -/
theorem Held.first_iff (h : m.Held root back L) (hb : L b = as ++ x :: cs)
    (hback : as = [] → back b = none) : (m.items x).prev = none ↔ as = [] := by
  have hprev : (m.items x).prev = as.getLast?.or (back b) := (h.links.around hb).1
  rw [hprev]
  rcases List.eq_nil_or_concat as with rfl | ⟨as', z, rfl⟩
  · simp [hback rfl]
  · simp

omit [DecidableEq T] in
/-- The neighbours of a member are other members. -/
theorem Held.neighbours (h : m.Held root back L) (hb : L b = as ++ x :: cs)
    (hback : as = [] → back b = none) :
    (∀ y, (m.items x).prev = some y → y ≠ x ∧ m.alive y = true) ∧
      ∀ y, (m.items x).next = some y → y ≠ x ∧ m.alive y = true := by
  obtain ⟨hprev, hnext⟩ := h.links.around hb
  obtain ⟨-, -, hxas, hxcs, -⟩ := h.links.apart hb
  have hprev : (m.items x).prev = as.getLast?.or (back b) := hprev
  have hnext : (m.items x).next = cs.head? := hnext
  refine ⟨fun y hy => ?_, fun y hy => ?_⟩
  · have hm : y ∈ as := by
      rcases List.eq_nil_or_concat as with rfl | ⟨as', z, rfl⟩
      · simp [hprev, hback rfl] at hy
      · rw [hprev] at hy
        have hz : z = y := by simpa using hy
        simp [hz]
    exact ⟨fun he => hxas (he ▸ hm), h.alive b y (by simp [hb, hm])⟩
  · have hm : y ∈ cs := List.mem_of_mem_head? (hnext ▸ hy)
    exact ⟨fun he => hxcs (he ▸ hm), h.alive b y (by simp [hb, hm])⟩

/-- How the heads change when a member leaves: only the first one was known to its head. -/
def headAfter (as : List T) (b : Bucket) (cs : List T) (heads : Bucket → Option T) :
    Bucket → Option T :=
  if as = [] then Function.update heads b cs.head? else heads

/-- What is left of the lists when a member leaves, whether its `lst` is reset before its
neighbours are joined or after. -/
theorem Held.leave (h : m.Held root back L) (hb : L b = as ++ x :: cs)
    (hback : as = [] → back b = none) {m' : Memory T}
    (hlst : ∀ y, (m'.items y).lst = if y = x then none else (m.items y).lst)
    (hprev : (fun y => (m'.items y).prev) = (match (m.items x).next with
      | some after => Function.update (fun y => (m.items y).prev) after (m.items x).prev
      | none => fun y => (m.items y).prev))
    (hnext : (fun y => (m'.items y).next) = (match (m.items x).prev with
      | some before => Function.update (fun y => (m.items y).next) before (m.items x).next
      | none => fun y => (m.items y).next))
    (halive : m'.alive = m.alive) :
    m'.Held (headAfter as b cs root) back (Function.update L b (as ++ cs)) := by
  obtain ⟨-, hn⟩ := h.links.around hb
  have hn : (m.items x).next = cs.head? := hn
  have hfirst := h.first_iff hb hback
  have hseen : m'.seen (headAfter as b cs root) back = (m.seen root back).remove b x := by
    simp only [seen, Links.remove, Links.mk.injEq, true_and]
    refine ⟨?_, ?_, hprev, hnext⟩
    · simp only [headAfter, Option.isNone_iff_eq_none, hfirst, hn]
    · funext y
      rw [hlst y]
      by_cases hy : y = x <;> simp [hy]
  refine ⟨?_, fun c y hy => ?_⟩
  · rw [hseen]
    exact h.links.remove hb hback
  · rw [halive]
    refine h.alive c y ?_
    by_cases hc : c = b
    · subst hc
      rw [hb]
      rw [Function.update_self, List.mem_append] at hy
      simp only [List.mem_append, List.mem_cons]
      tauto
    · simpa [hc] using hy

omit [DecidableEq T] in
/-- Only the member in front of the one that leaves gets a new successor. -/
theorem Held.leave_next [DecidableEq T] (h : m.Held root back L) (hb : L b = as ++ x :: cs)
    (hback : as = [] → back b = none) {m' : Memory T}
    (hnext : (fun y => (m'.items y).next) = (match (m.items x).prev with
      | some before => Function.update (fun y => (m.items y).next) before (m.items x).next
      | none => fun y => (m.items y).next)) (hz : z ∉ as) :
    (m'.items z).next = (m.items z).next := by
  have hz' := congrFun hnext z
  have hprev : (m.items x).prev = as.getLast?.or (back b) := (h.links.around hb).1
  rcases List.eq_nil_or_concat as with rfl | ⟨as', y, rfl⟩
  · rw [hprev] at hz'
    simpa [hback rfl] using hz'
  · have hzy : z ≠ y := by
      rintro rfl
      simp at hz
    rw [hprev] at hz'
    simpa [hzy] using hz'

/-- What a call that takes `x` out of bucket `b` leaves behind. -/
structure Left (m : Memory T) (root back : Bucket → Option T) (L : Bucket → List T) (b : Bucket)
    (as : List T) (x : T) (cs : List T) (m' : Memory T) : Prop where
  held : m'.Held (headAfter as b cs root) back (Function.update L b (as ++ cs))
  subLists : m'.subLists = headAfter as b cs m.subLists
  data : m'.data = link m.data x none
  relinked : Relinked m m'
  next : ∀ z, z ∉ as → (m'.items z).next = (m.items z).next

/-- `rem` and the last bucket reset `lst` before they join the neighbours. -/
theorem Held.unlink_bridge (h : m.Held root back L) (hb : L b = as ++ x :: cs)
    (hback : as = [] → back b = none) :
    ((m.setLst x none).bridge b x).Returns
      (Left m root back L b as x cs) := by
  obtain ⟨hp, hn⟩ := h.neighbours hb hback
  obtain ⟨-, hnextx⟩ := h.links.around hb
  have hnextx : (m.items x).next = cs.head? := hnextx
  have hfirst := h.first_iff hb hback
  refine (bridge_writes b x (by simpa using hp) (by simpa using hn)).mono ?_
  intro m' hm'
  obtain ⟨hitems, hprev, hnext, hsub, hrel⟩ := hm'
  have hprevs : (fun y => ((m.setLst x none).items y).prev) =
      fun y => (m.items y).prev := by
    funext y
    by_cases hy : y = x <;> simp [hy]
  have hnexts : (fun y => ((m.setLst x none).items y).next) =
      fun y => (m.items y).next := by
    funext y
    by_cases hy : y = x <;> simp [hy]
  have hlst : ∀ y, (m'.items y).lst = if y = x then none else (m.items y).lst := by
    intro y
    rw [(hitems y).1]
    by_cases hy : y = x <;> simp [hy]
  rw [hprevs] at hprev
  rw [hnexts] at hnext
  simp only [setLst_items, Function.update_self, setLst_subLists] at hprev hnext hsub
  refine ⟨h.leave hb hback hlst hprev hnext hrel.alive, ?_, ?_,
    (setItem_relinked m x _).trans hrel, fun z hz => h.leave_next hb hback hnext hz⟩
  · simp only [hsub, headAfter, Option.isNone_iff_eq_none, hfirst, hnextx]
  · funext y
    have hy := hitems y
    by_cases hyx : y = x <;> simp_all [data, link]

/-- The destructor joins the neighbours first. -/
theorem Held.bridge_unlink (h : m.Held root back L) (hb : L b = as ++ x :: cs)
    (hback : as = [] → back b = none) :
    ((m.bridge b x).map fun m => m.setLst x none).Returns
      (Left m root back L b as x cs) := by
  obtain ⟨hp, hn⟩ := h.neighbours hb hback
  obtain ⟨-, hnextx⟩ := h.links.around hb
  have hnextx : (m.items x).next = cs.head? := hnextx
  have hfirst := h.first_iff hb hback
  rw [Exec.returns_map]
  refine (bridge_writes b x hp hn).mono ?_
  intro m' hm'
  obtain ⟨hitems, hprev, hnext, hsub, hrel⟩ := hm'
  have hprevs : (fun y => ((m'.setLst x none).items y).prev) =
      fun y => (m'.items y).prev := by
    funext y
    by_cases hy : y = x <;> simp [hy]
  have hnexts : (fun y => ((m'.setLst x none).items y).next) =
      fun y => (m'.items y).next := by
    funext y
    by_cases hy : y = x <;> simp [hy]
  have hlst : ∀ y, ((m'.setLst x none).items y).lst =
      if y = x then none else (m.items y).lst := by
    intro y
    by_cases hy : y = x <;> simp [hy, (hitems y).1]
  refine ⟨h.leave hb hback hlst (hprevs.trans hprev) (hnexts.trans hnext) hrel.alive, ?_, ?_,
    hrel.trans (setItem_relinked m' x _),
    fun z hz => h.leave_next hb hback (hnexts.trans hnext) hz⟩
  · simp only [setLst_subLists, hsub, headAfter, Option.isNone_iff_eq_none, hfirst, hnextx]
  · funext y
    have hy := hitems y
    by_cases hyx : y = x <;> simp_all [data, link]

end Memory

end Evel.ExpIndexed
