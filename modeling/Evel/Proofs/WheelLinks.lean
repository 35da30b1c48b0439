import Evel.Proofs.WheelRemoval

namespace Evel.ExpIndexed
open General

variable {T : Type u} {g : Geometry}

/-- The callbacks of a shift do not touch the list. -/
def Idle (script : List (List (Act T))) : Prop := ∀ as ∈ script, as = []

namespace Memory

/-- The items from `ptr` on, behind `prev`: each knows the one in front of it and the one behind
it, and the last one is followed by null. -/
def DoublyLinked (m : Memory T) : (prev ptr : Option T) → List T → Prop
  | _, ptr, [] => ptr = none
  | prev, ptr, x :: xs =>
    ptr = some x ∧ (m.items x).prev = prev ∧ m.DoublyLinked (some x) (m.items x).next xs

/-- What the loops over a bucket meet. -/
def bucket (m : Memory T) (fuel : Nat) (b : Bucket) : List T := m.chain fuel (m.subLists b)

/-- The links of a wheel are in order. -/
structure InOrder (g : Geometry) (fuel : Nat) (m : Memory T) : Prop where
  linked : ∀ b ∈ g.buckets, m.DoublyLinked none (m.subLists b) (m.bucket fuel b)
  distinct : (g.buckets.flatMap (m.bucket fuel)).Nodup
  lst : ∀ x b, (m.items x).lst = some b ↔ b ∈ g.buckets ∧ x ∈ m.bucket fuel b
  size : ∃ xs : List T, xs.Nodup ∧ (∀ x, x ∈ xs ↔ (m.items x).lst ≠ none) ∧
    m.size g fuel = xs.length

theorem doublyLinked_of {m : Memory T} {xs : List T}
    (hnext : Fwd (fun x => (m.items x).next) none xs)
    (hprev : Bwd (fun x => (m.items x).prev) back xs) : m.DoublyLinked back xs.head? xs := by
  induction xs generalizing back with
  | nil => rfl
  | cons x xs ih =>
    have hx : (m.items x).next = xs.head? := by simpa using hnext.1
    refine ⟨rfl, hprev.1, ?_⟩
    rw [hx]
    exact ih hnext.2 hprev.2

end Memory

section
variable {m : Memory T} {l : ExpIndexedList T g} {L : Bucket → List T}

theorem Shows.bucket_eq (h : Shows m l L) (hroomy : m.Roomy fuel) : m.bucket fuel = L :=
  funext fun b => h.chain_eq hroomy b

theorem Shows.in_bucket_iff (h : Shows m l L) (x : T) (b : Bucket) :
    (m.items x).lst = some b ↔ b ∈ g.buckets ∧ x ∈ L b := by
  constructor
  · intro hx
    have hm : x ∈ L b := h.held.links.mem x b hx
    exact ⟨h.fills.bucket (h.depth hm) hm, hm⟩
  · rintro ⟨-, hx⟩
    exact h.held.links.home b x hx

theorem Shows.inOrder (h : Shows m l L) (hroomy : m.Roomy fuel) : m.InOrder g fuel := by
  have hbucket := h.bucket_eq hroomy
  have hlinked : m.linked g fuel = g.buckets.flatMap L := by
    rw [← hbucket]
    rfl
  refine ⟨fun b _ => ?_, ?_, fun x b => ?_, g.buckets.flatMap L, h.buckets_nodup, fun x => ?_, ?_⟩
  · have hroot : m.subLists b = (L b).head? := h.held.links.root b
    rw [hbucket, hroot]
    exact Memory.doublyLinked_of (h.held.links.next b) (h.held.links.prev b)
  · rw [hbucket]
    exact h.buckets_nodup
  · rw [hbucket]
    exact h.in_bucket_iff x b
  · rw [List.mem_flatMap, Option.ne_none_iff_exists']
    exact exists_congr fun b => (h.in_bucket_iff x b).symm
  · rw [m.size_eq, hlinked]

variable [DecidableEq T]

/-- Whether its owner removes it or it is destroyed, an item leaves the list it is in and all
others keep their place. -/
theorem Shows.takes (h : Shows m l L) {a : Act T} (hact : a = .rem x ∨ a = .destroy x) :
    (m.act g a).Returns fun m' =>
      ∃ l' : ExpIndexedList T g, Shows m' l' fun b => (L b).erase x := by
  have hitem : a.item = x := by rcases hact with rfl | rfl <;> rfl
  cases hx : (m.items x).lst with
  | none =>
    have hnot : ∀ b, x ∉ L b := h.held.links.unlisted hx
    have hsame : (fun b => (L b).erase x) = L := funext fun b => List.erase_of_not_mem (hnot b)
    obtain ⟨he, -⟩ := Memory.act_free (hitem ▸ hx) hact g
    rw [he, hsame]
    exact ⟨l, h.held.after (hitem ▸ hx), h.fills, h.above, h.offset, h.data⟩
  | some c =>
    obtain ⟨as, cs, hc, hxas, -⟩ := h.split hx
    have hlists : (fun b => (L b).erase x) = Function.update L c (as ++ cs) := by
      funext b
      by_cases hb : b = c
      · subst hb
        rw [Function.update_self, hc, List.erase_append_right _ hxas, List.erase_cons_head]
      · have hnot : x ∉ L b := fun hm => hb (h.held.links.unique hm (by simp [hc]))
        rw [Function.update_of_ne hb, List.erase_of_not_mem hnot]
    rw [hlists]
    refine (h.held.out hx hc (fun _ => rfl) hact g).mono (fun m' ho => ?_)
    exact ⟨_, h.out hx hc ho.held ho.subLists (hitem ▸ ho.data) ho.curList ho.now⟩

end

variable [DecidableEq T]

/-- `rem` and the destructor unlink their item and leave the sequence of the others as it is. -/
def UnlinksOnly (g : Geometry) (fuel : Nat) (e : Exec (Memory T)) (u : Use T) : Prop :=
  ∀ x, u = .act (.rem x) ∨ u = .act (.destroy x) →
    (useStep g fuel e u).Returns fun m' =>
      ∀ b ∈ g.buckets, m'.bucket fuel b = (e.state.bucket fuel b).erase x

theorem unlinksOnly {e : Exec (Memory T)} {u : Use T} {us : List (Use T)}
    (h : Budgeted g fuel e (u :: us)) : UnlinksOnly g fuel e u := by
  obtain ⟨m, rfl, l, L, k, hshows, hroomy, hk⟩ := h
  have hfuel : m.Roomy fuel := hroomy.mono (by omega)
  intro x hx
  obtain ⟨a, rfl, hact⟩ : ∃ a : Act T, u = .act a ∧ (a = .rem x ∨ a = .destroy x) := by
    rcases hx with rfl | rfl
    · exact ⟨_, rfl, .inl rfl⟩
    · exact ⟨_, rfl, .inr rfl⟩
  refine (hshows.takes hact).mono ?_
  rintro m' ⟨l', hshows'⟩
  have hroomy' : m'.Roomy fuel := by
    refine hfuel.shrink (fun y hy => ?_)
    obtain ⟨b, hb⟩ := Option.ne_none_iff_exists'.mp hy
    have hm : y ∈ (L b).erase x := hshows'.held.links.mem y b hb
    have hyb : (m.items y).lst = some b :=
      hshows.held.links.home b y (List.mem_of_mem_erase hm)
    simp [hyb]
  intro b _
  have hafter := hshows'.bucket_eq hroomy'
  have hbefore := hshows.bucket_eq hfuel
  simp [hafter, hbefore, Exec.state]

/-- A shift is safe if its callbacks do not touch the list. -/
theorem safe_of_idle (due : T → Bool) {script : List (List (Act T))} (hscript : Idle script)
    (todo : List T) : Safe due todo script := by
  induction script generalizing todo with
  | nil => trivial
  | cons as script ih =>
    obtain rfl : as = [] := hscript as List.mem_cons_self
    have hrest : Idle script := fun as has => hscript as (List.mem_cons_of_mem _ has)
    simp only [Safe]
    split
    · trivial
    · exact ⟨fun y hy => (by cases hy), ih hrest _⟩

omit [DecidableEq T] in
theorem Idle.onlyTakes {script : List (List (Act T))} (h : Idle script) : OnlyTakes script := by
  intro a ha
  obtain ⟨as, has, hm⟩ := List.mem_flatten.mp ha
  rw [h as has] at hm
  cases hm

theorem useStep_idle {e : Exec (Memory T)} {u : Use T} {us : List (Use T)}
    (h : Budgeted g fuel e (u :: us)) (hscript : ∀ script, u = .shift script → Idle script) :
    Budgeted g fuel (useStep g fuel e u) us := by
  refine useStep_safe h (fun script hu => (hscript script hu).onlyTakes) ?_
  cases u with
  | act a => trivial
  | shift script => exact safe_of_idle _ (hscript script rfl) _

omit [DecidableEq T] in
theorem Budgeted.inOrder {e : Exec (Memory T)} {us : List (Use T)} (h : Budgeted g fuel e us) :
    e.Returns (Memory.InOrder g fuel) := by
  obtain ⟨m, rfl, l, L, k, hshows, hroomy, hk⟩ := h
  exact hshows.inOrder (hroomy.mono (by omega))

/-- In every run whose callbacks do not touch the list, the links are in order after each call,
whichever levels the items have passed, and an item is unlinked alone. -/
theorem links_in_order (g : Geometry) (offset : Nat) (us : List (Use T))
    (hscript : ∀ script, .shift script ∈ us → Idle script)
    (hfuel : (us.map Use.adds).sum ≤ fuel) :
    (∀ n, (run (useStep g fuel) (.ret (Memory.new T offset)) (us.take n)).Returns
        (Memory.InOrder g fuel)) ∧
      Along (useStep g fuel) (UnlinksOnly g fuel) (.ret (Memory.new T offset)) us := by
  have hstart := new_budgeted g offset us hfuel
  generalize (.ret (Memory.new T offset) : Exec (Memory T)) = e at hstart
  induction us generalizing e with
  | nil => exact ⟨fun n => by simpa using hstart.inOrder, trivial⟩
  | cons u us ih =>
    have hnext := useStep_idle hstart (fun script hu => hscript script (by simp [hu]))
    obtain ⟨hall, halong⟩ := ih (fun script hm => hscript script (List.mem_cons_of_mem _ hm))
      (by simp only [List.map_cons, List.sum_cons] at hfuel; omega) _ hnext
    refine ⟨fun n => ?_, unlinksOnly hstart, halong⟩
    cases n with
    | zero => exact hstart.inOrder
    | succ n => exact hall n

/-- Two items of one bucket, one of another level, a removal, a tick and a destruction. -/
theorem links_in_order_ticks :
    (∀ n, (run (useStep ⟨4, 2, by decide⟩ 9) (.ret (Memory.new Nat 0))
        (([.act (.add 0 0), .act (.add 1 0), .act (.add 2 9), .act (.rem 0), .shift [],
          .act (.destroy 2)] : List (Use Nat)).take n)).Returns
        (Memory.InOrder ⟨4, 2, by decide⟩ 9)) ∧
      Along (useStep ⟨4, 2, by decide⟩ 9) (UnlinksOnly ⟨4, 2, by decide⟩ 9)
        (.ret (Memory.new Nat 0))
        [.act (.add 0 0), .act (.add 1 0), .act (.add 2 9), .act (.rem 0), .shift [],
          .act (.destroy 2)] := by
  refine links_in_order ⟨4, 2, by decide⟩ 0 _ ?_ (by decide)
  intro script hs
  obtain rfl : script = [] := by simpa using hs
  exact fun as has => by cases has

end Evel.ExpIndexed
