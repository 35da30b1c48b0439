import Evel.General.Looped
import Evel.General.Queues
import Evel.General.Runs
import Evel.Model.CiList

namespace Evel.CiList
open General

/-- The heap holds the queues. -/
structure Refines (h : Heap ι α) (q : Queues ι α) : Prop where
  apart : q.Apart
  head : ∀ l ∉ q.gone, (h.list l).head = (q.queue l).head?
  tail : ∀ l ∉ q.gone, (h.list l).tail = (q.queue l).getLast?
  looped : ∀ l, Looped h.next (q.queue l)
  used : ∀ x, (h.next x).isSome = true ↔ q.Member x ∨ x ∈ q.loose

namespace Refines
variable {ι : Type u} {α : Type v} [DecidableEq ι] [DecidableEq α] {h h' : Heap ι α}
  {q q' : Queues ι α} {l : ι} {x : α}

omit [DecidableEq ι] [DecidableEq α] in
theorem list (hr : Refines h q) (hl : l ∉ q.gone) :
    h.list l = ⟨(q.queue l).head?, (q.queue l).getLast?⟩ := by
  rw [← hr.head l hl, ← hr.tail l hl]

omit [DecidableEq ι] [DecidableEq α] in
theorem of_lists (hd : q.Apart)
    (hlists : ∀ l ∉ q.gone, h.list l = ⟨(q.queue l).head?, (q.queue l).getLast?⟩)
    (hlooped : ∀ l, Looped h.next (q.queue l))
    (hused : ∀ x, (h.next x).isSome = true ↔ q.Member x ∨ x ∈ q.loose) : Refines h q :=
  ⟨hd, fun l hl => by rw [hlists l hl], fun l hl => by rw [hlists l hl], hlooped, hused⟩

omit [DecidableEq ι] [DecidableEq α] in
theorem fresh (hr : Refines h q) (hx : ¬ q.Member x) (hxl : x ∉ q.loose) : h.next x = none := by
  have := (not_congr (hr.used x)).mpr (not_or.mpr ⟨hx, hxl⟩)
  simpa using this

/-- `push_back` of an item that is in a list already changes nothing. -/
theorem pushBack_member (hr : Refines h q) (hx : q.Member x) : h.pushBack l x = h := by
  have hused := (hr.used x).mpr (.inl hx)
  rw [Heap.pushBack, if_neg (by rw [Option.isNone_iff_eq_none]; rintro he; simp [he] at hused)]

/-- What `push_back` does with an item that is in no list. -/
theorem pushBack_fresh (hr : Refines h q) (hl : l ∉ q.gone) (hx : h.next x = none) :
    h.pushBack l x =
      { next := Function.update (match (q.queue l).getLast? with
          | some t => Function.update h.next t (some x)
          | none => h.next) x (some x)
        list := Function.update h.list l ⟨(q.queue l).head?.or (some x), some x⟩ } := by
  have hhead := hr.head l hl
  have htail := hr.tail l hl
  rw [Heap.pushBack, if_pos (by simp [hx])]
  cases hq : (q.queue l).getLast? with
  | none =>
    rw [List.getLast?_eq_none_iff] at hq
    rw [hq] at hhead htail
    simp [htail, hq, Heap.setNext, Heap.setList]
  | some t =>
    rw [hq] at htail
    have hsome : (q.queue l).head?.isSome = true := by
      obtain ⟨b, bs, hb⟩ := List.exists_cons_of_ne_nil (l := q.queue l) (by
        intro he
        simp [he] at hq)
      simp [hb]
    obtain ⟨b, hb⟩ := Option.isSome_iff_exists.mp hsome
    simp [htail, hhead, hb, Heap.setNext, Heap.setList]

omit [DecidableEq ι] [DecidableEq α] in
/-- The last item of a queue is in no other one. -/
theorem ne_last (hr : Refines h q) (hne : l' ≠ l) (ht : (q.queue l).getLast? = some t)
    (hy : y ∈ q.queue l') : y ≠ t := by
  rintro rfl
  exact hne (hr.apart.unique l' l y hy (List.mem_of_getLast? ht))

/-- The fields that `push_back` writes are those of the new item and of the last one. -/
theorem pushBack_next (hr : Refines h q) (hl : l ∉ q.gone) (hx : h.next x = none) (hyx : y ≠ x)
    (hy : (q.queue l).getLast? ≠ some y) : (h.pushBack l x).next y = h.next y := by
  rw [hr.pushBack_fresh hl hx]
  dsimp only
  rw [Function.update_of_ne hyx]
  cases ht : (q.queue l).getLast? with
  | none => rfl
  | some t => exact Function.update_of_ne (fun he => hy (by rw [ht, he])) _ _

theorem pushBack_looped (hr : Refines h q) (hl : l ∉ q.gone) (hm : ¬ q.Member x)
    (hx : h.next x = none) (l' : ι) :
    Looped (h.pushBack l x).next ((q.push l x).queue l') := by
  by_cases he : l' = l
  · subst he
    rw [Queues.push_self hm, hr.pushBack_fresh hl hx]
    cases ht : (q.queue l').getLast? with
    | none =>
      rw [List.getLast?_eq_none_iff] at ht
      rw [ht]
      exact Looped.singleton_iff.mpr (Function.update_self x _ _)
    | some t => exact (hr.looped l').push (hr.apart.nodup l') (fun hy => hm ⟨l', hy⟩) ht
  · rw [Queues.push_of_ne he]
    refine (hr.looped l').congr fun y hy => hr.pushBack_next hl hx ?_ ?_
    · rintro rfl
      exact hm ⟨l', hy⟩
    · exact fun ht => hr.ne_last he ht hy rfl

theorem pushBack_used (hr : Refines h q) (hl : l ∉ q.gone) (hx : h.next x = none) (y : α) :
    ((h.pushBack l x).next y).isSome = true ↔ (h.next y).isSome = true ∨ y = x := by
  by_cases hyx : y = x
  · subst hyx
    simp [hr.pushBack_fresh hl hx]
  · by_cases ht : (q.queue l).getLast? = some y
    · have hy := (hr.used y).mpr (.inl ⟨l, List.mem_of_getLast? ht⟩)
      simp [hr.pushBack_fresh hl hx, ht, hyx, hy]
    · simp [hr.pushBack_next hl hx hyx ht, hyx]

theorem pushBack (hr : Refines h q) (hl : l ∉ q.gone) (hx : x ∉ q.loose) :
    Refines (h.pushBack l x) (q.push l x) := by
  by_cases hm : q.Member x
  · rwa [hr.pushBack_member hm, Queues.push_member hm]
  have hnext := hr.fresh hm hx
  refine .of_lists (hr.apart.push hl hx) (fun l' hl' => ?_) (hr.pushBack_looped hl hm hnext)
    (fun y => ?_)
  · rw [Queues.push_gone] at hl'
    rw [hr.pushBack_fresh hl hnext]
    by_cases he : l' = l
    · subst he
      rw [Queues.push_self hm, List.head?_append]
      simp
    · rw [Queues.push_of_ne he]
      simpa [he] using hr.list hl'
  · rw [hr.pushBack_used hl hnext, hr.used y, Queues.member_push hm, Queues.push_loose,
      or_right_comm]

theorem popFront_nil (hr : Refines h q) (hl : l ∉ q.gone) (hq : q.queue l = []) :
    h.popFront l = (h, none) := by
  have hhead := hr.head l hl
  rw [hq] at hhead
  simp [Heap.popFront, hhead]

/-- What `pop_front` does with a list that is not empty. -/
theorem popFront_cons (hr : Refines h q) (hl : l ∉ q.gone) (hq : q.queue l = x :: xs) :
    h.popFront l = ({ next := Function.update h.next x none
                      list := Function.update h.list l ⟨xs.head?, xs.getLast?⟩ }, some x) := by
  have hhead := hr.head l hl
  have htail := hr.tail l hl
  have hlooped := hr.looped l
  have hd := hr.apart.nodup l
  rw [hq] at hhead htail hlooped hd
  cases xs with
  | nil =>
    have hself := Looped.singleton_iff.mp hlooped
    simp [Heap.popFront, hhead, hself, Heap.setNext, Heap.setList, new]
  | cons y ys =>
    rw [Looped.cons_cons_iff] at hlooped
    have hyx : y ≠ x := by
      rintro rfl
      exact (List.nodup_cons.mp hd).1 List.mem_cons_self
    simp [Heap.popFront, hhead, htail, hlooped.1, hyx, Heap.setNext, Heap.setList]

theorem popFront (hr : Refines h q) (hl : l ∉ q.gone) :
    Refines (h.popFront l).1 (q.pop l) ∧ (h.popFront l).2 = (q.queue l).head? := by
  cases hq : q.queue l with
  | nil =>
    rw [hr.popFront_nil hl hq, Queues.pop_nil hq]
    exact ⟨hr, rfl⟩
  | cons x xs =>
    have hself : (q.pop l).queue l = xs := by rw [Queues.pop_self, hq, List.tail_cons]
    have hmember (y : α) := hr.apart.member_pop (y := y) hq
    rw [hr.popFront_cons hl hq]
    refine ⟨.of_lists (hr.apart.pop l) (fun l' hl' => ?_) (fun l' => ?_) (fun y => ?_), rfl⟩
    · by_cases he : l' = l
      · subst he
        simp [hself]
      · rw [Queues.pop_of_ne he]
        simpa [he] using hr.list hl'
    · have hkeep : ∀ y ∈ (q.pop l).queue l', Function.update h.next x none y = h.next y :=
        fun y hy => Function.update_of_ne ((hmember y).mp ⟨l', hy⟩).2 _ _
      refine Looped.congr ?_ hkeep
      by_cases he : l' = l
      · subst he
        rw [hself]
        exact Looped.tail (hq ▸ hr.looped l')
      · rw [Queues.pop_of_ne he]
        exact hr.looped l'
    · have hloose : x ∉ q.loose := fun hx => hr.apart.loose x hx ⟨l, by simp [hq]⟩
      dsimp only
      rw [hmember]
      by_cases hyx : y = x
      · subst hyx
        simpa using hloose
      · rw [Function.update_of_ne hyx, hr.used y]
        simp [hyx]

omit [DecidableEq α] in
theorem disconnect (hr : Refines h q) (hl : l ∉ q.gone) :
    Refines (h.disconnect l).1 (q.disconnect l) ∧ (h.disconnect l).2 = (q.queue l).head? := by
  refine ⟨.of_lists (hr.apart.disconnect l) (fun l' hl' => ?_) (fun l' => ?_) (fun y => ?_),
    hr.head l hl⟩
  · by_cases he : l' = l
    · subst he
      simp [Queues.disconnect_self, Heap.disconnect, Heap.setList, new]
    · rw [Queues.disconnect_of_ne he]
      simpa [Heap.disconnect, Heap.setList, he] using hr.list hl'
  · by_cases he : l' = l
    · subst he
      rw [Queues.disconnect_self]
      exact Looped.nil _
    · rw [Queues.disconnect_of_ne he]
      exact hr.looped l'
  · rw [show (h.disconnect l).1.next y = h.next y from rfl, hr.used y]
    exact Queues.used_disconnect.symm

omit [DecidableEq ι] in
theorem reset (hr : Refines h q) (hx : x ∈ q.loose) : Refines (h.setNext x none) (q.reset x) := by
  refine ⟨hr.apart.reset x, hr.head, hr.tail, fun l' => ?_, fun y => ?_⟩
  · refine (hr.looped l').congr fun y hy => Function.update_of_ne ?_ _ _
    rintro rfl
    exact hr.apart.loose y hx ⟨l', hy⟩
  · by_cases hyx : y = x
    · subst hyx
      simpa [Heap.setNext] using hr.apart.loose y hx
    · simpa [Heap.setNext, hyx] using hr.used y

omit [DecidableEq ι] [DecidableEq α] in
/-- What `b.prepend( a )` has to come to. -/
theorem prepended (hr : Refines h q) (hab : a ≠ b) (hb : b ∉ q.gone)
    (hlists : ∀ l ≠ b, h'.list l = h.list l)
    (hlist : h'.list b = ⟨(q.queue a ++ q.queue b).head?, (q.queue a ++ q.queue b).getLast?⟩)
    (hlooped : Looped h'.next (q.queue a ++ q.queue b))
    (hnext : ∀ l ≠ a, l ≠ b → ∀ y ∈ q.queue l, h'.next y = h.next y)
    (hused : ∀ y, (h'.next y).isSome = (h.next y).isSome) : Refines h' (q.prepend b a) := by
  have hself : (q.prepend b a).queue b = q.queue a ++ q.queue b := by
    rw [Queues.prepend_queue, if_neg hab.symm, if_pos rfl]
  have hothers : ∀ l ≠ b, l ∉ (q.prepend b a).gone →
      (q.prepend b a).queue l = q.queue l ∧ l ∉ q.gone := by
    intro l hl hgone
    obtain ⟨hla, hgone⟩ := not_or.mp hgone
    exact ⟨by rw [Queues.prepend_queue, if_neg hla, if_neg hl], hgone⟩
  refine .of_lists (hr.apart.prepend hab hb) (fun l hl => ?_) (fun l => ?_) (fun y => ?_)
  · by_cases he : l = b
    · subst he
      rw [hself, hlist]
    · obtain ⟨hqueue, hl⟩ := hothers l he hl
      rw [hqueue, hlists l he]
      exact hr.list hl
  · rw [Queues.prepend_queue]
    split_ifs with hla hlb
    · exact Looped.nil _
    · exact hlooped
    · exact (hr.looped l).congr (hnext l hla hlb)
  · rw [hused y, hr.used y, Queues.member_prepend hab]
    rfl

/-- The four cases of `b.prepend( a )`. -/
theorem prepend (hr : Refines h q) (hab : a ≠ b) (ha : a ∉ q.gone) (hb : b ∉ q.gone) :
    (h.prepend b a).Returns (fun h' => Refines h' (q.prepend b a)) := by
  have hheada := hr.head a ha
  have htaila := hr.tail a ha
  have hheadb := hr.head b hb
  have htailb := hr.tail b hb
  rw [Heap.prepend, if_neg hab]
  cases hqb : q.queue b with
  | nil =>
    rw [hqb] at hheadb
    simp only [hheadb, List.head?_nil]
    refine hr.prepended hab hb (fun l hl => ?_) ?_ ?_ (fun l _ _ y _ => rfl) (fun y => rfl)
    · exact Function.update_of_ne hl _ _
    · simp [Heap.setList, hqb, ← hheada, ← htaila]
    · rw [hqb, List.append_nil]
      exact hr.looped a
  | cons y ys =>
    rw [hqb] at hheadb htailb
    cases hqa : q.queue a with
    | nil =>
      rw [hqa] at hheada
      simp only [hheadb, hheada, List.head?_nil, List.head?_cons]
      refine hr.prepended hab hb (fun l _ => rfl) ?_ ?_ (fun l _ _ y _ => rfl) (fun y => rfl)
      · rw [hqa, hqb, List.nil_append, ← hheadb, ← htailb]
      · rw [hqa, List.nil_append]
        exact hr.looped b
    | cons x xs =>
      obtain ⟨t, ht⟩ : ∃ t, (q.queue a).getLast? = some t :=
        ⟨xs.getLast?.getD x, by rw [hqa, List.getLast?_cons]⟩
      have htmem := List.mem_of_getLast? ht
      rw [ht] at htaila
      rw [hqa] at hheada
      simp only [hheadb, hheada, htaila, List.head?_cons]
      refine hr.prepended hab hb (fun l hl => ?_) ?_ ?_ (fun l hla _ z hz => ?_) (fun z => ?_)
      · exact Function.update_of_ne hl _ _
      · rw [hqb, List.getLast?_append_cons, hqa]
        simp [Heap.setList, Heap.setNext, htailb]
      · refine (hr.looped a).append (hr.looped b) ?_ ht (by simp [hqb])
        refine List.nodup_append'.mpr ⟨hr.apart.nodup a, hr.apart.nodup b, fun z hza hzb => ?_⟩
        exact hab (hr.apart.unique a b z hza hzb)
      · refine Function.update_of_ne ?_ _ _
        rintro rfl
        exact hla (hr.apart.unique l a z hz htmem)
      · by_cases hzt : z = t
        · subst hzt
          simp [Heap.setList, Heap.setNext, (hr.used z).mpr (.inl ⟨a, htmem⟩)]
        · simp [Heap.setList, Heap.setNext, hzt]

/-- `push_back` writes no field of a chain. -/
theorem pushBack_loose (hr : Refines h q) (hl : l ∉ q.gone) (hx : x ∉ q.loose) (hy : y ∈ q.loose) :
    (h.pushBack l x).next y = h.next y := by
  by_cases hm : q.Member x
  · rw [hr.pushBack_member hm]
  · refine hr.pushBack_next hl (hr.fresh hm hx) ?_ fun ht => ?_
    · rintro rfl
      exact hx hy
    · exact hr.apart.loose y hy ⟨l, List.mem_of_getLast? ht⟩

omit [DecidableEq α] in
/-- A list is made anew. -/
theorem construct (hr : Refines h q) (hq : q.queue l = []) :
    Refines (h.setList l new) { q with gone := q.gone \ {l} } := by
  have hothers : ∀ l' ∉ q.gone \ {l}, l' ≠ l → l' ∉ q.gone := fun l' hl' hne hg => hl' ⟨hg, hne⟩
  have hapart : Queues.Apart { q with gone := q.gone \ {l} } :=
    ⟨hr.apart.nodup, hr.apart.unique, hr.apart.loose, fun l' hl' => hr.apart.gone l' hl'.1⟩
  refine .of_lists hapart (fun l' hl' => ?_) hr.looped hr.used
  by_cases he : l' = l
  · subst he
    simp [Heap.setList, new, hq]
  · simpa [Heap.setList, he] using hr.list (hothers l' hl' he)

omit [DecidableEq ι] [DecidableEq α] in
theorem self_iff (hr : Refines h q) (hx : x ∈ q.queue l) :
    h.next x = some x ↔ (q.queue l).getLast? = some x :=
  (hr.looped l).self_iff (hr.apart.nodup l) hx

omit [DecidableEq ι] [DecidableEq α] in
theorem empty (hr : Refines h q) (hl : l ∉ q.gone) : h.empty l = (q.queue l).isEmpty := by
  rw [Heap.empty, hr.head l hl]
  cases q.queue l <;> rfl

end Refines

/-- The queues, and what has been returned so far. -/
structure Spec (ι : Type u) (α : Type v) where
  queues : Queues ι α
  outs : List (Out α)

namespace Spec
variable {ι : Type u} {α : Type v}

def new : Spec ι α := { queues := { queue := fun _ => [], loose := ∅, gone := ∅ }, outs := [] }

noncomputable def step (s : Spec ι α) : Op ι α → Spec ι α
  | .pushBack l x => { s with queues := s.queues.push l x }
  | .popFront l =>
    { queues := s.queues.pop l, outs := s.outs ++ [.popFront (s.queues.queue l).head?] }
  | .empty l => { s with outs := s.outs ++ [.empty (s.queues.queue l).isEmpty] }
  | .prepend b a => { s with queues := s.queues.prepend b a }
  | .disconnect l =>
    { queues := s.queues.disconnect l, outs := s.outs ++ [.disconnect (s.queues.queue l).head?] }
  | .reset x => { s with queues := s.queues.reset x }

/-- A list that has been prepended to another one is not used again, and the items of a chain are
reset before they are. -/
def Legal (s : Spec ι α) : Op ι α → Prop
  | .pushBack l x => l ∉ s.queues.gone ∧ x ∉ s.queues.loose
  | .popFront l => l ∉ s.queues.gone
  | .empty l => l ∉ s.queues.gone
  | .prepend b a => a ≠ b ∧ a ∉ s.queues.gone ∧ b ∉ s.queues.gone
  | .disconnect l => l ∉ s.queues.gone
  | .reset x => x ∈ s.queues.loose

end Spec

namespace Machine
variable {ι : Type u} {α : Type v} [DecidableEq ι] [DecidableEq α]

/-- The machine has returned what the queues have, and holds them. -/
def Follows (e : Exec (Machine ι α)) (s : Spec ι α) : Prop :=
  e.Returns fun m => m.outs = s.outs ∧ Refines m.heap s.queues

theorem follows_step (e : Exec (Machine ι α)) (s : Spec ι α) (o : Op ι α) (h : Follows e s)
    (ho : s.Legal o) : Follows (step e o) (s.step o) := by
  obtain ⟨m, rfl, houts, hr⟩ := h.exists
  cases o with
  | pushBack l x => exact ⟨houts, hr.pushBack ho.1 ho.2⟩
  | popFront l =>
    obtain ⟨hr', hres⟩ := hr.popFront ho
    exact ⟨by simp only [Spec.step, houts, hres], hr'⟩
  | empty l => exact ⟨by simp only [Spec.step, houts, hr.empty ho], hr⟩
  | prepend b a =>
    obtain ⟨h', he, hr'⟩ := (hr.prepend ho.1 ho.2.1 ho.2.2).exists
    simp only [step, Exec.andThen, call, he, Exec.map]
    exact ⟨houts, hr'⟩
  | disconnect l =>
    obtain ⟨hr', hres⟩ := hr.disconnect ho
    exact ⟨by simp only [Spec.step, houts, hres], hr'⟩
  | reset x => exact ⟨houts, hr.reset ho⟩

omit [DecidableEq ι] [DecidableEq α] in
theorem follows_new : Follows (.ret new) (Spec.new : Spec ι α) := by
  have hapart : (Spec.new : Spec ι α).queues.Apart := by
    refine ⟨fun _ => List.nodup_nil, fun l l' x hx => ?_, fun x hx => hx.elim, fun l hl => rfl⟩
    cases hx
  exact ⟨rfl, hapart, fun _ _ => rfl, fun _ _ => rfl, fun _ => Looped.nil _,
    fun x => by simp [new, Spec.new, Queues.Member]⟩

/-- The lists are queues that share no item. -/
theorem lists_are_queues (ops : List (Op ι α)) (ha : Along Spec.step Spec.Legal Spec.new ops) :
    (run step (.ret new) ops).Returns fun m =>
      let s := run Spec.step Spec.new ops
      m.outs = s.outs ∧ Refines m.heap s.queues ∧
        (∀ l, ∀ x ∈ s.queues.queue l,
          m.heap.next x = some x ↔ (s.queues.queue l).getLast? = some x) ∧
        ∀ l x, s.queues.Member x → m.heap.pushBack l x = m.heap :=
  (run_simulation Follows follows_step follows_new ha).mono fun _ h =>
    ⟨h.1, h.2, fun _ _ hx => h.2.self_iff hx, fun _ _ hx => h.2.pushBack_member hx⟩

/-- One item goes through a chain and is in a list that is prepended to another one. -/
theorem lists_are_queues_prepend :
    (run step (.ret new) [.pushBack 0 10, .disconnect 0, .reset 10, .pushBack 0 10, .pushBack 1 11,
        .prepend 1 0, .popFront 1]).Returns fun m =>
      let s := run Spec.step Spec.new [.pushBack 0 10, .disconnect 0, .reset 10, .pushBack 0 10,
        .pushBack 1 11, .prepend 1 0, .popFront 1]
      m.outs = s.outs ∧ Refines m.heap s.queues ∧
        (∀ l, ∀ x ∈ s.queues.queue l,
          m.heap.next x = some x ↔ (s.queues.queue l).getLast? = some x) ∧
        ∀ l x, s.queues.Member x → m.heap.pushBack l x = m.heap :=
  lists_are_queues _ (by
    simp [Along, Spec.step, Spec.Legal, Spec.new, Queues.push_self, Queues.Member])

end Machine

end Evel.CiList
