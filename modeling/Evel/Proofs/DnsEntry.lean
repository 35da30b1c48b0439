import Evel.Proofs.DnsFrame

namespace Evel.Dns
open General
variable {R : BinStream κ} {left : κ → List Byte} {s : Dns}

section null

/-- `ans` comes to no `entry` that is null, whatever it reads and wherever it returns. -/
def EntrySet (e : Exec Dns) : Prop := e.Post (fun _ => True)

instance (e : Exec Dns) : Decidable (EntrySet e) :=
  inferInstanceAs (Decidable (e.Post (fun _ => True)))

/-- The first item, if there is one, is a question or a record of class IN. -/
def OpensChecked (d : Datagram) : Prop := ∀ i ∈ d.items.head?, i.owner.isSome = true

instance (d : Datagram) : Decidable (OpensChecked d) :=
  inferInstanceAs (Decidable (∀ i ∈ d.items.head?, i.owner.isSome = true))

/-- The callbacks come after an accepted name, whose entry and request are there. -/
theorem entrySet_iff (R : BinStream κ) (data : List Byte) (s : Dns) :
    EntrySet (s.ans (parse R data)) ↔ OpensChecked (parse R data) := by
  obtain ⟨num, is⟩ := parse R data
  cases is with
  | nil => exact iff_of_true trivial (by simp [OpensChecked])
  | cons i is =>
    have hr := readAns_cons num i is s
    cases ho : i.owner with
    | none =>
      rw [ho] at hr
      simp [EntrySet, OpensChecked, ans, hr, ho]
    | some n =>
      refine iff_of_true ?_ (by simp [OpensChecked, ho])
      simp only [ho] at hr
      by_cases ha : s.accepts num n = true
      · obtain ⟨w, hw⟩ : ∃ w, s.waitingReqs n = some w := by
          cases hw : s.waitingReqs n with
          | none => simp [accepts, hw] at ha
          | some w => exact ⟨w, rfl⟩
        rw [if_pos ha] at hr
        by_cases hall : is.all (Item.ownedBy n) = true
        · rw [if_pos hall] at hr
          simp [EntrySet, ans, hr, hw]
        · rw [if_neg hall] at hr
          simp [EntrySet, ans, hr]
      · rw [if_neg ha] at hr
        simp [EntrySet, ans, hr]

/-- A datagram of one A record of class CH, whose owner is the root. -/
def chaosAnswer : List Byte :=
  [0, 0, 0x81, 0x80, 0, 0, 0, 1, 0, 0, 0, 0, 0xC0, 12, 0, 1, 0, 3, 0, 0, 0, 60, 0, 4, 1, 2, 3, 4]

theorem null_entry_met : ¬ EntrySet (new.ans (parse .inOrder chaosAnswer)) := by
  have hp : parse .inOrder chaosAnswer =
      ⟨0, [.address false [] 60 (.ofV4 [1, 2, 3, 4] 0)]⟩ := by decide
  rw [hp]
  exact id

end null

section wire
variable (R : BinStream κ) (data : List Byte)

/-- The header of a datagram and its questions, and how many records follow. -/
structure Opening (κ : Type) where
  num : UInt16
  questions : List Item
  records : Nat
  cur : κ

def opening : Opening κ :=
  let cur := R.ofData data
  let (num, cur) := R.readBe16 cur
  let (_, cur) := R.readByte cur
  let (_, cur) := R.readByte cur
  let (nbQuestions, cur) := R.readBe16 cur
  let (nbAnswers, cur) := R.readBe16 cur
  let (nbDomauth, cur) := R.readBe16 cur
  let (nbAddsect, cur) := R.readBe16 cur
  let (questions, cur) := readItems (readQuestion R) nbQuestions.toNat cur
  { num := num, questions := questions,
    records := nbAnswers.toNat + nbDomauth.toNat + nbAddsect.toNat * 0, cur := cur }

theorem parse_opening : parse R data =
    ⟨(opening R data).num, (opening R data).questions ++
      (readItems (readRecord R data) (opening R data).records (opening R data).cur).1⟩ := rfl

/-- The owner is a pointer. -/
def Pointed (cur : κ) : Prop := 128 + 64 ≤ (R.readByte cur).1

instance : DecidablePred (Pointed R) := fun cur =>
  inferInstanceAs (Decidable (128 + 64 ≤ (R.readByte cur).1))

/-- The owner of a record as the wire has it: labels begin with their first length. -/
def ownerName (cur : κ) : Name × κ :=
  if Pointed R cur then readOwner R data cur else readCname R cur

/-- Where the labels of the owner begin. -/
def ownerStart (cur : κ) : κ :=
  if Pointed R cur then
    let (c, cur) := R.readByte cur
    let offset := ((c.toNat - (128 + 64)) <<< 8) + (R.readByte cur).1.toNat
    R.ofData (data.drop (min offset data.length))
  else cur

/-- The labels come to their end within the datagram, for at most as many as there is fuel. -/
def labelsEnd : Nat → κ → Bool
  | 0, _ => false
  | fuel + 1, cur =>
    let (c, cur) := R.readByte cur
    R.ackReadSome c.toNat cur && (c = 0 || labelsEnd fuel (R.skipSome c.toNat cur))

/-- The record has an owner. -/
def Readable (cur : κ) : Prop :=
  labelsEnd R (R.size (ownerStart R data cur) + 1) (ownerStart R data cur) = true

instance : DecidablePred (Readable R data) := fun cur =>
  inferInstanceAs (Decidable (labelsEnd R _ (ownerStart R data cur) = true))

/-- What follows the owner of a record. -/
def readFields (owner : Name × κ) : Option Item × κ :=
  let (name, cur) := owner
  let (type, cur) := R.readBe16 cur
  let (qclass, cur) := R.readBe16 cur
  let (ttl, cur) := R.readBe32 cur
  let (rlen, cur) := R.readBe16 cur
  if type = 1 ∧ rlen = 4 then
    let (ip, cur) := R.readSome 4 cur
    (some (.address (qclass = 1) name ttl.toNat (.ofV4 ip 0)), cur)
  else if type = 28 ∧ rlen = 16 then
    let (ip, cur) := R.readSome 16 cur
    (some (.address (qclass = 1) name ttl.toNat (.ofV6 ip 0)), cur)
  else (none, R.skipSome rlen.toNat cur)

theorem readRecord_fields (cur : κ) :
    readRecord R data cur = readFields R (readOwner R data cur) := rfl

/-- A record as the wire has it. -/
def wireRecord (cur : κ) : Option Item × κ :=
  let (i, next) := readFields R (ownerName R data cur)
  (if Readable R data cur then i else none, next)

/-- The A records of 4 bytes and AAAA records of 16 that a datagram holds and that have an owner. -/
def wireRecords : List Item :=
  (readItems (wireRecord R data) (opening R data).records (opening R data).cur).1

/-- The datagram gives this address to this name: it holds an A or AAAA record of class IN. -/
def Gives (n : Name) (ip : InetAddress) : Prop :=
  ∃ ttl, .address true n ttl ip ∈ wireRecords R data

end wire

section reading
variable {G : Name → InetAddress → Prop} {s s' t : Dns} {p : Pointers} {i : Item}

/-- The addresses that are cached for a name. -/
def addrs (n : Name) (s : Dns) : List InetAddress := (s.cachedEntries n).elim [] Entry.ipAddrs

/-- An entry is found under its own name. -/
def Keyed (s : Dns) : Prop := ∀ n e, s.cachedEntries n = some e → e.name = n

/-- Only the cache has changed, by new entries and by addresses of the kind `G`. -/
structure Grows (G : Name → InetAddress → Prop) (s s' : Dns) : Prop where
  frame : ∃ c, s' = { s with cachedEntries := c }
  keyed : Keyed s'
  added : ∀ n, ∃ ips', s'.addrs n = s.addrs n ++ ips' ∧ ∀ ip ∈ ips', G n ip

theorem Grows.refl (h : Keyed s) : Grows G s s where
  frame := ⟨s.cachedEntries, rfl⟩
  keyed := h
  added n := ⟨[], by simp⟩

theorem Grows.trans (h : Grows G s s') (h' : Grows G s' t) : Grows G s t where
  frame := by
    obtain ⟨c, rfl⟩ := h.frame
    obtain ⟨c', rfl⟩ := h'.frame
    exact ⟨c', rfl⟩
  keyed := h'.keyed
  added n := by
    obtain ⟨a, ha, hg⟩ := h.added n
    obtain ⟨b, hb, hg'⟩ := h'.added n
    refine ⟨a ++ b, by rw [hb, ha, List.append_assoc], fun ip hip => ?_⟩
    rcases List.mem_append.mp hip with hip | hip
    · exact hg ip hip
    · exact hg' ip hip

theorem Grows.setEntry (h : Keyed s) (hn : e.name = n)
    (he : ∃ ips', e.ipAddrs = s.addrs n ++ ips' ∧ ∀ ip ∈ ips', G n ip) :
    Grows G s (s.setEntry n e) where
  frame := ⟨_, rfl⟩
  keyed m e' hm := by
    by_cases hmn : m = n
    · subst hmn
      rw [setEntry_cachedEntries, Function.update_self, Option.some_inj] at hm
      exact hm ▸ hn
    · rw [setEntry_cachedEntries, Function.update_of_ne hmn] at hm
      exact h m e' hm
  added m := by
    by_cases hmn : m = n
    · subst hmn
      simpa [addrs] using he
    · exact ⟨[], by simp [addrs, hmn]⟩

/-- `entry` and `wcb` point to the same name, or are null. -/
def Paired (p : Pointers) : Prop := p.wcb = p.entry

def Progress.state : Progress → Dns
  | .early s | .undef s | .on _ s => s

/-- `f` is what follows where `ans` goes on. -/
def Progress.andThen (r : Progress) (f : Pointers → Dns → Progress) : Progress :=
  match r with
  | .on p s => f p s
  | r => r

/-- An accepted name is that of `entry`, and its entry is in the cache. -/
theorem checkName_grows (h : Keyed s) (hp : Paired p) (num : UInt16) (name : Name)
    (hr : s.checkName num name p = (ok, p', s')) :
    Grows G s s' ∧ (ok = true → Paired p' ∧ p'.entry = some name ∧
      (s'.cachedEntries name).isSome = true) := by
  unfold checkName at hr
  cases hentry : p.entry with
  | some key =>
    simp only [hentry, Prod.mk.injEq] at hr
    obtain ⟨rfl, rfl, rfl⟩ := hr
    refine ⟨Grows.refl h, fun hok => ?_⟩
    obtain ⟨e, he, hname⟩ := Option.map_eq_some_iff.mp (of_decide_eq_true hok)
    obtain rfl : name = key := hname.symm.trans (h key e he)
    exact ⟨hp, hentry, by simp [he]⟩
  | none =>
    cases hw : s.waitingReqs name with
    | none =>
      simp only [hentry, hw, Prod.mk.injEq] at hr
      obtain ⟨rfl, -, rfl⟩ := hr
      exact ⟨Grows.refl h, nofun⟩
    | some w =>
      simp only [hentry, hw] at hr
      split at hr
      · simp only [Prod.mk.injEq] at hr
        obtain ⟨rfl, -, rfl⟩ := hr
        exact ⟨Grows.refl h, nofun⟩
      · simp only [Prod.mk.injEq] at hr
        obtain ⟨-, rfl, rfl⟩ := hr
        refine ⟨Grows.setEntry h rfl ⟨[], ?_, nofun⟩, fun _ => ⟨rfl, rfl, by simp⟩⟩
        rw [List.append_nil, addrs]
        cases s.cachedEntries name <;> rfl

/-- The cache grows by what `G` admits, and the pointers stay paired where `ans` goes on. -/
def Advances (G : Name → InetAddress → Prop) (s : Dns) (r : Progress) : Prop :=
  Grows G s r.state ∧ ∀ p' s', r = .on p' s' → Paired p'

theorem Advances.andThen {r : Progress} {f : Pointers → Dns → Progress} (h : Advances G s r)
    (hf : ∀ p' s', r = .on p' s' → Keyed s' → Paired p' → Advances G s' (f p' s')) :
    Advances G s (r.andThen f) := by
  obtain ⟨hg, hpair⟩ := h
  cases r with
  | on p' s' =>
    obtain ⟨hg', hpair'⟩ := hf p' s' rfl hg.keyed (hpair p' s' rfl)
    exact ⟨hg.trans hg', hpair'⟩
  | early s' => exact ⟨hg, fun _ _ he => by cases he⟩
  | undef s' => exact ⟨hg, fun _ _ he => by cases he⟩

/-- A checked item adds an address to the entry of its own name. -/
theorem takeItem_grows (h : Keyed s) (hp : Paired p) (num : UInt16) (ho : i.owner.isSome = true)
    (hi : ∀ p' s', s.takeItem num p i = .on p' s' →
      ∀ n ttl ip, i = .address true n ttl ip → G n ip) :
    Advances G s (s.takeItem num p i) := by
  cases i with
  | question name =>
    simp only [takeItem]
    generalize hr : s.checkName num name p = r
    obtain ⟨ok, p', s'⟩ := r
    obtain ⟨hg, hok⟩ := checkName_grows (G := G) h hp num name hr
    cases ok with
    | false => exact ⟨hg, fun _ _ he => by cases he⟩
    | true =>
      refine ⟨hg, fun q t he => ?_⟩
      cases he
      exact (hok rfl).1
  | address checked name ttl ip =>
    obtain rfl : checked = true := by
      cases checked with
      | true => rfl
      | false => simp [Item.owner] at ho
    simp only [takeItem, if_true] at hi ⊢
    generalize hr : s.checkName num name p = r at hi ⊢
    obtain ⟨ok, p', s'⟩ := r
    obtain ⟨hg, hok⟩ := checkName_grows (G := G) h hp num name hr
    cases ok with
    | false => exact ⟨hg, fun _ _ he => by cases he⟩
    | true =>
      obtain ⟨hpair, hentry, hsome⟩ := hok rfl
      obtain ⟨e, he⟩ := Option.isSome_iff_exists.mp hsome
      simp only [if_true, hentry, he] at hi ⊢
      refine ⟨hg.trans (Grows.setEntry hg.keyed (hg.keyed name e he) ⟨[ip], ?_, ?_⟩), ?_⟩
      · simp [Entry.addAddr, addrs, he]
      · intro ip' hip'
        rw [List.mem_singleton.mp hip']
        exact hi _ _ rfl name ttl ip rfl
      · intro q t hq
        cases hq
        exact hpair

theorem takeItems_cons (num : UInt16) (i : Item) (is : List Item) (p : Pointers) (s : Dns) :
    takeItems num (i :: is) p s = (s.takeItem num p i).andThen (takeItems num is) := rfl

theorem takeItems_append (num : UInt16) (is js : List Item) (p : Pointers) (s : Dns) :
    takeItems num (is ++ js) p s = (takeItems num is p s).andThen (takeItems num js) := by
  induction is generalizing p s with
  | nil => rfl
  | cons i is ih =>
    rw [List.cons_append, takeItems_cons, takeItems_cons]
    cases s.takeItem num p i with
    | on p s => exact ih p s
    | early s => rfl
    | undef s => rfl

theorem takeItems_grows (num : UInt16) (ho : ∀ i ∈ is, i.owner.isSome = true)
    (hi : ∀ n ttl ip, .address true n ttl ip ∈ is → G n ip) (h : Keyed s) (hp : Paired p) :
    Advances G s (takeItems num is p s) := by
  induction is generalizing p s with
  | nil =>
    refine ⟨Grows.refl h, fun p' s' he => ?_⟩
    cases he
    exact hp
  | cons i is ih =>
    have hfirst : Advances G s (s.takeItem num p i) :=
      takeItem_grows h hp num (ho i List.mem_cons_self)
        (fun _ _ _ n ttl ip he => hi n ttl ip (he ▸ List.mem_cons_self))
    rw [takeItems_cons]
    exact hfirst.andThen fun p' s' _ hk hp' => ih (fun j hj => ho j (List.mem_cons_of_mem i hj))
      (fun n ttl ip hm => hi n ttl ip (List.mem_cons_of_mem i hm)) hk hp'

end reading

section records
variable {G : Name → InetAddress → Prop} {s : Dns} {p : Pointers}

/-- Each record that `ans` comes to has a pointer for its owner, and class IN if `ans` uses it.
The owner of one that is accepted can be read. -/
def RecordsSound (R : BinStream κ) (data : List Byte) (num : UInt16) :
    Nat → κ → Pointers → Dns → Prop
  | 0, _, _, _ => True
  | k + 1, cur, p, s =>
    Pointed R cur ∧
      match (readRecord R data cur).1 with
      | none => RecordsSound R data num k (readRecord R data cur).2 p s
      | some i => i.owner.isSome = true ∧
        match s.takeItem num p i with
        | .on p s => Readable R data cur ∧
          RecordsSound R data num k (readRecord R data cur).2 p s
        | _ => True

instance RecordsSound.decidable (R : BinStream κ) (data : List Byte) (num : UInt16) :
    (k : Nat) → (cur : κ) → (p : Pointers) → (s : Dns) →
      Decidable (RecordsSound R data num k cur p s)
  | 0, _, _, _ => .isTrue trivial
  | k + 1, cur, p, s =>
    have : Decidable (match (readRecord R data cur).1 with
        | none => RecordsSound R data num k (readRecord R data cur).2 p s
        | some i => i.owner.isSome = true ∧
          match s.takeItem num p i with
          | .on p s => Readable R data cur ∧
            RecordsSound R data num k (readRecord R data cur).2 p s
          | _ => True) :=
      match (readRecord R data cur).1 with
      | none => RecordsSound.decidable R data num k (readRecord R data cur).2 p s
      | some i =>
        have : Decidable (match s.takeItem num p i with
            | .on p s => Readable R data cur ∧
              RecordsSound R data num k (readRecord R data cur).2 p s
            | _ => True) :=
          match s.takeItem num p i with
          | .on p s =>
            have := RecordsSound.decidable R data num k (readRecord R data cur).2 p s
            inferInstanceAs (Decidable (Readable R data cur ∧ _))
          | .early _ => .isTrue trivial
          | .undef _ => .isTrue trivial
        inferInstanceAs (Decidable (_ ∧ _))
    inferInstanceAs (Decidable (Pointed R cur ∧ _))

/-- The records of a datagram are sound, if `ans` comes to them. -/
def Sound (R : BinStream κ) (data : List Byte) (s : Dns) : Prop :=
  match s.takeItems (opening R data).num (opening R data).questions ⟨none, none⟩ with
  | .on p s => RecordsSound R data (opening R data).num (opening R data).records
      (opening R data).cur p s
  | _ => True

instance (R : BinStream κ) (data : List Byte) (s : Dns) : Decidable (Sound R data s) :=
  show Decidable (match s.takeItems (opening R data).num (opening R data).questions
      ⟨none, none⟩ with
    | .on p s => RecordsSound R data (opening R data).num (opening R data).records
        (opening R data).cur p s
    | _ => True) from
  match s.takeItems (opening R data).num (opening R data).questions ⟨none, none⟩ with
  | .on p s => RecordsSound.decidable R data (opening R data).num (opening R data).records
      (opening R data).cur p s
  | .early _ => .isTrue trivial
  | .undef _ => .isTrue trivial

/-- A record with a pointer for its owner is read as the wire has it. -/
theorem wireRecord_eq (h : Pointed R cur) (data : List Byte) :
    wireRecord R data cur = (if Readable R data cur then (readRecord R data cur).1 else none,
      (readRecord R data cur).2) := by
  rw [readRecord_fields, wireRecord, ownerName, if_pos h]

theorem takeItems_records {data : List Byte} {num : UInt16}
    (hs : RecordsSound R data num k cur p s) (h : Keyed s) (hp : Paired p)
    (hG : ∀ n ttl ip, .address true n ttl ip ∈ (readItems (wireRecord R data) k cur).1 → G n ip) :
    Advances G s (s.takeItems num (readItems (readRecord R data) k cur).1 p) := by
  induction k generalizing cur p s with
  | zero =>
    exact takeItems_grows num (fun _ hi => absurd hi List.not_mem_nil)
      (fun _ _ _ hm => absurd hm List.not_mem_nil) h hp
  | succ k ih =>
    obtain ⟨hpoint, hrest⟩ := hs
    simp only [readItems, wireRecord_eq hpoint] at hG ⊢
    have hlater : ∀ n ttl ip, .address true n ttl ip ∈
        (readItems (wireRecord R data) k (readRecord R data cur).2).1 → G n ip :=
      fun n ttl ip hm => hG n ttl ip (List.mem_append_right _ hm)
    cases hi : (readRecord R data cur).1 with
    | none =>
      simp only [hi, Option.toList_none, List.nil_append] at hrest ⊢
      exact ih hrest h hp hlater
    | some i =>
      simp only [hi, Option.toList_some, List.singleton_append] at hrest hG ⊢
      obtain ⟨ho, hrest⟩ := hrest
      have hfirst : Advances G s (s.takeItem num p i) :=
        takeItem_grows h hp num ho (fun p' s' ht n ttl ip he => by
          rw [ht] at hrest
          exact hG n ttl ip (by simp [hrest.1, he]))
      rw [takeItems_cons]
      refine hfirst.andThen fun p' s' ht hk hp' => ?_
      rw [ht] at hrest
      exact ih hrest.2 hk hp' hlater

theorem readQuestion_item (hi : (readQuestion R cur).1 = some i) :
    ∃ name, i = .question name := by
  simp only [readQuestion] at hi
  split at hi
  · exact ⟨_, (Option.some_inj.mp hi).symm⟩
  · exact nomatch hi

theorem mem_questions (n : Nat) (cur : κ) (hi : i ∈ (readItems (readQuestion R) n cur).1) :
    ∃ name, i = .question name := by
  induction n generalizing cur with
  | zero => exact absurd hi List.not_mem_nil
  | succ n ih =>
    rcases List.mem_append.mp hi with hi | hi
    · exact readQuestion_item (Option.mem_toList.mp hi)
    · exact ih _ hi

/-- A sound datagram adds to the cache what it gives. -/
theorem readAns_grows {data : List Byte} (hs : Sound R data s) (h : Keyed s) :
    Advances (Gives R data) s (s.readAns (parse R data)) := by
  have hq : ∀ i ∈ (opening R data).questions, ∃ name, i = .question name :=
    fun i hi => mem_questions _ _ hi
  have hchecked : ∀ i ∈ (opening R data).questions, i.owner.isSome = true := by
    intro i hi
    obtain ⟨name, rfl⟩ := hq i hi
    rfl
  have hnone : ∀ n ttl ip, .address true n ttl ip ∈ (opening R data).questions →
      Gives R data n ip := by
    intro n ttl ip hm
    obtain ⟨name, he⟩ := hq _ hm
    cases he
  rw [parse_opening, readAns, takeItems_append]
  refine (takeItems_grows (p := ⟨none, none⟩) _ hchecked hnone h rfl).andThen
    fun p' s' ht hk hp => ?_
  rw [Sound, ht] at hs
  exact takeItems_records hs hk hp (fun n ttl ip hm => ⟨ttl, hm⟩)

end records

section runs
variable {s : Dns} {past : List Input}

/-- The names that the callbacks are for, in the order of the queries. -/
def names (past : List Input) : List Name :=
  past.filterMap fun
    | .query addr _ _ _ => some addr
    | _ => none

/-- A datagram has given the address to the name. -/
def Given (R : BinStream κ) (past : List Input) (n : Name) (ip : InetAddress) : Prop :=
  ∃ data, .ans data ∈ past ∧ Gives R data n ip

/-- A callback may see addresses that its own name was given. -/
def Entitled (R : BinStream κ) (past : List Input) (cb : CallbackId)
    (ipAddrs : List InetAddress) : Prop :=
  ∃ n, (names past)[cb]? = some n ∧ ∀ ip ∈ ipAddrs, Given R past n ip

/-- The step adds to the addresses of a name what a datagram gives to that name. -/
def Contributes (R : BinStream κ) (e : Exec Dns) (i : Input) : Prop :=
  ∀ n, ∃ added, (step R e i).state.addrs n = e.state.addrs n ++ added ∧
    ∀ ip ∈ added, ∃ data, i = .ans data ∧ Gives R data n ip

/-- What a step asks: a datagram that `ans` reads is sound. -/
def Honest (R : BinStream κ) (s : Dns) : Input → Prop
  | .ans data => s.depth = 0 → Sound R data s
  | _ => True

instance (R : BinStream κ) (s : Dns) : DecidablePred (Honest R s)
  | .ans data => inferInstanceAs (Decidable (s.depth = 0 → Sound R data s))
  | .query _ _ _ _ | .timeout _ | .ret => .isTrue trivial

/-- All addresses are with their owners. -/
structure Attributed (R : BinStream κ) (past : List Input) (s : Dns) : Prop where
  keyed : Keyed s
  cache : ∀ n, ∀ ip ∈ s.addrs n, Given R past n ip
  pending : ∀ n, ∀ c ∈ s.cbsOf n, (names past)[c]? = some n
  loop : ∀ l, s.loop = some l → ∀ c ∈ l.left, Entitled R past c l.ipAddrs
  calls : ∀ c ∈ s.calls, Entitled R past c.cb c.ipAddrs

theorem Given.snoc (h : Given R past n ip) (i : Input) : Given R (past ++ [i]) n ip := by
  obtain ⟨data, hm, hg⟩ := h
  exact ⟨data, List.mem_append_left _ hm, hg⟩

theorem names_snoc {c : CallbackId} (h : (names past)[c]? = some n) (i : Input) :
    (names (past ++ [i]))[c]? = some n := by
  obtain ⟨hlt, -⟩ := List.getElem?_eq_some_iff.mp h
  have happ : names (past ++ [i]) = names past ++ names [i] := List.filterMap_append ..
  rw [happ, List.getElem?_append_left hlt, h]

theorem Entitled.snoc (h : Entitled R past cb ips) (i : Input) :
    Entitled R (past ++ [i]) cb ips := by
  obtain ⟨n, hn, hips⟩ := h
  exact ⟨n, names_snoc hn i, fun ip hip => (hips ip hip).snoc i⟩

theorem Attributed.snoc (h : Attributed R past s) (i : Input) : Attributed R (past ++ [i]) s where
  keyed := h.keyed
  cache n ip hip := (h.cache n ip hip).snoc i
  pending n c hc := names_snoc (h.pending n c hc) i
  loop l hl c hc := (h.loop l hl c hc).snoc i
  calls c hc := (h.calls c hc).snoc i

/-- The callbacks of a request are given what its name was given. -/
theorem Attributed.proceed (h : Attributed R past s) : Attributed R past s.proceed := by
  obtain ⟨-, he⟩ | ⟨l, -, -, he⟩ | ⟨l, c, left, hl, hleft, he⟩ := proceed_cases s
  · rwa [he]
  · rw [he]
    refine ⟨?_, ?_, ?_, ?_, ?_⟩
    · intro n e hn
      rw [erase_cachedEntries] at hn
      exact h.keyed n e hn
    · intro n ip hip
      rw [addrs, erase_cachedEntries] at hip
      exact h.cache n ip hip
    · intro n c hc
      exact h.pending n c (mem_cbsOf_erase hc).2
    · intro l' hl'
      rw [erase_loop] at hl'
      cases hl'
    · intro c hc
      rw [erase_calls] at hc
      exact h.calls c hc
  · rw [he]
    have hall : ∀ c' ∈ c :: left, Entitled R past c' l.ipAddrs := hleft ▸ h.loop l hl
    refine { h with loop := ?_, calls := ?_ }
    · intro l' hl' c' hc'
      obtain rfl : { l with left := left } = l' := by simpa [call] using hl'
      exact hall c' (List.mem_cons_of_mem c hc')
    · intro c' hc'
      rcases List.mem_append.mp hc' with hc' | hc'
      · exact h.calls c' hc'
      · rw [List.mem_singleton.mp hc']
        exact hall c List.mem_cons_self

theorem Attributed.startLoop (h : Attributed R past s)
    (hl : ∀ c ∈ cbs, Entitled R past c ips) :
    Attributed R past (s.startLoop ⟨n, cbs, err, ips⟩) := by
  refine Attributed.proceed { h with loop := ?_ }
  intro l hl'
  obtain rfl : ⟨n, cbs, err, ips⟩ = l := by simpa using hl'
  exact hl

theorem Attributed.call (h : Attributed R past s) (hc : Entitled R past c ips) :
    Attributed R past (s.call c err ips) := by
  refine { h with calls := fun c' hc' => ?_ }
  rcases List.mem_append.mp hc' with hc' | hc'
  · exact h.calls c' hc'
  · rw [List.mem_singleton.mp hc']
    exact hc

/-- A request is registered for its own name. -/
theorem Attributed.setWcb (h : Attributed R past s)
    (hw : ∀ c ∈ w.cbs, (names past)[c]? = some n) : Attributed R past (s.setWcb n w) := by
  refine { h with pending := fun m c hc => ?_ }
  obtain ⟨rfl, hmem⟩ | ⟨-, hmem⟩ := mem_cbsOf_setWcb hc
  · exact hw c hmem
  · exact h.pending m c hmem

/-- What holds of the callbacks between two steps. -/
structure Listed (R : BinStream κ) (past : List Input) (s : Dns) : Prop
    extends Attributed R past s where
  next : s.nextCb = (names past).length

theorem Listed.send (h : Listed R past s) (hc : (names past)[c]? = some n) :
    (s.send c conf).Split (Listed R past) (Attributed R past) := by
  have hfinish : ∀ t : Dns, Listed R past t →
      Listed R past (if t.serverIps.isEmpty then t.call c .noResolvEntry [] else t) := by
    intro t ht
    split
    · exact ⟨ht.toAttributed.call ⟨n, hc, nofun⟩, ht.next⟩
    · exact ht
  simp only [Dns.send]
  by_cases hread : (s.serverIps.isEmpty && !s.usedResolv) = true
  · rw [if_pos hread]
    cases conf with
    | none => exact { h.toAttributed with }
    | some lines =>
      exact hfinish { s with usedResolv := true, serverIps := _ }
        ⟨{ h.toAttributed with }, h.next⟩
  · rw [if_neg hread]
    exact hfinish s h

theorem Listed.query (h : Listed R past s) :
    (s.query addr num moved conf).Split (Listed R (past ++ [.query addr num moved conf]))
      (Attributed R (past ++ [.query addr num moved conf])) := by
  generalize hi : Input.query addr num moved conf = i
  have hnames : names (past ++ [i]) = names past ++ [addr] := by
    subst hi
    exact List.filterMap_append ..
  have hnew : (names (past ++ [i]))[s.nextCb]? = some addr := by
    rw [hnames, h.next]
    exact List.getElem?_concat_length
  have hnext : Listed R (past ++ [i]) { s with nextCb := s.nextCb + 1 } := by
    refine ⟨{ h.toAttributed.snoc i with }, ?_⟩
    rw [hnames, List.length_append, ← h.next]
    rfl
  simp only [Dns.query]
  split
  · next e he =>
    refine ⟨hnext.toAttributed.call ⟨addr, hnew, fun ip hip => ?_⟩, hnext.next⟩
    exact hnext.cache addr ip (by simpa [addrs, he] using hip)
  split
  · next w hw =>
    have hpush : Attributed R (past ++ [i]) ({ s with nextCb := s.nextCb + 1 }.setWcb addr
        { w with cbs := w.cbs ++ [s.nextCb] }) := by
      refine hnext.toAttributed.setWcb (fun c hc => ?_)
      rcases List.mem_append.mp hc with hc | hc
      · exact hnext.pending addr c (by simpa [cbsOf, hw] using hc)
      · rw [List.mem_singleton.mp hc]
        exact hnew
    split
    · exact hpush
    · exact ⟨hpush, hnext.next⟩
  · next hw =>
    have hpush : Attributed R (past ++ [i]) ({ s with nextCb := s.nextCb + 1 }.setWcb addr
        { name := addr, cbs := [s.nextCb], num := num }) := by
      refine hnext.toAttributed.setWcb (fun c hc => ?_)
      rw [List.mem_singleton.mp hc]
      exact hnew
    split
    · exact hpush
    · exact Listed.send ⟨hpush, hnext.next⟩ hnew

/-- What the cache gains from a sound datagram is given by it. -/
theorem Listed.grows (h : Listed R past s) (hg : Grows (Gives R data) s s')
    (hd : .ans data ∈ past) : Listed R past s' := by
  obtain ⟨c, rfl⟩ := hg.frame
  refine ⟨{ h.toAttributed with keyed := hg.keyed, cache := fun n ip hip => ?_ }, h.next⟩
  obtain ⟨added, he, hips⟩ := hg.added n
  rw [he] at hip
  rcases List.mem_append.mp hip with hip | hip
  · exact h.cache n ip hip
  · exact ⟨data, hd, hips ip hip⟩

theorem proceed_nextCb (s : Dns) : s.proceed.nextCb = s.nextCb := by
  obtain ⟨-, he⟩ | ⟨l, -, -, he⟩ | ⟨l, c, left, -, -, he⟩ := proceed_cases s
  · rw [he]
  · rw [he, erase_nextCb]
  · rw [he]
    rfl

theorem startLoop_nextCb (l : Loop) (s : Dns) : (s.startLoop l).nextCb = s.nextCb :=
  proceed_nextCb { s with loop := some l }

theorem Listed.ans {data : List Byte} (h : Listed R past s) (hs : Sound R data s)
    (hd : .ans data ∈ past) :
    (s.ans (parse R data)).Split (Listed R past) (Attributed R past) := by
  obtain ⟨hg, hpair⟩ := readAns_grows hs h.keyed
  have hl : Listed R past (s.readAns (parse R data)).state := h.grows hg hd
  unfold Dns.ans
  cases hr : s.readAns (parse R data) with
  | early s' =>
    rw [hr] at hl
    exact hl
  | undef s' =>
    rw [hr] at hl
    exact hl.toAttributed
  | on p s' =>
    have hl : Listed R past s' := by
      rw [hr] at hl
      exact hl
    have hp : p.wcb = p.entry := hpair p s' hr
    cases hk : p.wcb with
    | none =>
      simp only [hk]
      exact hl
    | some key =>
      have hentry : p.entry = some key := hp.symm.trans hk
      simp only [hk, hentry, Option.bind_some]
      cases hw : s'.waitingReqs key with
      | none => exact hl.toAttributed
      | some w =>
        cases he : s'.cachedEntries key with
        | none => exact hl.toAttributed
        | some e =>
          refine ⟨hl.toAttributed.startLoop (fun c hc => ⟨key, ?_, fun ip hip => ?_⟩), ?_⟩
          · exact hl.pending key c (by simpa [cbsOf, hw] using hc)
          · exact hl.cache key ip (by simpa [addrs, he] using hip)
          · rw [startLoop_nextCb]
            exact hl.next

theorem Listed.snoc (h : Listed R past s) (hi : names [i] = []) : Listed R (past ++ [i]) s := by
  refine ⟨h.toAttributed.snoc i, ?_⟩
  have happ : names (past ++ [i]) = names past ++ names [i] := List.filterMap_append ..
  rw [happ, hi, List.append_nil]
  exact h.next

theorem Listed.proceed (h : Listed R past s) : Listed R past s.proceed :=
  ⟨h.toAttributed.proceed, (proceed_nextCb s).trans h.next⟩

theorem Listed.apply (h : Listed R past s) {i : Input} (hx : Honest R s i) :
    (s.apply R i).Split (Listed R (past ++ [i])) (Attributed R (past ++ [i])) := by
  cases i with
  | query addr num moved conf => exact h.query
  | ans data =>
    simp only [Dns.apply]
    split
    · next hd => exact (h.snoc rfl).ans (hx hd) (by simp)
    · exact h.snoc rfl
  | timeout name =>
    have hs := h.snoc (i := .timeout name) rfl
    simp only [Dns.apply, Dns.onTimeout]
    split
    · split
      · exact hs
      · next w hw =>
        refine ⟨hs.toAttributed.startLoop (fun c hc => ⟨name, ?_, fun ip hip => ?_⟩), ?_⟩
        · exact hs.pending name c (by simpa [cbsOf, hw] using hc)
        · cases hip
        · rw [startLoop_nextCb]
          exact hs.next
    · exact hs
  | ret =>
    have hs := h.snoc (i := .ret) rfl
    simp only [Dns.apply, Dns.ret]
    split
    · exact hs
    · exact Listed.proceed (s := { s with depth := 0 }) ⟨{ hs.toAttributed with }, hs.next⟩
    · exact ⟨{ hs.toAttributed with }, hs.next⟩

theorem proceed_cachedEntries (s : Dns) : s.proceed.cachedEntries = s.cachedEntries := by
  obtain ⟨-, he⟩ | ⟨l, -, -, he⟩ | ⟨l, c, left, -, -, he⟩ := proceed_cases s
  · rw [he]
  · rw [he, erase_cachedEntries]
  · rw [he]
    rfl

theorem send_cachedEntries : (s.send c conf).state.cachedEntries = s.cachedEntries := by
  have hfinish : ∀ t : Dns, (Exec.ret (if t.serverIps.isEmpty then
      t.call c .noResolvEntry [] else t)).state.cachedEntries = t.cachedEntries := by
    intro t
    simp only [Exec.state]
    split <;> rfl
  simp only [Dns.send]
  by_cases hread : (s.serverIps.isEmpty && !s.usedResolv) = true
  · rw [if_pos hread]
    cases conf with
    | none => rfl
    | some lines => exact hfinish { s with usedResolv := true, serverIps := _ }
  · rw [if_neg hread]
    exact hfinish s

theorem query_cachedEntries :
    (s.query addr num moved conf).state.cachedEntries = s.cachedEntries := by
  simp only [Dns.query]
  split
  · rfl
  split
  · split <;> rfl
  · split
    · rfl
    · exact send_cachedEntries

theorem ans_cachedEntries (d : Datagram) (s : Dns) :
    (s.ans d).state.cachedEntries = (s.readAns d).state.cachedEntries := by
  unfold Dns.ans
  cases s.readAns d with
  | early s' => rfl
  | undef s' => rfl
  | on p s' =>
    simp only
    split
    · rfl
    split
    · next e _ _ => exact proceed_cachedEntries { s' with loop := some ⟨e.name, _, .ok, e.ipAddrs⟩ }
    · rfl

/-- A step adds to the cache what a sound datagram gives, and nothing else. -/
theorem contributes {e : Exec Dns} (hk : Keyed e.state)
    (hx : e.Split (fun s => Honest R s i) (fun _ => True)) : Contributes R e i := by
  have hsame : (step R e i).state.cachedEntries = e.state.cachedEntries → Contributes R e i := by
    intro he n
    exact ⟨[], by simp [addrs, he], nofun⟩
  cases e with
  | hang s => exact hsame rfl
  | undef s => exact hsame rfl
  | ret s =>
    cases i with
    | query addr num moved conf => exact hsame query_cachedEntries
    | ans data =>
      by_cases hd : s.depth = 0
      · obtain ⟨hg, -⟩ := readAns_grows (hx hd) hk
        intro n
        obtain ⟨added, he, hips⟩ := hg.added n
        refine ⟨added, ?_, fun ip hip => ⟨data, rfl, hips ip hip⟩⟩
        simp only [step, Exec.andThen, Dns.apply, hd, if_true, addrs, ans_cachedEntries]
        exact he
      · refine hsame ?_
        simp [step, Exec.andThen, Dns.apply, hd, Exec.state]
    | timeout name =>
      refine hsame ?_
      simp only [step, Exec.andThen, Dns.apply, Exec.state, Dns.onTimeout]
      split
      · split
        · rfl
        · exact proceed_cachedEntries _
      · rfl
    | ret =>
      refine hsame ?_
      simp only [step, Exec.andThen, Dns.apply, Exec.state, Dns.ret]
      split
      · rfl
      · exact proceed_cachedEntries _
      · rfl

/-- In a run whose datagrams are sound as far as `ans` reads them, each step adds to the addresses
of a name what a datagram gives to that name, and each callback sees addresses that its own name
was given. -/
theorem addresses_attributed (R : BinStream κ) (inputs : List Input)
    (hx : Along (step R) (fun e i => e.Split (fun s => Honest R s i) (fun _ => True))
      (.ret new) inputs) :
    Along (step R) (Contributes R) (.ret new) inputs ∧
      ∀ c ∈ (run (step R) (.ret new) inputs).state.calls, Entitled R inputs c.cb c.ipAddrs := by
  let Inv (past : List Input) (e : Exec Dns) : Prop :=
    e.Split (Listed R past) (Attributed R past)
  have hlisted : Listed R [] new := ⟨⟨nofun, nofun, nofun, nofun, nofun⟩, rfl⟩
  have hnew : Inv [] (.ret new) := hlisted
  have hstep : ∀ past e i, Inv past e → e.Split (fun s => Honest R s i) (fun _ => True) →
      Inv (past ++ [i]) (step R e i) := by
    intro past e i he hi
    cases e with
    | ret s => exact Listed.apply he hi
    | hang s => exact Attributed.snoc he i
    | undef s => exact Attributed.snoc he i
  have hattr : ∀ past e, Inv past e → Attributed R past e.state := by
    intro past e he
    exact (he.mono (fun s h => h.toAttributed) (fun s h => h)).state
  refine ⟨?_, ?_⟩
  · refine Along.imp (fun e => ∃ past, Inv past e) ?_ ?_ ⟨[], hnew⟩ hx
    · intro e i he hi
      obtain ⟨past, he⟩ := he
      exact ⟨past ++ [i], hstep past e i he hi⟩
    · intro e i he hi
      obtain ⟨past, he⟩ := he
      exact contributes (hattr past e he).keyed hi
  · exact (hattr _ _ (run_history Inv hstep hnew hx)).calls

/-- The answer with the number 7 to a question about "a": an A record of this class, whose owner
is "a". -/
def classAnswer (qclass : Byte) : List Byte :=
  [0, 7, 0x81, 0x80, 0, 1, 0, 1, 0, 0, 0, 0, 1, 97, 0, 0, 255, 0, 1,
    0xC0, 12, 0, 1, 0, qclass, 0, 0, 0, 60, 0, 4, 1, 2, 3, 4]

theorem addresses_attributed_one :
    let inputs := [.query [97] 7 false (some oneServer), .ans (classAnswer 1), .ret]
    Along (step .inOrder) (Contributes .inOrder) (.ret new) inputs ∧
      ∀ c ∈ (run (step .inOrder) (.ret new) inputs).state.calls,
        Entitled .inOrder inputs c.cb c.ipAddrs :=
  addresses_attributed .inOrder _ (by decide)

/-- The address of a record of class CH is cached, and the callback is given it. -/
theorem chaos_address_cached :
    let s := (run (step .inOrder) (.ret new) [.query [97] 7 false (some oneServer)]).state
    let s' := (step .inOrder (.ret s) (.ans (classAnswer 3))).state
    s'.addrs [97] = [.ofV4 [1, 2, 3, 4] 0] ∧ s'.calls = [⟨0, .ok, [.ofV4 [1, 2, 3, 4] 0]⟩] ∧
      ¬ Contributes .inOrder (.ret s) (.ans (classAnswer 3)) := by
  have hw : wireRecords .inOrder (classAnswer 3) =
      [.address false [97] 60 (.ofV4 [1, 2, 3, 4] 0)] := by decide
  refine ⟨by decide, by decide, fun h => ?_⟩
  obtain ⟨added, he, hips⟩ := h [97]
  have hadded : added = [.ofV4 [1, 2, 3, 4] 0] := by
    rw [← List.nil_append added]
    exact he.symm.trans (by decide)
  obtain ⟨data, hdata, ttl, hm⟩ := hips (.ofV4 [1, 2, 3, 4] 0) (by simp [hadded])
  cases hdata
  rw [hw] at hm
  simp at hm

end runs

end Evel.Dns
