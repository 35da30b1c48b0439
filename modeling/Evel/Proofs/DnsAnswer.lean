import Evel.Model.Dns

namespace Evel.Dns
open General
variable {s : Dns} {p : Pointers} {e : Entry} {i : Item} {is : List Item}

/-- With the fuel of `read_cname` the loop ends by itself. -/
theorem readLabels_fuel {R : BinStream κ} (hf : R.size cur < fuel) (hg : R.size cur < gas) :
    readLabels R fuel cur name = readLabels R gas cur name := by
  induction fuel generalizing gas cur name with
  | zero => exact absurd hf (Nat.not_lt_zero _)
  | succ fuel ih =>
    obtain _ | gas := gas
    · exact absurd hg (Nat.not_lt_zero _)
    simp only [readLabels]
    split
    · rfl
    split
    · rfl
    · next hc =>
      have hsize : R.size (R.skipSome (R.readByte cur).1.toNat (R.readByte cur).2) < R.size cur :=
        Nat.lt_of_le_of_lt (R.size_skipSome _ _) (R.size_readByte cur hc)
      exact ih (Nat.lt_of_lt_of_le hsize (Nat.le_of_lt_succ hf))
        (Nat.lt_of_lt_of_le hsize (Nat.le_of_lt_succ hg))

/-- The name that `check_name` is called with, if it is called. -/
def Item.owner : Item → Option Name
  | .question name => some name
  | .address checked name _ _ => if checked then some name else none

/-- The item does not make `ans` return early when the entry is that of `name`. -/
def Item.ownedBy (name : Name) (i : Item) : Bool := i.owner.all (· = name)

def Item.ipAddr : Item → Option InetAddress
  | .question _ => none
  | .address _ _ _ ip => some ip

def Item.addTo (e : Entry) : Item → Entry
  | .question _ => e
  | .address _ _ ttl ip => e.addAddr ttl ip

/-- The entry after all these items. -/
def gather (is : List Item) (e : Entry) : Entry := is.foldl Item.addTo e

/-- The entry that an accepted name gets. -/
def opened (name : Name) (s : Dns) : Entry :=
  { (s.cachedEntries name).getD .new with name := name }

/-- The name has a pending request, with this number. -/
def accepts (num : UInt16) (name : Name) (s : Dns) : Bool :=
  (s.waitingReqs name).any (fun wcb => wcb.num = num)

@[simp] theorem setEntry_cachedEntries :
    (setEntry n e s).cachedEntries = Function.update s.cachedEntries n (some e) := rfl

@[simp] theorem setEntry_waitingReqs : (setEntry n e s).waitingReqs = s.waitingReqs := rfl

@[simp] theorem setEntry_setEntry : (setEntry n e s).setEntry n e' = s.setEntry n e' := by
  simp [setEntry]

theorem setEntry_self (he : s.cachedEntries n = some e) : s.setEntry n e = s := by
  rw [setEntry, ← he, Function.update_eq_self]

@[simp] theorem Item.addTo_name : (Item.addTo e i).name = e.name := by
  cases i <;> rfl

theorem Item.addTo_ipAddrs : (Item.addTo e i).ipAddrs = e.ipAddrs ++ i.ipAddr.toList := by
  cases i with
  | question name => simp [addTo, ipAddr]
  | address checked name ttl ip => rfl

@[simp] theorem gather_name : (gather is e).name = e.name := by
  induction is generalizing e with
  | nil => rfl
  | cons i is ih => exact (ih (e := i.addTo e)).trans Item.addTo_name

theorem gather_ipAddrs : (gather is e).ipAddrs = e.ipAddrs ++ is.filterMap Item.ipAddr := by
  induction is generalizing e with
  | nil => simp [gather]
  | cons i is ih =>
    have := ih (e := i.addTo e)
    rw [Item.addTo_ipAddrs, List.append_assoc] at this
    rw [List.filterMap_cons]
    cases hi : i.ipAddr <;> simpa [gather, hi] using this

theorem gather_eq_self (h : is.filterMap Item.ipAddr = []) : gather is e = e := by
  induction is generalizing e with
  | nil => rfl
  | cons i is ih =>
    cases i with
    | question name => exact ih (by simpa [Item.ipAddr] using h)
    | address checked name ttl ip => simp [Item.ipAddr] at h

/-- An item that comes when `entry` is set. -/
theorem takeItem_entry (hp : p.entry = some n) (he : s.cachedEntries n = some e)
    (hn : e.name = n) :
    s.takeItem num p i =
      if i.ownedBy n then .on p (s.setEntry n (i.addTo e)) else .early s := by
  have hcheck (name : Name) : s.checkName num name p = (decide (n = name), p, s) := by
    simp [checkName, hp, he, hn]
  cases i with
  | question name =>
    simp only [takeItem, hcheck, Item.ownedBy, Item.owner, Item.addTo, Option.all_some,
      setEntry_self he, eq_comm]
  | address checked name ttl ip =>
    cases checked with
    | true =>
      simp only [takeItem, hcheck, if_true, hp, he, Item.ownedBy, Item.owner, Item.addTo,
        Option.all_some, eq_comm]
    | false => simp [takeItem, hp, he, Item.ownedBy, Item.owner, Item.addTo]

theorem takeItems_entry (hp : p.entry = some n) (he : s.cachedEntries n = some e)
    (hn : e.name = n) :
    takeItems num is p s =
      let s' := s.setEntry n (gather (is.takeWhile (Item.ownedBy n)) e)
      if is.all (Item.ownedBy n) then .on p s' else .early s' := by
  induction is generalizing s e with
  | nil => simp [takeItems, gather, setEntry_self he]
  | cons i is ih =>
    rw [takeItems, takeItem_entry hp he hn]
    by_cases hi : i.ownedBy n = true
    · simp only [hi, if_true]
      rw [ih (e := i.addTo e) (by simp) (by simpa using hn)]
      simp [hi, gather]
    · simp [hi, gather, setEntry_self he]

/-- The first item opens the entry, or `ans` goes no further. -/
theorem takeItem_first :
    s.takeItem num ⟨none, none⟩ i =
      match i.owner with
      | none => .undef s
      | some n =>
        if s.accepts num n then .on ⟨some n, some n⟩ (s.setEntry n (i.addTo (s.opened n)))
        else .early s := by
  have hcheck (name : Name) : (s.checkName num name ⟨none, none⟩).1 = s.accepts num name ∧
      (s.accepts num name = true → (s.checkName num name ⟨none, none⟩).2 =
        (⟨some name, some name⟩, s.setEntry name (s.opened name))) ∧
      (s.accepts num name = false → (s.checkName num name ⟨none, none⟩).2.2 = s) := by
    simp only [checkName, accepts]
    cases hw : s.waitingReqs name with
    | none => simp
    | some wcb => by_cases hnum : wcb.num = num <;> simp [hnum, opened]
  cases i with
  | question name =>
    obtain ⟨h1, h2, h3⟩ := hcheck name
    simp only [takeItem, Item.owner, h1, Item.addTo]
    cases ha : s.accepts num name with
    | true => simp [h2 ha]
    | false => simp [h3 ha]
  | address checked name ttl ip =>
    cases checked with
    | false => rfl
    | true =>
      obtain ⟨h1, h2, h3⟩ := hcheck name
      simp only [takeItem, Item.owner, h1, Item.addTo, if_true]
      cases ha : s.accepts num name with
      | true => simp [h2 ha]
      | false => simp [h3 ha]

/-- What `ans` has done when it comes to the callbacks, or when it returns before. -/
theorem readAns_cons (num : UInt16) (i : Item) (is : List Item) (s : Dns) :
    s.readAns ⟨num, i :: is⟩ =
      match i.owner with
      | none => .undef s
      | some n =>
        if s.accepts num n then
          let s' := s.setEntry n (gather ((i :: is).takeWhile (Item.ownedBy n)) (s.opened n))
          if is.all (Item.ownedBy n) then .on ⟨some n, some n⟩ s' else .early s'
        else .early s := by
  simp only [readAns, takeItems, takeItem_first]
  cases ho : i.owner with
  | none => rfl
  | some n =>
    have hi : i.ownedBy n = true := by simp [Item.ownedBy, ho]
    by_cases ha : s.accepts num n = true
    · simp only [ha, if_true]
      rw [takeItems_entry (n := n) (e := i.addTo (s.opened n)) rfl (by simp) (by simp [opened])]
      simp [hi, gather]
    · simp [ha]

/-- `ans` gets to the callbacks of a request. -/
def Progress.completes : Progress → Bool
  | .on p _ => p.wcb.isSome
  | _ => false

/-- If `ans` returns without completing a pending request, the cache is what it was. -/
def Untouched (d : Datagram) (s : Dns) : Prop :=
  ∀ s', s.ans d = .ret s' → (s.readAns d).completes = false →
    s'.cachedEntries = s.cachedEntries

/-- A datagram whose first name is accepted names nothing else, or it finds the entry of that
name in the cache and adds no address before it comes to another name. -/
def OneName (s : Dns) : Datagram → Prop
  | ⟨_, []⟩ => True
  | ⟨num, i :: is⟩ => ∀ n ∈ i.owner, s.accepts num n = true →
      is.all (Item.ownedBy n) = true ∨
        ((s.cachedEntries n).map Entry.name = some n ∧
          ((i :: is).takeWhile (Item.ownedBy n)).filterMap Item.ipAddr = [])

/-- An accepted name leaves the cache as it is if its entry is there and gets no address. -/
theorem gather_untouched :
    Function.update s.cachedEntries n (some (gather is (s.opened n))) = s.cachedEntries ↔
      (s.cachedEntries n).map Entry.name = some n ∧ is.filterMap Item.ipAddr = [] := by
  rw [Function.update_eq_self_iff]
  cases hc : s.cachedEntries n with
  | none => simp
  | some e =>
    have hopened : s.opened n = { e with name := n } := by rw [opened, hc, Option.getD_some]
    rw [Option.some_inj, Option.map_some, Option.some_inj, hopened]
    constructor
    · intro h
      have hname := congrArg Entry.name h
      have hips := congrArg Entry.ipAddrs h
      rw [gather_name] at hname
      rw [gather_ipAddrs] at hips
      exact ⟨hname.symm, List.append_right_eq_self.mp hips⟩
    · rintro ⟨rfl, hips⟩
      exact gather_eq_self hips

theorem untouched_early (h : s.readAns d = .early s') :
    Untouched d s ↔ s'.cachedEntries = s.cachedEntries := by
  simp [Untouched, ans, h, Progress.completes]

theorem untouched_undef (h : s.readAns d = .undef s') : Untouched d s := by
  simp [Untouched, ans, h]

theorem untouched_completes (h : (s.readAns d).completes = true) : Untouched d s :=
  fun _ _ hc => absurd (h.symm.trans hc) Bool.noConfusion

theorem cache_untouched_iff (R : BinStream κ) (data : List Byte) (s : Dns) :
    Untouched (parse R data) s ↔ OneName s (parse R data) := by
  obtain ⟨num, is⟩ := parse R data
  cases is with
  | nil =>
    refine iff_of_true ?_ trivial
    rintro s' ⟨⟩ -
    rfl
  | cons i is =>
    simp only [OneName]
    cases ho : i.owner with
    | none => exact iff_of_true (untouched_undef (by rw [readAns_cons, ho])) nofun
    | some n =>
      have hr := readAns_cons num i is s
      simp only [ho] at hr
      simp only [Option.mem_some_iff, forall_eq']
      by_cases ha : s.accepts num n = true
      · rw [if_pos ha] at hr
        by_cases hall : is.all (Item.ownedBy n) = true
        · rw [if_pos hall] at hr
          exact iff_of_true (untouched_completes (by rw [hr]; rfl)) (fun _ => .inl hall)
        · rw [if_neg hall] at hr
          rw [untouched_early hr, setEntry_cachedEntries, gather_untouched]
          simp only [ha, hall, Bool.false_eq_true, false_or, forall_const]
      · rw [if_neg ha] at hr
        exact iff_of_true ((untouched_early hr).mpr rfl) (fun h => absurd h ha)

/-- The answer to a question about "a": a CNAME record from "a" to "b", and the address of "b". -/
def cnameAnswer : List Byte :=
  [0, 7, 0x81, 0x80, 0, 1, 0, 2, 0, 0, 0, 0,
    1, 97, 0, 0, 255, 0, 1,
    0xC0, 12, 0, 5, 0, 1, 0, 0, 0, 60, 0, 3, 1, 98, 0,
    0xC0, 31, 0, 1, 0, 1, 0, 0, 0, 60, 0, 4, 1, 2, 3, 4]

/-- The state after a query for "a" with the number 7. -/
def waitingForA : Dns :=
  { new.setWcb [97] ⟨[97], [0], 7⟩ with
    serverIps := [[49]]
    nextCb := 1 }

theorem parse_cnameAnswer :
    parse .inOrder cnameAnswer =
      ⟨7, [.question [97], .address true [98] 60 (.ofV4 [1, 2, 3, 4] 0)]⟩ := by
  decide

/-- The answer is given up at the address of "b". A new query for "a" then succeeds at once,
with no address. -/
theorem cname_caches_nothing_found :
    ¬ Untouched (parse .inOrder cnameAnswer) waitingForA ∧
      ∃ s, (waitingForA.ans (parse .inOrder cnameAnswer)).andThen
        (fun s => s.query [97] 8 false none) = .ret s ∧ s.calls = [⟨1, .ok, []⟩] := by
  rw [parse_cnameAnswer]
  refine ⟨?_, _, rfl, rfl⟩
  rw [untouched_early rfl]
  intro h
  exact absurd (congrFun h [97]) (by decide)

end Evel.Dns
