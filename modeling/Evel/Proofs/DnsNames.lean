import Evel.Proofs.DnsFrame

namespace Evel.Dns
open General
variable {R : BinStream κ} {left : κ → List Byte}

/-- A name that is spelled as the wire spells it: labels of 1 to 255 characters with one dot
between two of them, and no other separator. -/
def Canonical (addr : Name) : Prop :=
  addr = [] ∨ ∀ l ∈ addr.splitOn 46, l ≠ [] ∧ l.length < 256 ∧ 64 ∉ l ∧ 0 ∉ l

instance : DecidablePred Canonical := fun addr =>
  inferInstanceAs (Decidable (addr = [] ∨
    ∀ l ∈ addr.splitOn 46, l ≠ [] ∧ l.length < 256 ∧ 64 ∉ l ∧ 0 ∉ l))

/-- What lies between two dots has a length of one byte. -/
def Short (name : Name) : Prop := ∀ l ∈ name.splitOn 46, l.length < 256

section labels

def nonempty (label : List Byte) : List (List Byte) := if label = [] then [] else [label]

/-- The labels that the loop of `query` writes, with the characters from `b` to `e` before. -/
def labels : Name → List Byte → List (List Byte)
  | [], label => nonempty label
  | c :: cs, label =>
    if c = 0 then nonempty label
    else if c = 46 ∨ c = 64 then nonempty label ++ labels cs []
    else labels cs (label ++ [c])

def writeAll (ls : List (List Byte)) : List Byte :=
  ls.flatMap (fun l => UInt8.ofNat l.length :: l)

theorem writeLabel_eq (l : List Byte) : writeLabel l = writeAll (nonempty l) := by
  cases l with
  | nil => rfl
  | cons c cs => simp [writeLabel, writeAll, nonempty]

theorem writeLabels_eq (cs : Name) (l : List Byte) : writeLabels cs l = writeAll (labels cs l) := by
  induction cs generalizing l with
  | nil => exact writeLabel_eq l
  | cons c cs ih =>
    simp only [writeLabels, labels, ih, writeLabel_eq]
    by_cases h0 : c = 0
    · simp [h0]
    · by_cases hsep : c = 46 ∨ c = 64 <;> simp [h0, hsep, writeAll]

theorem mem_nonempty : q ∈ nonempty l ↔ l ≠ [] ∧ q = l := by
  by_cases h : l = [] <;> simp [nonempty, h]

/-- What holds of the label at hand and the characters left, however far the loop has come, says
what its labels are. -/
theorem labels_rule {Inv : List Byte → Name → Prop} {P : List Byte → Prop}
    (hkeep : ∀ l cs, Inv l cs → l ≠ [] → P l)
    (hcut : ∀ l c cs, Inv l (c :: cs) → Inv [] cs)
    (hnext : ∀ l c cs, Inv l (c :: cs) → c ≠ 0 → c ≠ 46 → c ≠ 64 → Inv (l ++ [c]) cs)
    (cs : Name) (h : Inv l cs) : ∀ q ∈ labels cs l, P q := by
  have hlabel : ∀ l cs, Inv l cs → ∀ q ∈ nonempty l, P q := by
    intro l cs h q hq
    obtain ⟨hne, rfl⟩ := mem_nonempty.mp hq
    exact hkeep q cs h hne
  induction cs generalizing l with
  | nil => exact hlabel l [] h
  | cons c cs ih =>
    simp only [labels]
    split
    · exact hlabel l _ h
    · next hc =>
      split
      · intro q hq
        rcases List.mem_append.mp hq with hq | hq
        · exact hlabel l _ h q hq
        · exact ih (hcut l c cs h) q hq
      · next hsep =>
        obtain ⟨hdot, hat⟩ := not_or.mp hsep
        exact ih (hnext l c cs h hc hdot hat)

/-- A label holds no separator, and at least one character. -/
theorem labels_clean (cs : Name) (hdot : 46 ∉ l) (hat : 64 ∉ l) (h0 : 0 ∉ l) :
    ∀ q ∈ labels cs l, q ≠ [] ∧ 46 ∉ q ∧ 64 ∉ q ∧ 0 ∉ q := by
  refine labels_rule (fun l _ (h : 46 ∉ l ∧ 64 ∉ l ∧ 0 ∉ l) hne => ⟨hne, h⟩)
    (fun _ _ _ _ => by simp) ?_ cs ⟨hdot, hat, h0⟩
  intro l c cs h hc hdot hat
  simp [h, hc.symm, hdot.symm, hat.symm]

/-- What stands before the first dot belongs to the first piece. -/
theorem splitOn_append_left (hl : (46 : Byte) ∉ l) (cs : Name) :
    (l ++ cs).splitOn 46 = (cs.splitOn 46).modifyHead (l ++ ·) := by
  induction l with
  | nil =>
    rw [List.nil_append]
    cases cs.splitOn 46 <;> rfl
  | cons c l ih =>
    have hc : c ≠ 46 := fun he => hl (he ▸ List.mem_cons_self)
    rw [List.cons_append, List.splitOn_cons_eq_if_modifyHead, if_neg (by simpa using hc),
      ih (fun hm => hl (List.mem_cons_of_mem c hm))]
    cases cs.splitOn 46 <;> rfl

theorem Short.suffix {l cs : Name} (h : Short (l ++ cs)) : Short cs := by
  induction l with
  | nil => exact h
  | cons c l ih =>
    refine ih ?_
    intro q hq
    rw [List.cons_append, Short, List.splitOn_cons_eq_if_modifyHead] at h
    by_cases hc : c = 46
    · rw [if_pos (by simpa using hc)] at h
      exact h q (List.mem_cons_of_mem _ hq)
    · rw [if_neg (by simpa using hc)] at h
      cases hs : (l ++ cs).splitOn 46 with
      | nil => exact absurd hs (List.splitOn_ne_nil _ _)
      | cons p ps =>
        rw [hs] at h hq
        rcases List.mem_cons.mp hq with rfl | hq
        · exact Nat.lt_of_succ_lt (h (c :: q) List.mem_cons_self)
        · exact h q (List.mem_cons_of_mem _ hq)

/-- What stands before the first dot is short. -/
theorem Short.head {l cs : Name} (h : Short (l ++ cs)) (hl : 46 ∉ l) : l.length < 256 := by
  cases hs : cs.splitOn 46 with
  | nil => exact absurd hs (List.splitOn_ne_nil _ _)
  | cons p ps =>
    have := h (l ++ p) (by rw [splitOn_append_left hl, hs]; exact List.mem_cons_self)
    rw [List.length_append] at this
    omega

/-- A label lies between two dots. -/
theorem labels_short (cs : Name) (hl : 46 ∉ l) (h : Short (l ++ cs)) :
    ∀ q ∈ labels cs l, q.length < 256 := by
  refine labels_rule (fun l cs (h : 46 ∉ l ∧ Short (l ++ cs)) _ => h.2.head h.1) ?_ ?_ cs ⟨hl, h⟩
  · intro l c cs h
    exact ⟨List.not_mem_nil, Short.suffix (l := l ++ [c]) (by simpa using h.2)⟩
  · intro l c cs h _ hdot _
    exact ⟨by simpa [h.1] using hdot.symm, by simpa using h.2⟩

theorem labels_fit (h : Short addr) : ∀ l ∈ labels addr [], l ≠ [] ∧ l.length < 256 :=
  fun l hl => ⟨(labels_clean addr List.not_mem_nil List.not_mem_nil List.not_mem_nil l hl).1,
    labels_short addr List.not_mem_nil h l hl⟩

/-- The labels of a canonical name are what lies between its dots. -/
theorem labels_canonical (cs : Name) (hl : 46 ∉ l)
    (h : ∀ q ∈ (l ++ cs).splitOn 46, q ≠ [] ∧ 64 ∉ q ∧ 0 ∉ q) :
    labels cs l = (l ++ cs).splitOn 46 := by
  induction cs generalizing l with
  | nil =>
    rw [List.append_nil, List.splitOn_eq_singleton hl] at h ⊢
    exact if_neg (h l List.mem_cons_self).1
  | cons c cs ih =>
    by_cases hdot : c = 46
    · subst hdot
      rw [List.splitOn_append_cons_self_of_not_mem hl] at h ⊢
      have hne : l ≠ [] := (h l List.mem_cons_self).1
      have hcs := ih (l := []) List.not_mem_nil (fun q hq => h q (List.mem_cons_of_mem l hq))
      simp [labels, nonempty, hne, hcs]
    · have hd : 46 ∉ l ++ [c] := by simpa [hl] using Ne.symm hdot
      have happ : l ++ c :: cs = (l ++ [c]) ++ cs := by simp
      rw [happ] at h ⊢
      have hmem : ∃ q ∈ ((l ++ [c]) ++ cs).splitOn 46, c ∈ q := by
        cases hs : cs.splitOn 46 with
        | nil => exact absurd hs (List.splitOn_ne_nil _ _)
        | cons p ps =>
          exact ⟨(l ++ [c]) ++ p, by rw [splitOn_append_left hd, hs]; exact List.mem_cons_self,
            by simp⟩
      obtain ⟨q, hq, hc⟩ := hmem
      obtain ⟨-, hat, h0⟩ := h q hq
      have hc0 : c ≠ 0 := fun he => h0 (he ▸ hc)
      have hc64 : c ≠ 64 := fun he => hat (he ▸ hc)
      rw [← ih hd h]
      simp [labels, hc0, hdot, hc64]

/-- The labels with dots between them. -/
def dotted (ls : List (List Byte)) : Name := [(46 : Byte)].intercalate ls

/-- A name is read back from its labels exactly if it is canonical. -/
theorem dotted_labels_iff (h : Short addr) :
    dotted (labels addr []) = addr ↔ Canonical addr := by
  have hclean := labels_clean addr (l := []) List.not_mem_nil List.not_mem_nil List.not_mem_nil
  constructor
  · intro he
    cases hls : labels addr [] with
    | nil =>
      rw [hls] at he
      exact .inl he.symm
    | cons l ls =>
      have hsplit : addr.splitOn 46 = labels addr [] := by
        conv_lhs => rw [← he]
        exact List.splitOn_intercalate 46 (fun q hq => (hclean q hq).2.1) (by simp [hls])
      refine .inr (fun q hq => ?_)
      obtain ⟨hne, -, hat, h0⟩ := hclean q (hsplit ▸ hq)
      exact ⟨hne, h q hq, hat, h0⟩
  · rintro (rfl | hc)
    · rfl
    · rw [labels_canonical addr List.not_mem_nil
        (fun q hq => ⟨(hc q hq).1, (hc q hq).2.2⟩), List.nil_append]
      exact List.intercalate_splitOn 46

theorem Canonical.short (h : Canonical addr) : Short addr := by
  rcases h with rfl | h
  · intro q hq
    simp at hq
    simp [hq]
  · exact fun q hq => (h q hq).2.1

end labels

section reading

/-- What a label makes of the name read so far. -/
def extend (name l : Name) : Name := (if name.isEmpty then name else name ++ [46]) ++ l

theorem dotted_append (a b : Name) (ls : List Name) :
    dotted ((a ++ b) :: ls) = a ++ dotted (b :: ls) := by
  cases ls with
  | nil => simp [dotted]
  | cons l ls => simp [dotted, List.intercalate_cons_cons]

theorem foldl_extend (hn : name ≠ []) (ls : List Name) :
    ls.foldl extend name = dotted (name :: ls) := by
  induction ls generalizing name with
  | nil => simp [dotted]
  | cons l ls ih =>
    have he : extend name l = (name ++ [46]) ++ l := by simp [extend, hn]
    rw [List.foldl_cons, ih (by simp [he]), he, dotted_append]
    simp [dotted, List.intercalate_cons_cons]

theorem foldl_extend_nil (h : ∀ l ∈ ls, l ≠ []) : ls.foldl extend [] = dotted ls := by
  cases ls with
  | nil => rfl
  | cons l ls =>
    have he : extend [] l = l := rfl
    rw [List.foldl_cons, he, foldl_extend (h l List.mem_cons_self)]

/-- The labels are read back as they were written, if each length fits its byte. -/
theorem readLabels_wire (hR : R.InOrder left) (hls : ∀ l ∈ ls, l ≠ [] ∧ l.length < 256)
    (hcur : left cur = writeAll ls ++ 0 :: rest) (hf : ls.length < fuel) (name : Name) :
    ∃ cur', readLabels R fuel cur name = (ls.foldl extend name, cur') ∧ left cur' = rest := by
  induction ls generalizing fuel cur name with
  | nil =>
    obtain _ | fuel := fuel
    · exact absurd hf (Nat.not_lt_zero _)
    obtain ⟨hb, hrest⟩ := hR.readByte cur 0 rest hcur
    refine ⟨(R.readByte cur).2, ?_, hrest⟩
    simp [readLabels, hb, hR.ackReadSome]
  | cons l ls ih =>
    obtain _ | fuel := fuel
    · exact absurd hf (Nat.not_lt_zero _)
    obtain ⟨hne, hlen⟩ := hls l List.mem_cons_self
    obtain ⟨hb, hrest⟩ := hR.readByte cur (UInt8.ofNat l.length) (l ++ (writeAll ls ++ 0 :: rest))
      (by simpa [writeAll] using hcur)
    have hn : (UInt8.ofNat l.length).toNat = l.length := UInt8.toNat_ofNat_of_lt' hlen
    have hz : UInt8.ofNat l.length ≠ 0 := by
      intro h
      have := congrArg UInt8.toNat h
      rw [hn] at this
      exact hne (List.eq_nil_of_length_eq_zero (by simpa using this))
    have hack : R.ackReadSome l.length (R.readByte cur).2 = true := by
      simp [hR.ackReadSome, hrest]
    have hptr : R.ptr l.length (R.readByte cur).2 = l := by
      rw [hR.ptr _ _ (by simp [hrest]), hrest, List.take_left]
    obtain ⟨cur', hread, hleft⟩ := ih (fun q hq => hls q (List.mem_cons_of_mem l hq))
      (hR.skipSome _ l _ hrest) (Nat.lt_of_succ_lt_succ hf) (extend name l)
    refine ⟨cur', ?_, hleft⟩
    simp only [readLabels, hb, hn, hack, hptr, hz, Bool.not_true, Bool.false_eq_true, if_false,
      List.foldl_cons]
    exact hread

theorem readCname_wire (hR : R.InOrder left) (hls : ∀ l ∈ ls, l ≠ [] ∧ l.length < 256)
    (hcur : left cur = writeAll ls ++ 0 :: rest) :
    ∃ cur', readCname R cur = (dotted ls, cur') ∧ left cur' = rest := by
  have hmax : R.size cur < max (R.size cur) ls.length + 1 := by omega
  obtain ⟨cur', hread, hleft⟩ := readLabels_wire hR hls hcur
    (show ls.length < max (R.size cur) ls.length + 1 by omega) []
  refine ⟨cur', ?_, hleft⟩
  rw [readCname, readLabels_fuel (Nat.lt_succ_self _) hmax, hread,
    foldl_extend_nil (fun l hl => (hls l hl).1)]

theorem length_of_mem_splitOn {l : Name} (h : q ∈ l.splitOn 46) : q.length ≤ l.length := by
  induction l generalizing q with
  | nil => simp_all
  | cons c l ih =>
    rw [List.splitOn_cons_eq_if_modifyHead] at h
    by_cases hc : c = 46
    · rw [if_pos (by simpa using hc)] at h
      rcases List.mem_cons.mp h with rfl | h
      · exact Nat.zero_le _
      · exact Nat.le_succ_of_le (ih h)
    · rw [if_neg (by simpa using hc)] at h
      cases hs : l.splitOn 46 with
      | nil => exact absurd hs (List.splitOn_ne_nil _ _)
      | cons p ps =>
        rw [hs] at h ih
        rcases List.mem_cons.mp h with rfl | h
        · exact Nat.succ_le_succ (ih List.mem_cons_self)
        · exact Nat.le_succ_of_le (ih (List.mem_cons_of_mem p h))

theorem short_of_length {l : Name} (h : l.length < 256) : Short l :=
  fun _ hq => Nat.lt_of_le_of_lt (length_of_mem_splitOn hq) h

theorem Short.extend (h : Short name) (hl : l.length < 256) : Short (extend name l) := by
  cases name with
  | nil => exact short_of_length hl
  | cons c cs =>
    have he : Dns.extend (c :: cs) l = (c :: cs) ++ 46 :: l := by simp [Dns.extend]
    intro q hq
    rw [he, List.splitOn_append_cons_self] at hq
    rcases List.mem_append.mp hq with hq | hq
    · exact h q hq
    · exact short_of_length hl q hq

/-- Whatever the bytes are, a length is one byte. -/
theorem readLabels_short (hR : R.InOrder left) (fuel : Nat) (cur : κ) (h : Short name) :
    Short (readLabels R fuel cur name).1 := by
  induction fuel generalizing cur name with
  | zero => exact h
  | succ fuel ih =>
    simp only [readLabels]
    split
    · exact short_of_length (by simp)
    split
    · exact h
    · next hack _ =>
      have hle : (R.readByte cur).1.toNat ≤ (left (R.readByte cur).2).length := by
        simpa [hR.ackReadSome] using hack
      have hlen : (R.ptr (R.readByte cur).1.toNat (R.readByte cur).2).length < 256 := by
        rw [hR.ptr _ _ hle, List.length_take]
        have := (R.readByte cur).1.toNat_lt
        omega
      exact ih _ (h.extend hlen)

theorem readCname_short (hR : R.InOrder left) (cur : κ) : Short (readCname R cur).1 :=
  readLabels_short hR _ cur (short_of_length (by simp))

/-- Every name that a datagram holds is read by `read_cname`. -/
theorem readItems_owner {read : κ → Option Item × κ} {P : Name → Prop}
    (h : ∀ cur, ∀ i ∈ (read cur).1, ∀ n ∈ i.owner, P n) (k : Nat) (cur : κ) :
    ∀ i ∈ (readItems read k cur).1, ∀ n ∈ i.owner, P n := by
  induction k generalizing cur with
  | zero => exact nofun
  | succ k ih =>
    intro i hi
    rcases List.mem_append.mp hi with hi | hi
    · exact h cur i (by simpa using hi)
    · exact ih _ i hi

theorem readOwner_short (hR : R.InOrder left) (data : List Byte) (cur : κ) :
    Short (readOwner R data cur).1 := by
  simp only [readOwner]
  split
  · exact readCname_short hR _
  · exact readCname_short hR _

theorem parse_owner_short (hR : R.InOrder left) (data : List Byte) :
    ∀ i ∈ (parse R data).items, ∀ n ∈ i.owner, Short n := by
  have hq : ∀ cur, ∀ i ∈ (readQuestion R cur).1, ∀ n ∈ i.owner, Short n := by
    intro cur i hi n hn
    simp only [readQuestion] at hi
    split at hi
    · obtain rfl : Item.question _ = i := by simpa using hi
      obtain rfl : (readCname R cur).1 = n := by simpa [Item.owner] using hn
      exact readCname_short hR cur
    · simp at hi
  have hr : ∀ cur, ∀ i ∈ (readRecord R data cur).1, ∀ n ∈ i.owner, Short n := by
    have haddr : ∀ cur checked ttl ip n,
        n ∈ (Item.address checked (readOwner R data cur).1 ttl ip).owner → Short n := by
      intro cur checked ttl ip n hn
      cases checked with
      | false => simp [Item.owner] at hn
      | true =>
        obtain rfl : (readOwner R data cur).1 = n := by simpa [Item.owner] using hn
        exact readOwner_short hR data cur
    intro cur i hi n hn
    simp only [readRecord] at hi
    split at hi
    · obtain rfl := Option.mem_some_iff.mp hi
      exact haddr cur _ _ _ n hn
    split at hi
    · obtain rfl := Option.mem_some_iff.mp hi
      exact haddr cur _ _ _ n hn
    · simp at hi
  intro i hi
  rcases List.mem_append.mp hi with hi | hi
  · exact readItems_owner hq _ _ i hi
  · exact readItems_owner hr _ _ i hi

end reading

/-- What a server may choose in its answer. `trailer` holds the additional section. -/
structure Response where
  flags0 : Byte
  flags1 : Byte
  addsect : UInt16
  ttl : List Byte
  ip : List Byte
  trailer : List Byte
  ttl_length : ttl.length = 4
  ip_length : ip.length = 4

namespace Response

/-- An IN A record of 4 bytes. Its owner points to the name of the question. -/
def record (r : Response) : List Byte :=
  [192, 12] ++ (writeBe16 1 ++ (writeBe16 1 ++ (r.ttl ++ (writeBe16 4 ++ (r.ip ++ r.trailer)))))

/-- The answer to the query for `addr` with this number: it echoes the question section. -/
def bytes (r : Response) (num : UInt16) (addr : Name) : List Byte :=
  writeBe16 num ++ (r.flags0 :: r.flags1 :: (writeBe16 1 ++ (writeBe16 1 ++ (writeBe16 0 ++
    (writeBe16 r.addsect ++ ((request num addr).drop 12 ++ r.record))))))

end Response

section matching
variable {s : Dns} {r : Response} {addr : Name} {w : Wcb}

theorem request_question (num : UInt16) (addr : Name) :
    (request num addr).drop 12 =
      writeAll (labels addr []) ++ 0 :: (writeBe16 0xFF ++ writeBe16 1) := by
  simp [request, question, qname, writeLabels_eq, writeBe16]

theorem readQname (hR : R.InOrder left) (h : Short addr) (num : UInt16)
    (hcur : left cur = (request num addr).drop 12 ++ rest) :
    ∃ cur', readCname R cur = (dotted (labels addr []), cur') ∧
      left cur' = writeBe16 0xFF ++ (writeBe16 1 ++ rest) := by
  refine readCname_wire hR (labels_fit h) ?_
  rw [hcur, request_question]
  simp

theorem readQuestion_wire (hR : R.InOrder left) (h : Short addr) (num : UInt16)
    (hcur : left cur = (request num addr).drop 12 ++ rest) :
    ∃ cur', readQuestion R cur = (some (.question (dotted (labels addr []))), cur') ∧
      left cur' = rest := by
  obtain ⟨c₁, h₁, l₁⟩ := readQname hR h num hcur
  obtain ⟨v₂, l₂⟩ := hR.readBe16 c₁ _ _ l₁
  obtain ⟨v₃, l₃⟩ := hR.readBe16 _ _ _ l₂
  refine ⟨_, ?_, l₃⟩
  simp only [readQuestion, h₁, v₂, v₃]
  rfl

theorem readRecord_wire (hR : R.InOrder left) (h : Short addr) (num : UInt16)
    (hlen : 12 ≤ data.length) (hdata : data.drop 12 = (request num addr).drop 12 ++ rest)
    (hcur : left cur = r.record) :
    ∃ ttl, (readRecord R data cur).1 =
      some (.address true (dotted (labels addr [])) ttl (.ofV4 r.ip 0)) := by
  obtain ⟨v₁, l₁⟩ := hR.readByte cur 192 _ hcur
  obtain ⟨v₂, l₂⟩ := hR.readByte _ 12 _ l₁
  have howner : readOwner R data cur =
      (dotted (labels addr []), (R.readByte (R.readByte cur).2).2) := by
    obtain ⟨c, hc, -⟩ := readQname hR h num ((hR.ofData (data.drop 12)).trans hdata)
    have hmin : min 12 data.length = 12 := Nat.min_eq_left hlen
    simp [readOwner, v₁, v₂, hmin, hc]
  obtain ⟨v₃, l₃⟩ := hR.readBe16 _ _ _ l₂
  obtain ⟨v₄, l₄⟩ := hR.readBe16 _ _ _ l₃
  have l₅ := hR.readBe32 _ _ _ l₄ r.ttl_length
  obtain ⟨v₆, l₆⟩ := hR.readBe16 _ _ _ l₅
  obtain ⟨v₇, -⟩ := hR.readSome _ _ _ l₆
  rw [r.ip_length] at v₇
  refine ⟨(R.readBe32 (R.readBe16 (R.readBe16 (R.readByte (R.readByte cur).2).2).2).2).1.toNat, ?_⟩
  simp only [readRecord, howner, v₃, v₄, v₆, and_self, if_true, v₇]
  rfl

/-- What `ans` reads in the answer. -/
theorem parse_response (hR : R.InOrder left) (h : Short addr) (num : UInt16) :
    ∃ ttl, parse R (r.bytes num addr) = ⟨num, [.question (dotted (labels addr [])),
      .address true (dotted (labels addr [])) ttl (.ofV4 r.ip 0)]⟩ := by
  obtain ⟨v₁, l₁⟩ := hR.readBe16 _ _ _ (hR.ofData (r.bytes num addr))
  obtain ⟨-, l₂⟩ := hR.readByte _ _ _ l₁
  obtain ⟨-, l₃⟩ := hR.readByte _ _ _ l₂
  obtain ⟨v₄, l₄⟩ := hR.readBe16 _ _ _ l₃
  obtain ⟨v₅, l₅⟩ := hR.readBe16 _ _ _ l₄
  obtain ⟨v₆, l₆⟩ := hR.readBe16 _ _ _ l₅
  obtain ⟨-, l₇⟩ := hR.readBe16 _ _ _ l₆
  obtain ⟨c, hq, lq⟩ := readQuestion_wire hR h num l₇
  have hlen : 12 ≤ (r.bytes num addr).length := by
    simp [Response.bytes, writeBe16]
  have hdata : (r.bytes num addr).drop 12 = (request num addr).drop 12 ++ r.record := by
    simp [Response.bytes, writeBe16]
  obtain ⟨ttl, hr⟩ := readRecord_wire hR h num hlen hdata lq
  refine ⟨ttl, ?_⟩
  have h0 : (0 : UInt16).toNat = 0 := rfl
  have h1 : (1 : UInt16).toNat = 1 := rfl
  simp only [parse, v₁, v₄, v₅, v₆, h0, h1, readItems, hq, hr, Nat.mul_zero, Nat.add_zero]
  rfl

/-- The callbacks of the pending request are called with no error and an address, and the request
is erased. -/
def FindsRequest (R : BinStream κ) (s : Dns) (data : List Byte) (addr : Name)
    (ip : InetAddress) : Prop :=
  ∃ k ips, ip ∈ ips ∧
    (s.answered R data k).calls = s.calls ++ (s.cbsOf addr).map (⟨·, .ok, ips⟩) ∧
    (s.answered R data k).waitingReqs addr = none

/-- The loop calls all that it has to call, one after each return, and erases its request. -/
theorem startLoop_returns (R : BinStream κ) (hd : s.depth = 0) (cbs : List CallbackId) :
    let s' := (run (step R) (.ret (s.startLoop ⟨n, cbs, err, ips⟩))
      (List.replicate cbs.length .ret)).state
    s'.calls = s.calls ++ cbs.map (⟨·, err, ips⟩) ∧ s'.waitingReqs n = none := by
  induction cbs generalizing s with
  | nil =>
    have he : s.startLoop ⟨n, [], err, ips⟩ = { s with loop := none }.erase n := rfl
    refine ⟨?_, ?_⟩
    · simp [he, Exec.state]
    · simp [he, Exec.state, erase_waitingReqs]
  | cons c cbs ih =>
    let s₁ : Dns := { s with loop := some ⟨n, cbs, err, ips⟩, calls := s.calls ++ [⟨c, err, ips⟩] }
    have hret : (s.startLoop ⟨n, c :: cbs, err, ips⟩).ret =
        s₁.startLoop ⟨n, cbs, err, ips⟩ := by
      have he : s.startLoop ⟨n, c :: cbs, err, ips⟩ = { s₁ with depth := 1 } := by
        simp [Dns.startLoop, Dns.proceed, Dns.call, s₁, hd]
      rw [he]
      simp [Dns.ret, Dns.startLoop, s₁, hd]
    have hstep : run (step R) (.ret (s.startLoop ⟨n, c :: cbs, err, ips⟩))
        (List.replicate (c :: cbs).length .ret) =
        run (step R) (.ret (s₁.startLoop ⟨n, cbs, err, ips⟩))
          (List.replicate cbs.length .ret) := by
      rw [List.length_cons, List.replicate_succ, run_cons, ← hret]
      rfl
    obtain ⟨hcalls, hgone⟩ := ih (s := s₁) hd
    rw [hstep]
    refine ⟨?_, hgone⟩
    rw [hcalls]
    simp [s₁]

/-- An answer that names a pending request with its number comes to the callbacks. -/
theorem ans_names (hw : s.waitingReqs addr = some w) (ttl : Nat) (ip : InetAddress) :
    ∃ e ips, ip ∈ ips ∧ s.ans ⟨w.num, [.question addr, .address true addr ttl ip]⟩ =
      .ret ((s.setEntry addr e).startLoop ⟨addr, w.cbs, .ok, ips⟩) := by
  have hr := readAns_cons w.num (.question addr) [.address true addr ttl ip] s
  obtain ⟨e, he, hname, hips⟩ : ∃ e,
      s.readAns ⟨w.num, [.question addr, .address true addr ttl ip]⟩ =
        .on ⟨some addr, some addr⟩ (s.setEntry addr e) ∧ e.name = addr ∧ ip ∈ e.ipAddrs := by
    refine ⟨gather [.question addr, .address true addr ttl ip] (s.opened addr), ?_, ?_, ?_⟩
    · simpa [Item.owner, Item.ownedBy, accepts, hw] using hr
    · rw [gather_name, opened]
    · rw [gather_ipAddrs]
      simp [Item.ipAddr]
  refine ⟨e, e.ipAddrs, hips, ?_⟩
  simp only [ans, he, setEntry_waitingReqs, hw, Option.bind_some, setEntry_cachedEntries,
    Function.update_self, hname]

/-- The name that was asked for is found in the answer if it is read back as it was. -/
theorem finds_of_canonical (hR : R.InOrder left) (hd : s.depth = 0)
    (hw : s.waitingReqs addr = some w) (hc : Canonical addr) :
    FindsRequest R s (r.bytes w.num addr) addr (.ofV4 r.ip 0) := by
  obtain ⟨ttl, hparse⟩ := parse_response hR hc.short w.num (r := r)
  rw [(dotted_labels_iff hc.short).mpr hc] at hparse
  obtain ⟨e, ips, hip, hans⟩ := ans_names hw ttl (.ofV4 r.ip 0)
  have happly : s.apply R (.ans (r.bytes w.num addr)) =
      .ret ((s.setEntry addr e).startLoop ⟨addr, w.cbs, .ok, ips⟩) := by
    simp only [Dns.apply, hd, if_true, hparse, hans]
  have hcbs : s.cbsOf addr = w.cbs := by simp [cbsOf, hw]
  refine ⟨w.cbs.length, ips, hip, ?_⟩
  rw [hcbs, answered, run_cons, step, Exec.andThen, happly]
  exact startLoop_returns R (s := s.setEntry addr e) hd w.cbs

/-- A name that no item of the datagram has keeps its request. -/
theorem not_finds (R : BinStream κ) (hd : s.depth = 0) (hl : s.loop = none)
    (hw : s.waitingReqs addr = some w)
    (h : ∀ i ∈ (parse R data).items, i.owner ≠ some addr) :
    ¬ FindsRequest R s data addr ip := by
  intro hboth
  obtain ⟨k, ips, -, -, hgone⟩ := hboth
  have hkept : (s.answered R data k).waitingReqs addr = some w := by
    rw [← hw]
    rcases ans_confined R hd hl data k with hall | ⟨m, ⟨i, hi, hm⟩, -, hc⟩
    · exact (hall (0 :: addr)).request addr (fun he => absurd (congrArg List.length he) (by simp))
    · exact hc.request addr (fun he => h i hi (he ▸ hm))
  rw [hkept] at hgone
  cases hgone

/-- A name with a label that does not fit its length byte is not the name of any item, and
another one that is not canonical is read back as the canonical one. -/
theorem owner_canonical (hR : R.InOrder left) (hc : ¬ Canonical addr) (num : UInt16) :
    ∀ i ∈ (parse R (r.bytes num addr)).items, i.owner ≠ some addr := by
  intro i hi ho
  by_cases hs : Short addr
  · obtain ⟨ttl, hparse⟩ := parse_response hR hs num (r := r)
    have hne : dotted (labels addr []) ≠ addr := fun he => hc ((dotted_labels_iff hs).mp he)
    rw [hparse] at hi
    rcases List.mem_pair.mp hi with rfl | rfl
    · exact hne (Option.some_inj.mp ho)
    · exact hne (Option.some_inj.mp ho)
  · exact hs (parse_owner_short hR _ i hi addr ho)

/-- An answer finds the request, and the name is read back as it was given, exactly if it is
spelled as the wire spells it. -/
theorem answer_finds_request (R : BinStream κ) (left : κ → List Byte) (hR : R.InOrder left)
    (s : Dns) (hd : s.depth = 0) (hl : s.loop = none) (addr : Name) (w : Wcb)
    (hw : s.waitingReqs addr = some w) (r : Response) (cur : κ) (rest : List Byte)
    (hcur : left cur = qname addr ++ rest) :
    (FindsRequest R s (r.bytes w.num addr) addr (.ofV4 r.ip 0) ↔ Canonical addr) ∧
      ((readCname R cur).1 = addr ↔ Canonical addr) := by
  refine ⟨⟨fun hf => ?_, finds_of_canonical hR hd hw⟩, ?_⟩
  · by_contra hc
    exact not_finds R hd hl hw (owner_canonical hR hc w.num) hf
  · by_cases hs : Short addr
    · have hls : ∀ l ∈ labels addr [], l ≠ [] ∧ l.length < 256 := labels_fit hs
      have hcur' : left cur = writeAll (labels addr []) ++ 0 :: rest := by
        simpa [qname, writeLabels_eq] using hcur
      obtain ⟨cur', hread, -⟩ := readCname_wire hR hls hcur'
      rw [hread]
      exact dotted_labels_iff hs
    · refine iff_of_false (fun he => hs ?_) (fun hc => hs hc.short)
      exact he ▸ readCname_short hR cur

/-- The least answer. -/
def response : Response where
  flags0 := 0x81
  flags1 := 0x80
  addsect := 0
  ttl := [0, 0, 0, 60]
  ip := [1, 2, 3, 4]
  trailer := []
  ttl_length := rfl
  ip_length := rfl

/-- After a query for this name, with the number 7. -/
def asked (addr : Name) : Dns :=
  (run (step .inOrder) (.ret new) [.query addr 7 false (some oneServer)]).state

theorem answer_finds_request_host :
    (FindsRequest .inOrder (asked [97, 46, 98]) (response.bytes 7 [97, 46, 98]) [97, 46, 98]
        (.ofV4 [1, 2, 3, 4] 0) ↔ Canonical [97, 46, 98]) ∧
      ((readCname .inOrder (qname [97, 46, 98] ++ [])).1 = [97, 46, 98] ↔
        Canonical [97, 46, 98]) :=
  answer_finds_request .inOrder id BinStream.inOrder_reads (asked [97, 46, 98]) rfl rfl
    [97, 46, 98] ⟨[97, 46, 98], [0], 7⟩ (by decide) response _ [] rfl

/-- The name "a." is read back as "a", and its request is not found. -/
theorem absolute_name_not_found :
    (asked [97, 46]).waitingReqs [97, 46] = some ⟨[97, 46], [0], 7⟩ ∧
      ¬ FindsRequest .inOrder (asked [97, 46]) (response.bytes 7 [97, 46]) [97, 46]
        (.ofV4 [1, 2, 3, 4] 0) ∧
      (readCname .inOrder (qname [97, 46])).1 = [97] := by
  have hw : (asked [97, 46]).waitingReqs [97, 46] = some ⟨[97, 46], [0], 7⟩ := by decide
  have hc : ¬ Canonical [97, 46] := by decide
  exact ⟨hw, not_finds .inOrder rfl rfl hw (owner_canonical BinStream.inOrder_reads hc 7),
    by decide⟩

end matching

end Evel.Dns
