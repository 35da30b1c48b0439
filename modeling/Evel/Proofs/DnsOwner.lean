import Mathlib.Algebra.Group.Nat.Defs
import Evel.Proofs.DnsEntry
import Evel.Proofs.DnsNames

namespace Evel.Dns
open General
variable {R : BinStream κ} {left : κ → List Byte}

section consumption

/-- At the end of the buffer the name is complete. -/
theorem readLabels_end (hR : R.Total left) (h : left cur = []) (fuel : Nat) (name : Name) :
    readLabels R (fuel + 1) cur name = (name, (R.readByte cur).2) ∧
      left (R.readByte cur).2 = [] := by
  obtain ⟨hb, hl⟩ := hR.readByte_end cur h
  refine ⟨?_, hl⟩
  simp [readLabels, hb, hR.ackReadSome]

/-- What a name is made of: its characters, a length octet for each label and the final 0, with
the dots in the place of all length octets but the first. -/
theorem readLabels_consumes (hR : R.Total left) (hf : R.size cur < fuel) (hne : left cur ≠ [])
    (hr : readLabels R fuel cur name = (n, cur')) :
    (left cur').length < (left cur).length ∧ (n ≠ [] → left cur' ≠ [] →
      (left cur).length + (if name = [] then 0 else name.length + 1) =
        n.length + 2 + (left cur').length) := by
  induction fuel generalizing cur name with
  | zero => exact absurd hf (Nat.not_lt_zero _)
  | succ fuel ih =>
    obtain ⟨b, bs, hcur⟩ := List.exists_cons_of_ne_nil hne
    obtain ⟨hb, hbs⟩ := hR.readByte cur b bs hcur
    have hlen : (left cur).length = bs.length + 1 := by rw [hcur, List.length_cons]
    simp only [readLabels, hb, hR.ackReadSome, hbs] at hr
    split at hr
    · cases hr
      exact ⟨by rw [hbs, hlen]; exact Nat.lt_succ_self _, fun h => absurd rfl h⟩
    · next hack =>
      have hle : b.toNat ≤ bs.length := by simpa using hack
      split at hr
      · cases hr
        refine ⟨by rw [hbs, hlen]; exact Nat.lt_succ_self _, fun hn _ => ?_⟩
        rw [if_neg hn, hbs]
        omega
      · next h0 =>
        have hpos : 0 < b.toNat := by
          rw [Nat.pos_iff_ne_zero]
          exact fun h => h0 (UInt8.toNat_inj.mp h)
        have hsplit : left (R.readByte cur).2 = bs.take b.toNat ++ bs.drop b.toNat := by
          rw [hbs, List.take_append_drop]
        have hl : (bs.take b.toNat).length = b.toNat := List.length_take_of_le hle
        have hskip : left (R.skipSome b.toNat (R.readByte cur).2) = bs.drop b.toNat := by
          rw [← hR.skipSome _ _ _ hsplit, hl]
        have hptr : R.ptr b.toNat (R.readByte cur).2 = bs.take b.toNat := by
          rw [hR.ptr _ _ (by rw [hbs]; exact hle), hbs]
        have hdrop : (bs.drop b.toNat).length = bs.length - b.toNat := List.length_drop
        have hsize : R.size (R.skipSome b.toNat (R.readByte cur).2) < fuel := by
          have h1 := R.size_readByte cur (by rw [hb]; exact h0)
          have h2 := R.size_skipSome b.toNat (R.readByte cur).2
          omega
        rw [hptr] at hr
        by_cases hend : bs.drop b.toNat = []
        · obtain _ | fuel := fuel
          · exact absurd hsize (Nat.not_lt_zero _)
          obtain ⟨he, hleft⟩ := readLabels_end hR (hskip.trans hend) fuel
            ((if name.isEmpty then name else name ++ [46]) ++ bs.take b.toNat)
          rw [he] at hr
          cases hr
          exact ⟨by rw [hleft, hlen]; exact Nat.succ_pos _, fun _ h => absurd hleft h⟩
        · obtain ⟨hlt, hsum⟩ := ih hsize (by rw [hskip]; exact hend) hr
          rw [hskip, hdrop] at hlt hsum
          refine ⟨by omega, fun hn hcur' => ?_⟩
          have hsum := hsum hn hcur'
          have hname : ((if name.isEmpty then name else name ++ [46]) ++ bs.take b.toNat).length =
              (if name = [] then 0 else name.length + 1) + b.toNat := by
            rw [List.length_append, hl]
            cases name <;> simp
          have hext : (if name.isEmpty then name else name ++ [46]) ++ bs.take b.toNat ≠ [] := by
            intro h
            have := congrArg List.length h
            rw [hname, List.length_nil] at this
            omega
          rw [if_neg hext, hname] at hsum
          omega

theorem readCname_consumes (hR : R.Total left) (hne : left cur ≠ [])
    (hr : readCname R cur = (n, cur')) :
    (left cur').length < (left cur).length ∧ (n ≠ [] → left cur' ≠ [] →
      (left cur).length = n.length + 2 + (left cur').length) := by
  have h := readLabels_consumes hR (Nat.lt_succ_self _) hne hr
  simpa using h

/-- A name that is written out as labels. -/
def Plain (ls : List (List Byte)) : Prop := ∀ l ∈ ls, l ≠ [] ∧ l.length ≤ 63

instance : DecidablePred Plain := fun ls =>
  inferInstanceAs (Decidable (∀ l ∈ ls, l ≠ [] ∧ l.length ≤ 63))

theorem Plain.fits (h : Plain ls) : ∀ l ∈ ls, l ≠ [] ∧ l.length < 256 :=
  fun l hl => ⟨(h l hl).1, Nat.lt_of_le_of_lt (h l hl).2 (by decide)⟩

theorem dotted_ne_nil (h : Plain (l :: ls)) : dotted (l :: ls) ≠ [] := by
  have hl := (h l List.mem_cons_self).1
  cases ls with
  | nil => simpa [dotted] using hl
  | cons m ls => simp [dotted, List.intercalate_cons_cons, hl]

/-- The first byte of the labels is no pointer. -/
theorem plain_head (h : Plain ls) (he : writeAll ls ++ 0 :: after = b :: bs) :
    ¬ (128 + 64 : UInt8) ≤ b := by
  cases ls with
  | nil =>
    obtain rfl : 0 = b := (List.cons.inj he).1
    decide
  | cons l ls =>
    have hb : UInt8.ofNat l.length = b := by
      simp only [writeAll, List.flatMap_cons, List.cons_append] at he
      exact (List.cons.inj he).1
    have hl := (h l List.mem_cons_self).2
    have hmod : (UInt8.ofNat l.length).toNat = l.length % 256 := UInt8.toNat_ofNat'
    rw [← hb, UInt8.le_iff_toNat_le, hmod]
    have h192 : (128 + 64 : UInt8).toNat = 192 := rfl
    omega

/-- `ans` does not get such a name right: it reads another one, or goes on from another place. -/
theorem readOwner_labels (hR : R.Total left) (hls : Plain ls) (hafter : after ≠ [])
    (hcur : left cur = writeAll ls ++ 0 :: after) (data : List Byte) :
    ¬ ((readOwner R data cur).1 = dotted ls ∧ left (readOwner R data cur).2 = after) := by
  intro h
  obtain ⟨hname, hleft⟩ := h
  obtain ⟨b, bs, hbs⟩ : ∃ b bs, writeAll ls ++ 0 :: after = b :: bs := by
    cases ls <;> exact ⟨_, _, rfl⟩
  obtain ⟨hb, hrest⟩ := hR.readByte cur b bs (hcur.trans hbs)
  have howner : readOwner R data cur = readCname R (R.readByte cur).2 := by
    simp only [readOwner, hb, if_neg (plain_head hls hbs)]
  obtain ⟨n, cur', hr⟩ : ∃ n cur', readCname R (R.readByte cur).2 = (n, cur') := ⟨_, _, rfl⟩
  rw [howner, hr] at hname hleft
  obtain rfl : n = dotted ls := hname
  have hlen := congrArg List.length hbs
  have hapos : 0 < after.length := List.length_pos_iff.mpr hafter
  simp only [List.length_append, List.length_cons] at hlen
  have hne : left (R.readByte cur).2 ≠ [] := by
    rw [hrest, ← List.length_pos_iff]
    omega
  obtain ⟨hlt, hsum⟩ := readCname_consumes hR hne hr
  rw [hleft, hrest] at hlt hsum
  cases ls with
  | nil =>
    -- the 0 has been read, and another byte goes with the name
    simp only [writeAll, List.flatMap_nil, List.length_nil] at hlen
    omega
  | cons l ls =>
    -- the name and what follows it make up for the first length octet, which is gone
    have hd : dotted (l :: ls) ≠ [] := dotted_ne_nil hls
    have hwhole := hR.ofData (writeAll (l :: ls) ++ 0 :: after)
    obtain ⟨cur'', hread, hcur''⟩ := readCname_wire hR.toInOrder hls.fits hwhole
    have hne' : left (R.ofData (writeAll (l :: ls) ++ 0 :: after)) ≠ [] := by
      rw [hwhole, hbs]
      exact List.cons_ne_nil b bs
    obtain ⟨-, hfull⟩ := readCname_consumes hR hne' hread
    rw [hwhole, hcur'', hbs, List.length_cons] at hfull
    have h1 := hfull hd hafter
    have h2 := hsum hd hafter
    omega

end consumption

/-- A record of a response, whose owner is encoded in some way. -/
structure Rr where
  owner : List Byte
  type : UInt16
  qclass : UInt16
  ttl : List Byte
  rdata : List Byte
  ttl_length : ttl.length = 4
  rdata_length : rdata.length < 2 ^ 16

namespace Rr

def fields (r : Rr) : List Byte :=
  writeBe16 r.type ++ (writeBe16 r.qclass ++ (r.ttl ++
    (writeBe16 (.ofNat r.rdata.length) ++ r.rdata)))

def bytes (r : Rr) : List Byte := r.owner ++ r.fields

end Rr

/-- A response to one question. The records are those of the answer section and then those of the
authority section, `trailer` holds the additional section. -/
structure Message where
  num : UInt16
  flags0 : Byte
  flags1 : Byte
  question : List (List Byte)
  qtype : UInt16
  qclass : UInt16
  records : List Rr
  answers : Nat
  addsect : UInt16
  trailer : List Byte
  plain : Plain question
  answers_le : answers ≤ records.length
  records_length : records.length < 2 ^ 16

/-- The two ways to name the question in a record. -/
inductive Form
  | pointer
  | labels
deriving DecidableEq

/-- The name of the question begins behind the 12 bytes of the header. -/
def Form.bytes (question : List (List Byte)) : Form → List Byte
  | .pointer => [192, 12]
  | .labels => writeAll question ++ [0]

namespace Message

def body (m : Message) : List Byte := m.records.flatMap Rr.bytes ++ m.trailer

def bytes (m : Message) : List Byte :=
  writeBe16 m.num ++ (m.flags0 :: m.flags1 :: (writeBe16 1 ++ (writeBe16 (.ofNat m.answers) ++
    (writeBe16 (.ofNat (m.records.length - m.answers)) ++ (writeBe16 m.addsect ++
      (writeAll m.question ++ 0 :: (writeBe16 m.qtype ++ (writeBe16 m.qclass ++ m.body))))))))

/-- The owner of record `i` is the name of the question, encoded in this form. -/
def withOwner (i : Nat) (f : Form) (m : Message) : Message :=
  { m with
    records := m.records.modify i (fun r => { r with owner := f.bytes m.question })
    answers_le := by
      rw [List.length_modify]
      exact m.answers_le
    records_length := by
      rw [List.length_modify]
      exact m.records_length }

/-- What stands behind the owner of record `i`. -/
def after (i : Nat) (m : Message) : List Byte :=
  (m.records[i]?).elim [] Rr.fields ++ ((m.records.drop (i + 1)).flatMap Rr.bytes ++ m.trailer)

/-- `ans` returns at the question. -/
def Refused (s : Dns) (m : Message) : Prop :=
  m.qtype = 255 ∧ m.qclass = 1 ∧ s.accepts m.num (dotted m.question) = false

end Message

/-- `ans` has not returned before record `i`. -/
def ComesTo (R : BinStream κ) (s : Dns) (data : List Byte) (i : Nat) : Prop :=
  match s.takeItems (opening R data).num ((opening R data).questions ++
    (readItems (readRecord R data) i (opening R data).cur).1) ⟨none, none⟩ with
  | .on _ _ => True
  | _ => False

/-- The owner that `ans` reads for record `i`, and what is left in the buffer then. -/
def ownerAt (R : BinStream κ) (left : κ → List Byte) (data : List Byte) (i : Nat) :
    Name × List Byte :=
  let r := readOwner R data (readItems (readRecord R data) i (opening R data).cur).2
  (r.1, left r.2)

/-- It makes no difference in which form the owner of record `i` is: if `ans` comes to the record
in one of them, it reads the same name in both and goes on from what follows the name, and the
cache, the requests and the callbacks end up equal. -/
structure Alike (R : BinStream κ) (left : κ → List Byte) (s : Dns) (m : Message) (i : Nat) :
    Prop where
  name : ∀ f, ComesTo R s (m.withOwner i f).bytes i →
    (ownerAt R left (m.withOwner i .pointer).bytes i).1 =
      (ownerAt R left (m.withOwner i .labels).bytes i).1
  position : ∀ f, ComesTo R s (m.withOwner i f).bytes i →
    ∀ f', (ownerAt R left (m.withOwner i f').bytes i).2 = m.after i
  result : s.ans (parse R (m.withOwner i .pointer).bytes) =
    s.ans (parse R (m.withOwner i .labels).bytes)

section forms
variable {s : Dns} {m : Message}

/-- What `ans` reads before the records. -/
theorem opening_bytes (hR : R.InOrder left) (m : Message) :
    (opening R m.bytes).num = m.num ∧
      (opening R m.bytes).questions =
        (if m.qtype = 255 ∧ m.qclass = 1 then [.question (dotted m.question)] else []) ∧
      left (opening R m.bytes).cur = m.body := by
  obtain ⟨v₁, l₁⟩ := hR.readBe16 _ _ _ (hR.ofData m.bytes)
  obtain ⟨-, l₂⟩ := hR.readByte _ _ _ l₁
  obtain ⟨-, l₃⟩ := hR.readByte _ _ _ l₂
  obtain ⟨v₄, l₄⟩ := hR.readBe16 _ _ _ l₃
  obtain ⟨-, l₅⟩ := hR.readBe16 _ _ _ l₄
  obtain ⟨-, l₆⟩ := hR.readBe16 _ _ _ l₅
  obtain ⟨-, l₇⟩ := hR.readBe16 _ _ _ l₆
  obtain ⟨c, hq, lq⟩ := readCname_wire hR m.plain.fits l₇
  obtain ⟨v₈, l₈⟩ := hR.readBe16 _ _ _ lq
  obtain ⟨v₉, l₉⟩ := hR.readBe16 _ _ _ l₈
  have h1 : (1 : UInt16).toNat = 1 := rfl
  simp only [opening, v₁, v₄, h1, readItems, readQuestion, hq, v₈, v₉]
  refine ⟨trivial, ?_, l₉⟩
  split <;> rfl

theorem opening_withOwner (hR : R.InOrder left) (m : Message) (i : Nat) (f : Form) :
    (opening R (m.withOwner i f).bytes).num = m.num ∧
      (opening R (m.withOwner i f).bytes).questions =
        (if m.qtype = 255 ∧ m.qclass = 1 then [.question (dotted m.question)] else []) ∧
      left (opening R (m.withOwner i f).bytes).cur = (m.withOwner i f).body :=
  opening_bytes hR (m.withOwner i f)

/-- A question that is refused ends the call, whatever the records are. -/
theorem Message.Refused.early (h : m.Refused s) (hR : R.InOrder left) (i : Nat) (f : Form)
    (is : List Item) : s.takeItems (opening R (m.withOwner i f).bytes).num
      ((opening R (m.withOwner i f).bytes).questions ++ is) ⟨none, none⟩ = .early s := by
  obtain ⟨hnum, hq, -⟩ := opening_withOwner hR m i f
  obtain ⟨htype, hclass, ha⟩ := h
  rw [hnum, hq, if_pos ⟨htype, hclass⟩]
  simp only [List.singleton_append, takeItems, takeItem_first, Item.owner, ha, Bool.false_eq_true,
    if_false]

/-- One that is not refused leads to the first record. -/
theorem comesTo_first (hR : R.InOrder left) (h : ¬ m.Refused s) (f : Form) :
    ComesTo R s (m.withOwner 0 f).bytes 0 := by
  obtain ⟨hnum, hq, -⟩ := opening_withOwner hR m 0 f
  have hnil (cur : κ) : (readItems (readRecord R (m.withOwner 0 f).bytes) 0 cur).1 = [] := rfl
  unfold ComesTo
  rw [hnum, hq, hnil, List.append_nil]
  by_cases hany : m.qtype = 255 ∧ m.qclass = 1
  · have ha : s.accepts m.num (dotted m.question) = true := by
      cases ha : s.accepts m.num (dotted m.question) with
      | true => rfl
      | false => exact absurd ⟨hany.1, hany.2, ha⟩ h
    simp only [if_pos hany, takeItems, takeItem_first, Item.owner, ha, if_true]
  · simp only [if_neg hany, takeItems]

/-- The first record begins with its owner. -/
theorem body_first (r : Rr) (rs : List Rr) (hm : m.records = r :: rs) (f : Form) :
    (m.withOwner 0 f).body = f.bytes m.question ++ m.after 0 := by
  simp [Message.body, Message.withOwner, Message.after, hm, Rr.bytes, Rr.fields]

theorem after_ne_nil (r : Rr) (rs : List Rr) (hm : m.records = r :: rs) : m.after 0 ≠ [] := by
  simp [Message.after, hm, Rr.fields, writeBe16]

/-- The pointer leads to the name of the question. -/
theorem ownerAt_pointer (hR : R.InOrder left) (r : Rr) (rs : List Rr)
    (hm : m.records = r :: rs) :
    (ownerAt R left (m.withOwner 0 .pointer).bytes 0).1 = dotted m.question := by
  obtain ⟨-, -, hleft⟩ := opening_withOwner hR m 0 .pointer
  rw [body_first r rs hm] at hleft
  obtain ⟨v₁, l₁⟩ := hR.readByte _ 192 _ hleft
  obtain ⟨v₂, -⟩ := hR.readByte _ 12 _ l₁
  have hlen : 12 ≤ (m.withOwner 0 .pointer).bytes.length := by
    simp [Message.bytes, writeBe16]
  have hdrop : (m.withOwner 0 .pointer).bytes.drop 12 = writeAll m.question ++
      0 :: (writeBe16 m.qtype ++ (writeBe16 m.qclass ++ (m.withOwner 0 .pointer).body)) := by
    simp [Message.bytes, writeBe16, Message.withOwner]
  obtain ⟨c, hc, -⟩ := readCname_wire hR m.plain.fits ((hR.ofData _).trans hdrop)
  have hmin : min 12 (m.withOwner 0 .pointer).bytes.length = 12 := Nat.min_eq_left hlen
  simp [ownerAt, readItems, readOwner, v₁, v₂, hmin, hc]

/-- Labels are read as the pointer exactly where they are not read at all: if `ans` returns at the
question, or has no record to read. -/
theorem owner_forms_alike_iff (R : BinStream κ) (left : κ → List Byte) (hR : R.Total left)
    (s : Dns) (m : Message) :
    (∀ i < m.records.length, Alike R left s m i) ↔ (m.records = [] ∨ m.Refused s) := by
  constructor
  · intro h
    by_contra hnot
    obtain ⟨hne, href⟩ := not_or.mp hnot
    obtain ⟨r, rs, hm⟩ := List.exists_cons_of_ne_nil hne
    have halike := h 0 (by simp [hm])
    have hcomes := comesTo_first (f := .labels) hR.toInOrder href
    have hname := halike.name .labels hcomes
    have hpos := halike.position .labels hcomes .labels
    rw [ownerAt_pointer hR.toInOrder r rs hm] at hname
    obtain ⟨-, -, hleft⟩ := opening_withOwner hR.toInOrder m 0 .labels
    have hcur : left (opening R (m.withOwner 0 .labels).bytes).cur =
        writeAll m.question ++ 0 :: m.after 0 := by
      rw [hleft, body_first r rs hm]
      simp [Form.bytes]
    exact readOwner_labels hR m.plain (after_ne_nil r rs hm) hcur _ ⟨hname.symm, hpos⟩
  · intro h i hi
    rcases h with h | h
    · simp [h] at hi
    · have hstop : ∀ f, ¬ ComesTo R s (m.withOwner i f).bytes i := by
        intro f hc
        rw [ComesTo, h.early hR.toInOrder] at hc
        exact hc
      have hans : ∀ f, s.ans (parse R (m.withOwner i f).bytes) = .ret s := by
        intro f
        rw [ans, readAns, parse_opening]
        simp only [h.early hR.toInOrder]
      exact ⟨fun f hc => absurd hc (hstop f), fun f hc => absurd hc (hstop f),
        (hans .pointer).trans (hans .labels).symm⟩

/-- The answer with the number 7 to a question about "a", with an IN A record of 4 bytes. -/
def addressOfA : Message where
  num := 7
  flags0 := 0x81
  flags1 := 0x80
  question := [[97]]
  qtype := 255
  qclass := 1
  records := [⟨[192, 12], 1, 1, [0, 0, 1, 44], [1, 2, 3, 4], rfl, Nat.le_of_ble_eq_true rfl⟩]
  answers := 1
  addsect := 0
  trailer := []
  plain := by decide
  answers_le := Nat.le_refl 1
  records_length := Nat.le_of_ble_eq_true rfl

theorem owner_forms_alike_iff_address :
    (∀ i < addressOfA.records.length, Alike .inOrder id (asked [97]) addressOfA i) ↔
      (addressOfA.records = [] ∨ addressOfA.Refused (asked [97])) :=
  owner_forms_alike_iff .inOrder id BinStream.inOrder_total (asked [97]) addressOfA

/-- With a pointer the callback is given the address. With labels it is given nothing. -/
theorem labels_lose_address :
    ((asked [97]).ans (parse .inOrder (addressOfA.withOwner 0 .pointer).bytes)).state.calls =
        [⟨0, .ok, [.ofV4 [1, 2, 3, 4] 0]⟩] ∧
      ((asked [97]).ans (parse .inOrder (addressOfA.withOwner 0 .labels).bytes)).state.calls =
        [⟨0, .ok, []⟩] ∧
      ¬ Alike .inOrder id (asked [97]) addressOfA 0 := by
  have hp : parse .inOrder (addressOfA.withOwner 0 .pointer).bytes =
      ⟨7, [.question [97], .address true [97] 300 (.ofV4 [1, 2, 3, 4] 0)]⟩ := by decide
  have hl : parse .inOrder (addressOfA.withOwner 0 .labels).bytes = ⟨7, [.question [97]]⟩ := by
    decide
  have h1 : ((asked [97]).ans
      (parse .inOrder (addressOfA.withOwner 0 .pointer).bytes)).state.calls =
      [⟨0, .ok, [.ofV4 [1, 2, 3, 4] 0]⟩] := by
    rw [hp]
    decide
  have h2 : ((asked [97]).ans (parse .inOrder (addressOfA.withOwner 0 .labels).bytes)).state.calls =
      [⟨0, .ok, []⟩] := by
    rw [hl]
    decide
  refine ⟨h1, h2, fun h => ?_⟩
  rw [h.result, h2] at h1
  exact absurd h1 (by decide)

end forms

end Evel.Dns
