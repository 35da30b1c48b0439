import Mathlib.Data.List.TakeWhile
import Evel.Proofs.DnsNames

namespace Evel.Dns
open General
variable {R : BinStream κ} {left : κ → List Byte}

section pieces

/-- The characters at which `query` cuts a name. -/
def isSeparator (c : Byte) : Bool := c = 46 || c = 64

/-- What `addr.c_str()` shows of a name. -/
def cStr (addr : Name) : Name := addr.takeWhile (· ≠ 0)

/-- What lies between two separators, if it is not empty. -/
def pieces (addr : Name) : List Name := (addr.splitOnP isSeparator).filter (· ≠ [])

theorem nonempty_eq (l : List Byte) : nonempty l = [l].filter (· ≠ []) := by
  cases l <;> rfl

/-- The two cursors of `query` cut the name as a split does: the label that is pending is the
piece that the split has begun. -/
theorem labels_eq_prepend (cs l : Name) :
    labels cs l = ((cStr cs).splitOnPPrepend isSeparator l.reverse).filter (· ≠ []) := by
  induction cs generalizing l with
  | nil => simp [labels, cStr, nonempty_eq]
  | cons c cs ih =>
    by_cases h0 : c = 0
    · simp [labels, cStr, h0, nonempty_eq]
    · have hcs : cStr (c :: cs) = c :: cStr cs := by simp [cStr, h0]
      rw [hcs]
      by_cases hsep : c = 46 ∨ c = 64
      · have hs : isSeparator c = true := by simpa [isSeparator] using hsep
        have hcons : labels (c :: cs) l = nonempty l ++ labels cs [] := by
          simp [labels, h0, hsep]
        rw [List.splitOnPPrepend_cons_pos hs, List.reverse_reverse, hcons, ih, nonempty_eq,
          ← List.filter_append]
        rfl
      · have hs : isSeparator c = false := by simpa [isSeparator] using hsep
        rw [List.splitOnPPrepend_cons_neg hs]
        simp [labels, h0, hsep, ih]

theorem labels_eq_pieces (addr : Name) : labels addr [] = pieces (cStr addr) := by
  rw [labels_eq_prepend, List.reverse_nil, List.splitOnPPrepend_nil_right]
  rfl

theorem cStr_eq_self (h : 0 ∉ addr) : cStr addr = addr := by
  rw [cStr, List.takeWhile_eq_self_iff]
  intro c hc
  have hne : c ≠ 0 := fun he => h (he ▸ hc)
  simpa using hne

theorem qname_eq (addr : Name) : qname addr = writeAll (pieces (cStr addr)) ++ [0] := by
  rw [qname, writeLabels_eq, labels_eq_pieces]

end pieces

/-- What `query` writes as QNAME is read back as the pieces of the name with a dot between two of
them, up to the end of QNAME and no further. -/
theorem readCname_qname (R : BinStream κ) (left : κ → List Byte) (hR : R.InOrder left)
    (addr : Name) (h0 : 0 ∉ addr) (hlen : ∀ l ∈ addr.splitOnP isSeparator, l.length ≤ 255)
    (cur : κ) (rest : List Byte) (hcur : left cur = qname addr ++ rest) :
    ∃ cur', readCname R cur = ([46].intercalate (pieces addr), cur') ∧ left cur' = rest := by
  have hls : ∀ l ∈ pieces addr, l ≠ [] ∧ l.length < 256 := by
    intro l hl
    obtain ⟨hl, hne⟩ := List.mem_filter.mp hl
    exact ⟨by simpa using hne, Nat.lt_succ_of_le (hlen l hl)⟩
  refine readCname_wire hR hls ?_
  rw [hcur, qname_eq, cStr_eq_self h0]
  simp

theorem readCname_qname_host :
    ∃ cur', readCname .inOrder (qname [46, 97, 64, 64, 98] ++ [255]) =
      ([46].intercalate (pieces [46, 97, 64, 64, 98]), cur') ∧ cur' = [255] :=
  readCname_qname .inOrder id BinStream.inOrder_reads [46, 97, 64, 64, 98] (by decide) (by decide)
    _ [255] rfl

section sending
variable {s : Dns} {addr : Name} {num : UInt16} {conf : Option (List Name)}

/-- The length octets of QNAME, each with the bytes that `query` writes behind it. -/
def written (addr : Name) : List (Byte × List Byte) :=
  (pieces (cStr addr)).map (fun l => (UInt8.ofNat l.length, l))

/-- The request has room in `req`, and QNAME is a list of labels with a 0 at its end. -/
structure WellFormed (num : UInt16) (addr : Name) : Prop where
  fits : (request num addr).length ≤ maxReqSize
  qname : Dns.qname addr = (written addr).flatMap (fun w => w.1 :: w.2) ++ [0]
  octets : ∀ w ∈ written addr, 1 ≤ w.1.toNat ∧ w.1.toNat ≤ 63 ∧ w.1.toNat = w.2.length

/-- The pieces of the name have at most 63 characters. -/
def LabelsFit (addr : Name) : Prop := ∀ l ∈ pieces (cStr addr), l.length ≤ 63

/-- With a length octet each, the pieces of the name have at most 1007 bytes: what `req` holds
beside them is a header of 12 bytes and 5 bytes at the end. -/
def HasRoom (addr : Name) : Prop :=
  (pieces (cStr addr)).flatten.length + (pieces (cStr addr)).length ≤ 1007

/-- The entry is cached, or a request for it is pending. -/
def Known (s : Dns) (addr : Name) : Prop :=
  (s.cachedEntries addr).isSome = true ∨ (s.waitingReqs addr).isSome = true

theorem length_writeAll (ls : List (List Byte)) :
    (writeAll ls).length = ls.flatten.length + ls.length := by
  induction ls with
  | nil => rfl
  | cons l ls ih =>
    simp only [writeAll, List.flatMap_cons, List.length_append, List.length_cons,
      List.flatten_cons] at ih ⊢
    omega

theorem length_request (num : UInt16) (addr : Name) :
    (request num addr).length =
      (pieces (cStr addr)).flatten.length + (pieces (cStr addr)).length + 17 := by
  have hq := congrArg List.length (qname_eq addr)
  rw [List.length_append, length_writeAll] at hq
  simp [request, question, writeBe16, hq]

theorem qname_written (addr : Name) :
    qname addr = (written addr).flatMap (fun w => w.1 :: w.2) ++ [0] := by
  rw [qname_eq, written, List.flatMap_map]
  rfl

/-- A length octet tells the length of its label if that is below 256. -/
theorem octet_iff (l : List Byte) (hne : l ≠ []) :
    (1 ≤ (UInt8.ofNat l.length).toNat ∧ (UInt8.ofNat l.length).toNat ≤ 63 ∧
      (UInt8.ofNat l.length).toNat = l.length) ↔ l.length ≤ 63 := by
  have hpos : 0 < l.length := List.length_pos_iff.mpr hne
  have hmod : (UInt8.ofNat l.length).toNat = l.length % 256 := UInt8.toNat_ofNat'
  omega

theorem hasRoom_iff (num : UInt16) (addr : Name) :
    (request num addr).length ≤ maxReqSize ↔ HasRoom addr := by
  rw [length_request, maxReqSize, HasRoom]
  omega

theorem wellFormed_iff (num : UInt16) (addr : Name) :
    WellFormed num addr ↔ HasRoom addr ∧ LabelsFit addr := by
  have hoct : (∀ w ∈ written addr, 1 ≤ w.1.toNat ∧ w.1.toNat ≤ 63 ∧ w.1.toNat = w.2.length) ↔
      LabelsFit addr := by
    rw [written, List.forall_mem_map, LabelsFit]
    refine forall₂_congr (fun l hl => octet_iff l ?_)
    simpa using (List.mem_filter.mp hl).2
  constructor
  · intro h
    exact ⟨(hasRoom_iff num addr).mp h.fits, hoct.mp h.octets⟩
  · intro h
    exact ⟨(hasRoom_iff num addr).mpr h.1, qname_written addr, hoct.mpr h.2⟩

theorem queryBuilds_none_iff : s.queryBuilds addr num = none ↔ Known s addr := by
  unfold queryBuilds Known
  cases s.cachedEntries addr <;> cases s.waitingReqs addr <;> simp

theorem querySends_none_iff :
    s.querySends addr num conf = none ↔ Known s addr ∨ s.servers conf = [] := by
  rw [querySends, ← @queryBuilds_none_iff s addr num]
  cases hs : s.servers conf <;> simp

theorem unknown_of_builds (h : s.queryBuilds addr num = some r) :
    s.cachedEntries addr = none ∧ s.waitingReqs addr = none ∧ r = request num addr := by
  unfold queryBuilds at h
  cases hc : s.cachedEntries addr with
  | some e => simp [hc] at h
  | none =>
    cases hw : s.waitingReqs addr with
    | some w => simp [hc, hw] at h
    | none => exact ⟨rfl, rfl, by simpa [hc, hw] using h.symm⟩

/-- What `query` builds is written to `req` whatever its length, with or without a server. -/
theorem query_overruns_iff (h : s.queryBuilds addr num = some r) (moved : Bool) :
    (∃ s', s.query addr num moved conf = .undef s') ↔ maxReqSize < r.length := by
  obtain ⟨hc, hw, rfl⟩ := unknown_of_builds h
  simp only [query, hc, hw]
  split
  · next hlen => simp [hlen]
  · next hlen =>
    refine iff_of_false ?_ hlen
    rintro ⟨s', hs'⟩
    unfold send at hs'
    split at hs'
    · split at hs' <;> cases hs'
    · cases hs'

/-- What `query` gives to the socket is the request that it has registered, when it knows a
server. -/
theorem querySends_registered (h : s.querySends addr num conf = some r) (hroom : HasRoom addr)
    (moved : Bool) :
    r = request num addr ∧ (s.query addr num moved conf).Returns (fun s' =>
      s'.serverIps = s.servers conf ∧ s.servers conf ≠ [] ∧
        s'.waitingReqs addr = some ⟨addr, [s.nextCb], num⟩) := by
  have hs : s.servers conf ≠ [] := fun hs => by simp [querySends, hs] at h
  have hbuilds : s.queryBuilds addr num = some r := by simpa [querySends, hs] using h
  obtain ⟨hc, hw, hr⟩ := unknown_of_builds hbuilds
  have hlen : ¬ maxReqSize < (request num addr).length :=
    Nat.not_lt.mpr ((hasRoom_iff num addr).mpr hroom)
  refine ⟨hr, ?_⟩
  by_cases hread : (s.serverIps.isEmpty && !s.usedResolv) = true
  · obtain _ | lines := conf
    · simp [servers, hread] at hs
    · rw [servers, if_pos hread] at hs ⊢
      simp only [Option.elim_some] at hs ⊢
      simp [query, send, hc, hw, setWcb, hread, hs, hlen]
  · rw [servers, if_neg hread] at hs ⊢
    simp [query, send, hc, hw, setWcb, hs, hlen]

/-- A request is built that has room in `req`, and what is sent is well formed, if and only if the
name has room and, unless there is no server to ask, its pieces are labels. -/
theorem query_wellFormed_iff (s : Dns) (addr : Name) (num : UInt16)
    (conf : Option (List Name)) :
    ((s.queryBuilds addr num = none ∨ (request num addr).length ≤ maxReqSize) ∧
        (s.querySends addr num conf = none ∨ WellFormed num addr)) ↔
      (Known s addr ∨ HasRoom addr ∧ (s.servers conf = [] ∨ LabelsFit addr)) := by
  rw [queryBuilds_none_iff, querySends_none_iff, hasRoom_iff, wellFormed_iff]
  by_cases hk : Known s addr
  · simp [hk]
  · simp only [hk, false_or]
    constructor
    · rintro ⟨hroom, hs⟩
      exact ⟨hroom, hs.imp_right And.right⟩
    · rintro ⟨hroom, hs⟩
      exact ⟨hroom, hs.imp_right (fun hlabels => ⟨hroom, hlabels⟩)⟩

/-- The length of a piece of 64 characters is written as a length octet. A name of 1100 characters
runs out of `req`, also where no server is known. -/
theorem long_name_sent :
    let long := List.replicate 64 (97 : Byte)
    let huge := List.replicate 1100 (97 : Byte)
    new.querySends long 7 (some oneServer) = some (request 7 long) ∧ ¬ WellFormed 7 long ∧
      new.querySends huge 7 (some oneServer) = some (request 7 huge) ∧
      (new.querySends huge 7 (some []) = none ∧
        new.queryBuilds huge 7 = some (request 7 huge)) ∧
      maxReqSize < (request 7 huge).length := by
  have hpiece : ∀ n, n ≠ 0 → pieces (cStr (List.replicate n 97)) = [List.replicate n 97] := by
    intro n hn
    rw [cStr_eq_self (fun h => absurd (List.eq_of_mem_replicate h) (by decide)), pieces,
      List.splitOnP_eq_singleton]
    · simp [hn]
    · intro c hc
      rw [List.eq_of_mem_replicate hc]
      rfl
  have hserver : ∀ a, new.querySends a 7 (some oneServer) = some (request 7 a) := fun a => rfl
  refine ⟨hserver _, ?_, hserver _, ⟨rfl, rfl⟩, ?_⟩
  · rw [wellFormed_iff]
    intro h
    have hmem : List.replicate 64 97 ∈ pieces (cStr (List.replicate 64 97)) := by
      rw [hpiece 64 (by decide)]
      exact List.mem_cons_self
    have hle := h.2 _ hmem
    rw [List.length_replicate] at hle
    omega
  · rw [length_request, hpiece 1100 (by decide), List.flatten_singleton, List.length_replicate,
      List.length_singleton, maxReqSize]
    omega

end sending

end Evel.Dns
