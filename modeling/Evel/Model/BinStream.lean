import Evel.Model.System

namespace Evel

/-- What the resolver uses of `Hpipe::BinStream<Hpipe::CmString>`. A stream only points to its
buffer, so that a copy of it reads on from the same place. -/
structure BinStream (κ : Type) where
  /-- `CmString( data, data + size )` -/
  ofData : List Byte → κ
  readByte : κ → UInt8 × κ
  readBe16 : κ → UInt16 × κ
  readBe32 : κ → UInt32 × κ
  readSome : Nat → κ → List Byte × κ
  skipSome : Nat → κ → κ
  ackReadSome : Nat → κ → Bool
  /-- what `ptr` points to, up to a length -/
  ptr : Nat → κ → List Byte
  /-- what is left in the buffer -/
  size : κ → Nat
  size_readByte : ∀ cur, (readByte cur).1 ≠ 0 → size (readByte cur).2 < size cur
  size_skipSome : ∀ n cur, size (skipSome n cur) ≤ size cur

/-- `write_be16` of `Hpipe::BinStream<Hpipe::CmQueue>`, as the bytes it appends. -/
def writeBe16 (n : UInt16) : List Byte := [(n >>> 8).toUInt8, n.toUInt8]

namespace BinStream

/-- The stream consumes the bytes of its buffer in their order: `left` are those to come. -/
structure InOrder (R : BinStream κ) (left : κ → List Byte) : Prop where
  ofData : ∀ data, left (R.ofData data) = data
  readByte : ∀ cur b bs, left cur = b :: bs →
    (R.readByte cur).1 = b ∧ left (R.readByte cur).2 = bs
  readBe16 : ∀ cur n bs, left cur = writeBe16 n ++ bs →
    (R.readBe16 cur).1 = n ∧ left (R.readBe16 cur).2 = bs
  readBe32 : ∀ cur (ds : List Byte) bs, left cur = ds ++ bs → ds.length = 4 →
    left (R.readBe32 cur).2 = bs
  readSome : ∀ cur ds bs, left cur = ds ++ bs →
    (R.readSome ds.length cur).1 = ds ∧ left (R.readSome ds.length cur).2 = bs
  skipSome : ∀ cur ds bs, left cur = ds ++ bs → left (R.skipSome ds.length cur) = bs
  ackReadSome : ∀ n cur, R.ackReadSome n cur = decide (n ≤ (left cur).length)
  ptr : ∀ n cur, n ≤ (left cur).length → R.ptr n cur = (left cur).take n

/-- The stream yields zeros past the end of its buffer. -/
structure Total (R : BinStream κ) (left : κ → List Byte) : Prop extends InOrder R left where
  readByte_end : ∀ cur, left cur = [] → (R.readByte cur).1 = 0 ∧ left (R.readByte cur).2 = []

/-- The reader that takes the bytes in their order, and zeros past the end. -/
def inOrder : BinStream (List Byte) where
  ofData data := data
  readByte cur := (cur.headD 0, cur.tail)
  readBe16 cur := ((cur.headD 0).toUInt16 <<< 8 ||| (cur.tail.headD 0).toUInt16, cur.drop 2)
  readBe32 cur :=
    (((cur.take 4).rightpad 4 0).foldl (fun n b => n <<< 8 ||| b.toUInt32) 0, cur.drop 4)
  readSome n cur := ((cur.take n).rightpad n 0, cur.drop n)
  skipSome n cur := cur.drop n
  ackReadSome n cur := decide (n ≤ cur.length)
  ptr n cur := cur.take n
  size := List.length
  size_readByte cur h := by
    cases cur with
    | nil => exact absurd rfl h
    | cons b bs => exact Nat.lt_succ_self bs.length
  size_skipSome n cur := by
    rw [List.length_drop]
    exact Nat.sub_le cur.length n

theorem be16_writeBe16 (n : UInt16) :
    (n >>> 8).toUInt8.toUInt16 <<< 8 ||| n.toUInt8.toUInt16 = n := by
  have hlt := n.toNat_lt
  have hdm := Nat.div_add_mod n.toNat 256
  have hshift : n.toNat >>> 8 = n.toNat / 256 := Nat.shiftRight_eq_div_pow _ 8
  have hmul : n.toNat >>> 8 <<< 8 = 256 * (n.toNat / 256) := by
    rw [hshift, Nat.shiftLeft_eq, Nat.mul_comm]
  apply UInt16.toNat_inj.mp
  simp only [UInt16.toNat_or, UInt16.toNat_shiftLeft, UInt8.toNat_toUInt16, UInt16.toNat_toUInt8,
    UInt16.toNat_shiftRight, UInt16.reduceToNat, Nat.reduceMod, Nat.reducePow]
  rw [Nat.mod_eq_of_lt (show n.toNat >>> 8 < 256 by omega),
    Nat.mod_eq_of_lt (show n.toNat >>> 8 <<< 8 < 65536 by omega),
    ← Nat.shiftLeft_add_eq_or_of_lt (show n.toNat % 256 < 2 ^ 8 by omega), hmul]
  exact hdm

theorem inOrder_reads : InOrder inOrder id where
  ofData _ := rfl
  readByte cur b bs h := by simp_all [inOrder]
  readBe16 cur n bs h := by
    obtain rfl : cur = _ := h
    exact ⟨be16_writeBe16 n, rfl⟩
  readBe32 cur ds bs h hl := by
    obtain rfl : cur = _ := h
    simp [inOrder, ← hl]
  readSome cur ds bs h := by
    obtain rfl : cur = _ := h
    simp [inOrder, List.rightpad]
  skipSome cur ds bs h := by
    obtain rfl : cur = _ := h
    simp [inOrder]
  ackReadSome _ _ := rfl
  ptr _ _ _ := rfl

theorem inOrder_total : Total inOrder id where
  toInOrder := inOrder_reads
  readByte_end cur h := by
    obtain rfl : cur = [] := h
    exact ⟨rfl, rfl⟩

end BinStream

end Evel
