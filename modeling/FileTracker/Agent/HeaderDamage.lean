import FileTracker.Agent.Wal

/-!
# A damaged header

The checksum of a record covers its payload and not its length.  A flipped bit of the
checksum is always seen, as the payload still has the other one.  A flipped bit of the
length makes the reader cut off the payload early, or read on into the records behind it,
and compare the checksum of these bytes with the one in the header.

Nothing keeps the two from being equal.  So a flip is seen exactly where the new length is
out of bounds, or the bytes it takes in have another checksum (`detected_iff_seen`), and
there are records for which they have the same: the empty payload has the checksum zero,
and so has a payload of four bytes (`not_detected_zeroChecksum`).
-/

namespace FileTracker
namespace Agent

open LittleEndian RecordStream

/-! ## A change behind a prefix -/

theorem modify_append_left {α : Type*} {xs : List α} {i : ℕ} (h : i < xs.length) (ys : List α)
    (f : α → α) : (xs ++ ys).modify i f = xs.modify i f ++ ys := by
  induction xs generalizing i with
  | nil => exact absurd h (Nat.not_lt_zero i)
  | cons x xs ih =>
    cases i with
    | zero => rfl
    | succ i =>
      rw [List.cons_append, List.modify_succ_cons, List.modify_succ_cons, List.cons_append,
        ih (Nat.lt_of_succ_lt_succ h)]

theorem modify_append_right {α : Type*} (xs ys : List α) (i : ℕ) (f : α → α) :
    (xs ++ ys).modify (xs.length + i) f = xs ++ ys.modify i f := by
  induction xs with
  | nil => rw [List.length_nil, Nat.zero_add, List.nil_append, List.nil_append]
  | cons x xs ih =>
    rw [List.length_cons, Nat.succ_add, List.cons_append, List.modify_succ_cons, ih,
      List.cons_append]

/-! ## One bit of a header -/

/-- A bit of the header of one of the records that were appended to an empty log. -/
structure HeaderFlip where
  before : List Record
  record : Record
  after : List Record
  byte : Fin 8
  bit : Fin 8

namespace HeaderFlip

/-- The file, with the bit flipped. -/
def altered (f : HeaderFlip) : Bytes :=
  (Wal.appendAll ⟨[], true, 0⟩ (f.before ++ f.record :: f.after)).content.modify
    ((Wal.appendAll ⟨[], true, 0⟩ f.before).content.length + f.byte.val) (flipBit f.bit)

/-- The reader stops in front of the record. -/
def Detected (f : HeaderFlip) : Prop := readAll f.altered = f.before.map Record.data

/-- What stands behind the header in the file. -/
def behind (f : HeaderFlip) : Bytes :=
  f.record.data ++ (f.after.map Record.data).flatMap encodeRecord

/-- The length in the header, if the bit is one of its bits. -/
def len (f : HeaderFlip) : ℕ := f.record.data.length ^^^ 2 ^ (8 * f.byte.val + f.bit.val)

/-- The bit is one of the checksum; or the length is above the limit of the reader, or
above what is left of the file; or so many bytes have another checksum. -/
def Seen (f : HeaderFlip) : Prop :=
  4 ≤ f.byte.val ∨ maxRecord < f.len ∨ f.behind.length < f.len ∨
    crc32 (f.behind.take f.len) ≠ crc32 f.record.data

theorem altered_eq (f : HeaderFlip) :
    f.altered = (f.before.map Record.data).flatMap encodeRecord ++
      ((le32 f.record.data.length ++ le32 (crc32 f.record.data).toNat).modify f.byte.val
        (flipBit f.bit) ++ f.behind) := by
  have hheader : f.byte.val <
      (le32 f.record.data.length ++ le32 (crc32 f.record.data).toNat).length := f.byte.isLt
  rw [altered, Wal.content_appendAll_empty, Wal.content_appendAll_empty, List.map_append,
    List.map_cons, List.flatMap_append, List.flatMap_cons, encodeRecord_of_le f.record.length_le,
    List.append_assoc, modify_append_right, modify_append_left hheader, behind]

/-- The reader sees the flip where it reads nothing at the header. -/
theorem detected_iff (f : HeaderFlip) :
    f.Detected ↔ readRecord ((le32 f.record.data.length ++
      le32 (crc32 f.record.data).toNat).modify f.byte.val (flipBit f.bit) ++ f.behind) = none := by
  rw [Detected, altered_eq, readAll_append_eq_iff length_le_of_mem_data]

/-- **A flipped bit of the checksum is seen.** -/
theorem detected_of_checksum {f : HeaderFlip} (h : 4 ≤ f.byte.val) : f.Detected := by
  have hlen : f.record.data.length < 2 ^ 32 :=
    Nat.lt_of_le_of_lt f.record.length_le (by decide)
  obtain ⟨i, hi⟩ := Nat.exists_eq_add_of_le h
  have hi4 : i < 4 := by omega
  have hmodify : (le32 f.record.data.length ++ le32 (crc32 f.record.data).toNat).modify f.byte.val
      (flipBit f.bit) = le32 f.record.data.length ++
        le32 ((crc32 f.record.data).toNat ^^^ 2 ^ (8 * i + f.bit.val)) := by
    rw [hi, ← modify_le32 _ hi4]
    exact modify_append_right _ _ _ _
  have hpow : 2 ^ (8 * i + f.bit.val) < 2 ^ 32 := Nat.pow_lt_pow_right (by norm_num) (by omega)
  rw [detected_iff, hmodify, readRecord_eq_none_iff hlen (Nat.xor_lt_two_pow (crc32 _).isLt hpow),
    behind, List.take_left]
  refine Or.inr (Or.inr fun heq => ?_)
  have hzero : 2 ^ (8 * i + f.bit.val) = 0 := by
    calc 2 ^ (8 * i + f.bit.val)
        = (crc32 f.record.data).toNat ^^^
            ((crc32 f.record.data).toNat ^^^ 2 ^ (8 * i + f.bit.val)) := by
          rw [← Nat.xor_assoc, Nat.xor_self, Nat.zero_xor]
      _ = (crc32 f.record.data).toNat ^^^ (crc32 f.record.data).toNat := by rw [← heq]
      _ = 0 := Nat.xor_self _
  exact absurd hzero (Nat.two_pow_pos _).ne'

end HeaderFlip

/-- **When a flipped bit of a header is seen**, for every log and every bit: exactly when
it is one of the checksum, or the length it gives is out of bounds, or so many bytes have
another checksum. -/
theorem detected_iff_seen (f : HeaderFlip) : f.Detected ↔ f.Seen := by
  by_cases hbyte : 4 ≤ f.byte.val
  · exact iff_of_true (HeaderFlip.detected_of_checksum hbyte) (Or.inl hbyte)
  have hi4 : f.byte.val < 4 := Nat.lt_of_not_le hbyte
  have hpow : 2 ^ (8 * f.byte.val + f.bit.val) < 2 ^ 32 :=
    Nat.pow_lt_pow_right (by norm_num) (by omega)
  have hlen : f.len < 2 ^ 32 :=
    Nat.xor_lt_two_pow (Nat.lt_of_le_of_lt f.record.length_le (by decide)) hpow
  rw [HeaderFlip.detected_iff, modify_append_left (by simpa using hi4), modify_le32 _ hi4,
    ← HeaderFlip.len, readRecord_eq_none_iff hlen (crc32 _).isLt, HeaderFlip.Seen,
    or_iff_right hbyte, BitVec.toNat_ne]

/-- A record whose payload has the checksum zero, and the one bit of its length. -/
def zeroChecksum : HeaderFlip :=
  ⟨[], ⟨[0x9D, 0x0A, 0xD9, 0x6D], by decide⟩, [], 0, 2⟩

/-- An empty record is read that nobody has appended. -/
theorem not_detected_zeroChecksum :
    ¬ zeroChecksum.Detected ∧ readAll zeroChecksum.altered = [[]] := by
  have hread : readAll zeroChecksum.altered = [[]] := by decide +kernel
  refine ⟨fun h => ?_, hread⟩
  rw [HeaderFlip.Detected, hread] at h
  exact absurd h (by decide)

end Agent
end FileTracker
