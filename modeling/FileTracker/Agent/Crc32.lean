import FileTracker.Agent.Checksum
import FileTracker.Library.BitSerial

/-!
# The checksum, by its definition

The CRC-32 of a message is defined a bit at a time: the bits of each byte go through the
register least significant first, from an initial register of ones, and the result is
complemented.  `WAL::crc32` looks up a byte at a time instead, in the table that
`init_crc32_table` fills.

The loop that fills an entry is the bit step without a message (`crc32Steps_eq`), so that
`crc32_table` is the table of the polynomial, and the general argument of
`Library.BitSerial` makes the two the same (`crc32_eq_bitwise`).
-/

namespace FileTracker
namespace Agent

open Register

/-- The reflected CRC-32 by its definition, one message bit at a time. -/
def crc32Bitwise (data : Bytes) : BitVec 32 :=
  (data.flatMap bits).foldl (bitStep 0xEDB88320) 0xFFFFFFFF ^^^ 0xFFFFFFFF

/-- The test of the lowest bit in `init_crc32_table`. -/
theorem and_one_eq_one_iff (c : BitVec 32) : c &&& 1 = 1 ↔ c.getLsbD 0 = true := by
  have hand : c &&& 1 = (BitVec.ofBool (c.getLsbD 0)).setWidth 32 :=
    BitVec.and_one_eq_setWidth_ofBool_getLsbD
  rw [hand]
  cases c.getLsbD 0 <;> decide

/-- The loop that fills an entry of the table. -/
theorem crc32Steps_eq (j : ℕ) (c : BitVec 32) :
    crc32Steps j c = (shift 0xEDB88320)^[j] c := by
  induction j generalizing c with
  | zero => rfl
  | succ j ih =>
    have hstep : (if c &&& 1 = 1 then 0xEDB88320 ^^^ (c >>> 1) else c >>> 1) =
        shift 0xEDB88320 c := by
      rw [shift, BitVec.xor_comm]
      exact if_congr (and_one_eq_one_iff c) rfl rfl
    rw [crc32Steps, hstep, ih, Function.iterate_succ_apply]

/-- `init_crc32_table` fills in the table of the polynomial. -/
theorem crc32Table_eq : crc32Table.get = table 0xEDB88320 := by
  funext i
  rw [get_crc32Table, crc32Steps_eq, table]

/-- **The table-driven checksum is the CRC-32**, for every byte string. -/
theorem crc32_eq_bitwise (data : Bytes) : crc32 data = crc32Bitwise data := by
  have hfold : ∀ c : BitVec 32,
      data.foldl crc32Byte c = (data.flatMap bits).foldl (bitStep 0xEDB88320) c := by
    induction data with
    | nil => exact fun c => rfl
    | cons b rest ih =>
      intro c
      rw [List.foldl_cons, List.flatMap_cons, List.foldl_append, foldl_bits, ih,
        crc32Byte_eq_tableStep, crc32Table_eq]
  rw [crc32, crc32Bitwise, hfold]

/- The check value of the CRC-32: the nine digits, as text. -/
example : crc32Bitwise [0x31, 0x32, 0x33, 0x34, 0x35, 0x36, 0x37, 0x38, 0x39] = 0xCBF43926 := by
  decide +kernel

end Agent
end FileTracker
