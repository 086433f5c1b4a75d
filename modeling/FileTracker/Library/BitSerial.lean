import FileTracker.Library.Register
import Mathlib.Data.FinEnum

/-!
# A register, one bit at a time

The division that a table-driven register computes a byte at a time is defined a bit at a
time.  A message bit is added to the bit that leaves the register, and their sum says
whether the polynomial is added to what is left (`bitStep`).

Adding the message bits to the register beforehand comes to the same
(`foldl_bitStep`), so that a byte takes eight steps without a message from the sum of
register and byte.  Such a step is additive (`shift_xor`).  What it makes of the low byte
is looked up in the table, and what it makes of the rest is to move it down, as no bit of
it has reached the end (`iterate_shift_of_low`); the two together are the step of the table
(`foldl_bits`).
-/

namespace FileTracker
namespace Register

/-- A step of the reflected division: the bit that leaves says whether the polynomial is
added. -/
def shift (poly c : BitVec 32) : BitVec 32 :=
  if c.getLsbD 0 then (c >>> 1) ^^^ poly else c >>> 1

/-- A step with a bit of the message. -/
def bitStep (poly c : BitVec 32) (bit : Bool) : BitVec 32 :=
  if c.getLsbD 0 ^^ bit then (c >>> 1) ^^^ poly else c >>> 1

/-- The bits of a byte, least significant first. -/
def bits (b : UInt8) : List Bool := (List.range 8).map fun i => b.toBitVec.getLsbD i

/-- The table of a polynomial: eight steps from the index. -/
def table (poly : BitVec 32) (i : Fin 256) : BitVec 32 :=
  (shift poly)^[8] (BitVec.ofNat 32 i.val)

/-- The register that holds these bits, the first one lowest. -/
def ofBits : List Bool → BitVec 32
  | [] => 0
  | bit :: rest => (BitVec.ofBool bit).setWidth 32 ^^^ (ofBits rest <<< 1)

variable (poly : BitVec 32)

/-! ## A step without a message is additive -/

theorem shift_eq (c : BitVec 32) :
    shift poly c = (c >>> 1) ^^^ if c.getLsbD 0 then poly else 0 := by
  unfold shift
  split
  · rfl
  · exact BitVec.xor_zero.symm

theorem shift_xor (c d : BitVec 32) : shift poly (c ^^^ d) = shift poly c ^^^ shift poly d := by
  have hpoly : (if (c ^^^ d).getLsbD 0 then poly else 0) =
      (if c.getLsbD 0 then poly else 0) ^^^ if d.getLsbD 0 then poly else 0 := by
    rw [BitVec.getLsbD_xor]
    cases c.getLsbD 0 <;> cases d.getLsbD 0 <;> simp
  rw [shift_eq, shift_eq, shift_eq, hpoly, BitVec.ushiftRight_xor_distrib]
  ac_rfl

theorem iterate_shift_xor (n : ℕ) (c d : BitVec 32) :
    (shift poly)^[n] (c ^^^ d) = (shift poly)^[n] c ^^^ (shift poly)^[n] d := by
  induction n generalizing c d with
  | zero => rfl
  | succ n ih =>
    rw [Function.iterate_succ_apply, shift_xor, ih, Function.iterate_succ_apply,
      Function.iterate_succ_apply]

/-- As long as no set bit has reached the end, the register only moves. -/
theorem iterate_shift_of_low {n : ℕ} {c : BitVec 32} (h : ∀ i < n, c.getLsbD i = false) :
    (shift poly)^[n] c = c >>> n := by
  induction n with
  | zero => rfl
  | succ n ih =>
    have hbit : (c >>> n).getLsbD 0 = false := by
      rw [BitVec.getLsbD_ushiftRight]
      exact h n n.lt_succ_self
    rw [Function.iterate_succ_apply', ih fun i hi => h i (hi.trans n.lt_succ_self), shift, hbit,
      BitVec.shiftRight_add]
    rfl

/-- Moved up and down again, where nothing is lost at the top. -/
theorem shiftLeft_shiftRight {n : ℕ} {c : BitVec 32}
    (h : ∀ i, 32 ≤ n + i → c.getLsbD i = false) : (c <<< n) >>> n = c := by
  ext i hi
  show ((c <<< n) >>> n).getLsbD i = c.getLsbD i
  rw [BitVec.getLsbD_ushiftRight, BitVec.getLsbD_shiftLeft, Nat.add_sub_cancel_left]
  by_cases hlt : n + i < 32
  · simp [hlt]
  · simp [h i (by omega)]

/-! ## The bits of a message, added beforehand -/

theorem bitStep_eq (c : BitVec 32) (bit : Bool) :
    bitStep poly c bit = shift poly (c ^^^ (BitVec.ofBool bit).setWidth 32) := by
  have hlow : (c ^^^ (BitVec.ofBool bit).setWidth 32).getLsbD 0 = (c.getLsbD 0 ^^ bit) := by
    rw [BitVec.getLsbD_xor]
    cases bit <;> rfl
  have hrest : (c ^^^ (BitVec.ofBool bit).setWidth 32) >>> 1 = c >>> 1 := by
    have hout : (BitVec.ofBool bit).setWidth 32 >>> 1 = 0 := by cases bit <;> rfl
    rw [BitVec.ushiftRight_xor_distrib, hout]
    exact BitVec.xor_zero
  rw [bitStep, shift, hlow, hrest]

theorem getLsbD_ofBits (bs : List Bool) (i : ℕ) (hi : bs.length ≤ i) :
    (ofBits bs).getLsbD i = false := by
  induction bs generalizing i with
  | nil => exact BitVec.getLsbD_zero
  | cons bit rest ih =>
    rw [List.length_cons] at hi
    rw [ofBits, BitVec.getLsbD_xor, BitVec.getLsbD_shiftLeft, ih (i - 1) (by omega),
      BitVec.getLsbD_setWidth, BitVec.getLsbD_of_ge _ _ (by omega)]
    simp

/-- Up to 32 message bits, added to the register beforehand. -/
theorem foldl_bitStep {bs : List Bool} (hlen : bs.length ≤ 32) (c : BitVec 32) :
    bs.foldl (bitStep poly) c = (shift poly)^[bs.length] (c ^^^ ofBits bs) := by
  induction bs generalizing c with
  | nil => exact BitVec.xor_zero.symm
  | cons bit rest ih =>
    rw [List.length_cons] at hlen
    have hback : shift poly (ofBits rest <<< 1) = ofBits rest := by
      have hlow : (ofBits rest <<< 1).getLsbD 0 = false := by simp
      rw [shift, hlow]
      exact shiftLeft_shiftRight fun i hi => getLsbD_ofBits rest i (by omega)
    rw [List.foldl_cons, ih (by omega), bitStep_eq, List.length_cons, Function.iterate_succ_apply,
      ofBits, ← BitVec.xor_assoc, shift_xor poly _ (ofBits rest <<< 1), hback]

theorem ofBits_bits (b : UInt8) : ofBits (bits b) = wide b := by
  revert b
  decide +kernel

/-! ## The step of the table -/

/-- The low byte and what stands above it. -/
theorem eq_low_xor (c : BitVec 32) :
    c = BitVec.ofNat 32 (low c).val ^^^ ((c >>> 8) <<< 8) := by
  have hmask : ∀ i : Fin 32, (0xFF : BitVec 32).getLsbD i.val = decide (i.val < 8) := by decide
  have hlow : BitVec.ofNat 32 (low c).val = c &&& 0xFF := by
    show BitVec.ofNat 32 (c &&& 0xFF).toNat = c &&& 0xFF
    rw [BitVec.ofNat_toNat, BitVec.setWidth_eq]
  rw [hlow]
  ext i hi
  show c.getLsbD i = ((c &&& (0xFF : BitVec 32)) ^^^ ((c >>> 8) <<< 8)).getLsbD i
  rw [BitVec.getLsbD_xor, BitVec.getLsbD_and, hmask ⟨i, hi⟩, BitVec.getLsbD_shiftLeft,
    BitVec.getLsbD_ushiftRight]
  by_cases hi8 : i < 8
  · simp [hi8]
  · simp [hi8, hi, show 8 + (i - 8) = i by omega]

/-- Eight steps: the low byte is looked up, the rest moves down. -/
theorem iterate_shift_eight (c : BitVec 32) :
    (shift poly)^[8] c = table poly (low c) ^^^ (c >>> 8) := by
  have hhigh : ∀ i < 8, ((c >>> 8) <<< 8).getLsbD i = false := by
    intro i hi
    rw [BitVec.getLsbD_shiftLeft]
    simp [hi]
  have hmoved : ((c >>> 8) <<< 8) >>> 8 = c >>> 8 := by
    refine shiftLeft_shiftRight fun i hi => ?_
    rw [BitVec.getLsbD_ushiftRight]
    exact BitVec.getLsbD_of_ge c (8 + i) hi
  nth_rewrite 1 [eq_low_xor c]
  rw [iterate_shift_xor, iterate_shift_of_low poly hhigh, hmoved, table]

/-- **The bits of a byte, one at a time, are a step of the table.** -/
theorem foldl_bits (c : BitVec 32) (b : UInt8) :
    (bits b).foldl (bitStep poly) c = tableStep (table poly) c b := by
  have hlen : (bits b).length = 8 := by simp [bits]
  rw [foldl_bitStep poly (by omega), ofBits_bits, tableStep_eq, hlen]
  exact iterate_shift_eight poly _

end Register
end FileTracker
