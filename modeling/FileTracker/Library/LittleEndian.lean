import Mathlib.Data.List.Basic
import Mathlib.Tactic.NormNum

/-!
# Byte strings and little-endian 32-bit words
-/

namespace FileTracker

/-- A byte string: file contents, C strings, message values. -/
abbrev Bytes := List UInt8

namespace LittleEndian

/-- The four bytes of `n mod 2^32`, least significant first. -/
def le32 (n : ℕ) : Bytes :=
  [UInt8.ofNat n, UInt8.ofNat (n / 256), UInt8.ofNat (n / 65536),
    UInt8.ofNat (n / 16777216)]

/-- The word that four bytes spell, least significant first. -/
def ofLe32 (a b c d : UInt8) : ℕ :=
  a.toNat + 256 * b.toNat + 65536 * c.toNat + 16777216 * d.toNat

@[simp] theorem length_le32 (n : ℕ) : (le32 n).length = 4 := rfl

/-- Reading a word back gives the number modulo `2^32`, as the cast to
`uint32_t` does. -/
theorem ofLe32_le32 (n : ℕ) :
    ofLe32 (UInt8.ofNat n) (UInt8.ofNat (n / 256)) (UInt8.ofNat (n / 65536))
      (UInt8.ofNat (n / 16777216)) = n % 2 ^ 32 := by
  simp only [ofLe32, UInt8.toNat_ofNat']
  omega

/-- The four bytes of a word, put back. -/
theorem le32_ofLe32 (a b c d : UInt8) : le32 (ofLe32 a b c d) = [a, b, c, d] := by
  have ha := a.toNat_lt
  have hb := b.toNat_lt
  have hc := c.toNat_lt
  have hd := d.toNat_lt
  simp only [le32, List.cons.injEq, and_true, ← UInt8.toNat_inj, UInt8.toNat_ofNat', ofLe32]
  omega

/-! ## A flipped bit -/

/-- A byte with one of its bits flipped. -/
def flipBit (bit : Fin 8) (b : UInt8) : UInt8 := b ^^^ UInt8.ofNat (2 ^ bit.val)

/-- The bytes of a sum without carry. -/
theorem le32_xor (m n : ℕ) :
    le32 (m ^^^ n) = List.zipWith (fun a b => a ^^^ b) (le32 m) (le32 n) := by
  have hdiv : ∀ k, (m ^^^ n) / 2 ^ k = m / 2 ^ k ^^^ n / 2 ^ k := by
    intro k
    rw [← Nat.shiftRight_eq_div_pow, ← Nat.shiftRight_eq_div_pow, ← Nat.shiftRight_eq_div_pow,
      Nat.shiftRight_xor_distrib]
  have h8 := hdiv 8
  have h16 := hdiv 16
  have h24 := hdiv 24
  norm_num only at h8 h16 h24
  simp only [le32, h8, h16, h24, UInt8.ofNat_xor, List.zipWith_cons_cons, List.zipWith_nil_left]

/-- A bit that is flipped in one of the bytes is flipped in the number. -/
theorem modify_le32 (n : ℕ) {i : ℕ} (hi : i < 4) (bit : Fin 8) :
    (le32 n).modify i (flipBit bit) = le32 (n ^^^ 2 ^ (8 * i + bit.val)) := by
  have hword : ∀ (i : Fin 4) (bit : Fin 8), le32 (2 ^ (8 * i.val + bit.val)) =
      (List.replicate 4 0).set i.val (UInt8.ofNat (2 ^ bit.val)) := by
    decide +kernel
  rw [le32_xor, hword ⟨i, hi⟩ bit]
  rcases i with _ | _ | _ | _ | i
  · simp [le32, flipBit, List.replicate_succ]
  · simp [le32, flipBit, List.replicate_succ]
  · simp [le32, flipBit, List.replicate_succ]
  · simp [le32, flipBit, List.replicate_succ]
  · omega

end LittleEndian
end FileTracker
