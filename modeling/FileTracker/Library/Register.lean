import FileTracker.Library.LittleEndian
import Mathlib.Data.List.Induction
import Mathlib.Logic.Function.Basic

/-!
# Checksums that are registers

A checksum that is computed symbol by symbol is a register and a step function, and
two conditions on the step make it detect every short change.  No symbol may lose
what the register held (`Keeps`), and `n` symbols in a row must be told apart by the
register behind them (`Tells`).  Then two strings that differ only within `n`
consecutive places end in different registers (`eq_of_foldl_eq`).

A table-driven register of 32 bits over bytes meets both, for `n = 4`, as soon as the
top bytes of its table are different (`keeps_tableStep`, `tells_tableStep`).  The top
byte behind a step is that of the entry looked up, as the register has moved down by
a byte; so it gives away the index, and with the index the rest of the register
before the step.
-/

namespace FileTracker
namespace Register

/-! ## Registers in general -/

section General

variable {S β : Type*} (step : S → β → S)

/-- No symbol loses what the register held. -/
def Keeps : Prop := ∀ b, Function.Injective fun c => step c b

/-- From one register, `n` symbols in a row are told apart. -/
def Tells (n : ℕ) : Prop :=
  ∀ c (xs ys : List β), xs.length = n → ys.length = n → xs.foldl step c = ys.foldl step c →
    xs = ys

variable {step}

theorem Keeps.foldl_injective (h : Keeps step) (xs : List β) :
    Function.Injective fun c => xs.foldl step c := by
  induction xs with
  | nil => exact Function.injective_id
  | cons b xs ih => exact fun c d hcd => h b (ih hcd)

/-- **A change within `n` consecutive places is seen.** -/
theorem eq_of_foldl_eq (hkeeps : Keeps step) {n : ℕ} (htells : ∀ m ≤ n, Tells step m) {c : S}
    {xs ys : List β} (hlen : xs.length = ys.length) {start : ℕ}
    (hwithin : ∀ i, xs[i]? ≠ ys[i]? → start ≤ i ∧ i < start + n)
    (h : xs.foldl step c = ys.foldl step c) : xs = ys := by
  have hbefore : xs.take start = ys.take start := by
    refine List.ext_getElem? fun i => ?_
    rw [List.getElem?_take, List.getElem?_take]
    split
    · rename_i hi
      by_contra hne
      have hin := hwithin i hne
      omega
    · rfl
  have hafter : xs.drop (start + n) = ys.drop (start + n) := by
    refine List.ext_getElem? fun i => ?_
    rw [List.getElem?_drop, List.getElem?_drop]
    by_contra hne
    have hin := hwithin _ hne
    omega
  have hsplit : ∀ zs : List β,
      zs = zs.take start ++ ((zs.drop start).take n ++ zs.drop (start + n)) := by
    intro zs
    rw [← List.drop_drop, List.take_append_drop, List.take_append_drop]
  rw [hsplit xs, hsplit ys, hbefore, hafter] at h
  rw [List.foldl_append, List.foldl_append, List.foldl_append, List.foldl_append] at h
  have hwindow := hkeeps.foldl_injective _ h
  have hsame : (xs.drop start).take n = (ys.drop start).take n := by
    refine htells _ ?_ _ _ _ rfl ?_ hwindow
    · exact List.length_take_le _ _
    · rw [List.length_take, List.length_take, List.length_drop, List.length_drop, hlen]
  rw [hsplit xs, hsplit ys, hbefore, hsame, hafter]

end General

/-! ## Table-driven registers -/

/-- The low byte of a register, as an index. -/
def low (c : BitVec 32) : Fin 256 :=
  ⟨(c &&& 0xFF).toNat, by
    rw [BitVec.toNat_and]
    exact Nat.lt_of_le_of_lt Nat.and_le_right (by decide)⟩

/-- A byte in the low bits of a register. -/
def wide (b : UInt8) : BitVec 32 := b.toBitVec.setWidth 32

/-- One step of a table-driven register. -/
def tableStep (table : Fin 256 → BitVec 32) (c : BitVec 32) (b : UInt8) : BitVec 32 :=
  table (low (c ^^^ wide b)) ^^^ (c >>> 8)


/-- The top bytes of the entries are different. -/
def TopsDiffer (table : Fin 256 → BitVec 32) : Prop :=
  Function.Injective fun i => table i >>> 24

theorem wide_shift (b : UInt8) {k : ℕ} (hk : 8 ≤ k) : wide b >>> k = 0 := by
  have hlt : b.toNat < 2 ^ k := Nat.lt_of_lt_of_le b.toNat_lt (Nat.pow_le_pow_right (by omega) hk)
  ext i hi
  rw [wide, BitVec.getElem_ushiftRight, BitVec.getLsbD_setWidth, BitVec.getLsbD_of_ge _ _ (by omega)]
  simp

theorem low_val (c : BitVec 32) : (low c).val = c.toNat % 256 := by
  show (c &&& 0xFF).toNat = c.toNat % 256
  rw [BitVec.toNat_and]
  exact Nat.and_two_pow_sub_one_eq_mod c.toNat 8

theorem low_wide (b : UInt8) : (low (wide b)).val = b.toNat := by
  have hb : b.toNat < 256 := b.toNat_lt
  rw [low_val, wide, BitVec.toNat_setWidth, UInt8.toNat_toBitVec]
  omega

/-- The low byte and the rest make up the register. -/
theorem eq_of_low_of_shift {x y : BitVec 32} (hlow : low x = low y) (hshift : x >>> 8 = y >>> 8) :
    x = y := by
  have hmod : x.toNat % 256 = y.toNat % 256 := by
    have hval := congrArg Fin.val hlow
    rwa [low_val, low_val] at hval
  have hdiv := congrArg BitVec.toNat hshift
  rw [BitVec.toNat_ushiftRight, BitVec.toNat_ushiftRight, Nat.shiftRight_eq_div_pow,
    Nat.shiftRight_eq_div_pow] at hdiv
  apply BitVec.eq_of_toNat_eq
  omega

theorem low_xor_inj {c : BitVec 32} {a b : UInt8} (h : low (c ^^^ wide a) = low (c ^^^ wide b)) :
    a = b := by
  have hsame : c ^^^ wide a = c ^^^ wide b := by
    refine eq_of_low_of_shift h ?_
    rw [BitVec.ushiftRight_xor_distrib, BitVec.ushiftRight_xor_distrib, wide_shift a le_rfl,
      wide_shift b le_rfl]
  have hwide := (BitVec.xor_right_inj _).mp hsame
  have hval := congrArg (fun x => (low x).val) hwide
  rw [low_wide, low_wide] at hval
  exact UInt8.toNat_inj.mp hval

/-- A step depends on the register with the byte added in. -/
theorem tableStep_eq (table : Fin 256 → BitVec 32) (c : BitVec 32) (b : UInt8) :
    tableStep table c b = table (low (c ^^^ wide b)) ^^^ ((c ^^^ wide b) >>> 8) := by
  rw [tableStep, BitVec.ushiftRight_xor_distrib, wide_shift b le_rfl]
  exact congrArg _ BitVec.xor_zero.symm

section Table

variable {table : Fin 256 → BitVec 32} (htops : TopsDiffer table)
include htops

/-- The bits from `k` on behind a step give away the index that was looked up, and the
bits from `k + 8` on before it. -/
theorem eq_of_step_shift {x y : BitVec 32} {k : ℕ} (hk : k ≤ 24)
    (h : (table (low x) ^^^ (x >>> 8)) >>> k = (table (low y) ^^^ (y >>> 8)) >>> k) :
    low x = low y ∧ x >>> (k + 8) = y >>> (k + 8) := by
  have htop : ∀ z : BitVec 32, (table (low z) ^^^ (z >>> 8)) >>> k >>> (24 - k) =
      table (low z) >>> 24 := by
    intro z
    have hout : z >>> (8 + 24) = 0 := BitVec.ushiftRight_eq_zero (by omega)
    rw [← BitVec.shiftRight_add, Nat.add_sub_cancel' hk, BitVec.ushiftRight_xor_distrib,
      ← BitVec.shiftRight_add, hout]
    exact BitVec.xor_zero
  have hlow : low x = low y := by
    apply htops
    show table (low x) >>> 24 = table (low y) >>> 24
    rw [← htop x, ← htop y, h]
  refine ⟨hlow, ?_⟩
  rw [BitVec.ushiftRight_xor_distrib, BitVec.ushiftRight_xor_distrib, hlow] at h
  have hrest := (BitVec.xor_right_inj _).mp h
  rwa [← BitVec.shiftRight_add, ← BitVec.shiftRight_add, Nat.add_comm] at hrest

/-- **A table-driven register keeps what it held.** -/
theorem keeps_tableStep : Keeps (tableStep table) := by
  intro b c d h
  have hstep : tableStep table c b >>> 0 = tableStep table d b >>> 0 :=
    congrArg (fun z : BitVec 32 => z >>> 0) h
  rw [tableStep_eq, tableStep_eq] at hstep
  obtain ⟨hlow, hshift⟩ := eq_of_step_shift htops (Nat.zero_le 24) hstep
  exact (BitVec.xor_left_inj _).mp (eq_of_low_of_shift hlow hshift)

/-- Going back from the last byte, each byte read is given away together with what was
above the register's next eight bits, as long as there are such. -/
theorem eq_of_foldl_shift (c : BitVec 32) {k : ℕ} {xs ys : List UInt8}
    (hlen : xs.length = ys.length) (hk : k + 8 * xs.length ≤ 32)
    (h : xs.foldl (tableStep table) c >>> k = ys.foldl (tableStep table) c >>> k) : xs = ys := by
  induction xs using List.reverseRecOn generalizing k ys with
  | nil => exact (List.length_eq_zero_iff.mp hlen.symm).symm
  | append_singleton xs a ih =>
    rcases List.eq_nil_or_concat ys with rfl | ⟨ys, b, rfl⟩
    · simp at hlen
    · rw [List.concat_eq_append] at hlen h ⊢
      rw [List.length_append, List.length_singleton] at hk hlen
      rw [List.length_append, List.length_singleton] at hlen
      rw [List.foldl_append, List.foldl_append, List.foldl_cons, List.foldl_cons, List.foldl_nil,
        List.foldl_nil, tableStep_eq, tableStep_eq] at h
      obtain ⟨hlow, hshift⟩ := eq_of_step_shift htops (by omega) h
      have hbefore : xs = ys := by
        refine ih (k := k + 8) (by omega) (by omega) ?_
        rw [BitVec.ushiftRight_xor_distrib, BitVec.ushiftRight_xor_distrib,
          wide_shift a (by omega), wide_shift b (by omega)] at hshift
        exact (BitVec.xor_left_inj _).mp hshift
      subst hbefore
      rw [low_xor_inj hlow]

/-- **Four bytes in a row are told apart.** -/
theorem tells_tableStep {n : ℕ} (hn : n ≤ 4) : Tells (tableStep table) n := by
  intro c xs ys hxs hys h
  refine eq_of_foldl_shift htops c (k := 0) (by omega) (by omega) ?_
  rw [h]

end Table

end Register
end FileTracker
