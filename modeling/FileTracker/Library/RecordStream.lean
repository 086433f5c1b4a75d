import Mathlib.Data.List.Basic

/-!
# Reading a stream of records until the first bad one

A reader of an append-only log is a one-record reader iterated: it stops at the
first place where no record can be read, and whatever follows is lost to it.
`parseAll` is that iteration for an arbitrary one-record reader `next`, and the
laws below are all a log format needs.

The iteration is bounded by the length of the input, so that it is structural;
`parseAll_cons` says the bound is never reached, as long as `next` consumes
something (`Shrinks`).
-/

namespace FileTracker
namespace RecordStream

variable {α β : Type*}

/-- A one-record reader leaves less than it was given. -/
def Shrinks (next : List β → Option (α × List β)) : Prop :=
  ∀ s a rest, next s = some (a, rest) → rest.length < s.length

/-- Iterate the one-record reader, at most `n` times. -/
def parseMany (next : List β → Option (α × List β)) : ℕ → List β → List α
  | 0, _ => []
  | n + 1, s =>
    match next s with
    | some (a, rest) => a :: parseMany next n rest
    | none => []

/-- Iterate the one-record reader to the first place where it stops. -/
def parseAll (next : List β → Option (α × List β)) (s : List β) : List α :=
  parseMany next (s.length + 1) s

variable {next : List β → Option (α × List β)}

/-- A bound above the length of the input is never reached. -/
theorem parseMany_eq (h : Shrinks next) {m n : ℕ} {s : List β} (hm : s.length < m)
    (hn : s.length < n) : parseMany next m s = parseMany next n s := by
  induction m generalizing n s with
  | zero => omega
  | succ m ih =>
    cases n with
    | zero => omega
    | succ n =>
      cases hs : next s with
      | none => simp [parseMany, hs]
      | some p =>
        obtain ⟨a, rest⟩ := p
        have hlt := h s a rest hs
        simp only [parseMany, hs, List.cons.injEq, true_and]
        exact ih (by omega) (by omega)

theorem parseAll_of_none {s : List β} (hs : next s = none) : parseAll next s = [] := by
  simp [parseAll, parseMany, hs]

theorem parseAll_cons (h : Shrinks next) {s rest : List β} {a : α}
    (hs : next s = some (a, rest)) : parseAll next s = a :: parseAll next rest := by
  have hlt := h s a rest hs
  have hbound : parseMany next s.length rest = parseMany next (rest.length + 1) rest :=
    parseMany_eq h hlt (Nat.lt_succ_self _)
  simp only [parseAll, parseMany, hs, hbound]

theorem parseAll_eq_nil_iff {s : List β} : parseAll next s = [] ↔ next s = none := by
  cases hs : next s with
  | none => simp [parseAll_of_none hs]
  | some p => simp [parseAll, parseMany, hs]

/-- What is read from a stream was read by the one-record reader somewhere in it. -/
theorem exists_next_of_mem_parseAll {s : List β} {a : α} (h : a ∈ parseAll next s) :
    ∃ t rest, next t = some (a, rest) := by
  rw [parseAll] at h
  generalize s.length + 1 = n at h
  induction n generalizing s with
  | zero => exact absurd h List.not_mem_nil
  | succ n ih =>
    cases hs : next s with
    | none =>
      simp only [parseMany, hs] at h
      exact absurd h List.not_mem_nil
    | some p =>
      obtain ⟨b, rest⟩ := p
      simp only [parseMany, hs] at h
      rcases List.mem_cons.mp h with rfl | h
      · exact ⟨s, rest, hs⟩
      · exact ih h

/-- **The round trip.**  Encoded records in front of any suffix are read back in
order, and the reader then goes on with the suffix. -/
theorem parseAll_flatMap (h : Shrinks next) {enc : α → List β} {as : List α}
    (henc : ∀ a ∈ as, ∀ rest, next (enc a ++ rest) = some (a, rest)) (rest : List β) :
    parseAll next (as.flatMap enc ++ rest) = as ++ parseAll next rest := by
  induction as with
  | nil => rfl
  | cons a as ih =>
    have hfirst := henc a List.mem_cons_self (as.flatMap enc ++ rest)
    rw [List.flatMap_cons, List.append_assoc, parseAll_cons h hfirst,
      ih fun b hb => henc b (List.mem_cons_of_mem _ hb), List.cons_append]

/-! ## A stream that is cut off -/

/-- The longest prefix of the records whose encodings lie within the first `n`
places of the stream. -/
structure WholePrefix (enc : α → List β) (as : List α) (n : ℕ) (whole : List α) : Prop where
  isPrefix : whole <+: as
  fits : (whole.flatMap enc).length ≤ n
  longest : ∀ pre, pre <+: as → (pre.flatMap enc).length ≤ n → pre <+: whole

/-- **The cut.**  When nothing can be read from a record that is cut off, reading
a stream that is cut off at any place returns the records that lie before the cut,
and no others. -/
theorem parseAll_take (h : Shrinks next) {enc : α → List β} {as : List α}
    (henc : ∀ a ∈ as, ∀ rest, next (enc a ++ rest) = some (a, rest))
    (hcut : ∀ a ∈ as, ∀ k < (enc a).length, next ((enc a).take k) = none) (n : ℕ) :
    WholePrefix enc as n (parseAll next ((as.flatMap enc).take n)) := by
  induction as generalizing n with
  | nil =>
    rw [List.flatMap_nil, List.take_nil]
    cases hnil : parseAll next [] with
    | nil => exact ⟨List.prefix_rfl, Nat.zero_le n, fun _ hpre _ => hpre⟩
    | cons a rest =>
      -- nothing shrinks below the empty stream
      have hsome : next [] ≠ none := by
        rw [Ne, ← parseAll_eq_nil_iff, hnil]
        exact List.cons_ne_nil a rest
      obtain ⟨⟨b, s⟩, hb⟩ := Option.ne_none_iff_exists'.mp hsome
      exact absurd (h [] b s hb) (Nat.not_lt_zero _)
  | cons a as ih =>
    rw [List.flatMap_cons]
    by_cases hn : (enc a).length ≤ n
    · have hrest := ih (fun b hb => henc b (List.mem_cons_of_mem _ hb))
        (fun b hb => hcut b (List.mem_cons_of_mem _ hb)) (n - (enc a).length)
      rw [List.take_append, List.take_of_length_le hn,
        parseAll_cons h (henc a List.mem_cons_self _)]
      refine ⟨List.cons_prefix_cons.mpr ⟨rfl, hrest.isPrefix⟩, ?_, fun pre hpre hfits => ?_⟩
      · have hle := hrest.fits
        rw [List.flatMap_cons, List.length_append]
        omega
      · rcases pre with _ | ⟨b, pre⟩
        · exact List.nil_prefix
        · obtain ⟨rfl, htail⟩ := List.cons_prefix_cons.mp hpre
          rw [List.flatMap_cons, List.length_append] at hfits
          exact List.cons_prefix_cons.mpr ⟨rfl, hrest.longest pre htail (by omega)⟩
    · have hlt : n < (enc a).length := Nat.lt_of_not_le hn
      rw [List.take_append_of_le_length (Nat.le_of_lt hlt), parseAll_of_none (hcut a List.mem_cons_self n hlt)]
      refine ⟨List.nil_prefix, Nat.zero_le n, fun pre hpre hfits => ?_⟩
      rcases pre with _ | ⟨b, pre⟩
      · exact List.prefix_rfl
      · obtain ⟨rfl, -⟩ := List.cons_prefix_cons.mp hpre
        rw [List.flatMap_cons, List.length_append] at hfits
        omega

end RecordStream
end FileTracker
