import Mathlib.Data.List.Basic
import Mathlib.Data.List.Infix

/-!
# Lists split at a separator

A list with separators in it is a list of pieces, and the pieces are the components of a
path or the lines of a file.  Joining undoes splitting always, and splitting undoes joining
for pieces without the separator.

`Below` is the order of a tree on such lists: the pieces of the one are the first pieces of
the other, and not all of them.  A test for a prefix that ends in a separator decides it
(`below_iff_exists`), so that code which compares strings this way compares them piece by
piece.
-/

namespace FileTracker
namespace Separator

variable {α : Type*} {sep : α}

/-! ## Joining and splitting -/

/-- Joining two runs of pieces. -/
theorem intercalate_append {xs ys : List (List α)} (hxs : xs ≠ []) (hys : ys ≠ []) :
    [sep].intercalate (xs ++ ys) = [sep].intercalate xs ++ sep :: [sep].intercalate ys := by
  induction xs with
  | nil => exact absurd rfl hxs
  | cons x xs ih =>
    rcases xs with _ | ⟨x', xs⟩
    · rw [List.singleton_append, List.intercalate_cons_of_ne_nil hys, List.intercalate_singleton,
        List.append_assoc, List.singleton_append]
    · rw [List.cons_append, List.cons_append, List.intercalate_cons_cons, ← List.cons_append,
        ih (List.cons_ne_nil _ _), List.intercalate_cons_cons, List.append_assoc, List.append_assoc,
        List.append_assoc]

variable [DecidableEq α]

/-- No piece holds the separator. -/
theorem not_mem_of_mem_splitOn {xs piece : List α} (h : piece ∈ xs.splitOn sep) : sep ∉ piece := by
  induction xs generalizing piece with
  | nil =>
    rw [List.splitOn_nil, List.mem_singleton] at h
    rw [h]
    exact List.not_mem_nil
  | cons x xs ih =>
    rw [List.splitOn_cons_eq_if_modifyHead] at h
    obtain ⟨head, tail, hsplit⟩ := List.exists_cons_of_ne_nil (List.splitOn_ne_nil sep xs)
    split_ifs at h with hx
    · rcases List.mem_cons.mp h with rfl | h
      · exact List.not_mem_nil
      · exact ih h
    · rw [hsplit, List.modifyHead_cons] at h
      rcases List.mem_cons.mp h with rfl | h
      · have hhead : sep ∉ head := ih (by rw [hsplit]; exact List.mem_cons_self)
        have hne : ¬ sep = x := fun heq => hx (beq_iff_eq.mpr heq.symm)
        exact fun hmem => (List.mem_cons.mp hmem).elim hne hhead
      · exact ih (by rw [hsplit]; exact List.mem_cons_of_mem _ h)

/-- Joined lists split into what each of them splits into. -/
theorem splitOn_intercalate_eq_flatMap {lists : List (List α)} (hne : lists ≠ []) :
    ([sep].intercalate lists).splitOn sep = lists.flatMap (List.splitOn sep) := by
  induction lists with
  | nil => exact absurd rfl hne
  | cons first rest ih =>
    cases rest with
    | nil => rw [List.intercalate_singleton, List.flatMap_cons, List.flatMap_nil, List.append_nil]
    | cons second rest =>
      rw [List.flatMap_cons, List.intercalate_cons_cons, List.append_assoc, List.singleton_append,
        List.splitOn_append_cons_self, ih (List.cons_ne_nil _ _)]

/-- Splitting undoes joining for lists without the separator, and for no others. -/
theorem splitOn_intercalate_eq_iff {lists : List (List α)} (hne : lists ≠ []) :
    ([sep].intercalate lists).splitOn sep = lists ↔ ∀ l ∈ lists, sep ∉ l := by
  constructor
  · intro h l hl
    rw [← h] at hl
    exact not_mem_of_mem_splitOn hl
  · intro h
    exact List.splitOn_intercalate sep h hne

/-- Some of the pieces, joined, have these pieces. -/
theorem splitOn_intercalate_take {xs : List α} {k : ℕ} (hk : 1 ≤ k) :
    ([sep].intercalate ((xs.splitOn sep).take k)).splitOn sep = (xs.splitOn sep).take k := by
  have hne : (xs.splitOn sep).take k ≠ [] := by
    rw [Ne, List.take_eq_nil_iff, not_or]
    exact ⟨Nat.one_le_iff_ne_zero.mp hk, List.splitOn_ne_nil sep xs⟩
  exact (splitOn_intercalate_eq_iff hne).mpr fun piece hpiece =>
    not_mem_of_mem_splitOn (List.mem_of_mem_take hpiece)

theorem splitOn_injective : Function.Injective (List.splitOn sep) := by
  intro xs ys h
  have hjoin : [sep].intercalate (xs.splitOn sep) = [sep].intercalate (ys.splitOn sep) :=
    congrArg _ h
  rwa [List.intercalate_splitOn, List.intercalate_splitOn] at hjoin

/-! ## The tree -/

/-- The pieces of `base` are the first pieces of `path`, and not all of them. -/
def Below (sep : α) (base path : List α) : Prop :=
  base.splitOn sep <+: path.splitOn sep ∧ base.splitOn sep ≠ path.splitOn sep

/-- **Below is what goes on behind a separator.** -/
theorem below_iff_exists {base path : List α} :
    Below sep base path ↔ ∃ rest, path = base ++ sep :: rest := by
  constructor
  · rintro ⟨⟨pieces, hpieces⟩, hne⟩
    have hnil : pieces ≠ [] := by
      rintro rfl
      rw [List.append_nil] at hpieces
      exact hne hpieces
    refine ⟨[sep].intercalate pieces, ?_⟩
    have hjoin : [sep].intercalate (base.splitOn sep ++ pieces) =
        [sep].intercalate (base.splitOn sep) ++ sep :: [sep].intercalate pieces :=
      intercalate_append (List.splitOn_ne_nil sep base) hnil
    rwa [hpieces, List.intercalate_splitOn, List.intercalate_splitOn] at hjoin
  · rintro ⟨rest, rfl⟩
    rw [Below, List.splitOn_append_cons_self]
    refine ⟨List.prefix_append _ _, fun h => ?_⟩
    exact List.splitOn_ne_nil sep rest (List.self_eq_append_right.mp h)

/-- The pieces of what is below, behind those of `base`. -/
theorem drop_splitOn_append (base rest : List α) :
    ((base ++ sep :: rest).splitOn sep).drop (base.splitOn sep).length = rest.splitOn sep := by
  rw [List.splitOn_append_cons_self, List.drop_left]

/-- Lists with equally many pieces are not below each other. -/
theorem not_below_of_length_eq {xs ys : List α}
    (h : (xs.splitOn sep).length = (ys.splitOn sep).length) : ¬ Below sep xs ys :=
  fun hbelow => hbelow.2 (hbelow.1.eq_of_length h)

/-- What stands in front of a separator is given by the number of its pieces. -/
theorem eq_of_append_eq {xs ys : List α} (h : (xs.splitOn sep).length = (ys.splitOn sep).length)
    {as bs : List α} (heq : xs ++ sep :: as = ys ++ sep :: bs) : xs = ys := by
  have hsplit := congrArg (List.splitOn sep) heq
  rw [List.splitOn_append_cons_self, List.splitOn_append_cons_self] at hsplit
  exact splitOn_injective (List.append_inj_left hsplit h)

end Separator
end FileTracker
