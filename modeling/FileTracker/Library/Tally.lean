import FileTracker.Library.LastWriter
import Mathlib.Data.Finset.Sort
import Mathlib.Algebra.BigOperators.Group.Finset.Basic
import Mathlib.Algebra.Ring.Nat

/-!
# Counting in a map

A loop that counts how often each value occurs, in a map from the values to their numbers,
and then goes through the map in the order of the keys.  The result depends on the values
only, not on the order in which they come (`histogram_eq`): every value stands in it once,
with its number, and the numbers add up (`sum_occurrences`).
-/

namespace FileTracker
namespace Tally

open LastWriter

variable {K : Type*} [DecidableEq K]

/-- One more of a value. -/
def countOne (m : Map K ℕ) (k : K) : Map K ℕ := m.insert k ((m.lookup k).getD 0 + 1)

def tally (ks : List K) : Map K ℕ := ks.foldl countOne ∅

/-- How often a value occurs. -/
def occurrences (ks : List K) (k : K) : ℕ := ks.count k

theorem lookup_foldl_countOne (m : Map K ℕ) (ks : List K) (k : K) :
    (ks.foldl countOne m).lookup k =
      if k ∈ ks then some ((m.lookup k).getD 0 + ks.count k) else m.lookup k := by
  induction ks generalizing m with
  | nil => simp
  | cons first ks ih =>
    rw [List.foldl_cons, ih, countOne]
    by_cases heq : k = first
    · subst heq
      rw [Finmap.lookup_insert, Option.getD_some, List.count_cons_self,
        if_pos List.mem_cons_self]
      split_ifs with hk
      · rw [Nat.add_assoc, Nat.add_comm 1]
      · rw [List.count_eq_zero.mpr hk]
    · rw [Finmap.lookup_insert_of_ne _ heq, List.count_cons_of_ne (Ne.symm heq)]
      simp only [List.mem_cons, heq, false_or]

/-- What the map says of a value. -/
theorem lookup_tally (ks : List K) (k : K) :
    (tally ks).lookup k = if k ∈ ks then some (occurrences ks k) else none := by
  rw [tally, lookup_foldl_countOne, Finmap.lookup_empty, Option.getD_none, Nat.zero_add]
  rfl

theorem keys_tally (ks : List K) : (tally ks).keys = ks.toFinset := by
  ext k
  rw [Finmap.mem_keys, ← Finmap.lookup_isSome, lookup_tally, List.mem_toFinset]
  split_ifs with hk <;> simp [hk]

theorem occurrences_eq_length (ks : List K) (k : K) :
    occurrences ks k = (ks.filter fun x => decide (x = k)).length := by
  rw [occurrences, List.count_eq_countP, List.countP_eq_length_filter]
  exact congrArg List.length (List.filter_congr fun x _ => beq_eq_decide x k)

theorem occurrences_pos_iff {ks : List K} {k : K} : 0 < occurrences ks k ↔ k ∈ ks :=
  List.count_pos_iff

/-- The numbers of the values that can occur add up. -/
theorem sum_occurrences {ks known : List K} (hsub : ∀ k ∈ ks, k ∈ known) (hnodup : known.Nodup) :
    (known.map (occurrences ks)).sum = ks.length := by
  have hsum : ∑ k ∈ known.toFinset, (ks : Multiset K).count k = (ks : Multiset K).card :=
    Multiset.sum_count_eq_card fun k hk => List.mem_toFinset.mpr (hsub k hk)
  simp only [Multiset.coe_count, Multiset.coe_card] at hsum
  rw [← List.sum_toFinset _ hnodup]
  exact hsum

variable [LinearOrder K]

/-- The map in the order of its keys. -/
def histogram (ks : List K) : List (K × ℕ) :=
  (tally ks).keys.sort.map fun k => (k, ((tally ks).lookup k).getD 0)

/-- **What the loop finds**: every value that occurs, and how often. -/
theorem histogram_eq (ks : List K) :
    histogram ks = ks.toFinset.sort.map fun k => (k, occurrences ks k) := by
  rw [histogram, keys_tally]
  refine List.map_congr_left fun k hk => ?_
  rw [Finset.mem_sort, List.mem_toFinset] at hk
  rw [lookup_tally, if_pos hk, Option.getD_some]

/-- Where only some values can occur, their order is known. -/
theorem histogram_of_subset {ks known : List K} (hsub : ∀ k ∈ ks, k ∈ known)
    (hsorted : known.SortedLT) :
    histogram ks =
      (known.filter fun k => 0 < occurrences ks k).map fun k => (k, occurrences ks k) := by
  rw [histogram_eq]
  refine congrArg (List.map _) ?_
  refine ks.toFinset.sortedLT_sort.eq_of_mem_iff ?_ fun k => ?_
  · exact (hsorted.pairwise.filter _).sortedLT
  · rw [Finset.mem_sort, List.mem_toFinset, List.mem_filter, decide_eq_true_iff,
      occurrences_pos_iff]
    exact ⟨fun hk => ⟨hsub k hk, hk⟩, And.right⟩

end Tally
end FileTracker
