import Mathlib.Algebra.BigOperators.Group.Finset.Piecewise
import Mathlib.Algebra.Order.Group.Multiset

/-!
# Interleavings

Several producers feed one list; every entry is tagged with its producer.  The
list is an interleaving of the producers' own lists when its `stream` at each
tag is that list, so the order is kept within a producer and free between them.

Two lists with the same streams have the same entries, and a list is the sum of
its streams as a multiset; that is what survives of the order.
-/

namespace FileTracker
namespace Interleaving

variable {ι α : Type*} [DecidableEq ι]

/-- The entries of one producer, in order. -/
def stream (c : ι) (merged : List (ι × α)) : List α :=
  (merged.filter fun x => x.1 = c).map Prod.snd

@[simp] theorem stream_nil (c : ι) : stream c ([] : List (ι × α)) = [] := rfl

@[simp] theorem stream_cons_self (c : ι) (a : α) (xs : List (ι × α)) :
    stream c ((c, a) :: xs) = a :: stream c xs := by
  simp [stream]

@[simp] theorem stream_cons_of_ne {c d : ι} (h : d ≠ c) (a : α) (xs : List (ι × α)) :
    stream c ((d, a) :: xs) = stream c xs := by
  simp [stream, h]

theorem stream_append (c : ι) (xs ys : List (ι × α)) :
    stream c (xs ++ ys) = stream c xs ++ stream c ys := by
  simp [stream]

theorem mem_stream {c : ι} {a : α} {xs : List (ι × α)} : a ∈ stream c xs ↔ (c, a) ∈ xs := by
  simp only [stream, List.mem_map, List.mem_filter, decide_eq_true_eq]
  constructor
  · rintro ⟨⟨d, b⟩, ⟨hmem, rfl⟩, rfl⟩
    exact hmem
  · exact fun hmem => ⟨(c, a), ⟨hmem, rfl⟩, rfl⟩

theorem mem_iff_of_stream_eq {xs ys : List (ι × α)} (h : ∀ c, stream c xs = stream c ys)
    (x : ι × α) : x ∈ xs ↔ x ∈ ys := by
  rw [← Prod.mk.eta (p := x), ← mem_stream, ← mem_stream, h]

/-- An interleaving holds the entries of its streams and no others. -/
theorem sum_stream [Fintype ι] (xs : List (ι × α)) :
    ∑ c, (stream c xs : Multiset α) = (xs.map Prod.snd : List α) := by
  induction xs with
  | nil => simp
  | cons x xs ih =>
    obtain ⟨d, a⟩ := x
    have hsplit : ∀ c, (stream c ((d, a) :: xs) : Multiset α) =
        (if d = c then {a} else 0) + (stream c xs : Multiset α) := by
      intro c
      by_cases h : d = c
      · subst h
        rw [stream_cons_self, if_pos rfl, ← Multiset.cons_coe, Multiset.singleton_add]
      · rw [stream_cons_of_ne h, if_neg h, zero_add]
    simp only [hsplit, Finset.sum_add_distrib, ih, Finset.sum_ite_eq, Finset.mem_univ, if_true]
    rfl

/-- Filtering and mapping the entries filters and maps the streams. -/
theorem stream_filterMap {β : Type*} (f : α → Option β) (c : ι) (xs : List (ι × α)) :
    stream c (xs.filterMap fun x => (f x.2).map fun b => (x.1, b)) = (stream c xs).filterMap f := by
  induction xs with
  | nil => rfl
  | cons x xs ih =>
    obtain ⟨d, a⟩ := x
    by_cases h : d = c
    · subst h
      cases hf : f a <;> simp [hf, ih]
    · cases hf : f a <;> simp [hf, ih, h]

theorem sum_stream_filterMap [Fintype ι] {β : Type*} (f : α → Option β) (xs : List (ι × α)) :
    ∑ c, ((stream c xs).filterMap f : Multiset β) = ((xs.map Prod.snd).filterMap f : List β) := by
  have hsum := sum_stream (xs.filterMap fun x => (f x.2).map fun b => (x.1, b))
  simp only [stream_filterMap] at hsum
  rw [hsum, List.map_filterMap, List.filterMap_map]
  refine congrArg _ (congrArg (List.filterMap · xs) (funext fun x => ?_))
  cases h : f x.2 <;> simp [h]

end Interleaving
end FileTracker
