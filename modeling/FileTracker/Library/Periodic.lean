import Mathlib.Algebra.Order.Group.Defs
import Mathlib.Data.List.Chain

/-!
# A timer that is looked at

A loop that does something every so often compares the clock, at a fixed point of every
iteration, with the reading at which it last did it.  Such a timer never fires early, and
how late it fires depends on how often the loop comes by.

Times are any ordered group.  `firings` is what the timer does with the readings of a run:

* `isChain_firings`: from one firing to the next at least the interval passes.
* `isChain_firings_lt`: when from one reading to the next at most `δ` passes, from one
  firing to the next less than the interval and `δ` passes.
* `countP_nsmul_le`: how many events there can be that come a gap apart.
-/

namespace FileTracker
namespace Periodic

variable {T : Type*} [AddCommGroup T] [LinearOrder T] [IsOrderedAddMonoid T]

/-- The interval has passed. -/
def Due (interval last now : T) : Prop := interval ≤ now - last

instance (interval last now : T) : Decidable (Due interval last now) :=
  inferInstanceAs (Decidable (_ ≤ _))

/-- The readings, out of those at which the timer is looked at, at which it fires. -/
def firings (interval : T) : T → List T → List T
  | _, [] => []
  | last, now :: rest =>
    if Due interval last now then now :: firings interval now rest else firings interval last rest

theorem due_iff {interval last now : T} : Due interval last now ↔ last + interval ≤ now := by
  rw [Due, le_sub_iff_add_le, add_comm]

/-- **Never early.** -/
theorem isChain_firings (interval last : T) (readings : List T) :
    (last :: firings interval last readings).IsChain fun a b => a + interval ≤ b := by
  induction readings generalizing last with
  | nil => exact .singleton last
  | cons now rest ih =>
    rw [firings]
    split_ifs with hdue
    · exact .cons_cons (due_iff.mp hdue) (ih now)
    · exact ih last

/-- How late the timer is at a reading, where it was not due at the one before. -/
theorem isChain_firings_of_not_due {interval last seen δ : T} (hpos : 0 < interval)
    {readings : List T} (hseen : ¬ Due interval last seen)
    (hgap : (seen :: readings).IsChain fun a b => b ≤ a + δ) :
    (last :: firings interval last readings).IsChain fun a b => b < a + interval + δ := by
  induction readings generalizing last seen with
  | nil => exact .singleton last
  | cons now rest ih =>
    rw [List.isChain_cons_cons] at hgap
    rw [firings]
    split_ifs with hdue
    · refine .cons_cons ?_ (ih ?_ hgap.2)
      · have hlt : seen < last + interval := lt_of_not_ge fun hle => hseen (due_iff.mpr hle)
        exact hgap.1.trans_lt (add_lt_add_left hlt δ)
      · rw [Due, sub_self]
        exact not_le_of_gt hpos
    · exact ih hdue hgap.2

/-- **Never much too late.** -/
theorem isChain_firings_lt {interval last δ : T} (hpos : 0 < interval) {readings : List T}
    (hgap : (last :: readings).IsChain fun a b => b ≤ a + δ) :
    (last :: firings interval last readings).IsChain fun a b => b < a + interval + δ := by
  refine isChain_firings_of_not_due hpos ?_ hgap
  rw [Due, sub_self]
  exact not_le_of_gt hpos

/-- **How often at most**: of events in their order, those that are not exempt come at least
`gap` behind the event before them, the first no earlier than `start` and `gap`; so they take
their number of gaps. -/
theorem countP_nsmul_le {gap start stop : T} {b : Bool} {events : List (T × Bool)}
    (hchain : ((start, b) :: events).IsChain fun x y =>
      x.1 ≤ y.1 ∧ (y.2 = false → x.1 + gap ≤ y.1))
    (hstart : start ≤ stop) (hstop : ∀ e ∈ events, e.1 ≤ stop) :
    start + (events.countP fun e => !e.2) • gap ≤ stop := by
  induction events generalizing start b with
  | nil => simpa using hstart
  | cons e rest ih =>
    obtain ⟨time, exempt⟩ := e
    rw [List.isChain_cons_cons] at hchain
    obtain ⟨⟨hle, hgap⟩, hchain⟩ := hchain
    have hrest := ih hchain (hstop _ List.mem_cons_self)
      fun u hu => hstop u (List.mem_cons_of_mem _ hu)
    refine le_trans ?_ hrest
    cases exempt with
    | true =>
      rw [List.countP_cons_of_neg (by simp)]
      exact add_le_add_left hle _
    | false =>
      rw [List.countP_cons_of_pos (by simp), succ_nsmul', ← add_assoc]
      exact add_le_add_left (hgap rfl) _

end Periodic
end FileTracker
