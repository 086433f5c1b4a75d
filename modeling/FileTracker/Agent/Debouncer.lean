import FileTracker.Agent.Common
import FileTracker.Library.LastWriter

/-!
# The debouncer

`Debouncer` of `src/debouncer.cpp`.  Every operation returns the callbacks it
makes.  The clock is read once in an operation and is an argument; and so is the
order in which the hash map is gone through, which may be any order of its keys.

The periods are milliseconds and the clock is in nanoseconds.  A comparison of the two
converts the period, in 64 bits, and a period of more than 292 years is something else
then.
-/

namespace FileTracker
namespace Agent

open LastWriter

/-- `Debouncer::Entry`. -/
structure Entry where
  firstSeen : ℤ
  lastSeen : ℤ
  deriving DecidableEq

/-- The nanoseconds in a period of milliseconds. -/
def inNanos (ms : ℤ) : ℤ := ms * 1000000

/-- The period that a comparison with a difference of two clock readings converts it to. -/
def toNanos (ms : ℤ) : ℤ := (inNanos ms).bmod (2 ^ 64)

/-- `Debouncer`, without its callback. -/
structure Debouncer where
  quietPeriod : ℤ
  maxWait : ℤ
  entries : Map Bytes Entry

/-- The arguments of a callback. -/
abbrev Callback := Bytes × EventType

def Debouncer.init (quietPeriod maxWait : ℤ) : Debouncer := ⟨quietPeriod, maxWait, ∅⟩

/-- `on_event`. -/
def Debouncer.onEvent (d : Debouncer) (now : ℤ) (path : Bytes) (eventType : EventType) :
    Debouncer × List Callback :=
  if eventType = .delete then
    ({ d with entries := d.entries.erase path }, [(path, eventType)])
  else
    match d.entries.lookup path with
    | some entry =>
      if now - entry.firstSeen ≥ toNanos d.maxWait then
        ({ d with entries := d.entries.erase path }, [(path, eventType)])
      else ({ d with entries := d.entries.insert path { entry with lastSeen := now } }, [])
    | none => ({ d with entries := d.entries.insert path ⟨now, now⟩ }, [])

/-- The order is one in which the entries can be gone through. -/
def Debouncer.Iterates (d : Debouncer) (order : List Bytes) : Prop :=
  (order : Multiset Bytes) = d.entries.keys.val

instance (d : Debouncer) (order : List Bytes) : Decidable (d.Iterates order) :=
  inferInstanceAs (Decidable (_ = _))

/-- The entry of the path has been quiet for long enough. -/
def Debouncer.expired (d : Debouncer) (now : ℤ) (path : Bytes) : Bool :=
  match d.entries.lookup path with
  | some entry => now - entry.lastSeen ≥ toNanos d.quietPeriod
  | none => false

/-- `tick`. -/
def Debouncer.tick (d : Debouncer) (now : ℤ) (order : List Bytes) : Debouncer × List Callback :=
  let toFire := order.filter (d.expired now)
  ({ d with entries := run d.entries (toFire.map .del) }, toFire.map fun path => (path, .mtime))

/-- `flush_all`. -/
def Debouncer.flushAll (d : Debouncer) (order : List Bytes) : Debouncer × List Callback :=
  ({ d with entries := ∅ }, order.map fun path => (path, .mtime))

/-- `pending`. -/
def Debouncer.pending (d : Debouncer) : ℕ := d.entries.keys.card

/-! ## Periods -/

/-- The longest period that is still itself in 64 bits of nanoseconds. -/
def maxPeriod : ℤ := 9223372036854

theorem toNanos_eq {ms : ℤ} (hpos : 0 ≤ ms) (hle : ms ≤ maxPeriod) : toNanos ms = inNanos ms := by
  unfold maxPeriod at hle
  unfold toNanos inNanos
  exact Int.bmod_eq_of_le_mul_two (by omega) (by omega)

/-- A conversion that goes wrong makes a period shorter. -/
theorem toNanos_le {ms : ℤ} (hpos : 0 ≤ ms) : toNanos ms ≤ inNanos ms := by
  rcases le_or_gt ms maxPeriod with hle | hgt
  · exact (toNanos_eq hpos hle).le
  · have hlt : toNanos ms < (2 ^ 64 + 1) / 2 := Int.bmod_lt (by decide)
    unfold maxPeriod at hgt
    unfold inNanos
    omega

theorem toNanos_lt {ms : ℤ} (hgt : maxPeriod < ms) : toNanos ms < inNanos ms := by
  have hlt : toNanos ms < (2 ^ 64 + 1) / 2 := Int.bmod_lt (by decide)
  unfold maxPeriod at hgt
  unfold inNanos
  omega

theorem inNanos_pos {ms : ℤ} (hpos : 0 < ms) : 0 < inNanos ms :=
  Int.mul_pos hpos (by decide)

/-! ## What an operation does -/

/-- `on_event` on a delete. -/
theorem Debouncer.onEvent_delete (d : Debouncer) (now : ℤ) (path : Bytes) :
    d.onEvent now path .delete =
      ({ d with entries := d.entries.erase path }, [(path, .delete)]) :=
  rfl

/-- `on_event` on an mtime change: the entry is fired because it has waited too long,
or refreshed, or made. -/
theorem Debouncer.onEvent_mtime (d : Debouncer) (now : ℤ) (path : Bytes) :
    (∃ entry, d.entries.lookup path = some entry ∧
      toNanos d.maxWait ≤ now - entry.firstSeen ∧ d.onEvent now path .mtime =
        ({ d with entries := d.entries.erase path }, [(path, .mtime)])) ∨
    (∃ entry, d.entries.lookup path = some entry ∧
      now - entry.firstSeen < toNanos d.maxWait ∧ d.onEvent now path .mtime =
        ({ d with entries := d.entries.insert path { entry with lastSeen := now } }, [])) ∨
    (d.entries.lookup path = none ∧
      d.onEvent now path .mtime = ({ d with entries := d.entries.insert path ⟨now, now⟩ }, [])) := by
  unfold Debouncer.onEvent
  rw [if_neg (by decide)]
  cases hlook : d.entries.lookup path with
  | none => exact Or.inr (Or.inr ⟨rfl, rfl⟩)
  | some entry =>
    by_cases hwait : now - entry.firstSeen ≥ toNanos d.maxWait
    · exact Or.inl ⟨entry, rfl, hwait, if_pos hwait⟩
    · exact Or.inr (Or.inl ⟨entry, rfl, not_le.mp hwait, if_neg hwait⟩)

theorem Debouncer.Iterates.mem_iff {d : Debouncer} {order : List Bytes} (h : d.Iterates order)
    {path : Bytes} : path ∈ order ↔ path ∈ d.entries := by
  rw [← Multiset.mem_coe, h, Finset.mem_val, Finmap.mem_keys]

theorem Debouncer.Iterates.nodup {d : Debouncer} {order : List Bytes} (h : d.Iterates order) :
    order.Nodup := by
  rw [← Multiset.coe_nodup, h]
  exact d.entries.keys.nodup

theorem Debouncer.expired_iff {d : Debouncer} {now : ℤ} {path : Bytes} :
    d.expired now path = true ↔ ∃ entry, d.entries.lookup path = some entry ∧
      toNanos d.quietPeriod ≤ now - entry.lastSeen := by
  unfold Debouncer.expired
  cases d.entries.lookup path <;> simp

/-- A tick fires what has expired, once each. -/
theorem Debouncer.mem_callbacks_tick {d : Debouncer} {now : ℤ} {order : List Bytes}
    (horder : d.Iterates order) {cb : Callback} :
    cb ∈ (d.tick now order).2 ↔ cb.2 = .mtime ∧ d.expired now cb.1 = true := by
  rw [Debouncer.tick, List.mem_map]
  constructor
  · rintro ⟨path, hpath, rfl⟩
    exact ⟨rfl, (List.mem_filter.mp hpath).2⟩
  · obtain ⟨path, eventType⟩ := cb
    rintro ⟨rfl, hexp⟩
    obtain ⟨entry, hentry, -⟩ := Debouncer.expired_iff.mp hexp
    have hmem := horder.mem_iff.mpr (Finmap.mem_of_lookup_eq_some hentry)
    exact ⟨path, List.mem_filter.mpr ⟨hmem, hexp⟩, rfl⟩

theorem Debouncer.nodup_callbacks_tick {d : Debouncer} {now : ℤ} {order : List Bytes}
    (horder : d.Iterates order) : ((d.tick now order).2.map Prod.fst).Nodup := by
  have hpaths : (d.tick now order).2.map Prod.fst = order.filter (d.expired now) := by
    rw [Debouncer.tick, List.map_map]
    exact List.map_id _
  rw [hpaths]
  exact horder.nodup.filter _

/-- A tick takes away what it fires and leaves the other entries unchanged. -/
theorem Debouncer.lookup_tick {d : Debouncer} {now : ℤ} {order : List Bytes}
    (horder : d.Iterates order) (path : Bytes) :
    (d.tick now order).1.entries.lookup path =
      if d.expired now path then none else d.entries.lookup path := by
  have hfired : path ∈ order.filter (d.expired now) ↔ d.expired now path = true := by
    rw [List.mem_filter]
    refine and_iff_right_of_imp fun hexp => ?_
    obtain ⟨entry, hentry, -⟩ := Debouncer.expired_iff.mp hexp
    exact horder.mem_iff.mpr (Finmap.mem_of_lookup_eq_some hentry)
  rw [Debouncer.tick, lookup_run_del]
  by_cases hexp : d.expired now path = true
  · rw [if_pos (hfired.mpr hexp), if_pos hexp]
  · rw [if_neg (hfired.not.mpr hexp), if_neg hexp]

/-! ## What becomes of an entry -/

/-- An event on the path, or an entry of it, leaves an entry or is reported, unless
the event is a delete of the path. -/
theorem Debouncer.mem_or_reported_onEvent (d : Debouncer) (now : ℤ) {path q : Bytes}
    {eventType : EventType} (h : path ∈ d.entries ∨ path = q)
    (hdel : eventType = .delete → q ≠ path) :
    path ∈ (d.onEvent now q eventType).1.entries ∨
      (path = q ∧ eventType ≠ .delete ∧ (d.onEvent now q eventType).2 = [(path, eventType)]) := by
  unfold Debouncer.onEvent
  by_cases hpath : path = q
  · subst hpath
    have hne : eventType ≠ .delete := fun he => hdel he rfl
    rw [if_neg hne]
    cases d.entries.lookup path with
    | none => exact Or.inl (by simp)
    | some entry =>
      by_cases hwait : now - entry.firstSeen ≥ toNanos d.maxWait
      · exact Or.inr ⟨rfl, hne, by simp [hwait]⟩
      · exact Or.inl (by simp [hwait])
  · have hmem := h.resolve_right hpath
    refine Or.inl ?_
    split_ifs
    · simp [Finmap.mem_erase, hpath, hmem]
    · cases d.entries.lookup q with
      | none => simp [hmem]
      | some entry =>
        by_cases hwait : now - entry.firstSeen ≥ toNanos d.maxWait
        · simp [hwait, Finmap.mem_erase, hpath, hmem]
        · simp [hwait, hmem]

/-! ## Where the paths come from -/

theorem Debouncer.mem_of_mem_onEvent {d : Debouncer} {now : ℤ} {path q : Bytes}
    {eventType : EventType} (h : path ∈ (d.onEvent now q eventType).1.entries) :
    path = q ∨ path ∈ d.entries := by
  unfold Debouncer.onEvent at h
  split_ifs at h
  · exact Or.inr (Finmap.mem_erase.mp h).2
  · cases hlook : d.entries.lookup q with
    | none => simpa [hlook] using h
    | some entry =>
      by_cases hwait : now - entry.firstSeen ≥ toNanos d.maxWait
      · simp only [hlook, if_pos hwait] at h
        exact Or.inr (Finmap.mem_erase.mp h).2
      · simpa [hlook, hwait] using h

theorem Debouncer.eq_of_mem_callbacks_onEvent {d : Debouncer} {now : ℤ} {q : Bytes}
    {eventType : EventType} {cb : Callback} (h : cb ∈ (d.onEvent now q eventType).2) :
    cb = (q, eventType) := by
  unfold Debouncer.onEvent at h
  split_ifs at h
  · exact List.mem_singleton.mp h
  · cases hlook : d.entries.lookup q with
    | none => simp [hlook] at h
    | some entry =>
      by_cases hwait : now - entry.firstSeen ≥ toNanos d.maxWait
      · simpa [hlook, hwait] using h
      · simp [hlook, hwait] at h

/-! ## Entries that are handed over -/

/-- What a tick and the flush at shutdown have in common: they report entries, once each,
and these are the entries that go. -/
structure Debouncer.HandsOver (d : Debouncer) (r : Debouncer × List Callback) : Prop where
  quietPeriod_eq : r.1.quietPeriod = d.quietPeriod
  maxWait_eq : r.1.maxWait = d.maxWait
  callback : ∀ cb ∈ r.2, cb.1 ∈ d.entries ∧ cb.2 = .mtime
  nodup : (r.2.map Prod.fst).Nodup
  lookup : ∀ path, r.1.entries.lookup path =
    if path ∈ r.2.map Prod.fst then none else d.entries.lookup path

theorem Debouncer.HandsOver.entry {d : Debouncer} {r : Debouncer × List Callback}
    (h : d.HandsOver r) {path : Bytes} (hpath : path ∈ r.1.entries) : path ∈ d.entries := by
  obtain ⟨entry, hentry⟩ := Finmap.mem_iff.mp hpath
  rw [h.lookup, Option.ite_none_left_eq_some] at hentry
  exact Finmap.mem_of_lookup_eq_some hentry.2

theorem Debouncer.HandsOver.kept {d : Debouncer} {r : Debouncer × List Callback}
    (h : d.HandsOver r) {path : Bytes} (hpath : path ∈ d.entries) :
    path ∈ r.1.entries ∨ (path, .mtime) ∈ r.2 := by
  by_cases hreported : path ∈ r.2.map Prod.fst
  · obtain ⟨⟨q, eventType⟩, hcb, rfl⟩ := List.mem_map.mp hreported
    obtain ⟨-, rfl⟩ := h.callback _ hcb
    exact Or.inr hcb
  · obtain ⟨entry, hentry⟩ := Finmap.mem_iff.mp hpath
    refine Or.inl (Finmap.mem_iff.mpr ⟨entry, ?_⟩)
    rw [h.lookup, if_neg hreported, hentry]

theorem Debouncer.handsOver_tick {d : Debouncer} {now : ℤ} {order : List Bytes}
    (horder : d.Iterates order) : d.HandsOver (d.tick now order) := by
  refine ⟨rfl, rfl, fun cb hcb => ?_, Debouncer.nodup_callbacks_tick horder, fun path => ?_⟩
  · obtain ⟨htype, hexp⟩ := (Debouncer.mem_callbacks_tick horder).mp hcb
    obtain ⟨entry, hentry, -⟩ := Debouncer.expired_iff.mp hexp
    exact ⟨Finmap.mem_of_lookup_eq_some hentry, htype⟩
  · have hfired : path ∈ (d.tick now order).2.map Prod.fst ↔ d.expired now path = true := by
      constructor
      · intro hmem
        obtain ⟨cb, hcb, rfl⟩ := List.mem_map.mp hmem
        exact ((Debouncer.mem_callbacks_tick horder).mp hcb).2
      · intro hexp
        have hcb : (path, EventType.mtime) ∈ (d.tick now order).2 :=
          (Debouncer.mem_callbacks_tick horder).mpr ⟨rfl, hexp⟩
        exact List.mem_map_of_mem (f := Prod.fst) hcb
    rw [Debouncer.lookup_tick horder]
    exact if_congr hfired.symm rfl rfl

theorem Debouncer.handsOver_flushAll {d : Debouncer} {order : List Bytes}
    (horder : d.Iterates order) : d.HandsOver (d.flushAll order) := by
  have hpaths : (d.flushAll order).2.map Prod.fst = order := by
    rw [Debouncer.flushAll, List.map_map]
    exact List.map_id _
  refine ⟨rfl, rfl, fun cb hcb => ?_, ?_, fun path => ?_⟩
  · obtain ⟨path, hpath, rfl⟩ := List.mem_map.mp hcb
    exact ⟨horder.mem_iff.mp hpath, rfl⟩
  · rw [hpaths]
    exact horder.nodup
  · rw [hpaths]
    split_ifs with hmem
    · rfl
    · rw [horder.mem_iff] at hmem
      exact (Finmap.lookup_eq_none.mpr hmem).symm

end Agent
end FileTracker
