import FileTracker.Library.Runs
import FileTracker.Agent.Debouncer

/-!
# The debouncer and its history

A `Watched` debouncer is called with a clock that never goes back, and the events
and callbacks are written down in their order.  What the debouncer remembers of
this history is little: for every path the times of the first and of the latest
mtime event that no callback has reported yet.  That is `Tracks`, and the results
about whole runs are read off it.

* `covering_of_run`: no event is forgotten, and no callback is empty.
* `timed_iff_representable`: when the callbacks come, and that the conversion of the
  periods to nanoseconds spoils it where it overflows.
* `prompt_iff_noneOverdue`: `maxWait` bounds the age of an entry after an event
  of its path, but a tick looks at the quiet period only, so it bounds the age of
  the entries after a tick exactly when every entry of that age has gone quiet.
-/

namespace FileTracker
namespace Agent

open Runs

/-! ## Operations and their history -/

/-- `on_event` on an mtime change and on a delete, `tick` and `flush_all`, with the
clock and the order in which the hash map is gone through. -/
inductive DebouncerOp where
  | mtime (path : Bytes) (now : ℤ)
  | delete (path : Bytes) (now : ℤ)
  | tick (now : ℤ) (order : List Bytes)
  | flushAll (now : ℤ) (order : List Bytes)

/-- An event handed to the debouncer, or a callback it makes. -/
inductive Occurrence where
  | event (path : Bytes) (eventType : EventType) (time : ℤ)
  | callback (cb : Callback)

/-- A debouncer, the clock, and what has happened. -/
structure Watched where
  debouncer : Debouncer
  clock : ℤ
  history : List Occurrence

def Watched.init (quietPeriod maxWait clock : ℤ) : Watched := ⟨.init quietPeriod maxWait, clock, []⟩

/-- An operation, with the event it was called for and its callbacks. -/
def Watched.after (s : Watched) (now : ℤ) (events : List Occurrence)
    (r : Debouncer × List Callback) : Watched :=
  ⟨r.1, now, s.history ++ events ++ r.2.map Occurrence.callback⟩

def Watched.step (s : Watched) : DebouncerOp → Option Watched
  | .mtime path now =>
    if s.clock ≤ now then
      some (s.after now [.event path .mtime now] (s.debouncer.onEvent now path .mtime))
    else none
  | .delete path now =>
    if s.clock ≤ now then
      some (s.after now [.event path .delete now] (s.debouncer.onEvent now path .delete))
    else none
  | .tick now order =>
    if s.clock ≤ now ∧ s.debouncer.Iterates order then
      some (s.after now [] (s.debouncer.tick now order))
    else none
  | .flushAll now order =>
    if s.clock ≤ now ∧ s.debouncer.Iterates order then
      some (s.after now [] (s.debouncer.flushAll order))
    else none

/-- The events of the path since its last callback, or since the start. -/
def sinceCallback (path : Bytes) (history : List Occurrence) : List (EventType × ℤ) :=
  history.foldl (fun events o =>
    match o with
    | .event q eventType time => if q = path then events ++ [(eventType, time)] else events
    | .callback cb => if cb.1 = path then [] else events) []

/-- The times of the mtime events that no callback has reported yet. -/
def unreported (path : Bytes) (history : List Occurrence) : List ℤ :=
  ((sinceCallback path history).filter fun x => x.1 = .mtime).map Prod.snd

/-! ## What is claimed of them -/

/-- Every callback reports an event of its path, of its type, that no callback before
has reported. -/
def Reports (history : List Occurrence) : Prop :=
  ∀ before cb rest, history = before ++ .callback cb :: rest →
    ∃ time, (cb.2, time) ∈ sinceCallback cb.1 before

/-- A path has an entry as long as an mtime event of it is unreported, callbacks have
something to report, and a flush leaves nothing behind. -/
structure Watched.Covering (s : Watched) : Prop where
  entries_iff : ∀ path, path ∈ s.debouncer.entries ↔ unreported path s.history ≠ []
  reports : Reports s.history
  flushed : ∀ now order t, s.step (.flushAll now order) = some t →
    t.debouncer.pending = 0 ∧
      ∀ before path time rest, t.history = before ++ .event path .mtime time :: rest →
        ∃ eventType, .callback (path, eventType) ∈ rest

/-- The times of an entry, and of the callbacks, with the periods in milliseconds. -/
structure Watched.Timed (quietPeriod maxWait : ℤ) (s : Watched) : Prop where
  entry : ∀ path entry, s.debouncer.entries.lookup path = some entry →
    (unreported path s.history).head? = some entry.firstSeen ∧
      (unreported path s.history).getLast? = some entry.lastSeen
  tick : ∀ now order t, s.step (.tick now order) = some t → ∃ fired : List Callback,
    t.history = s.history ++ fired.map Occurrence.callback ∧ (fired.map Prod.fst).Nodup ∧
      (∀ cb, cb ∈ fired ↔ cb.2 = .mtime ∧
        ∃ latest, (unreported cb.1 s.history).getLast? = some latest ∧
          inNanos quietPeriod ≤ now - latest) ∧
      ∀ path, (path, .mtime) ∉ fired →
        t.debouncer.entries.lookup path = s.debouncer.entries.lookup path
  mtime : ∀ path now t, s.step (.mtime path now) = some t → ∃ fired : List Callback,
    t.history = s.history ++ [.event path .mtime now] ++ fired.map Occurrence.callback ∧
      ∀ cb ∈ fired, cb = (path, .mtime) ∧
        ∃ first, (unreported path s.history).head? = some first ∧ inNanos maxWait ≤ now - first
  delete : ∀ path now t, s.step (.delete path now) = some t →
    t.history = s.history ++ [.event path .delete now] ++ [.callback (path, .delete)]

/-- After an mtime event the entry of its path is younger than `maxWait`, and after a
tick every entry is. -/
def Prompt (maxWait : ℤ) (t : Watched) : DebouncerOp → Prop
  | .mtime path now => ∀ entry, t.debouncer.entries.lookup path = some entry →
    now - entry.firstSeen < inNanos maxWait
  | .tick now _ => ∀ path entry, t.debouncer.entries.lookup path = some entry →
    now - entry.firstSeen < inNanos maxWait
  | _ => True

/-- At a tick, the entries whose first event is `maxWait` old have gone quiet. -/
def NoneOverdue (quietPeriod maxWait : ℤ) (s : Watched) (op : DebouncerOp) : Prop :=
  ∀ now order, op = .tick now order → ∀ path entry,
    s.debouncer.entries.lookup path = some entry → inNanos maxWait ≤ now - entry.firstSeen →
      toNanos quietPeriod ≤ now - entry.lastSeen

/-! ## Reading the history -/

theorem sinceCallback_event (path : Bytes) (history : List Occurrence) (q : Bytes)
    (eventType : EventType) (time : ℤ) :
    sinceCallback path (history ++ [.event q eventType time]) =
      if q = path then sinceCallback path history ++ [(eventType, time)]
      else sinceCallback path history := by
  rw [sinceCallback, List.foldl_append]
  rfl

theorem sinceCallback_callback (path : Bytes) (history : List Occurrence) (cb : Callback) :
    sinceCallback path (history ++ [.callback cb]) =
      if cb.1 = path then [] else sinceCallback path history := by
  rw [sinceCallback, List.foldl_append]
  rfl

theorem sinceCallback_callbacks (path : Bytes) (history : List Occurrence)
    (cbs : List Callback) :
    sinceCallback path (history ++ cbs.map Occurrence.callback) =
      if path ∈ cbs.map Prod.fst then [] else sinceCallback path history := by
  induction cbs generalizing history with
  | nil => rw [List.map_nil, List.append_nil, List.map_nil, if_neg List.not_mem_nil]
  | cons cb cbs ih =>
    rw [List.map_cons, List.append_cons, ih, sinceCallback_callback, List.map_cons]
    by_cases hrest : path ∈ cbs.map Prod.fst
    · rw [if_pos hrest, if_pos (List.mem_cons_of_mem _ hrest)]
    · by_cases hcb : cb.1 = path
      · rw [if_neg hrest, if_pos hcb, if_pos (hcb ▸ List.mem_cons_self)]
      · rw [if_neg hrest, if_neg hcb, if_neg (by simp [hrest, Ne.symm hcb])]

theorem mem_unreported {path : Bytes} {history : List Occurrence} {time : ℤ} :
    time ∈ unreported path history ↔ (.mtime, time) ∈ sinceCallback path history := by
  simp [unreported]

theorem unreported_mtime (path : Bytes) (history : List Occurrence) (q : Bytes) (time : ℤ) :
    unreported path (history ++ [.event q .mtime time]) =
      if q = path then unreported path history ++ [time] else unreported path history := by
  rw [unreported, sinceCallback_event]
  split_ifs
  · rw [List.filter_append, List.map_append]
    rfl
  · rfl

theorem unreported_callbacks (path : Bytes) (history : List Occurrence) (cbs : List Callback) :
    unreported path (history ++ cbs.map Occurrence.callback) =
      if path ∈ cbs.map Prod.fst then [] else unreported path history := by
  rw [unreported, sinceCallback_callbacks]
  split_ifs <;> rfl

theorem Reports.concat {history : List Occurrence} (h : Reports history) {o : Occurrence}
    (ho : ∀ cb, o = .callback cb → ∃ time, (cb.2, time) ∈ sinceCallback cb.1 history) :
    Reports (history ++ [o]) := by
  intro before cb rest hsplit
  rcases List.eq_nil_or_concat rest with rfl | ⟨rest, last, rfl⟩
  · obtain ⟨rfl, hlast⟩ := List.append_inj' hsplit rfl
    exact ho cb (List.cons.inj hlast).1
  · rw [List.concat_eq_append, ← List.cons_append, ← List.append_assoc] at hsplit
    exact h before cb rest (List.append_inj' hsplit rfl).1

theorem Reports.event {history : List Occurrence} (h : Reports history) (path : Bytes)
    (eventType : EventType) (time : ℤ) :
    Reports (history ++ [.event path eventType time]) := by
  refine h.concat fun cb hcb => ?_
  cases hcb

/-- Callbacks for different paths do not take each other's events. -/
theorem Reports.callbacks {history : List Occurrence} (h : Reports history)
    {cbs : List Callback} (hnodup : (cbs.map Prod.fst).Nodup)
    (hcbs : ∀ cb ∈ cbs, ∃ time, (cb.2, time) ∈ sinceCallback cb.1 history) :
    Reports (history ++ cbs.map Occurrence.callback) := by
  induction cbs generalizing history with
  | nil =>
    rw [List.map_nil, List.append_nil]
    exact h
  | cons cb cbs ih =>
    rw [List.map_cons, List.nodup_cons] at hnodup
    have hfirst : Reports (history ++ [.callback cb]) := by
      refine h.concat fun c hc => ?_
      rw [← Occurrence.callback.inj hc]
      exact hcbs cb List.mem_cons_self
    rw [List.map_cons, List.append_cons]
    refine ih hfirst hnodup.2 fun c hc => ?_
    have hne : cb.1 ≠ c.1 := by
      intro heq
      exact hnodup.1 (heq ▸ List.mem_map_of_mem hc)
    rw [sinceCallback_callback, if_neg hne]
    exact hcbs c (List.mem_cons_of_mem _ hc)

/-! ## What the debouncer remembers -/

/-- What an operation may do to a watched debouncer. -/
inductive Watched.Moves (s : Watched) : DebouncerOp → Watched → Prop where
  | waited (path : Bytes) (now : ℤ) (entry : Entry)
      (hentry : s.debouncer.entries.lookup path = some entry)
      (hlong : toNanos s.debouncer.maxWait ≤ now - entry.firstSeen) :
      Moves s (.mtime path now) (s.after now [.event path .mtime now]
        ({ s.debouncer with entries := s.debouncer.entries.erase path }, [(path, .mtime)]))
  | refreshed (path : Bytes) (now : ℤ) (entry : Entry)
      (hentry : s.debouncer.entries.lookup path = some entry)
      (hshort : now - entry.firstSeen < toNanos s.debouncer.maxWait) :
      Moves s (.mtime path now) (s.after now [.event path .mtime now]
        ({ s.debouncer with
          entries := s.debouncer.entries.insert path { entry with lastSeen := now } }, []))
  | made (path : Bytes) (now : ℤ) (hnone : s.debouncer.entries.lookup path = none) :
      Moves s (.mtime path now) (s.after now [.event path .mtime now]
        ({ s.debouncer with entries := s.debouncer.entries.insert path ⟨now, now⟩ }, []))
  | delete (path : Bytes) (now : ℤ) :
      Moves s (.delete path now) (s.after now [.event path .delete now]
        ({ s.debouncer with entries := s.debouncer.entries.erase path }, [(path, .delete)]))
  | tick (now : ℤ) (order : List Bytes) (horder : s.debouncer.Iterates order) :
      Moves s (.tick now order) (s.after now [] (s.debouncer.tick now order))
  | flushAll (now : ℤ) (order : List Bytes) (horder : s.debouncer.Iterates order) :
      Moves s (.flushAll now order) (s.after now [] (s.debouncer.flushAll order))

theorem Watched.moves_of_step {s t : Watched} {op : DebouncerOp} (h : s.step op = some t) :
    s.Moves op t := by
  cases op with
  | mtime path now =>
    simp only [Watched.step, Option.ite_none_right_eq_some, Option.some.injEq] at h
    obtain ⟨-, rfl⟩ := h
    rcases s.debouncer.onEvent_mtime now path with
      ⟨entry, hentry, hlong, heq⟩ | ⟨entry, hentry, hshort, heq⟩ | ⟨hnone, heq⟩
    · rw [heq]
      exact .waited path now entry hentry hlong
    · rw [heq]
      exact .refreshed path now entry hentry hshort
    · rw [heq]
      exact .made path now hnone
  | delete path now =>
    simp only [Watched.step, Option.ite_none_right_eq_some, Option.some.injEq] at h
    obtain ⟨-, rfl⟩ := h
    exact .delete path now
  | tick now order =>
    simp only [Watched.step, Option.ite_none_right_eq_some, Option.some.injEq] at h
    obtain ⟨⟨-, horder⟩, rfl⟩ := h
    exact .tick now order horder
  | flushAll now order =>
    simp only [Watched.step, Option.ite_none_right_eq_some, Option.some.injEq] at h
    obtain ⟨⟨-, horder⟩, rfl⟩ := h
    exact .flushAll now order horder

/-- **What the debouncer remembers**: for every path the first and the latest of its
unreported mtime events. -/
structure Watched.Tracks (quietPeriod maxWait : ℤ) (s : Watched) : Prop where
  quiet : s.debouncer.quietPeriod = quietPeriod
  wait : s.debouncer.maxWait = maxWait
  firstSeen : ∀ path, (s.debouncer.entries.lookup path).map Entry.firstSeen =
    (unreported path s.history).head?
  lastSeen : ∀ path, (s.debouncer.entries.lookup path).map Entry.lastSeen =
    (unreported path s.history).getLast?
  reports : Reports s.history

variable {quietPeriod maxWait : ℤ}

theorem Watched.Tracks.init (quietPeriod maxWait clock : ℤ) :
    (Watched.init quietPeriod maxWait clock).Tracks quietPeriod maxWait := by
  refine ⟨rfl, rfl, fun path => rfl, fun path => rfl, fun before cb rest hsplit => ?_⟩
  exact absurd hsplit (by simp [Watched.init])

theorem Watched.Tracks.lookup_eq_none_iff {s : Watched} (h : s.Tracks quietPeriod maxWait)
    {path : Bytes} :
    s.debouncer.entries.lookup path = none ↔ unreported path s.history = [] := by
  rw [← List.head?_eq_none_iff, ← h.firstSeen, Option.map_eq_none_iff]

theorem Watched.Tracks.entry {s : Watched} (h : s.Tracks quietPeriod maxWait) {path : Bytes}
    {entry : Entry} (hentry : s.debouncer.entries.lookup path = some entry) :
    (unreported path s.history).head? = some entry.firstSeen ∧
      (unreported path s.history).getLast? = some entry.lastSeen := by
  rw [← h.firstSeen, ← h.lastSeen, hentry]
  exact ⟨rfl, rfl⟩

/-- What a tick fires, in terms of the history. -/
theorem Watched.Tracks.expired_iff {s : Watched} (h : s.Tracks quietPeriod maxWait) {now : ℤ}
    {path : Bytes} :
    s.debouncer.expired now path = true ↔
      ∃ latest, (unreported path s.history).getLast? = some latest ∧
        toNanos quietPeriod ≤ now - latest := by
  rw [Debouncer.expired_iff, h.quiet]
  constructor
  · rintro ⟨entry, hentry, hquiet⟩
    exact ⟨entry.lastSeen, (h.entry hentry).2, hquiet⟩
  · rintro ⟨latest, hlatest, hquiet⟩
    rw [← h.lastSeen] at hlatest
    obtain ⟨entry, hentry, rfl⟩ := Option.map_eq_some_iff.mp hlatest
    exact ⟨entry, hentry, hquiet⟩

theorem Watched.history_after (s : Watched) (now : ℤ) (events : List Occurrence)
    (r : Debouncer × List Callback) :
    (s.after now events r).history = s.history ++ events ++ r.2.map Occurrence.callback :=
  rfl

theorem Watched.Tracks.mem_entries_iff {s : Watched} (h : s.Tracks quietPeriod maxWait)
    {path : Bytes} : path ∈ s.debouncer.entries ↔ unreported path s.history ≠ [] := by
  rw [Ne, ← h.lookup_eq_none_iff, Finmap.lookup_eq_none, not_not]

/-- An unreported event is there for a callback to report. -/
theorem exists_sinceCallback {path : Bytes} {history : List Occurrence}
    (h : unreported path history ≠ []) : ∃ time, (.mtime, time) ∈ sinceCallback path history := by
  obtain ⟨time, htime⟩ := List.exists_mem_of_ne_nil _ h
  exact ⟨time, mem_unreported.mp htime⟩

/-- A callback for the event that has just come. -/
theorem Reports.answer {history : List Occurrence} (h : Reports history) (path : Bytes)
    (eventType : EventType) (time : ℤ) :
    Reports (history ++ [.event path eventType time] ++
      [(path, eventType)].map Occurrence.callback) := by
  refine (h.event path eventType time).callbacks (List.nodup_singleton _) fun cb hcb => ?_
  rw [List.mem_singleton.mp hcb, sinceCallback_event, if_pos rfl]
  exact ⟨time, List.mem_append_right _ (List.mem_singleton_self _)⟩

theorem mem_singleton_callback {path q : Bytes} {eventType : EventType} :
    q ∈ [((path, eventType) : Callback)].map Prod.fst ↔ q = path :=
  List.mem_singleton

/-- The operations on one path leave the others alone: what is left to show is about
the path of the event. -/
theorem Watched.Tracks.event {s : Watched} (h : s.Tracks quietPeriod maxWait) {path : Bytes}
    {eventType : EventType} {now : ℤ} {r : Debouncer × List Callback}
    (hquiet : r.1.quietPeriod = quietPeriod) (hwait : r.1.maxWait = maxWait)
    (hother : ∀ q, q ≠ path → r.1.entries.lookup q = s.debouncer.entries.lookup q)
    (hcbs : ∀ cb ∈ r.2, cb.1 = path)
    (hfirst : (r.1.entries.lookup path).map Entry.firstSeen =
      (unreported path (s.after now [.event path eventType now] r).history).head?)
    (hlast : (r.1.entries.lookup path).map Entry.lastSeen =
      (unreported path (s.after now [.event path eventType now] r).history).getLast?)
    (hreports : Reports (s.after now [.event path eventType now] r).history) :
    (s.after now [.event path eventType now] r).Tracks quietPeriod maxWait := by
  have hsame : ∀ q, q ≠ path →
      unreported q (s.after now [.event path eventType now] r).history =
        unreported q s.history := by
    intro q hq
    have hnone : q ∉ r.2.map Prod.fst := by
      intro hmem
      obtain ⟨cb, hcb, rfl⟩ := List.mem_map.mp hmem
      exact hq (hcbs cb hcb)
    rw [Watched.history_after, unreported_callbacks, if_neg hnone, unreported,
      sinceCallback_event, if_neg (Ne.symm hq)]
    rfl
  refine ⟨hquiet, hwait, fun q => ?_, fun q => ?_, hreports⟩
  · by_cases hq : q = path
    · rw [hq]
      exact hfirst
    · rw [hsame q hq, ← h.firstSeen]
      exact congrArg _ (hother q hq)
  · by_cases hq : q = path
    · rw [hq]
      exact hlast
    · rw [hsame q hq, ← h.lastSeen]
      exact congrArg _ (hother q hq)

/-- An event that is reported at once leaves no entry and nothing unreported. -/
theorem Watched.Tracks.answered {s : Watched} (h : s.Tracks quietPeriod maxWait) (path : Bytes)
    (eventType : EventType) (now : ℤ) :
    (s.after now [.event path eventType now]
      ({ s.debouncer with entries := s.debouncer.entries.erase path },
        [(path, eventType)])).Tracks quietPeriod maxWait := by
  have hnone : ∀ history, unreported path
      (history ++ [(path, eventType)].map Occurrence.callback) = [] := fun history => by
    rw [unreported_callbacks, if_pos (mem_singleton_callback.mpr rfl)]
  refine h.event h.quiet h.wait (fun q hq => Finmap.lookup_erase_ne hq)
    (fun cb hcb => by rw [List.mem_singleton.mp hcb]) ?_ ?_ (h.reports.answer path eventType now)
  · rw [Watched.history_after, hnone, Finmap.lookup_erase]
    rfl
  · rw [Watched.history_after, hnone, Finmap.lookup_erase]
    rfl

/-- An mtime event that is not reported is the latest one, and perhaps the first. -/
theorem Watched.Tracks.noted {s : Watched} (h : s.Tracks quietPeriod maxWait) {path : Bytes}
    {now : ℤ} {entry : Entry}
    (hfirst : (unreported path s.history ++ [now]).head? = some entry.firstSeen)
    (hlast : entry.lastSeen = now) :
    (s.after now [.event path .mtime now]
      ({ s.debouncer with entries := s.debouncer.entries.insert path entry },
        [])).Tracks quietPeriod maxWait := by
  have hmore : unreported path (s.after now [.event path .mtime now]
      ({ s.debouncer with entries := s.debouncer.entries.insert path entry }, [])).history =
        unreported path s.history ++ [now] := by
    rw [Watched.history_after, List.map_nil, List.append_nil, unreported_mtime, if_pos rfl]
  refine h.event h.quiet h.wait (fun q hq => Finmap.lookup_insert_of_ne _ hq) (by simp) ?_ ?_ ?_
  · rw [hmore, hfirst, Finmap.lookup_insert]
    rfl
  · rw [hmore, List.getLast?_concat, Finmap.lookup_insert, ← hlast]
    rfl
  · rw [Watched.history_after, List.map_nil, List.append_nil]
    exact h.reports.event path .mtime now

/-- Entries that are handed over are no longer unreported. -/
theorem Watched.Tracks.handsOver {s : Watched} (h : s.Tracks quietPeriod maxWait) (now : ℤ)
    {r : Debouncer × List Callback} (hover : s.debouncer.HandsOver r) :
    (s.after now [] r).Tracks quietPeriod maxWait := by
  have hafter : ∀ path, unreported path (s.after now [] r).history =
      if path ∈ r.2.map Prod.fst then [] else unreported path s.history := by
    intro path
    rw [Watched.history_after, List.append_nil, unreported_callbacks]
  refine ⟨hover.quietPeriod_eq.trans h.quiet, hover.maxWait_eq.trans h.wait, fun path => ?_,
    fun path => ?_, ?_⟩
  · rw [hafter]
    refine (congrArg _ (hover.lookup path)).trans ?_
    split_ifs
    · rfl
    · exact h.firstSeen path
  · rw [hafter]
    refine (congrArg _ (hover.lookup path)).trans ?_
    split_ifs
    · rfl
    · exact h.lastSeen path
  · rw [Watched.history_after, List.append_nil]
    refine h.reports.callbacks hover.nodup fun cb hcb => ?_
    obtain ⟨hentry, htype⟩ := hover.callback cb hcb
    rw [htype]
    exact exists_sinceCallback (h.mem_entries_iff.mp hentry)

/-- **One operation** keeps what is remembered. -/
theorem Watched.Tracks.step {s t : Watched} (h : s.Tracks quietPeriod maxWait)
    {op : DebouncerOp} (hstep : s.step op = some t) : t.Tracks quietPeriod maxWait := by
  cases Watched.moves_of_step hstep with
  | waited path now entry hentry hlong => exact h.answered path .mtime now
  | refreshed path now entry hentry hshort =>
    obtain ⟨hfirst, -⟩ := h.entry hentry
    refine h.noted ?_ rfl
    rw [List.head?_append, hfirst]
    rfl
  | made path now hnone =>
    refine h.noted ?_ rfl
    rw [h.lookup_eq_none_iff.mp hnone]
    rfl
  | delete path now => exact h.answered path .delete now
  | tick now order horder => exact h.handsOver now (Debouncer.handsOver_tick horder)
  | flushAll now order horder => exact h.handsOver now (Debouncer.handsOver_flushAll horder)

/-- What is remembered in every state of a run. -/
theorem tracks_of_run (quietPeriod maxWait clock : ℤ) (ops : List DebouncerOp) :
    Always Watched.step (Watched.Tracks quietPeriod maxWait)
      (Watched.init quietPeriod maxWait clock) ops := by
  rw [always_iff_visited]
  intro visited s _ hs
  exact exec_invariant (fun _ _ _ _ h hstep => h.step hstep)
    (Watched.Tracks.init quietPeriod maxWait clock) hs

/-! ## Coverage -/

theorem Watched.Tracks.pending_eq_zero {s : Watched} (h : s.Tracks quietPeriod maxWait)
    (hnone : ∀ path, unreported path s.history = []) : s.debouncer.pending = 0 := by
  rw [Debouncer.pending, Finset.card_eq_zero, Finset.eq_empty_iff_forall_notMem]
  intro path hpath
  exact h.mem_entries_iff.mp (Finmap.mem_keys.mp hpath) (hnone path)

/-- An mtime event that is not unreported has been followed by a callback. -/
theorem exists_callback_of_unreported_eq_nil {path : Bytes} {before rest : List Occurrence}
    {time : ℤ} (h : unreported path (before ++ .event path .mtime time :: rest) = []) :
    ∃ eventType, .callback (path, eventType) ∈ rest := by
  by_contra hnone
  have hkeep : time ∈ unreported path (before ++ .event path .mtime time :: rest) := by
    clear h
    induction rest using List.reverseRecOn with
    | nil =>
      rw [unreported_mtime, if_pos rfl]
      exact List.mem_append_right _ (List.mem_singleton_self time)
    | append_singleton rest o ih =>
      have hrest := ih fun ⟨eventType, hmem⟩ => hnone ⟨eventType, List.mem_append_left _ hmem⟩
      rw [mem_unreported] at hrest ⊢
      rw [← List.cons_append, ← List.append_assoc]
      cases o with
      | event q eventType later =>
        rw [sinceCallback_event]
        split_ifs
        · exact List.mem_append_left _ hrest
        · exact hrest
      | callback cb =>
        have hne : cb.1 ≠ path := by
          rintro rfl
          exact hnone ⟨cb.2, List.mem_append_right _ (List.mem_singleton_self _)⟩
        rw [sinceCallback_callback, if_neg hne]
        exact hrest
  rw [h] at hkeep
  exact absurd hkeep List.not_mem_nil

theorem Watched.Tracks.flushed {s t : Watched} (h : s.Tracks quietPeriod maxWait) {now : ℤ}
    {order : List Bytes} (hstep : s.step (.flushAll now order) = some t) (path : Bytes) :
    unreported path t.history = [] := by
  rw [← (h.step hstep).lookup_eq_none_iff]
  cases Watched.moves_of_step hstep with
  | flushAll now order horder => rfl

theorem Watched.Tracks.covering {s : Watched} (h : s.Tracks quietPeriod maxWait) :
    s.Covering := by
  refine ⟨fun path => h.mem_entries_iff, h.reports, fun now order t hstep => ?_⟩
  have hnone := h.flushed hstep
  refine ⟨(h.step hstep).pending_eq_zero hnone, fun before path time rest hsplit => ?_⟩
  have hpath := hnone path
  rw [hsplit] at hpath
  exact exists_callback_of_unreported_eq_nil hpath

/-- **Coverage.**  For all periods and over every run: a path has an entry exactly as
long as an mtime event of it is unreported, every callback reports an event, and a
flush leaves neither an unreported event nor an entry. -/
theorem covering_of_run (quietPeriod maxWait clock : ℤ) (ops : List DebouncerOp) :
    Always Watched.step Watched.Covering (Watched.init quietPeriod maxWait clock) ops :=
  (tracks_of_run quietPeriod maxWait clock ops).imp fun _ h => h.covering

/-! ## Timing -/

/-- The comparisons see the periods as they are: one that is positive fits into 64 bits of
nanoseconds, and a quiet period that is not positive stays so. -/
structure Representable (quietPeriod maxWait : ℤ) : Prop where
  quiet_le : quietPeriod ≤ maxPeriod
  quiet_nonpos : quietPeriod ≤ 0 → toNanos quietPeriod ≤ 0
  wait_le : maxWait ≤ maxPeriod

/-- A tick compares the quiet period with a time that has passed. -/
theorem Representable.quiet_iff (h : Representable quietPeriod maxWait) {passed : ℤ}
    (hpassed : 0 ≤ passed) : toNanos quietPeriod ≤ passed ↔ inNanos quietPeriod ≤ passed := by
  rcases lt_or_ge 0 quietPeriod with hpos | hneg
  · rw [toNanos_eq hpos.le h.quiet_le]
  · have hnanos : inNanos quietPeriod ≤ 0 := by
      unfold inNanos
      omega
    exact iff_of_true ((h.quiet_nonpos hneg).trans hpassed) (hnanos.trans hpassed)

/-- And so does an event with `max_wait`. -/
theorem Representable.wait (h : Representable quietPeriod maxWait) {passed : ℤ}
    (hpassed : 0 ≤ passed) (hlong : toNanos maxWait ≤ passed) : inNanos maxWait ≤ passed := by
  rcases lt_or_ge 0 maxWait with hpos | hneg
  · rwa [← toNanos_eq hpos.le h.wait_le]
  · unfold inNanos
    omega

/-- An operation notes what it was called for, and what it does, at the time of the clock,
which has not gone back. -/
theorem Watched.exists_after {s t : Watched} {op : DebouncerOp} (h : s.step op = some t) :
    s.clock ≤ t.clock ∧ ∃ events r, t = s.after t.clock events r ∧
      ∀ path eventType time, .event path eventType time ∈ events → time = t.clock := by
  cases op with
  | mtime path now =>
    simp only [Watched.step, Option.ite_none_right_eq_some, Option.some.injEq] at h
    obtain ⟨hle, rfl⟩ := h
    exact ⟨hle, _, _, rfl, by simp [Watched.after]⟩
  | delete path now =>
    simp only [Watched.step, Option.ite_none_right_eq_some, Option.some.injEq] at h
    obtain ⟨hle, rfl⟩ := h
    exact ⟨hle, _, _, rfl, by simp [Watched.after]⟩
  | tick now order =>
    simp only [Watched.step, Option.ite_none_right_eq_some, Option.some.injEq] at h
    obtain ⟨⟨hle, -⟩, rfl⟩ := h
    exact ⟨hle, _, _, rfl, by simp⟩
  | flushAll now order =>
    simp only [Watched.step, Option.ite_none_right_eq_some, Option.some.injEq] at h
    obtain ⟨⟨hle, -⟩, rfl⟩ := h
    exact ⟨hle, _, _, rfl, by simp⟩

/-- Every operation reads the clock. -/
theorem clock_of_step {s t : Watched} {op : DebouncerOp} (h : s.step op = some t) :
    s.clock ≤ t.clock :=
  (Watched.exists_after h).1

/-- The events are of the past. -/
def Watched.Past (s : Watched) : Prop :=
  ∀ path eventType time, .event path eventType time ∈ s.history → time ≤ s.clock

theorem Watched.Past.step {s t : Watched} (h : s.Past) {op : DebouncerOp}
    (hstep : s.step op = some t) : t.Past := by
  obtain ⟨hclock, events, r, heq, hevents⟩ := Watched.exists_after hstep
  intro path eventType time hmem
  rw [heq, Watched.history_after, List.mem_append, List.mem_append] at hmem
  rcases hmem with (hold | hnew) | hcb
  · exact (h path eventType time hold).trans hclock
  · exact (hevents path eventType time hnew).le
  · obtain ⟨cb, -, hcb⟩ := List.mem_map.mp hcb
    cases hcb

/-- What is unreported has happened. -/
theorem event_mem_of_sinceCallback {path : Bytes} {history : List Occurrence}
    {x : EventType × ℤ} (h : x ∈ sinceCallback path history) :
    .event path x.1 x.2 ∈ history := by
  induction history using List.reverseRecOn with
  | nil => cases h
  | append_singleton history o ih =>
    cases o with
    | event q eventType time =>
      rw [sinceCallback_event] at h
      split_ifs at h with hq
      · rcases List.mem_append.mp h with h | h
        · exact List.mem_append_left _ (ih h)
        · rw [List.mem_singleton.mp h, ← hq]
          exact List.mem_append_right _ (List.mem_singleton_self _)
      · exact List.mem_append_left _ (ih h)
    | callback cb =>
      rw [sinceCallback_callback] at h
      split_ifs at h
      · cases h
      · exact List.mem_append_left _ (ih h)

theorem Watched.Past.unreported_le {s : Watched} (h : s.Past) {path : Bytes} {time : ℤ}
    (htime : time ∈ unreported path s.history) : time ≤ s.clock :=
  h path .mtime time (event_mem_of_sinceCallback (mem_unreported.mp htime))

theorem Watched.Tracks.timed {s : Watched} (h : s.Tracks quietPeriod maxWait) (hpast : s.Past)
    (hfits : Representable quietPeriod maxWait) : s.Timed quietPeriod maxWait := by
  refine ⟨fun path entry => h.entry, fun now order t hstep => ?_, fun path now t hstep => ?_,
    fun path now t hstep => ?_⟩
  · have hclock := clock_of_step hstep
    cases Watched.moves_of_step hstep with
    | tick now order horder =>
      refine ⟨(s.debouncer.tick now order).2, ?_, Debouncer.nodup_callbacks_tick horder,
        fun cb => ?_, fun path hpath => ?_⟩
      · rw [Watched.history_after, List.append_nil]
      · rw [Debouncer.mem_callbacks_tick horder, h.expired_iff]
        refine and_congr_right fun _ => exists_congr fun latest => and_congr_right fun hlatest => ?_
        have hle := hpast.unreported_le (List.mem_of_getLast? hlatest)
        exact hfits.quiet_iff (sub_nonneg.mpr (hle.trans hclock))
      · rw [Debouncer.mem_callbacks_tick horder, not_and] at hpath
        exact (Debouncer.lookup_tick horder path).trans (if_neg (hpath rfl))
  · have hclock := clock_of_step hstep
    cases Watched.moves_of_step hstep with
    | waited path now entry hentry hlong =>
      refine ⟨[(path, .mtime)], rfl, fun cb hcb => ⟨List.mem_singleton.mp hcb, ?_⟩⟩
      have hfirst := (h.entry hentry).1
      have hle := hpast.unreported_le (List.mem_of_head? hfirst)
      rw [h.wait] at hlong
      exact ⟨entry.firstSeen, hfirst, hfits.wait (sub_nonneg.mpr (hle.trans hclock)) hlong⟩
    | refreshed path now entry hentry hshort => exact ⟨[], rfl, by simp⟩
    | made path now hnone => exact ⟨[], rfl, by simp⟩
  · cases Watched.moves_of_step hstep with
    | delete path now => rfl

/-- The path `/a`. -/
def shortPath : Bytes := [0x2F, 0x61]

/-- A debouncer that has seen one event, at the time 0. -/
def Watched.seenOnce (quietPeriod maxWait : ℤ) : Watched where
  debouncer := ⟨quietPeriod, maxWait, (∅ : LastWriter.Map Bytes Entry).insert shortPath ⟨0, 0⟩⟩
  clock := 0
  history := [.event shortPath .mtime 0]

theorem exec_seenOnce (quietPeriod maxWait : ℤ) :
    exec Watched.step (.init quietPeriod maxWait 0) [.mtime shortPath 0] =
      some (.seenOnce quietPeriod maxWait) :=
  rfl

theorem lookup_seenOnce (quietPeriod maxWait : ℤ) :
    (Watched.seenOnce quietPeriod maxWait).debouncer.entries.lookup shortPath = some ⟨0, 0⟩ :=
  Finmap.lookup_insert _

theorem unreported_seenOnce (quietPeriod maxWait : ℤ) :
    unreported shortPath (Watched.seenOnce quietPeriod maxWait).history = [0] :=
  rfl

/-- A tick behind one event is on time only where the conversion makes no difference. -/
theorem Watched.Timed.quiet_iff
    (h : (Watched.seenOnce quietPeriod maxWait).Timed quietPeriod maxWait) {passed : ℤ}
    (hpassed : 0 ≤ passed) :
    toNanos quietPeriod ≤ passed ↔ inNanos quietPeriod ≤ passed := by
  have horder : (Watched.seenOnce quietPeriod maxWait).debouncer.Iterates [shortPath] := rfl
  have hstep : (Watched.seenOnce quietPeriod maxWait).step (.tick passed [shortPath]) =
      some ((Watched.seenOnce quietPeriod maxWait).after passed []
        ((Watched.seenOnce quietPeriod maxWait).debouncer.tick passed [shortPath])) :=
    if_pos ⟨hpassed, horder⟩
  obtain ⟨fired, hhistory, -, hfired, -⟩ := h.tick _ _ _ hstep
  rw [Watched.history_after, List.append_nil] at hhistory
  have hsame := (List.map_injective_iff.mpr fun _ _ => Occurrence.callback.inj)
    (List.append_cancel_left hhistory)
  have hmem := hfired (shortPath, .mtime)
  rw [← hsame, Debouncer.mem_callbacks_tick horder, Debouncer.expired_iff, lookup_seenOnce,
    unreported_seenOnce] at hmem
  have hquiet : (Watched.seenOnce quietPeriod maxWait).debouncer.quietPeriod = quietPeriod := rfl
  simpa [hquiet] using hmem

theorem Watched.Timed.wait (h : (Watched.seenOnce quietPeriod maxWait).Timed quietPeriod maxWait)
    {passed : ℤ} (hpassed : 0 ≤ passed) (hlong : toNanos maxWait ≤ passed) :
    inNanos maxWait ≤ passed := by
  have hstep : (Watched.seenOnce quietPeriod maxWait).step (.mtime shortPath passed) =
      some ((Watched.seenOnce quietPeriod maxWait).after passed [.event shortPath .mtime passed]
        ((Watched.seenOnce quietPeriod maxWait).debouncer.onEvent passed shortPath .mtime)) :=
    if_pos hpassed
  have hfires : ((Watched.seenOnce quietPeriod maxWait).debouncer.onEvent passed shortPath
      .mtime).2 = [(shortPath, .mtime)] := by
    simp [Debouncer.onEvent, Watched.seenOnce, hlong]
  obtain ⟨fired, hhistory, hfired⟩ := h.mtime _ _ _ hstep
  rw [Watched.history_after, hfires] at hhistory
  have hsame := (List.map_injective_iff.mpr fun _ _ => Occurrence.callback.inj)
    (List.append_cancel_left hhistory)
  obtain ⟨-, first, hfirst, hle⟩ := hfired (shortPath, .mtime) (hsame ▸ List.mem_singleton_self _)
  rw [unreported_seenOnce] at hfirst
  obtain rfl := Option.some.inj hfirst
  rwa [sub_zero] at hle

/-- **Timing, exactly.**  An entry holds the times of the first and of the latest unreported
mtime event of its path; a tick fires exactly the paths whose latest one is `quietPeriod`
old, once each, and changes nothing else; and an event fires its own path only, and only
after `maxWait`.  All of this holds in every state of every run exactly when the periods
survive the conversion to nanoseconds. -/
theorem timed_iff_representable (quietPeriod maxWait : ℤ) :
    (∀ clock ops, Always Watched.step (Watched.Timed quietPeriod maxWait)
        (Watched.init quietPeriod maxWait clock) ops) ↔ Representable quietPeriod maxWait := by
  constructor
  · intro h
    have hseen : (Watched.seenOnce quietPeriod maxWait).Timed quietPeriod maxWait :=
      (always_iff_visited _ _).mp (h 0 [.mtime shortPath 0]) _ _ List.prefix_rfl
        (exec_seenOnce quietPeriod maxWait)
    refine ⟨?_, fun hneg => ?_, ?_⟩
    · by_contra hgt
      have hlt := toNanos_lt (not_le.mp hgt)
      have hpos := inNanos_pos ((by decide : 0 < maxPeriod).trans (not_le.mp hgt))
      have hle := (hseen.quiet_iff (le_max_left 0 (toNanos quietPeriod))).mp (le_max_right _ _)
      omega
    · refine (hseen.quiet_iff le_rfl).mpr ?_
      unfold inNanos
      omega
    · by_contra hgt
      have hlt := toNanos_lt (not_le.mp hgt)
      have hpos := inNanos_pos ((by decide : 0 < maxPeriod).trans (not_le.mp hgt))
      have hle := hseen.wait (le_max_left 0 (toNanos maxWait)) (le_max_right _ _)
      omega
  · intro hfits clock ops
    rw [always_iff_visited]
    intro visited s _ hs
    have hinv : s.Tracks quietPeriod maxWait ∧ s.Past := by
      refine exec_invariant (P := fun s => s.Tracks quietPeriod maxWait ∧ s.Past)
        (fun _ _ _ _ h hstep => ⟨h.1.step hstep, h.2.step hstep⟩) ?_ hs
      exact ⟨.init quietPeriod maxWait clock, fun _ _ _ hmem => by cases hmem⟩
    exact hinv.1.timed hinv.2 hfits

/-- A `max_wait` that is meant to be for ever. -/
def forEver : ℤ := 9223372036855

/-- With it the second event of a path is reported at once. -/
theorem not_timed_forEver :
    ¬ ∀ (quietPeriod maxWait clock : ℤ) (ops : List DebouncerOp),
      Always Watched.step (Watched.Timed quietPeriod maxWait)
        (Watched.init quietPeriod maxWait clock) ops := by
  intro hclaim
  have hseen : (Watched.seenOnce 10000 forEver).Timed 10000 forEver :=
    (always_iff_visited _ _).mp (hclaim 10000 forEver 0 [.mtime shortPath 0]) _ _
      List.prefix_rfl (exec_seenOnce 10000 forEver)
  have hle := hseen.wait (show (0 : ℤ) ≤ 1 by decide) (by decide)
  exact absurd hle (by decide)

/-! ## Promptness -/

/-- A tick leaves the entries that are not quiet yet. -/
theorem Watched.Tracks.lookup_tick_eq_some_iff {s : Watched} (h : s.Tracks quietPeriod maxWait)
    {now : ℤ} {order : List Bytes} (horder : s.debouncer.Iterates order) {path : Bytes}
    {entry : Entry} :
    (s.debouncer.tick now order).1.entries.lookup path = some entry ↔
      s.debouncer.entries.lookup path = some entry ∧
        now - entry.lastSeen < toNanos quietPeriod := by
  rw [Debouncer.lookup_tick horder, Option.ite_none_left_eq_some, Debouncer.expired_iff, h.quiet]
  constructor
  · rintro ⟨hexp, hentry⟩
    exact ⟨hentry, not_le.mp fun hquiet => hexp ⟨entry, hentry, hquiet⟩⟩
  · rintro ⟨hentry, hlt⟩
    refine ⟨?_, hentry⟩
    rintro ⟨e, he, hquiet⟩
    obtain rfl := Option.some.inj (hentry.symm.trans he)
    exact absurd hquiet (not_le.mpr hlt)

/-- An operation is prompt exactly when it is no tick that finds an overdue entry that
is not quiet. -/
theorem Watched.Tracks.prompt_iff {s t : Watched} (h : s.Tracks quietPeriod maxWait)
    (hpos : 0 < maxWait) {op : DebouncerOp} (hstep : s.step op = some t) :
    Prompt maxWait t op ↔ NoneOverdue quietPeriod maxWait s op := by
  cases Watched.moves_of_step hstep with
  | waited path now entry hentry hlong =>
    refine iff_of_true (fun e he => ?_) (by rintro now order ⟨⟩)
    have hnone := Finmap.lookup_erase path s.debouncer.entries
    rw [show Finmap.lookup path _ = some e from he] at hnone
    cases hnone
  | refreshed path now entry hentry hshort =>
    refine iff_of_true (fun e he => ?_) (by rintro now order ⟨⟩)
    have hsame := Finmap.lookup_insert (a := path) (b := { entry with lastSeen := now })
      s.debouncer.entries
    rw [show Finmap.lookup path _ = some e from he] at hsame
    rw [Option.some.inj hsame, ← h.wait]
    exact hshort.trans_le (toNanos_le (h.wait ▸ hpos.le))
  | made path now hnone =>
    refine iff_of_true (fun e he => ?_) (by rintro now order ⟨⟩)
    have hsame := Finmap.lookup_insert (a := path) (b := (⟨now, now⟩ : Entry)) s.debouncer.entries
    rw [show Finmap.lookup path _ = some e from he] at hsame
    rw [Option.some.inj hsame, sub_self]
    exact inNanos_pos hpos
  | delete path now => exact iff_of_true trivial (by rintro now order ⟨⟩)
  | tick now order horder =>
    constructor
    · rintro hprompt now' order' ⟨⟩ path entry hentry hold
      by_contra hquiet
      have hlt := hprompt path entry
        ((h.lookup_tick_eq_some_iff horder).mpr ⟨hentry, not_le.mp hquiet⟩)
      exact absurd hold (not_le.mpr hlt)
    · intro hnone path entry hentry
      obtain ⟨hbefore, hlt⟩ := (h.lookup_tick_eq_some_iff horder).mp hentry
      by_contra hold
      exact absurd (hnone now order rfl path entry hbefore (not_lt.mp hold)) (not_le.mpr hlt)
  | flushAll now order horder => exact iff_of_true trivial (by rintro now order ⟨⟩)

/-- **Promptness, exactly.**  For every quiet period and every positive `maxWait`, the
operations of a run all leave entries younger than `maxWait` exactly when no tick of
the run finds an entry that is `maxWait` old but not quiet yet. -/
theorem prompt_iff_noneOverdue (quietPeriod clock : ℤ) {maxWait : ℤ} (hpos : 0 < maxWait)
    (ops : List DebouncerOp) :
    Guarded Watched.step (fun s op => ∀ t, s.step op = some t → Prompt maxWait t op)
        (Watched.init quietPeriod maxWait clock) ops ↔
      Guarded Watched.step (NoneOverdue quietPeriod maxWait)
        (Watched.init quietPeriod maxWait clock) ops := by
  refine guarded_congr (I := Watched.Tracks quietPeriod maxWait)
    (fun _ _ _ h hstep => h.step hstep) (fun s op t h hstep => ?_)
    (Watched.Tracks.init quietPeriod maxWait clock) ops
  constructor
  · intro hprompt
    exact (h.prompt_iff hpos hstep).mp (hprompt t hstep)
  · intro hnone u hu
    exact (h.prompt_iff hpos hu).mpr hnone

/-- Two events nine seconds apart, and a tick seven seconds after the second one. -/
def busyFile : List DebouncerOp :=
  [.mtime shortPath 0, .mtime shortPath 9000000000, .tick 16000000000 [shortPath]]

theorem prompt_iff_noneOverdue_busyFile :
    Guarded Watched.step (fun s op => ∀ t, s.step op = some t → Prompt 3600000 t op)
        (Watched.init 10000 3600000 0) busyFile ↔
      Guarded Watched.step (NoneOverdue 10000 3600000) (Watched.init 10000 3600000 0) busyFile :=
  prompt_iff_noneOverdue 10000 0 (by decide) busyFile

/-- With a `maxWait` of fifteen seconds the entry is sixteen seconds old at the tick, which
leaves it alone. -/
theorem not_prompt_busyFile :
    ¬ ∀ (quietPeriod clock maxWait : ℤ) (ops : List DebouncerOp), 0 < maxWait →
      Guarded Watched.step (fun s op => ∀ t, s.step op = some t → Prompt maxWait t op)
        (Watched.init quietPeriod maxWait clock) ops := by
  intro hclaim
  obtain ⟨-, hsecond⟩ := hclaim 10000 0 15000 busyFile (by decide) _ rfl
  obtain ⟨-, hthird⟩ := hsecond _ rfl
  obtain ⟨hprompt, -⟩ := hthird _ rfl
  exact absurd (hprompt _ rfl shortPath ⟨0, 9000000000⟩ (by decide +kernel)) (by decide)

end Agent
end FileTracker
