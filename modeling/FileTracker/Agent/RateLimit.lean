import FileTracker.Library.Periodic
import FileTracker.Agent.DebouncerHistory

/-!
# How often a file is reported

The debouncer is there to keep a file that is written all the time from flooding the
topic.  A file is reported as changed by a tick, when it has been quiet for the quiet
period, or by an event, when its first unreported change is `max_wait` old; either way the
entry goes, and the next one is made by a later event.  So a report of a file comes at
least the shorter of the two periods behind the one before, whatever happens to the file in
between (`reports_spaced`), deletes included.  Only `flush_all` reports at once.
-/

namespace FileTracker
namespace Agent

open Runs Periodic

/-- The reports of a change of the file among the callbacks. -/
def reportsOf (path : Bytes) (cbs : List Callback) : List Callback :=
  cbs.filter fun cb => cb = (path, .mtime)

/-- The times at which the file is reported as changed in an operation, and whether it is
`flush_all`. -/
def reportAt (path : Bytes) (s : Watched) : DebouncerOp → List (ℤ × Bool)
  | .mtime q now => (reportsOf path (s.debouncer.onEvent now q .mtime).2).map fun _ => (now, false)
  | .delete q now =>
    (reportsOf path (s.debouncer.onEvent now q .delete).2).map fun _ => (now, false)
  | .tick now order => (reportsOf path (s.debouncer.tick now order).2).map fun _ => (now, false)
  | .flushAll now order => (reportsOf path (s.debouncer.flushAll order).2).map fun _ => (now, true)

/-- The shorter of the two periods, as they are compared. -/
def reportGap (quietPeriod maxWait : ℤ) : ℤ := min (toNanos quietPeriod) (toNanos maxWait)

/-- The entry of the file, if there is one, was made behind the last report, and the clock
is behind both. -/
structure Spaced (path : Bytes) (last : ℤ) (s : Watched) : Prop where
  clock : last ≤ s.clock
  entry : ∀ entry, s.debouncer.entries.lookup path = some entry →
    last ≤ entry.firstSeen ∧ entry.firstSeen ≤ entry.lastSeen ∧ entry.lastSeen ≤ s.clock

variable {quietPeriod maxWait : ℤ}

/-- Where there is no entry, nothing is owed but the clock. -/
theorem Spaced.of_none {path : Bytes} {last : ℤ} {s : Watched} (hclock : last ≤ s.clock)
    (hnone : s.debouncer.entries.lookup path = none) : Spaced path last s :=
  ⟨hclock, fun entry hentry => by rw [hnone] at hentry; cases hentry⟩

/-- An entry that an operation leaves as it is. -/
theorem Spaced.of_eq {path : Bytes} {last : ℤ} {s t : Watched} (h : Spaced path last s)
    (hclock : s.clock ≤ t.clock)
    (heq : t.debouncer.entries.lookup path = s.debouncer.entries.lookup path) :
    Spaced path last t := by
  refine ⟨h.clock.trans hclock, fun entry hentry => ?_⟩
  obtain ⟨hlast, hseen, hle⟩ := h.entry entry (heq ▸ hentry)
  exact ⟨hlast, hseen, hle.trans hclock⟩

/-- What a step may do to the spacing: it reports nothing and keeps it, or it reports the
file once, late enough unless it is `flush_all`, and the entry is gone. -/
def Spaced.Next (gap : ℤ) (path : Bytes) (last : ℤ) (s : Watched) (op : DebouncerOp)
    (t : Watched) : Prop :=
  (reportAt path s op = [] ∧ Spaced path last t) ∨
    ∃ flushed, reportAt path s op = [(t.clock, flushed)] ∧
      (flushed = false → last + gap ≤ t.clock) ∧ Spaced path t.clock t

/-- A path that is reported once. -/
theorem reportsOf_eq_singleton {path : Bytes} {cbs : List Callback}
    (hnodup : (cbs.map Prod.fst).Nodup) (hmem : (path, .mtime) ∈ cbs) :
    reportsOf path cbs = [(path, .mtime)] := by
  rw [reportsOf, List.filter_eq, List.count_eq_one_of_mem hnodup.of_map hmem, List.replicate_one]

theorem reportsOf_eq_nil {path : Bytes} {cbs : List Callback} (hmem : (path, .mtime) ∉ cbs) :
    reportsOf path cbs = [] := by
  rw [reportsOf, List.filter_eq_nil_iff]
  intro cb hcb heq
  exact hmem (of_decide_eq_true heq ▸ hcb)

theorem Spaced.mtime {path q : Bytes} {last now : ℤ} {s t : Watched} (h : Spaced path last s)
    (hwait : s.debouncer.maxWait = maxWait) (hstep : s.step (.mtime q now) = some t) :
    Spaced.Next (reportGap quietPeriod maxWait) path last s (.mtime q now) t := by
  have hclock := clock_of_step hstep
  cases Watched.moves_of_step hstep with
  | waited _ _ entry hentry hlong =>
    have hout : (s.debouncer.onEvent now q .mtime).2 = [(q, .mtime)] := by
      simp [Debouncer.onEvent, hentry, hlong]
    by_cases hq : q = path
    · subst hq
      right
      refine ⟨false, by simp [reportAt, reportsOf, hout, Watched.after], fun _ => ?_,
        .of_none le_rfl (Finmap.lookup_erase _ _)⟩
      have hfirst := (h.entry entry hentry).1
      have hmin : reportGap quietPeriod maxWait ≤ toNanos maxWait := min_le_right _ _
      rw [hwait] at hlong
      show last + reportGap quietPeriod maxWait ≤ now
      omega
    · left
      refine ⟨by simp [reportAt, reportsOf, hout, hq], h.of_eq hclock ?_⟩
      exact Finmap.lookup_erase_ne (Ne.symm hq)
  | refreshed _ _ entry hentry hshort =>
    have hout : (s.debouncer.onEvent now q .mtime).2 = [] := by
      simp [Debouncer.onEvent, hentry, not_le.mpr hshort]
    left
    refine ⟨by simp [reportAt, reportsOf, hout], ?_⟩
    by_cases hq : q = path
    · subst hq
      refine ⟨h.clock.trans hclock, fun e he => ?_⟩
      obtain ⟨hlast, hseen, hle⟩ := h.entry entry hentry
      have heq : s.debouncer.entries.insert q { entry with lastSeen := now } = _ := rfl
      simp only [Watched.after, Finmap.lookup_insert, Option.some.injEq] at he
      subst he
      exact ⟨hlast, hseen.trans (hle.trans hclock), le_rfl⟩
    · refine h.of_eq hclock ?_
      exact Finmap.lookup_insert_of_ne _ (Ne.symm hq)
  | made _ _ hnone =>
    have hout : (s.debouncer.onEvent now q .mtime).2 = [] := by
      simp [Debouncer.onEvent, hnone]
    left
    refine ⟨by simp [reportAt, reportsOf, hout], ?_⟩
    by_cases hq : q = path
    · subst hq
      refine ⟨h.clock.trans hclock, fun e he => ?_⟩
      simp only [Watched.after, Finmap.lookup_insert, Option.some.injEq] at he
      subst he
      exact ⟨h.clock.trans hclock, le_rfl, le_rfl⟩
    · refine h.of_eq hclock ?_
      exact Finmap.lookup_insert_of_ne _ (Ne.symm hq)

theorem Spaced.tick {path : Bytes} {last now : ℤ} {order : List Bytes} {s t : Watched}
    (h : Spaced path last s) (hquiet : s.debouncer.quietPeriod = quietPeriod)
    (hstep : s.step (.tick now order) = some t) :
    Spaced.Next (reportGap quietPeriod maxWait) path last s (.tick now order) t := by
  have hclock := clock_of_step hstep
  cases Watched.moves_of_step hstep with
  | tick _ _ horder =>
    have hlookup : (s.debouncer.tick now order).1.entries.lookup path =
        if s.debouncer.expired now path then none else s.debouncer.entries.lookup path :=
      Debouncer.lookup_tick horder path
    by_cases hexp : s.debouncer.expired now path = true
    · right
      have hmem : (path, EventType.mtime) ∈ (s.debouncer.tick now order).2 :=
        (Debouncer.mem_callbacks_tick horder).mpr ⟨rfl, hexp⟩
      have honce := reportsOf_eq_singleton (Debouncer.nodup_callbacks_tick horder) hmem
      rw [if_pos hexp] at hlookup
      refine ⟨false, by simp [reportAt, honce, Watched.after], fun _ => ?_, .of_none le_rfl hlookup⟩
      obtain ⟨entry, hentry, hlong⟩ := Debouncer.expired_iff.mp hexp
      obtain ⟨hfirst, hseen, -⟩ := h.entry entry hentry
      have hmin : reportGap quietPeriod maxWait ≤ toNanos quietPeriod := min_le_left _ _
      rw [hquiet] at hlong
      show last + reportGap quietPeriod maxWait ≤ now
      omega
    · left
      rw [if_neg hexp] at hlookup
      refine ⟨?_, h.of_eq hclock hlookup⟩
      have hnone := reportsOf_eq_nil fun hmem =>
        hexp ((Debouncer.mem_callbacks_tick horder).mp hmem).2
      rw [reportAt, hnone]
      rfl

/-- **One step** reports the file late enough, and once, or not at all. -/
theorem Spaced.step {path : Bytes} {last : ℤ} {s t : Watched} {op : DebouncerOp}
    (h : Spaced path last s) (htracks : s.Tracks quietPeriod maxWait)
    (hstep : s.step op = some t) :
    Spaced.Next (reportGap quietPeriod maxWait) path last s op t := by
  have hclock := clock_of_step hstep
  cases op with
  | mtime q now => exact h.mtime htracks.wait hstep
  | tick now order => exact h.tick htracks.quiet hstep
  | delete q now =>
    cases Watched.moves_of_step hstep with
    | delete =>
      refine Or.inl ⟨by simp [reportAt, reportsOf, Debouncer.onEvent_delete], ?_⟩
      by_cases hq : q = path
      · subst hq
        exact .of_none (h.clock.trans hclock) (Finmap.lookup_erase _ _)
      · exact h.of_eq hclock (Finmap.lookup_erase_ne (Ne.symm hq))
  | flushAll now order =>
    cases Watched.moves_of_step hstep with
    | flushAll _ _ horder =>
      have hover := Debouncer.handsOver_flushAll horder
      by_cases hmem : (path, .mtime) ∈ (s.debouncer.flushAll order).2
      · refine Or.inr ⟨true, ?_, nofun, .of_none le_rfl (Finmap.lookup_empty _)⟩
        rw [reportAt, reportsOf_eq_singleton hover.nodup hmem]
        rfl
      · refine Or.inl ⟨?_, .of_none (h.clock.trans hclock) (Finmap.lookup_empty _)⟩
        rw [reportAt, reportsOf_eq_nil hmem]
        rfl

theorem Spaced.exec {path : Bytes} {last : ℤ} {b : Bool} {s t : Watched} {ops : List DebouncerOp}
    (h : Spaced path last s) (htracks : s.Tracks quietPeriod maxWait)
    (hrun : Runs.exec Watched.step s ops = some t) :
    (((last, b) :: trace Watched.step (reportAt path) s ops).IsChain fun x y =>
        x.1 ≤ y.1 ∧ (y.2 = false → x.1 + reportGap quietPeriod maxWait ≤ y.1)) ∧
      last ≤ t.clock ∧ ∀ e ∈ trace Watched.step (reportAt path) s ops, e.1 ≤ t.clock := by
  induction ops generalizing s last b with
  | nil =>
    obtain rfl := Option.some.inj hrun
    exact ⟨.singleton _, h.clock, fun e he => by cases he⟩
  | cons op ops ih =>
    rw [exec_cons] at hrun
    obtain ⟨u, hu, hrun⟩ := Option.bind_eq_some_iff.mp hrun
    have hle := h.clock.trans (clock_of_step hu)
    rw [trace_cons hu]
    rcases h.step htracks hu with ⟨hnone, hu'⟩ | ⟨flushed, hone, hgap, hu'⟩
    · rw [hnone]
      exact ih hu' (htracks.step hu) hrun
    · obtain ⟨hchain, hclock, htimes⟩ := ih (b := flushed) hu' (htracks.step hu) hrun
      rw [hone, List.singleton_append]
      refine ⟨.cons_cons ⟨hle, hgap⟩ hchain, hle.trans hclock, ?_⟩
      intro e he
      rcases List.mem_cons.mp he with rfl | he
      · exact hclock
      · exact htimes e he

/-- **How often a file is reported.**  In any run of the debouncer a report of a change of a
file comes at least the shorter of the quiet period and `max_wait` behind the report before
it, or the start, unless `flush_all` makes it; in a run of some length the file is reported
at most that often, but for what `flush_all` reports. -/
theorem reports_spaced (quietPeriod maxWait clock : ℤ) (path : Bytes) {ops : List DebouncerOp}
    {t : Watched} (hrun : exec Watched.step (.init quietPeriod maxWait clock) ops = some t) :
    (((clock, false) :: trace Watched.step (reportAt path) (.init quietPeriod maxWait clock)
        ops).IsChain fun x y =>
          x.1 ≤ y.1 ∧ (y.2 = false → x.1 + reportGap quietPeriod maxWait ≤ y.1)) ∧
      ((trace Watched.step (reportAt path) (.init quietPeriod maxWait clock) ops).countP
        fun e => !e.2) * reportGap quietPeriod maxWait ≤ t.clock - clock := by
  have hstart : Spaced path clock (.init quietPeriod maxWait clock) :=
    .of_none le_rfl (Finmap.lookup_empty _)
  obtain ⟨hchain, hclock, htimes⟩ :=
    hstart.exec (b := false) (.init quietPeriod maxWait clock) hrun
  refine ⟨hchain, ?_⟩
  have hcount := countP_nsmul_le hchain hclock htimes
  rw [nsmul_eq_mul] at hcount
  exact le_sub_iff_add_le'.mpr hcount

/-- A file is written every second for five seconds, with two seconds of quiet and four of
patience, and again at the end. -/
def writtenOften : List DebouncerOp :=
  [.mtime shortPath 0, .tick 0 [shortPath], .mtime shortPath 1000000000,
    .tick 1000000000 [shortPath], .mtime shortPath 2000000000, .tick 2000000000 [shortPath],
    .mtime shortPath 3000000000, .tick 3000000000 [shortPath], .mtime shortPath 4000000000,
    .tick 4000000000 [], .mtime shortPath 5000000000, .tick 7000000000 [shortPath],
    .mtime shortPath 7500000000, .flushAll 7600000000 [shortPath]]

theorem reports_spaced_writtenOften :
    ∃ t, exec Watched.step (.init 2000 4000 0) writtenOften = some t ∧
      trace Watched.step (reportAt shortPath) (.init 2000 4000 0) writtenOften =
        [(4000000000, false), (7000000000, false), (7600000000, true)] ∧
      ((trace Watched.step (reportAt shortPath) (.init 2000 4000 0) writtenOften).countP
        fun e => !e.2) * reportGap 2000 4000 ≤ t.clock - 0 := by
  have hrun : (exec Watched.step (.init 2000 4000 0) writtenOften).isSome := by
    decide +kernel
  obtain ⟨t, ht⟩ := Option.isSome_iff_exists.mp hrun
  exact ⟨t, ht, by decide +kernel, (reports_spaced 2000 4000 0 shortPath ht).2⟩

end Agent
end FileTracker
