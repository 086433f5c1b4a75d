import FileTracker.Library.PyJson
import FileTracker.Library.Runs
import FileTracker.Agent.Probe
import FileTracker.Agent.Debouncer
import FileTracker.Agent.EventHandler

/-!
# The kernel's dedup

`dedup_check` of `src/bpf/probe.bpf.c` suppresses a write when the same inode number
was reported less than a second before.  A `Tracker` joins it to the ring buffer, the
callback and the debouncer, which go by path, and logs the debouncer's callbacks with
their times.

A write that is suppressed is not lost as long as an earlier report of its path is on
its way: in the ring buffer, or in the debouncer.  But the two halves forget at
different times --- a callback and a delete empty the debouncer and leave the map as it
is --- and an inode number is not a path.  `losesNothing_iff` says when this does no
harm.
-/

namespace FileTracker
namespace Agent

open Runs LastWriter PyJson

/-! ## The code -/

/-- `DEDUP_INTERVAL_NS`. -/
def DEDUP_INTERVAL_NS : UInt64 := 1000000000

/-- The map `dedup`: inode numbers and the times of their last reports. -/
abbrev DedupMap := Map UInt64 UInt64

/-- `dedup_check`: what it returns, and the map. -/
def dedupCheck (dedup : DedupMap) (ino now : UInt64) : Bool × DedupMap :=
  match dedup.lookup ino with
  | some last =>
    if now - last < DEDUP_INTERVAL_NS then (true, dedup) else (false, dedup.insert ino now)
  | none => (false, dedup.insert ino now)

/-- The map, the records in the ring buffer, the context, the debouncer, the clock, and the
callbacks so far. -/
structure Tracker where
  dedup : DedupMap
  ring : List FileEvent
  ectx : EventCtx
  debouncer : Debouncer
  clock : UInt64
  log : List (Callback × UInt64)

def Tracker.init (quietPeriod maxWait : ℤ) (watchPrefix : Bytes) (clock : UInt64) : Tracker :=
  ⟨∅, [], .init watchPrefix, .init quietPeriod maxWait, clock, []⟩

/-- The kernel's calls, an eviction from the map, the callback on the next record, a tick
and the flush at shutdown. -/
inductive TrackerOp where
  | vfsWrite (file : Dentry) (ino now : UInt64)
  | doTruncate (file : Dentry) (ino now : UInt64)
  | vfsUnlink (file : Dentry) (now : UInt64)
  | evict (ino : UInt64)
  | handle (now : UInt64)
  | tick (now : UInt64) (order : List Bytes)
  | flushAll (now : UInt64) (order : List Bytes)

/-- The file and the time of a write. -/
def TrackerOp.write : TrackerOp → Option (Dentry × UInt64)
  | .vfsWrite file _ now => some (file, now)
  | .doTruncate file _ now => some (file, now)
  | _ => none

/-- The records that a call puts into the ring buffer. -/
def Tracker.emits (s : Tracker) : TrackerOp → List FileEvent
  | .vfsWrite file ino now => traceVfsWrite (dedupCheck s.dedup ino now).1 file
  | .doTruncate file ino now => traceDoTruncate (dedupCheck s.dedup ino now).1 file
  | .vfsUnlink file _ => traceVfsUnlink file
  | _ => []

/-- An operation of the debouncer, with its callbacks logged. -/
def Tracker.fire (now : UInt64) (s : Tracker) (r : Debouncer × List Callback) : Tracker :=
  { s with debouncer := r.1, clock := now, log := s.log ++ r.2.map fun cb => (cb, now) }

/-- A call that `handle_event` makes. -/
def Tracker.call (now : UInt64) (s : Tracker) : HandlerCall → Tracker
  | .onRename _ _ => s
  | .onEvent path eventType => s.fire now (s.debouncer.onEvent now.toNat path eventType)

def Tracker.step (s : Tracker) (op : TrackerOp) : Option Tracker :=
  match op with
  | .vfsWrite _ ino now =>
    if s.clock ≤ now then some { s with
      dedup := (dedupCheck s.dedup ino now).2, ring := s.ring ++ s.emits op, clock := now }
    else none
  | .doTruncate _ ino now =>
    if s.clock ≤ now then some { s with
      dedup := (dedupCheck s.dedup ino now).2, ring := s.ring ++ s.emits op, clock := now }
    else none
  | .vfsUnlink _ now =>
    if s.clock ≤ now then some { s with ring := s.ring ++ s.emits op, clock := now } else none
  | .evict ino => some { s with dedup := s.dedup.erase ino }
  | .handle now =>
    match s.ring with
    | evt :: ring =>
      if s.clock ≤ now then
        let r := handleEvent s.ectx evt
        some (r.2.foldl (Tracker.call now) { s with ring := ring, ectx := r.1, clock := now })
      else none
    | [] => none
  | .tick now order =>
    if s.clock ≤ now ∧ s.debouncer.Iterates order then
      some (s.fire now (s.debouncer.tick now.toNat order))
    else none
  | .flushAll now order =>
    if s.clock ≤ now ∧ s.debouncer.Iterates order then
      some (s.fire now (s.debouncer.flushAll order))
    else none

/-! ## What is claimed -/

/-- A run up to the flush at shutdown, with no record left in the ring buffer. -/
structure TrackerRun where
  watchPrefix : Bytes
  quietPeriod : ℤ
  maxWait : ℤ
  clock : UInt64
  ops : List TrackerOp
  now : UInt64
  order : List Bytes
  final : Tracker
  exec_eq : exec Tracker.step (.init quietPeriod maxWait watchPrefix clock)
    (ops ++ [.flushAll now order]) = some final
  drained : final.ring = []

/-- Every write to a watched path is followed by a callback for it. -/
def TrackerRun.LosesNothing (r : TrackerRun) : Prop :=
  ∀ before op after file time, r.ops = before ++ op :: after → op.write = some (file, time) →
    matchesPrefix r.watchPrefix file.path → ∃ c ∈ r.final.log, c.1.1 = file.path ∧ time ≤ c.2

/-- A report of the path is on its way, in the debouncer or in the ring buffer, or has come
in time. -/
def OnItsWay (path : Bytes) (time : UInt64) (s : Tracker) : Prop :=
  path ∈ s.debouncer.entries ∨ (∃ evt ∈ s.ring, buildPath evt = path) ∨
    ∃ c ∈ s.log, c.1.1 = path ∧ time ≤ c.2

/-- The call puts a record that spells the path into the ring buffer. -/
def Emits (path : Bytes) (s : Tracker) (op : TrackerOp) : Prop :=
  ∃ evt ∈ s.emits op, buildPath evt = path

/-- At every write to a watched path, a report of the path is on its way, or this write or
a later call puts a record of it into the ring buffer. -/
def TrackerRun.CoversWrites (r : TrackerRun) : Prop :=
  ∀ before op after file time, r.ops = before ++ op :: after → op.write = some (file, time) →
    matchesPrefix r.watchPrefix file.path → ∀ s,
      exec Tracker.step (.init r.quietPeriod r.maxWait r.watchPrefix r.clock) before = some s →
        OnItsWay file.path time s ∨ Meets Tracker.step (Emits file.path) s (op :: after)

/-! ## One step -/

/-- What a step does, for the records and the debouncer. -/
inductive Moves (s : Tracker) (op : TrackerOp) (t : Tracker) : Prop where
  | kernel (hclock : s.clock ≤ t.clock) (hring : t.ring = s.ring ++ s.emits op)
      (hectx : t.ectx = s.ectx) (hdebouncer : t.debouncer = s.debouncer) (hlog : t.log = s.log)
  | handle (now : UInt64) (evt : FileEvent) (ring : List FileEvent) (hclock : s.clock ≤ now)
      (hnone : s.emits op = []) (hring : s.ring = evt :: ring)
      (heq : t = (handleEvent s.ectx evt).2.foldl (Tracker.call now)
        { s with ring := ring, ectx := (handleEvent s.ectx evt).1, clock := now })
  | tick (now : UInt64) (order : List Bytes) (hclock : s.clock ≤ now) (hnone : s.emits op = [])
      (horder : s.debouncer.Iterates order)
      (heq : t = s.fire now (s.debouncer.tick now.toNat order))
  | flushAll (now : UInt64) (order : List Bytes) (hclock : s.clock ≤ now)
      (hnone : s.emits op = []) (horder : s.debouncer.Iterates order)
      (heq : t = s.fire now (s.debouncer.flushAll order))

theorem moves_of_step {s t : Tracker} {op : TrackerOp} (h : s.step op = some t) :
    Moves s op t := by
  cases op with
  | evict ino =>
    obtain rfl := Option.some.inj h
    exact .kernel (UInt64.le_refl _) (List.append_nil _).symm rfl rfl rfl
  | handle now =>
    simp only [Tracker.step] at h
    split at h
    · rename_i evt ring hring
      split_ifs at h with hclock
      exact .handle now evt ring hclock rfl hring (Option.some.inj h).symm
    · cases h
  | tick now order =>
    simp only [Tracker.step] at h
    split_ifs at h with hguard
    exact .tick now order hguard.1 rfl hguard.2 (Option.some.inj h).symm
  | flushAll now order =>
    simp only [Tracker.step] at h
    split_ifs at h with hguard
    exact .flushAll now order hguard.1 rfl hguard.2 (Option.some.inj h).symm
  | _ =>
    simp only [Tracker.step] at h
    split_ifs at h with hclock
    obtain rfl := Option.some.inj h
    exact .kernel hclock rfl rfl rfl rfl

/-! ## What is on its way -/

/-- What the argument needs of a state: the prefix, the records of writes and deletes, and
the clock. -/
structure Tracker.Ready (watchPrefix : Bytes) (time : UInt64) (s : Tracker) : Prop where
  watchPrefix_eq : s.ectx.watchPrefix = watchPrefix
  single : ∀ evt ∈ s.ring, evt.eventType = .mtime ∨ evt.eventType = .delete
  time_le : time ≤ s.clock

/-- An operation of the debouncer that takes an entry away only by reporting it, and
reports entries only. -/
theorem onItsWay_fire_iff {path : Bytes} {time now : UInt64} {s : Tracker}
    {r : Debouncer × List Callback} (htime : time ≤ now)
    (hcallbacks : ∀ cb ∈ r.2, cb.1 = path → path ∈ s.debouncer.entries)
    (hentries : path ∈ r.1.entries → path ∈ s.debouncer.entries)
    (hkeep : path ∈ s.debouncer.entries → path ∈ r.1.entries ∨ ∃ cb ∈ r.2, cb.1 = path) :
    OnItsWay path time (s.fire now r) ↔ OnItsWay path time s := by
  constructor
  · rintro (hentry | hring | ⟨c, hc, hpath, hle⟩)
    · exact Or.inl (hentries hentry)
    · exact Or.inr (Or.inl hring)
    · rcases List.mem_append.mp hc with hc | hc
      · exact Or.inr (Or.inr ⟨c, hc, hpath, hle⟩)
      · obtain ⟨cb, hcb, rfl⟩ := List.mem_map.mp hc
        exact Or.inl (hcallbacks cb hcb hpath)
  · rintro (hentry | hring | ⟨c, hc, hpath, hle⟩)
    · rcases hkeep hentry with hin | ⟨cb, hcb, hpath⟩
      · exact Or.inl hin
      · exact Or.inr (Or.inr ⟨(cb, now), List.mem_append_right _ (List.mem_map_of_mem hcb),
          hpath, htime⟩)
    · exact Or.inr (Or.inl hring)
    · exact Or.inr (Or.inr ⟨c, List.mem_append_left _ hc, hpath, hle⟩)

theorem onItsWay_handsOver_iff {path : Bytes} {time now : UInt64} {s : Tracker}
    {r : Debouncer × List Callback} (htime : time ≤ now) (h : s.debouncer.HandsOver r) :
    OnItsWay path time (s.fire now r) ↔ OnItsWay path time s := by
  refine onItsWay_fire_iff htime ?_ h.entry fun hentry => ?_
  · rintro cb hcb rfl
    exact (h.callback cb hcb).1
  · exact (h.kept hentry).imp_right fun hcb => ⟨_, hcb, rfl⟩

/-- An event of another path. -/
theorem onItsWay_onEvent_iff {path q : Bytes} {time now : UInt64} {s : Tracker}
    {eventType : EventType} (htime : time ≤ now) (hne : path ≠ q) :
    OnItsWay path time (s.call now (.onEvent q eventType)) ↔ OnItsWay path time s := by
  refine onItsWay_fire_iff htime ?_ (fun hentry => ?_) fun hentry => ?_
  · intro cb hcb hpath
    rw [Debouncer.eq_of_mem_callbacks_onEvent hcb] at hpath
    exact absurd hpath hne.symm
  · exact (Debouncer.mem_of_mem_onEvent hentry).resolve_left hne
  · rcases s.debouncer.mem_or_reported_onEvent now.toNat (Or.inl hentry) fun _ => hne.symm with
      hin | ⟨heq, -⟩
    · exact Or.inl hin
    · exact absurd heq hne

/-- An event of the path itself is reported, or makes an entry. -/
theorem onItsWay_onEvent {path : Bytes} {time now : UInt64} {s : Tracker} {eventType : EventType}
    (htime : time ≤ now) : OnItsWay path time (s.call now (.onEvent path eventType)) := by
  have hcallback : (path, eventType) ∈ (s.debouncer.onEvent now.toNat path eventType).2 →
      OnItsWay path time (s.call now (.onEvent path eventType)) := fun hcb =>
    Or.inr (Or.inr ⟨_, List.mem_append_right _ (List.mem_map_of_mem hcb), rfl, htime⟩)
  by_cases hdel : eventType = .delete
  · subst hdel
    exact hcallback (by simp [Debouncer.onEvent_delete])
  · rcases s.debouncer.mem_or_reported_onEvent now.toNat (Or.inr rfl) fun hd => absurd hd hdel with
      hin | ⟨-, -, hcb⟩
    · exact Or.inl hin
    · exact hcallback (hcb ▸ List.mem_cons_self)

/-- The callback takes the next record out of the ring buffer and acts on it. -/
theorem onItsWay_handle_iff {watchPrefix path : Bytes} {time now : UInt64} {s : Tracker}
    {evt : FileEvent} {ring : List FileEvent} (hready : s.Ready watchPrefix time)
    (hwatched : matchesPrefix watchPrefix path) (hring : s.ring = evt :: ring)
    (hclock : s.clock ≤ now) :
    OnItsWay path time ((handleEvent s.ectx evt).2.foldl (Tracker.call now)
      { s with ring := ring, ectx := (handleEvent s.ectx evt).1, clock := now }) ↔
        OnItsWay path time s := by
  have htime : time ≤ now := UInt64.le_trans hready.time_le hclock
  have hsingle := hready.single evt (hring ▸ List.mem_cons_self)
  rw [handleEvent_single hsingle, hready.watchPrefix_eq]
  by_cases hpath : buildPath evt = path
  · rw [if_pos (hpath.symm ▸ hwatched), hpath]
    refine iff_of_true (onItsWay_onEvent htime) (Or.inr (Or.inl ⟨evt, ?_, hpath⟩))
    rw [hring]
    exact List.mem_cons_self
  · have hrest : OnItsWay path time { s with
        ring := ring, ectx := { s.ectx with hasPendingRename := false }, clock := now } ↔
          OnItsWay path time s := by
      refine or_congr_right (or_congr_left ?_)
      rw [hring, List.exists_mem_cons_iff]
      exact (or_iff_right hpath).symm
    split_ifs
    · exact (onItsWay_onEvent_iff htime (Ne.symm hpath)).trans hrest
    · exact hrest

/-- A call of the kernel touches the ring buffer only. -/
theorem onItsWay_kernel_iff {path : Bytes} {time : UInt64} {s t : Tracker} {op : TrackerOp}
    (hring : t.ring = s.ring ++ s.emits op) (hdebouncer : t.debouncer = s.debouncer)
    (hlog : t.log = s.log) : OnItsWay path time t ↔ OnItsWay path time s ∨ Emits path s op := by
  rw [OnItsWay, OnItsWay, Emits, hring, hdebouncer, hlog]
  simp only [List.mem_append, or_and_right, exists_or]
  constructor
  · rintro (hentry | (hring | hemits) | hlog)
    · exact Or.inl (Or.inl hentry)
    · exact Or.inl (Or.inr (Or.inl hring))
    · exact Or.inr hemits
    · exact Or.inl (Or.inr (Or.inr hlog))
  · rintro ((hentry | hring | hlog) | hemits)
    · exact Or.inl hentry
    · exact Or.inr (Or.inl (Or.inl hring))
    · exact Or.inr (Or.inr hlog)
    · exact Or.inr (Or.inl (Or.inr hemits))

/-- **A step keeps what is on its way**, and a record is on its way. -/
theorem onItsWay_step_iff {watchPrefix path : Bytes} {time : UInt64} {s t : Tracker}
    {op : TrackerOp} (hready : s.Ready watchPrefix time)
    (hwatched : matchesPrefix watchPrefix path) (hstep : s.step op = some t) :
    OnItsWay path time t ↔ OnItsWay path time s ∨ Emits path s op := by
  have hquiet : s.emits op = [] → ¬ Emits path s op := by
    rintro hnone ⟨evt, hevt, -⟩
    rw [hnone] at hevt
    cases hevt
  cases moves_of_step hstep with
  | kernel _ hring _ hdebouncer hlog =>
    exact onItsWay_kernel_iff hring hdebouncer hlog
  | handle now evt ring hclock hnone hring heq =>
    rw [or_iff_left (hquiet hnone), heq]
    exact onItsWay_handle_iff hready hwatched hring hclock
  | tick now order hclock hnone horder heq =>
    rw [or_iff_left (hquiet hnone), heq]
    exact onItsWay_handsOver_iff (UInt64.le_trans hready.time_le hclock)
      (Debouncer.handsOver_tick horder)
  | flushAll now order hclock hnone horder heq =>
    rw [or_iff_left (hquiet hnone), heq]
    exact onItsWay_handsOver_iff (UInt64.le_trans hready.time_le hclock)
      (Debouncer.handsOver_flushAll horder)

/-! ## Along a run -/

/-- The probes of writes and of deletes emit such records. -/
theorem single_of_mem_emits {s : Tracker} {op : TrackerOp} {evt : FileEvent}
    (h : evt ∈ s.emits op) : evt.eventType = .mtime ∨ evt.eventType = .delete := by
  have hemit : ∀ {file : Dentry} {eventType : EventType},
      evt ∈ (emitEvent file eventType).toList → evt.eventType = eventType := by
    intro file eventType hevt
    rw [Option.mem_toList, emitEvent] at hevt
    split_ifs at hevt
    rw [← Option.some.inj hevt]
  cases op with
  | vfsWrite file ino now =>
    rw [Tracker.emits, traceVfsWrite] at h
    split_ifs at h
    · cases h
    · exact Or.inl (hemit h)
  | doTruncate file ino now =>
    rw [Tracker.emits, traceDoTruncate] at h
    split_ifs at h
    · cases h
    · exact Or.inl (hemit h)
  | vfsUnlink file now => exact Or.inr (hemit h)
  | _ => cases h

theorem foldl_call_frame (now : UInt64) (calls : List HandlerCall) {s : Tracker}
    (hclock : s.clock = now) :
    (calls.foldl (Tracker.call now) s).ectx = s.ectx ∧
      (calls.foldl (Tracker.call now) s).ring = s.ring ∧
        (calls.foldl (Tracker.call now) s).clock = now := by
  induction calls generalizing s with
  | nil => exact ⟨rfl, rfl, hclock⟩
  | cons c calls ih =>
    cases c with
    | onRename oldPath newPath => exact ih hclock
    | onEvent path eventType => exact ih rfl

theorem Tracker.Ready.step {watchPrefix : Bytes} {time : UInt64} {s t : Tracker} {op : TrackerOp}
    (h : s.Ready watchPrefix time) (hstep : s.step op = some t) : t.Ready watchPrefix time := by
  obtain ⟨hwatch, hsingle, htime⟩ := h
  cases moves_of_step hstep with
  | kernel hclock hring hectx _ _ =>
    refine ⟨by rw [hectx, hwatch], fun evt hevt => ?_, UInt64.le_trans htime hclock⟩
    rw [hring] at hevt
    rcases List.mem_append.mp hevt with hevt | hevt
    · exact hsingle evt hevt
    · exact single_of_mem_emits hevt
  | handle now evt ring hclock _ hring heq =>
    obtain ⟨hectx, hrest, hnow⟩ := foldl_call_frame now (handleEvent s.ectx evt).2
      (s := { s with ring := ring, ectx := (handleEvent s.ectx evt).1, clock := now }) rfl
    rw [← heq] at hectx hrest hnow
    refine ⟨?_, fun e he => hsingle e ?_, ?_⟩
    · rw [hectx, handleEvent_watchPrefix, hwatch]
    · rw [hring]
      rw [hrest] at he
      exact List.mem_cons_of_mem _ he
    · rw [hnow]
      exact UInt64.le_trans htime hclock
  | tick now order hclock _ _ heq =>
    rw [heq]
    exact ⟨hwatch, hsingle, UInt64.le_trans htime hclock⟩
  | flushAll now order hclock _ _ heq =>
    rw [heq]
    exact ⟨hwatch, hsingle, UInt64.le_trans htime hclock⟩

theorem Tracker.Ready.init (quietPeriod maxWait : ℤ) (watchPrefix : Bytes) (clock : UInt64) :
    (Tracker.init quietPeriod maxWait watchPrefix clock).Ready watchPrefix 0 :=
  ⟨rfl, by simp [Tracker.init], by simp⟩

/-- A write and the state behind it. -/
theorem step_write {s t : Tracker} {op : TrackerOp} {file : Dentry} {time : UInt64}
    (hwrite : op.write = some (file, time)) (hstep : s.step op = some t) :
    t.clock = time ∧ t.ring = s.ring ++ s.emits op ∧ t.debouncer = s.debouncer ∧
      t.log = s.log := by
  cases op with
  | vfsWrite f ino now =>
    obtain ⟨rfl, rfl⟩ := Prod.mk.inj (Option.some.inj hwrite)
    simp only [Tracker.step] at hstep
    split_ifs at hstep
    obtain rfl := Option.some.inj hstep
    exact ⟨rfl, rfl, rfl, rfl⟩
  | doTruncate f ino now =>
    obtain ⟨rfl, rfl⟩ := Prod.mk.inj (Option.some.inj hwrite)
    simp only [Tracker.step] at hstep
    split_ifs at hstep
    obtain rfl := Option.some.inj hstep
    exact ⟨rfl, rfl, rfl, rfl⟩
  | _ => cases hwrite

/-- What is on its way is still so at the end of the run, or has come. -/
theorem TrackerRun.onItsWay_final_iff (r : TrackerRun) {path : Bytes} {time : UInt64} :
    OnItsWay path time r.final ↔ ∃ c ∈ r.final.log, c.1.1 = path ∧ time ≤ c.2 := by
  have hentries : r.final.debouncer.entries = ∅ := by
    have hrun := r.exec_eq
    rw [exec_append] at hrun
    obtain ⟨s, -, hflush⟩ := Option.bind_eq_some_iff.mp hrun
    rw [exec_cons] at hflush
    obtain ⟨t, ht, hend⟩ := Option.bind_eq_some_iff.mp hflush
    simp only [Tracker.step] at ht
    split_ifs at ht
    rw [← Option.some.inj hend, ← Option.some.inj ht]
    rfl
  rw [OnItsWay, hentries, r.drained]
  simp [Finmap.notMem_empty]

/-- **From a write on**: a callback comes when a report is on its way at the write, or some
call from the write on puts a record into the ring buffer. -/
theorem TrackerRun.reported_iff (r : TrackerRun) {before after : List TrackerOp} {op : TrackerOp}
    {file : Dentry} {time : UInt64} (hops : r.ops = before ++ op :: after)
    (hwrite : op.write = some (file, time)) (hwatched : matchesPrefix r.watchPrefix file.path)
    {s : Tracker}
    (hs : exec Tracker.step (.init r.quietPeriod r.maxWait r.watchPrefix r.clock) before = some s) :
    (∃ c ∈ r.final.log, c.1.1 = file.path ∧ time ≤ c.2) ↔
      OnItsWay file.path time s ∨ Meets Tracker.step (Emits file.path) s (op :: after) := by
  have hrun := r.exec_eq
  rw [hops, List.append_assoc, exec_append, hs, Option.bind_some, exec_append] at hrun
  obtain ⟨u, hu, hflush⟩ := Option.bind_eq_some_iff.mp hrun
  rw [exec_cons] at hu hflush
  obtain ⟨t, ht, hafter⟩ := Option.bind_eq_some_iff.mp hu
  obtain ⟨v, hv, hend⟩ := Option.bind_eq_some_iff.mp hflush
  obtain ⟨hclock, hring, hdebouncer, hlog⟩ := step_write hwrite ht
  -- at the write the clock reads its time, and from there on it does not go back
  have hstart := exec_invariant (P := fun s => s.Ready r.watchPrefix 0)
    (fun _ _ _ _ h hstep => h.step hstep) (Tracker.Ready.init _ _ _ _) hs
  obtain ⟨hwatch, hsingle, -⟩ := hstart.step ht
  have hready : t.Ready r.watchPrefix time := ⟨hwatch, hsingle, UInt64.le_of_eq hclock.symm⟩
  have hready' := exec_invariant (P := fun s => s.Ready r.watchPrefix time)
    (fun _ _ _ _ h hstep => h.step hstep) hready hafter
  have hrest := exec_iff_meets (fun _ _ _ h hstep => Tracker.Ready.step h hstep)
    (fun _ _ _ h hstep => onItsWay_step_iff h hwatched hstep) hready hafter
  have hlast := onItsWay_step_iff hready' hwatched hv
  have hnone : ¬ Emits file.path u (.flushAll r.now r.order) := by
    rintro ⟨evt, hevt, -⟩
    cases hevt
  rw [← r.onItsWay_final_iff, ← Option.some.inj hend, hlast, or_iff_left hnone, hrest,
    onItsWay_kernel_iff hring hdebouncer hlog, or_assoc]
  refine or_congr_right ?_
  constructor
  · intro h
    exact ⟨t, ht, h⟩
  · rintro ⟨w, hw, h⟩
    obtain rfl := Option.some.inj (ht.symm.trans hw)
    exact h

/-- **When the dedup loses nothing.**  For every run of writes, truncations and unlinks,
evictions, callbacks and ticks: every write to a watched path is followed by a callback for
it exactly when at every such write a report of the path is on its way, or the write or
a later call puts a record of it into the ring buffer. -/
theorem losesNothing_iff (r : TrackerRun) : r.LosesNothing ↔ r.CoversWrites := by
  constructor
  · intro h before op after file time hops hwrite hwatched s hs
    have hcallback := h before op after file time hops hwrite hwatched
    exact (r.reported_iff hops hwrite hwatched hs).mp hcallback
  · intro h before op after file time hops hwrite hwatched
    have hrun := r.exec_eq
    rw [hops, List.append_assoc, exec_append] at hrun
    obtain ⟨s, hs, -⟩ := Option.bind_eq_some_iff.mp hrun
    have hcovers := h before op after file time hops hwrite hwatched s hs
    exact (r.reported_iff hops hwrite hwatched hs).mpr hcovers

/-! ## A file that is made anew -/

/-- The file `/srv/log`. -/
def srvLog : Dentry :=
  [⟨ascii "log", by decide +kernel, by decide +kernel, by decide +kernel, by decide +kernel⟩,
    ⟨ascii "srv", by decide +kernel, by decide +kernel, by decide +kernel, by decide +kernel⟩]

/-- The file is written and unlinked, and half a second after the first write there is a new
one, with the same inode number. -/
def recreatedOps : List TrackerOp :=
  [.vfsWrite srvLog 7 0, .handle 100000000, .vfsUnlink srvLog 200000000, .handle 300000000,
    .vfsWrite srvLog 7 500000000]

def recreatedExec : Option Tracker :=
  exec Tracker.step (.init 10000000000 3600000000000 (ascii "/srv") 0)
    (recreatedOps ++ [.flushAll 20000000000 []])

def recreated : TrackerRun where
  watchPrefix := ascii "/srv"
  quietPeriod := 10000000000
  maxWait := 3600000000000
  clock := 0
  ops := recreatedOps
  now := 20000000000
  order := []
  final := recreatedExec.get (by decide +kernel)
  exec_eq := (Option.some_get _).symm
  drained := by decide +kernel

/-- The write to the new file is suppressed, and the delete has emptied the debouncer. -/
theorem not_losesNothing_recreated : ¬ ∀ r : TrackerRun, r.LosesNothing := by
  intro hclaim
  have hlate : ∀ c ∈ (recreatedExec.get (by decide +kernel)).log, ¬ 500000000 ≤ c.2 := by
    decide +kernel
  obtain ⟨c, hc, -, hle⟩ := hclaim recreated
    [.vfsWrite srvLog 7 0, .handle 100000000, .vfsUnlink srvLog 200000000, .handle 300000000]
    (.vfsWrite srvLog 7 500000000) [] srvLog 500000000 rfl rfl (by decide +kernel)
  exact hlate c hc hle

end Agent
end FileTracker
