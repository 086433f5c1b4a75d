import FileTracker.Library.Collect
import FileTracker.Library.Runs
import FileTracker.Agent.Dedup

/-!
# The statistics of the probes

The map `counters` of `src/bpf/probe.bpf.c`, one set of counters for each CPU, and
`read_percpu_counter` of `src/main.cpp`, which adds them up.  The probes run on any number
of CPUs and go on while `main` copies the counters, so that no statistics line is a
snapshot: its figures are of different moments, and so are the parts of one figure.

`truthful_of_run` says what a line is worth nevertheless.  The records the probes have
built have been counted, and are in the ring buffer, or counted as dropped, or still on
their way there; every figure is, modulo 2^64, a number of events between those at the
beginning and at the end of its lookup; and the drops reported as new are those between
two such moments, one of the line before and one of this line.  A lookup that fails is
reported as zero, and the difference that follows from it is the only one that can wrap.
The final statistics have figures of the same kind.
-/

namespace FileTracker
namespace Agent

open Runs Collect

/-! ## The probes -/

/-- `trace_vfs_utimes`, which makes no check. -/
def traceVfsUtimes (dentry : Dentry) : List FileEvent := (emitEvent dentry .mtime).toList

/-- The entry into a probe, with what it reads of the kernel. -/
inductive ProbeCall where
  | vfsUnlink (file : Dentry)
  | vfsWrite (file : Dentry) (ino now : UInt64)
  | doTruncate (file : Dentry) (ino now : UInt64)
  | vfsRename (old new : Dentry)
  | vfsUtimes (file : Dentry)

/-- What `dedup_check` returns to the probe, the map behind it, and the records that the
probe goes on to emit. -/
def ProbeCall.enter (dedup : DedupMap) : ProbeCall → Bool × DedupMap × List FileEvent
  | .vfsUnlink file => (false, dedup, traceVfsUnlink file)
  | .vfsWrite file ino now =>
    let check := dedupCheck dedup ino now
    (check.1, check.2, traceVfsWrite check.1 file)
  | .doTruncate file ino now =>
    let check := dedupCheck dedup ino now
    (check.1, check.2, traceDoTruncate check.1 file)
  | .vfsRename old new => (false, dedup, traceVfsRename old new)
  | .vfsUtimes file => (false, dedup, traceVfsUtimes file)

/-! ## The counters and their reader -/

/-- `CTR_DROPS`, `CTR_TOTAL` and `CTR_DEDUP`. -/
inductive Counter where
  | drops
  | total
  | dedup
  deriving DecidableEq

/-- What a lookup has come to: whether it succeeded, and the sum.  The others are ghosts:
how many events there had been when it began, when each CPU was copied, and when it
ended. -/
structure Figure where
  ok : Bool
  shown : UInt64
  since : ℕ
  seen : ℕ
  upTo : ℕ

/-- The figures of a statistics line, and the drops reported as new.  A ghost: the drops
that the line before has seen. -/
structure StatsLine where
  events : Figure
  drops : Figure
  newDrops : UInt64
  dedup : Figure
  before : ℕ

/-- The figures of the final statistics, behind `flush_all`. -/
structure FinalStats where
  events : Figure
  drops : Figure
  dedup : Figure

/-- The kernel's side: the map `dedup`, the counters, the records that a probe still has to
emit on a CPU and whether the first of them has been counted, and the ring buffer with
everything that was ever put into it.  Ghosts: the events behind the counters, the records
built, and the writes suppressed. -/
structure Probes (n : ℕ) where
  dedup : DedupMap
  counters : Counter → Fin n → UInt64
  queue : Fin n → List FileEvent
  counted : Fin n → Bool
  ring : List FileEvent
  events : Counter → Fin n → ℕ
  built : ℕ
  suppressed : ℕ

/-- The agent's side: the figures of the line it is about to write; how many CPUs the
lookup under way has copied, if there is one, and the copies; `prev_drops`; and the lines
written, with the last of them apart.  Ghosts: the events on each CPU when the lookup began,
and when the CPU was copied; and the drops that the last line of the loop has seen. -/
structure Reader (n : ℕ) where
  found : List Figure
  copied : Option ℕ
  values : Fin n → UInt64
  since : Fin n → ℕ
  seen : Fin n → ℕ
  prevDrops : UInt64
  seenDrops : ℕ
  lines : List StatsLine
  final : Option FinalStats

structure Meter (n : ℕ) where
  probes : Probes n
  reader : Reader n

/-- A probe is entered on a CPU; it counts its next record; it hands it to the ring
buffer, which takes it or not; an entry of the map `dedup` is evicted.  A lookup begins,
copies the next CPU, ends or fails; the line is written, or the final statistics, behind
which nothing is looked up. -/
inductive MeterLabel (n : ℕ) where
  | enter (cpu : Fin n) (call : ProbeCall)
  | count (cpu : Fin n)
  | output (cpu : Fin n) (ok : Bool)
  | evict (ino : UInt64)
  | look
  | copy
  | add
  | fail
  | print
  | finish

/-- The order of the lookups. -/
def keyAt : ℕ → Counter
  | 0 => .total
  | 1 => .drops
  | _ => .dedup

section Steps

variable {n : ℕ}

/-- `__sync_fetch_and_add` on a CPU's counter. -/
def Probes.bump (s : Probes n) (key : Counter) (cpu : Fin n) : Probes n :=
  { s with
    counters := Function.update s.counters key
      (Function.update (s.counters key) cpu (s.counters key cpu + 1))
    events := Function.update s.events key
      (Function.update (s.events key) cpu (s.events key cpu + 1)) }

/-- The events so far, on all CPUs. -/
def Probes.count (s : Probes n) (key : Counter) : ℕ := ∑ cpu, s.events key cpu

/-- The entry into a probe. -/
def Probes.enter (s : Probes n) (cpu : Fin n) (call : ProbeCall) : Probes n :=
  let (skip, dedup, records) := call.enter s.dedup
  let t := { s with
    dedup := dedup
    queue := Function.update s.queue cpu records
    built := s.built + records.length
    suppressed := s.suppressed + skip.toNat }
  if skip then t.bump .dedup cpu else t

/-- What `bpf_ringbuf_output` and the rest of `emit_event` do with the record that has been
counted. -/
def Probes.output (s : Probes n) (cpu : Fin n) (evt : FileEvent) (rest : List FileEvent)
    (ok : Bool) : Probes n :=
  let t := { s with
    queue := Function.update s.queue cpu rest
    counted := Function.update s.counted cpu false }
  if ok then { t with ring := t.ring ++ [evt] } else t.bump .drops cpu

/-- The loop that adds the values of the CPUs. -/
def sumValues (values : Fin n → UInt64) : UInt64 := (List.ofFn values).foldl (· + ·) 0

/-- `read_percpu_counter` returns. -/
def Reader.returned (s : Reader n) (probes : Probes n) (ok : Bool) : Reader n :=
  { s with
    copied := none
    found := s.found ++ [⟨ok, if ok then sumValues s.values else 0, ∑ cpu, s.since cpu,
      if ok then ∑ cpu, s.seen cpu else 0, probes.count (keyAt s.found.length)⟩] }

/-- `bpf_map_lookup_elem` begins. -/
def Reader.look (s : Reader n) (probes : Probes n) : Reader n :=
  { s with
    copied := some 0
    values := fun _ => 0
    since := probes.events (keyAt s.found.length)
    seen := fun _ => 0 }

/-- It copies the value of a CPU. -/
def Reader.copy (s : Reader n) (probes : Probes n) (cpu : Fin n) : Reader n :=
  { s with
    copied := some (cpu + 1)
    values := Function.update s.values cpu (probes.counters (keyAt s.found.length) cpu)
    seen := Function.update s.seen cpu (probes.events (keyAt s.found.length) cpu) }

/-- The rest of the block. -/
def Reader.print (s : Reader n) (events drops dedup : Figure) : Reader n :=
  { s with
    found := []
    prevDrops := drops.shown
    seenDrops := drops.seen
    lines := s.lines ++ [⟨events, drops, drops.shown - s.prevDrops, dedup, s.seenDrops⟩] }

/-- The final statistics. -/
def Reader.finish (s : Reader n) (events drops dedup : Figure) : Reader n :=
  { s with found := [], final := some ⟨events, drops, dedup⟩ }

def Meter.step (s : Meter n) : MeterLabel n → Option (Meter n)
  | .enter cpu call =>
    if s.probes.queue cpu = [] then some { s with probes := s.probes.enter cpu call } else none
  | .count cpu =>
    if s.probes.queue cpu ≠ [] ∧ s.probes.counted cpu = false then
      some { s with probes :=
        { s.probes.bump .total cpu with
          counted := Function.update s.probes.counted cpu true } }
    else none
  | .output cpu ok =>
    match s.probes.queue cpu with
    | evt :: rest =>
      if s.probes.counted cpu then some { s with probes := s.probes.output cpu evt rest ok }
      else none
    | [] => none
  | .evict ino =>
    some { s with probes := { s.probes with dedup := s.probes.dedup.erase ino } }
  | .look =>
    if s.reader.copied = none ∧ s.reader.found.length < 3 ∧ s.reader.final = none then
      some { s with reader := s.reader.look s.probes }
    else none
  | .copy =>
    match s.reader.copied with
    | some k =>
      if hk : k < n then some { s with reader := s.reader.copy s.probes ⟨k, hk⟩ } else none
    | none => none
  | .add =>
    if s.reader.copied = some n then some { s with reader := s.reader.returned s.probes true }
    else none
  | .fail =>
    if s.reader.copied.isSome then some { s with reader := s.reader.returned s.probes false }
    else none
  | .print =>
    match s.reader.found with
    | [events, drops, dedup] => some { s with reader := s.reader.print events drops dedup }
    | _ => none
  | .finish =>
    match s.reader.found with
    | [events, drops, dedup] => some { s with reader := s.reader.finish events drops dedup }
    | _ => none

end Steps

/-- No probe has been entered, and no line written. -/
def Meter.initial (n : ℕ) : Meter n where
  probes := ⟨∅, fun _ _ => 0, fun _ => [], fun _ => false, [], fun _ _ => 0, 0, 0⟩
  reader := ⟨[], none, fun _ => 0, fun _ => 0, fun _ => 0, 0, 0, [], none⟩

/-! ## What a line is worth -/

/-- The figure is a number of events, modulo 2^64, between those at the beginning of its
lookup and at its end; a lookup that fails gives zero. -/
structure Figure.Fair (f : Figure) : Prop where
  shown : f.shown = UInt64.ofNat f.seen
  between : f.ok = true → f.since ≤ f.seen ∧ f.seen ≤ f.upTo
  failed : f.ok = false → f.seen = 0

/-- The drops reported as new are those between the moments at which this line and the one
before have counted, if the lookup has not failed. -/
structure StatsLine.Honest (l : StatsLine) : Prop where
  events : l.events.Fair
  drops : l.drops.Fair
  dedup : l.dedup.Fair
  before_le : l.drops.ok = true → l.before ≤ l.drops.seen
  newDrops : l.drops.ok = true → l.newDrops = UInt64.ofNat (l.drops.seen - l.before)

/-- The final statistics. -/
structure FinalStats.Honest (l : FinalStats) : Prop where
  events : l.events.Fair
  drops : l.drops.Fair
  dedup : l.dedup.Fair

/-- Each line goes on from the drops that the line before has seen. -/
def Linked : ℕ → List StatsLine → ℕ → Prop
  | before, [], seen => before = seen
  | before, l :: ls, seen => l.before = before ∧ Linked l.drops.seen ls seen

/-- The probe on the CPU has counted a record and not yet handed it over. -/
def Probes.inFlight {n : ℕ} (s : Probes n) : ℕ := ∑ cpu, (s.counted cpu).toNat

/-- The records the probes have built have been counted, or wait to be; those counted are
in the ring buffer, were dropped, or are in flight. -/
structure Probes.Balanced {n : ℕ} (s : Probes n) : Prop where
  built : s.built + s.inFlight = s.count .total + ∑ cpu, (s.queue cpu).length
  total : s.count .total = s.ring.length + s.count .drops + s.inFlight
  dedup : s.count .dedup = s.suppressed

/-- The counters and the lines. -/
structure Meter.Truthful {n : ℕ} (s : Meter n) : Prop where
  balanced : s.probes.Balanced
  honest : ∀ l ∈ s.reader.lines, l.Honest
  linked : Linked 0 s.reader.lines s.reader.seenDrops
  final : ∀ l, s.reader.final = some l → l.Honest

/-! ## What a step of a probe does -/

section Kernel

variable {n : ℕ}

theorem Probes.count_bump (s : Probes n) (key other : Counter) (cpu : Fin n) :
    (s.bump key cpu).count other = s.count other + if other = key then 1 else 0 := by
  unfold Probes.count Probes.bump
  by_cases heq : other = key
  · subst heq
    have hsum := sum_apply_update id (s.events other) cpu (s.events other cpu + 1)
    simp only [id_eq] at hsum
    simp only [Function.update_self, if_true]
    omega
  · simp only [Function.update_of_ne heq, if_neg heq, Nat.add_zero]

/-- The counters are the numbers of events, modulo 2^64. -/
def Probes.Exact (s : Probes n) : Prop :=
  ∀ key cpu, s.counters key cpu = UInt64.ofNat (s.events key cpu)

theorem Probes.Exact.bump {s : Probes n} (h : s.Exact) (key : Counter) (cpu : Fin n) :
    (s.bump key cpu).Exact := by
  intro other c
  unfold Probes.bump
  by_cases heq : other = key
  · subst heq
    simp only [Function.update_self]
    by_cases hc : c = cpu
    · subst hc
      rw [Function.update_self, Function.update_self, h, UInt64.ofNat_add]
      rfl
    · rw [Function.update_of_ne hc, Function.update_of_ne hc]
      exact h other c
  · simp only [Function.update_of_ne heq]
    exact h other c

/-- No number of events goes down. -/
def Probes.Grows (s t : Probes n) : Prop := ∀ key cpu, s.events key cpu ≤ t.events key cpu

theorem Probes.grows_bump (s : Probes n) (key : Counter) (cpu : Fin n) :
    s.Grows (s.bump key cpu) := by
  intro other c
  unfold Probes.bump
  by_cases heq : other = key
  · subst heq
    simp only [Function.update_self]
    by_cases hc : c = cpu
    · subst hc
      rw [Function.update_self]
      exact Nat.le_succ _
    · rw [Function.update_of_ne hc]
  · simp only [Function.update_of_ne heq, le_refl]

theorem Probes.Grows.count_le {s t : Probes n} (h : s.Grows t) (key : Counter) :
    s.count key ≤ t.count key :=
  Finset.sum_le_sum fun cpu _ => h key cpu

/-- A CPU's records change. -/
theorem sum_queue_update (queue : Fin n → List FileEvent) (cpu : Fin n) (records : List FileEvent) :
    ∑ c, (Function.update queue cpu records c).length + (queue cpu).length =
      ∑ c, (queue c).length + records.length :=
  sum_apply_update List.length queue cpu records

theorem sum_counted_update (counted : Fin n → Bool) (cpu : Fin n) (b : Bool) :
    ∑ c, (Function.update counted cpu b c).toNat + (counted cpu).toNat =
      ∑ c, (counted c).toNat + b.toNat :=
  sum_apply_update Bool.toNat counted cpu b

/-- What every step of the probes keeps. -/
structure Probes.Steady (s t : Probes n) : Prop where
  balanced : s.Balanced → t.Balanced
  counters : s.Exact → t.Exact
  grows : s.Grows t

theorem steady_enter {s : Probes n} {cpu : Fin n} (hidle : s.queue cpu = []) (call : ProbeCall) :
    s.Steady (s.enter cpu call) := by
  unfold Probes.enter
  generalize call.enter s.dedup = entry
  obtain ⟨skip, dedup, records⟩ := entry
  have hqueue := sum_queue_update s.queue cpu records
  rw [hidle, List.length_nil, Nat.add_zero] at hqueue
  simp only
  cases skip with
  | false =>
    refine ⟨fun h => ⟨?_, h.total, h.dedup⟩, id, fun _ _ => le_rfl⟩
    have hbuilt : s.built + s.inFlight = s.count .total + _ := h.built
    show s.built + records.length + s.inFlight =
      s.count .total + ∑ c, (Function.update s.queue cpu records c).length
    omega
  | true =>
    refine ⟨fun h => ⟨?_, ?_, ?_⟩, fun h => Probes.Exact.bump (fun key c => h key c) .dedup cpu,
      fun key c => Probes.grows_bump s .dedup cpu key c⟩
    · have hbuilt := h.built
      have hcount := s.count_bump .dedup .total cpu
      show s.built + records.length + s.inFlight = (s.bump .dedup cpu).count .total +
        ∑ c, (Function.update s.queue cpu records c).length
      simp only [reduceCtorEq, if_false, Nat.add_zero] at hcount
      omega
    · have htotal := h.total
      have hcount := s.count_bump .dedup .total cpu
      have hdrops := s.count_bump .dedup .drops cpu
      show (s.bump .dedup cpu).count .total =
        s.ring.length + (s.bump .dedup cpu).count .drops + s.inFlight
      simp only [reduceCtorEq, if_false, Nat.add_zero] at hcount hdrops
      omega
    · have hdedup := h.dedup
      have hcount := s.count_bump .dedup .dedup cpu
      show (s.bump .dedup cpu).count .dedup = s.suppressed + 1
      simp only [if_true] at hcount
      omega

theorem steady_count {s : Probes n} {cpu : Fin n} (hcounted : s.counted cpu = false) :
    s.Steady { s.bump .total cpu with counted := Function.update s.counted cpu true } := by
  have hflight := sum_counted_update s.counted cpu true
  rw [hcounted, Bool.toNat_false, Bool.toNat_true, Nat.add_zero] at hflight
  have htotal := s.count_bump .total .total cpu
  have hdrops := s.count_bump .total .drops cpu
  have hdedup := s.count_bump .total .dedup cpu
  simp only [reduceCtorEq, if_false, if_true, Nat.add_zero] at htotal hdrops hdedup
  refine ⟨fun h => ⟨?_, ?_, ?_⟩, fun h => Probes.Exact.bump h .total cpu,
    Probes.grows_bump s .total cpu⟩
  · have hbuilt : s.built + ∑ c, (s.counted c).toNat = _ := h.built
    show s.built + ∑ c, (Function.update s.counted cpu true c).toNat =
      (s.bump .total cpu).count .total + ∑ c, (s.queue c).length
    omega
  · have hbefore : s.count .total = _ + _ + ∑ c, (s.counted c).toNat := h.total
    show (s.bump .total cpu).count .total = s.ring.length + (s.bump .total cpu).count .drops +
      ∑ c, (Function.update s.counted cpu true c).toNat
    omega
  · exact hdedup.trans h.dedup

theorem steady_output {s : Probes n} {cpu : Fin n} {evt : FileEvent} {rest : List FileEvent}
    (hqueue : s.queue cpu = evt :: rest) (hcounted : s.counted cpu = true) (ok : Bool) :
    s.Steady (s.output cpu evt rest ok) := by
  have hflight := sum_counted_update s.counted cpu false
  rw [hcounted, Bool.toNat_false, Bool.toNat_true, Nat.add_zero] at hflight
  have hlength := sum_queue_update s.queue cpu rest
  rw [hqueue, List.length_cons] at hlength
  unfold Probes.output
  cases ok with
  | true =>
    refine ⟨fun h => ⟨?_, ?_, h.dedup⟩, id, fun _ _ => le_rfl⟩
    · have hbuilt : s.built + ∑ c, (s.counted c).toNat = _ := h.built
      show s.built + ∑ c, (Function.update s.counted cpu false c).toNat =
        s.count .total + ∑ c, (Function.update s.queue cpu rest c).length
      omega
    · have hbefore : s.count .total = _ + _ + ∑ c, (s.counted c).toNat := h.total
      show s.count .total = (s.ring ++ [evt]).length + s.count .drops +
        ∑ c, (Function.update s.counted cpu false c).toNat
      rw [List.length_append, List.length_singleton]
      omega
  | false =>
    have htotal := s.count_bump .drops .total cpu
    have hdrops := s.count_bump .drops .drops cpu
    have hdedup := s.count_bump .drops .dedup cpu
    simp only [reduceCtorEq, if_false, if_true, Nat.add_zero] at htotal hdrops hdedup
    refine ⟨fun h => ⟨?_, ?_, hdedup.trans h.dedup⟩,
      fun h => Probes.Exact.bump (fun key c => h key c) .drops cpu,
      fun key c => Probes.grows_bump s .drops cpu key c⟩
    · have hbuilt : s.built + ∑ c, (s.counted c).toNat = _ := h.built
      show s.built + ∑ c, (Function.update s.counted cpu false c).toNat =
        (s.bump .drops cpu).count .total + ∑ c, (Function.update s.queue cpu rest c).length
      omega
    · have hbefore : s.count .total = _ + _ + ∑ c, (s.counted c).toNat := h.total
      show (s.bump .drops cpu).count .total = s.ring.length + (s.bump .drops cpu).count .drops +
        ∑ c, (Function.update s.counted cpu false c).toNat
      omega

end Kernel

/-! ## What a step of the reader does -/

section Reading

variable {n : ℕ}

theorem foldl_ofNat (xs : List ℕ) (a : ℕ) :
    (xs.map UInt64.ofNat).foldl (· + ·) (UInt64.ofNat a) = UInt64.ofNat (a + xs.sum) := by
  induction xs generalizing a with
  | nil => rfl
  | cons x xs ih =>
    rw [List.map_cons, List.foldl_cons, ← UInt64.ofNat_add, ih, List.sum_cons, Nat.add_assoc]

/-- Adding the copies up is counting what they have seen. -/
theorem sumValues_eq {values : Fin n → UInt64} {seen : Fin n → ℕ}
    (h : ∀ cpu, values cpu = UInt64.ofNat (seen cpu)) :
    sumValues values = UInt64.ofNat (∑ cpu, seen cpu) := by
  have hmap : List.ofFn values = (List.ofFn seen).map UInt64.ofNat := by
    rw [List.map_ofFn]
    exact congrArg List.ofFn (funext h)
  have hsum := foldl_ofNat (List.ofFn seen) 0
  rw [Nat.zero_add, List.sum_ofFn] at hsum
  rw [sumValues, hmap]
  exact hsum

theorem linked_append {before seen : ℕ} {lines : List StatsLine} (h : Linked before lines seen)
    {l : StatsLine} (hl : l.before = seen) : Linked before (lines ++ [l]) l.drops.seen := by
  induction lines generalizing before with
  | nil => exact ⟨hl.trans h.symm, rfl⟩
  | cons first rest ih => exact ⟨h.1, ih h.2⟩

/-- What the reader has seen so far. -/
structure Reader.Inv (r : Reader n) (probes : Probes n) : Prop where
  room : ∀ k, r.copied = some k → r.found.length < 3
  copying : ∀ k, r.copied = some k → k ≤ n ∧
    Collected r.since (probes.events (keyAt r.found.length)) r.seen k
  values : ∀ cpu, r.values cpu = UInt64.ofNat (r.seen cpu)
  looking : ∀ k, r.copied = some k → r.found.length = 1 → r.seenDrops ≤ ∑ cpu, r.since cpu
  fair : ∀ f ∈ r.found, f.Fair
  drops : ∀ f, r.found[1]? = some f →
    f.seen ≤ probes.count .drops ∧ (f.ok = true → r.seenDrops ≤ f.seen)
  prevDrops : r.prevDrops = UInt64.ofNat r.seenDrops
  seenDrops_le : r.seenDrops ≤ probes.count .drops
  honest : ∀ l ∈ r.lines, l.Honest
  linked : Linked 0 r.lines r.seenDrops
  final : ∀ l, r.final = some l → l.Honest

variable {r : Reader n} {probes : Probes n}

/-- The probes go on. -/
theorem Reader.Inv.mono (h : r.Inv probes) {later : Probes n} (hgrows : probes.Grows later) :
    r.Inv later :=
  { h with
    copying := fun k hk => ⟨(h.copying k hk).1, (h.copying k hk).2.mono (hgrows _)⟩
    drops := fun f hf => ⟨(h.drops f hf).1.trans (hgrows.count_le _), (h.drops f hf).2⟩
    seenDrops_le := h.seenDrops_le.trans (hgrows.count_le _) }

theorem Reader.Inv.look (h : r.Inv probes) (hroom : r.found.length < 3) :
    (r.look probes).Inv probes :=
  { h with
    room := fun _ _ => hroom
    copying := fun k hk => by
      obtain rfl := Option.some.inj hk
      exact ⟨Nat.zero_le n, .begin _ _⟩
    values := fun _ => rfl
    looking := fun k _ hone => by
      have hkey : keyAt r.found.length = .drops := congrArg keyAt hone
      show r.seenDrops ≤ ∑ cpu, probes.events (keyAt r.found.length) cpu
      rw [hkey]
      exact h.seenDrops_le }

theorem Reader.Inv.copy (h : r.Inv probes) (hexact : probes.Exact) {k : ℕ}
    (hcopied : r.copied = some k) (hk : k < n) : (r.copy probes ⟨k, hk⟩).Inv probes :=
  { h with
    room := fun _ _ => h.room k hcopied
    copying := fun k' hk' => by
      obtain rfl := Option.some.inj hk'
      exact ⟨hk, (h.copying k hcopied).2.next hk⟩
    values := fun cpu => by
      unfold Reader.copy
      by_cases heq : cpu = ⟨k, hk⟩
      · subst heq
        simp only [Function.update_self]
        exact hexact _ _
      · simp only [Function.update_of_ne heq]
        exact h.values cpu
    looking := fun _ _ hone => h.looking k hcopied hone }

/-- The figure of a lookup that returns. -/
theorem Reader.Inv.returned (h : r.Inv probes) {k : ℕ} (hcopied : r.copied = some k) {ok : Bool}
    (hall : ok = true → k = n) : (r.returned probes ok).Inv probes := by
  have hcollected : ok = true → ∑ cpu, r.since cpu ≤ ∑ cpu, r.seen cpu ∧
      ∑ cpu, r.seen cpu ≤ probes.count (keyAt r.found.length) := by
    intro hok
    have hcopying := (h.copying k hcopied).2
    rw [hall hok] at hcopying
    exact hcopying.sum_between
  refine { h with room := nofun, copying := nofun, looking := nofun, fair := ?_, drops := ?_ }
  · intro f hf
    rcases List.mem_append.mp hf with hf | hf
    · exact h.fair f hf
    · obtain rfl := List.mem_singleton.mp hf
      cases ok with
      | true => exact ⟨sumValues_eq h.values, hcollected, nofun⟩
      | false => exact ⟨rfl, nofun, fun _ => rfl⟩
  · intro f hf
    rcases Nat.lt_trichotomy r.found.length 1 with hlt | hone | hgt
    · have hnone : (r.returned probes ok).found.length ≤ 1 := by
        simp only [Reader.returned, List.length_append, List.length_singleton]
        omega
      rw [List.getElem?_eq_none hnone] at hf
      cases hf
    · -- this is the lookup of the drops
      have hkey : keyAt r.found.length = .drops := by rw [hone, keyAt]
      rw [Reader.returned, List.getElem?_append_right hone.le, hone] at hf
      obtain rfl := Option.some.inj hf
      cases ok with
      | true =>
        obtain ⟨hsince, hnow⟩ := hcollected rfl
        exact ⟨hkey ▸ hnow, fun _ => (h.looking k hcopied hone).trans hsince⟩
      | false => exact ⟨Nat.zero_le _, nofun⟩
    · rw [Reader.returned, List.getElem?_append_left hgt] at hf
      exact h.drops f hf

/-- When a line is complete no lookup is under way. -/
theorem Reader.Inv.copied_ne (h : r.Inv probes) {events drops dedup : Figure}
    (hfound : r.found = [events, drops, dedup]) (k : ℕ) : r.copied ≠ some k := by
  intro hk
  have hlt := h.room k hk
  rw [hfound] at hlt
  exact absurd hlt (lt_irrefl 3)

theorem Reader.Inv.print (h : r.Inv probes) {events drops dedup : Figure}
    (hfound : r.found = [events, drops, dedup]) :
    (r.print events drops dedup).Inv probes := by
  have hdrops := h.drops drops (by rw [hfound]; rfl)
  have hfair : ∀ f ∈ [events, drops, dedup], f.Fair := fun f hf => h.fair f (hfound ▸ hf)
  have hdropsFair := hfair drops (by simp)
  have hnone := h.copied_ne hfound
  refine ⟨fun k hk => absurd hk (hnone k), fun k hk => absurd hk (hnone k), h.values,
    fun k hk => absurd hk (hnone k), nofun, nofun, hdropsFair.shown, hdrops.1, ?_, ?_, h.final⟩
  · intro l hl
    rcases List.mem_append.mp hl with hl | hl
    · exact h.honest l hl
    · obtain rfl := List.mem_singleton.mp hl
      refine ⟨hfair events (by simp), hdropsFair, hfair dedup (by simp), hdrops.2, fun hok => ?_⟩
      simp only
      rw [UInt64.ofNat_sub (hdrops.2 hok), hdropsFair.shown, h.prevDrops]
  · exact linked_append h.linked rfl

theorem Reader.Inv.finish (h : r.Inv probes) {events drops dedup : Figure}
    (hfound : r.found = [events, drops, dedup]) :
    (r.finish events drops dedup).Inv probes := by
  have hfair : ∀ f ∈ [events, drops, dedup], f.Fair := fun f hf => h.fair f (hfound ▸ hf)
  have hnone := h.copied_ne hfound
  refine { h with
    room := fun k hk => absurd hk (hnone k)
    copying := fun k hk => absurd hk (hnone k)
    looking := fun k hk => absurd hk (hnone k)
    fair := nofun
    drops := nofun
    final := fun l hl => ?_ }
  obtain rfl := Option.some.inj hl
  exact ⟨hfair events (by simp), hfair drops (by simp), hfair dedup (by simp)⟩

end Reading

/-! ## Runs -/

section Runs

variable {n : ℕ}

/-- The invariant of a run. -/
structure Meter.Inv (s : Meter n) : Prop where
  balanced : s.probes.Balanced
  counters : s.probes.Exact
  reader : s.reader.Inv s.probes

theorem Meter.Inv.truthful {s : Meter n} (h : s.Inv) : s.Truthful :=
  ⟨h.balanced, h.reader.honest, h.reader.linked, h.reader.final⟩

/-- A step of the probes. -/
theorem Meter.Inv.probes {s : Meter n} (h : s.Inv) {t : Probes n} (hsteady : s.probes.Steady t) :
    Meter.Inv { s with probes := t } :=
  ⟨hsteady.balanced h.balanced, hsteady.counters h.counters, h.reader.mono hsteady.grows⟩

/-- **One step**, of a probe or of the reader. -/
theorem Meter.Inv.step {s t : Meter n} {l : MeterLabel n} (h : s.Inv) (hstep : s.step l = some t) :
    t.Inv := by
  cases l with
  | enter cpu call =>
    simp only [Meter.step] at hstep
    split_ifs at hstep with hidle
    obtain rfl := Option.some.inj hstep
    exact h.probes (steady_enter hidle call)
  | count cpu =>
    simp only [Meter.step] at hstep
    split_ifs at hstep with hready
    obtain rfl := Option.some.inj hstep
    exact h.probes (steady_count hready.2)
  | output cpu ok =>
    simp only [Meter.step] at hstep
    split at hstep
    · rename_i evt rest hqueue
      split_ifs at hstep with hcounted
      obtain rfl := Option.some.inj hstep
      exact h.probes (steady_output hqueue hcounted ok)
    · cases hstep
  | evict ino =>
    obtain rfl := Option.some.inj hstep
    exact h.probes ⟨fun hb => ⟨hb.built, hb.total, hb.dedup⟩, id, fun _ _ => le_rfl⟩
  | look =>
    simp only [Meter.step] at hstep
    split_ifs at hstep with hready
    obtain rfl := Option.some.inj hstep
    exact ⟨h.balanced, h.counters, h.reader.look hready.2.1⟩
  | copy =>
    simp only [Meter.step] at hstep
    split at hstep
    · rename_i k hcopied
      split_ifs at hstep with hk
      obtain rfl := Option.some.inj hstep
      exact ⟨h.balanced, h.counters, h.reader.copy h.counters hcopied hk⟩
    · cases hstep
  | add =>
    simp only [Meter.step] at hstep
    split_ifs at hstep with hcopied
    obtain rfl := Option.some.inj hstep
    exact ⟨h.balanced, h.counters, h.reader.returned hcopied fun _ => rfl⟩
  | fail =>
    simp only [Meter.step] at hstep
    split_ifs at hstep with hsome
    obtain ⟨k, hcopied⟩ := Option.isSome_iff_exists.mp hsome
    obtain rfl := Option.some.inj hstep
    exact ⟨h.balanced, h.counters, h.reader.returned hcopied nofun⟩
  | print =>
    simp only [Meter.step] at hstep
    split at hstep
    · rename_i events drops dedup hfound
      obtain rfl := Option.some.inj hstep
      exact ⟨h.balanced, h.counters, h.reader.print hfound⟩
    · cases hstep
  | finish =>
    simp only [Meter.step] at hstep
    split at hstep
    · rename_i events drops dedup hfound
      obtain rfl := Option.some.inj hstep
      exact ⟨h.balanced, h.counters, h.reader.finish hfound⟩
    · cases hstep

theorem Meter.Inv.initial (n : ℕ) : (Meter.initial n).Inv where
  balanced := ⟨by simp [Meter.initial, Probes.count, Probes.inFlight],
    by simp [Meter.initial, Probes.count, Probes.inFlight],
    by simp [Meter.initial, Probes.count]⟩
  counters := fun _ _ => rfl
  reader := ⟨nofun, nofun, fun _ => rfl, nofun, nofun, nofun, rfl, Nat.zero_le _, nofun, rfl,
    nofun⟩

/-- **The statistics are truthful** in every state of every run, on any number of CPUs. -/
theorem truthful_of_run (n : ℕ) (labels : List (MeterLabel n)) :
    Always Meter.step Meter.Truthful (Meter.initial n) labels := by
  have hinv : Always Meter.step Meter.Inv (Meter.initial n) labels :=
    always_of_guarded (G := fun _ _ => True) (fun s l t h hstep _ => h.step hstep)
      (Meter.Inv.initial n) (guarded_true _ _)
  exact hinv.imp fun s h => h.truthful

end Runs

end Agent
end FileTracker
