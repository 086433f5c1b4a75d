import FileTracker.Consumer.EventProcessor
import FileTracker.Library.Runs

/-!
# The consumer's main loop

`main` of `consumer/main.py` over one partition log.  The loop is cut at the
calls it makes to the outside --- `poll`, `ping`, the pipeline of `flush_batch`,
`commit`, the `hlen` of the progress line --- and a step is one such call with
the answer it got, followed by the code up to the next call.  A process can be
killed before any call, and a new one starts from the committed offset.

The client is the one the code relies on: `poll` hands out the messages of the
log in order from the position, which starts at the committed offset and is
never sought back, and `commit` commits the position.

Three fields of the state are not the program's.  `tagged` is the batch with the
offset each action came from, `executed` collects the tagged actions of the
successful flushes of all processes, and `lost` is what the running process has
polled and thrown away: the batch of a failed flush, and a message polled while
Redis was still down.  Nothing the program does depends on them.
-/

namespace FileTracker
namespace Consumer

/-- `BATCH_SIZE`. -/
def BATCH_SIZE : ℕ := 100

/-- `BATCH_TIMEOUT`, in nanoseconds, as all clock readings here. -/
def BATCH_TIMEOUT : ℤ := 5 * 10 ^ 9

/-- The ten seconds between two updates of the gauge. -/
def METRICS_INTERVAL : ℤ := 10 * 10 ^ 9

/-- What `poll` returned: the message at an offset, `None`, or a message that
carries an error. -/
inductive Polled where
  | message (offset : ℕ)
  | none
  | error
  deriving DecidableEq, Repr

/-- A message is handed out at the position only. -/
def Polled.fits (position : ℕ) : Polled → Bool
  | .message offset => offset == position
  | _ => true

/-- The places that flush and commit: the batch timeout, with the clock reading
of the iteration; the full batch; the `finally` block. -/
inductive Site where
  | timeout (now : ℤ)
  | size
  | final
  deriving DecidableEq, Repr

/-- The call `main` makes next. -/
inductive Pc where
  | poll
  | ping (msg : Polled) (now : ℤ)
  | flush (site : Site)
  | commit (site : Site)
  | progress
  | exited
  deriving DecidableEq, Repr

/-- The locals of `main`, the client, the server, and the three ghost fields. -/
structure Main where
  processor : EventProcessor
  lastLogCount : ℕ
  lastMetricsTime : ℤ
  batchStartTime : ℤ
  redisDown : Bool
  pc : Pc
  position : ℕ
  committed : ℕ
  pending : Hash
  tagged : List (ℕ × Action)
  executed : List (ℕ × Action)
  lost : List ℕ

/-- A call to the outside and its answer, a signal seen at the head of the loop,
the end of a process by other means, and the start of a process. -/
inductive Label where
  | poll (msg : Polled) (now : ℤ)
  | stop
  | ping (ok : Bool)
  | flush (reply : Reply)
  | commit (ok : Bool) (now : ℤ)
  | hlen (ok : Bool) (now : ℤ)
  | kill
  | start (metricsTime batchStartTime : ℤ)

/-- No process has run yet. -/
def Main.initial (pending : Hash) : Main where
  processor := .init
  lastLogCount := 0
  lastMetricsTime := 0
  batchStartTime := 0
  redisDown := false
  pc := .exited
  position := 0
  committed := 0
  pending := pending
  tagged := []
  executed := []
  lost := []

section Steps

variable (floatRepr : Text → Text) (log : ℕ → Option Bytes)

/-- The message at the offset has commands, and no successful flush has executed
them. -/
def owed (executed : List (ℕ × Action)) (offset : ℕ) : Bool :=
  match wellFormed (log offset) with
  | some m => !m.actions.isEmpty && !(executed.map Prod.fst).contains offset
  | none => false

/-- The process ends, and its memory with it. -/
def Main.exit (s : Main) : Main :=
  { s with processor := .init, tagged := [], lost := [], pc := .exited }

/-- The `finally` block, reached by a signal or an exception. -/
def Main.leave (s : Main) : Main :=
  if 0 < s.processor.batchSize then { s with pc := .flush .final } else s.exit

/-- The progress line every 1000 events, at the end of an iteration. -/
def Main.progress (s : Main) : Main :=
  if s.lastLogCount + 1000 ≤ s.processor.processed then
    { s with lastLogCount := s.processor.processed, pc := .progress }
  else { s with pc := .poll }

/-- `parse_event` on the message at the offset has returned. -/
def Main.parsed (s : Main) (offset : ℕ) (q : EventProcessor) : Main :=
  { s with
    processor := q
    tagged := s.tagged ++ (q.batch.drop s.processor.batch.length).map fun a => (offset, a) }

/-- The iteration behind the `redis_down` block. -/
def Main.dispatch (s : Main) (now : ℤ) : Polled → Main
  | .none =>
    if 0 < s.processor.batchSize ∧ now - s.batchStartTime ≥ BATCH_TIMEOUT then
      { s with pc := .flush (.timeout now) }
    else { s with pc := .poll }
  | .error => { s with pc := .poll }
  | .message offset =>
    match s.processor.parseEvent (log offset) with
    | .error _ => s.leave
    | .ok q =>
      if BATCH_SIZE ≤ q.batchSize then { s.parsed offset q with pc := .flush .size }
      else (s.parsed offset q).progress

/-- `poll` has returned: the position moves over a message, and the gauge is
updated every ten seconds, errors ignored. -/
def Main.polled (s : Main) (msg : Polled) (now : ℤ) : Main :=
  { s with
    position := match msg with
      | .message offset => offset + 1
      | _ => s.position
    lastMetricsTime :=
      if now - s.lastMetricsTime ≥ METRICS_INTERVAL then now else s.lastMetricsTime }

/-- The message polled while Redis is down is not looked at again. -/
def Main.skip (s : Main) (msg : Polled) : Main :=
  { s with
    pc := .poll
    lost := match msg with
      | .message offset => s.lost ++ [offset].filter (owed log s.executed)
      | _ => s.lost }

/-- `flush_batch` has returned `True`. -/
def Main.flushed (s : Main) (r : FlushResult) : Main :=
  { s with
    processor := r.processor, pending := r.pending
    executed := s.executed ++ s.tagged, tagged := [] }

/-- `flush_batch` has returned `False`. -/
def Main.failed (s : Main) (r : FlushResult) : Main :=
  { s with
    processor := r.processor, pending := r.pending, redisDown := true
    tagged := [], lost := s.lost ++ (s.tagged.map Prod.fst).filter (owed log s.executed) }

/-- What follows `flush_batch`. -/
def Main.flush (s : Main) (site : Site) (reply : Reply) : Main :=
  let r := s.processor.flushBatch floatRepr reply s.pending
  match r.outcome, site with
  | .ok true, _ => { s.flushed r with pc := .commit site }
  | .ok false, .timeout _ => { s.failed log r with pc := .poll }
  | .ok false, .size => (s.failed log r).progress
  | .ok false, .final => (s.failed log r).exit
  | .error _, .final => s.exit
  | .error _, _ => s.leave

/-- What follows `safe_commit`, which never raises. -/
def Main.commit (s : Main) (site : Site) (ok : Bool) (now : ℤ) : Main :=
  let t := if ok then { s with committed := s.position } else s
  match site with
  | .timeout n => { t with batchStartTime := n, pc := .poll }
  | .size => { t with batchStartTime := now }.progress
  | .final => t.exit

/-- A new process polls from the committed offset. -/
def Main.start (s : Main) (metricsTime batchStartTime : ℤ) : Main :=
  { Main.initial s.pending with
    lastMetricsTime := metricsTime, batchStartTime := batchStartTime, pc := .poll
    position := s.committed, committed := s.committed, executed := s.executed }

/-- One call to the outside, with its answer. -/
def Main.step (s : Main) : Label → Option Main
  | .poll msg now =>
    if s.pc = .poll ∧ msg.fits s.position then
      if s.redisDown then some { s.polled msg now with pc := .ping msg now }
      else some ((s.polled msg now).dispatch log now msg)
    else none
  | .stop => if s.pc = .poll then some s.leave else none
  | .ping ok =>
    match s.pc with
    | .ping msg now =>
      if ok then some ({ s with redisDown := false }.dispatch log now msg)
      else some (s.skip log msg)
    | _ => none
  | .flush reply =>
    match s.pc with
    | .flush site => some (s.flush floatRepr log site reply)
    | _ => none
  | .commit ok now =>
    match s.pc with
    | .commit site => some (s.commit site ok now)
    | _ => none
  | .hlen ok now =>
    if s.pc = .progress then
      let t := { s with lastMetricsTime := now }
      if !s.redisDown && !ok then some t.leave else some { t with pc := .poll }
    else none
  | .kill => if s.pc = .exited then none else some s.exit
  | .start metricsTime batchStartTime =>
    if s.pc = .exited then some (s.start metricsTime batchStartTime) else none

end Steps
end Consumer
end FileTracker
