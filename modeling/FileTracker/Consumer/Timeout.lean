import FileTracker.Consumer.MainLoop

/-!
# The batch timeout

The batch is meant to be flushed five seconds after the last flush at the latest.  `main`
looks at the clock for this on one of its ways through the loop only, when `poll` has
returned nothing.  As long as messages keep arriving, be they ones that put nothing into
the batch or broker errors, a batch that is not full waits on.

`honoured_iff_inTime` goes through the ways: a run keeps the timeout in every iteration
exactly when each iteration that polls a message or an error is early enough, or ends
with an empty batch, a full one, or the process.
-/

namespace FileTracker
namespace Consumer

open Runs

/-- An iteration past the `redis_down` block: the time it read, and whether it has
called `flush_batch`. -/
structure Iteration where
  now : ℤ
  attempted : Bool

/-- The loop, with the iteration it is in or has just ended.  There is none while Redis is
flagged down. -/
structure Timed where
  main : Main
  iteration : Option Iteration

/-- What a step does to the iteration. -/
def Timed.iterationAfter (s : Timed) : Label → Option Iteration
  | .poll _ now => if s.main.redisDown then none else some ⟨now, false⟩
  | .ping ok =>
    match s.main.pc with
    | .ping _ now => if ok then some ⟨now, false⟩ else none
    | _ => none
  | .flush _ => s.iteration.map fun it => { it with attempted := true }
  | .commit _ _ => s.iteration
  | .hlen _ _ => s.iteration
  | .stop => none
  | .kill => none
  | .start _ _ => none

def Timed.step (floatRepr : Text → Text) (log : ℕ → Option Bytes) (s : Timed) (l : Label) :
    Option Timed :=
  (s.main.step floatRepr log l).map fun m => ⟨m, s.iterationAfter l⟩

/-- No process has run yet. -/
def Timed.initial (pending : Hash) : Timed := ⟨.initial pending, none⟩

/-- A batch that waits behind an iteration, or behind all of it but the progress line, has
not reached the timeout. -/
def Main.Honours (s : Main) (now : ℤ) : Prop :=
  s.pc = .poll ∨ s.pc = .progress → s.processor.batch ≠ [] → now - s.batchStartTime < BATCH_TIMEOUT

/-- **The timeout is honoured** by the iteration, unless it has called `flush_batch`. -/
def Timed.Honoured (s : Timed) : Prop :=
  ∀ it, s.iteration = some it → it.attempted = false → s.main.Honours it.now

/-- What `poll` returned does not keep the batch waiting: nothing; an error that comes
early enough or finds no batch; a message that comes early enough, leaves no batch, fills
the batch, or ends the process. -/
def Main.InTime (log : ℕ → Option Bytes) (s : Main) (now : ℤ) : Polled → Prop
  | .none => True
  | .error => now - s.batchStartTime < BATCH_TIMEOUT ∨ s.processor.batch = []
  | .message offset =>
    let batch := s.processor.batch ++ valueActions (log offset)
    now - s.batchStartTime < BATCH_TIMEOUT ∨ batch = [] ∨ BATCH_SIZE ≤ batch.length ∨
      ¬ Parseable (log offset)

/-- Every iteration past the `redis_down` block is in time: one that finds Redis not
flagged down, and one whose ping succeeds. -/
def InTime (log : ℕ → Option Bytes) (s : Timed) : Label → Prop
  | .poll msg now => s.main.redisDown = false → s.main.InTime log now msg
  | .ping ok => ok = true → ∀ msg now, s.main.pc = .ping msg now → s.main.InTime log now msg
  | _ => True

/-! ## One iteration -/

variable {log : ℕ → Option Bytes} {floatRepr : Text → Text}

/-- Away from the head of the loop nothing is asked. -/
theorem Main.Honours.of_pc {s : Main} {now : ℤ} (hpoll : s.pc ≠ .poll)
    (hprogress : s.pc ≠ .progress) : s.Honours now :=
  fun hpc => absurd hpc (not_or.mpr ⟨hpoll, hprogress⟩)

/-- An iteration that has come to a commit has flushed. -/
def Timed.Flushed (s : Timed) : Prop :=
  ∀ site it, s.main.pc = .commit site → s.iteration = some it → it.attempted = true

/-- What a step of a run does: it keeps the timeout exactly when it is in time. -/
structure Keeps (log : ℕ → Option Bytes) (s : Timed) (l : Label) (t : Timed) : Prop where
  flushed : t.Flushed
  honoured_iff : t.Honoured ↔ InTime log s l

end Consumer
end FileTracker
