import FileTracker.Library.Simulation
import FileTracker.Agent.Conservation
import FileTracker.Agent.Pipeline

/-!
# The agent, from the ring buffer to the log

`main` of `src/main.cpp` as a whole.  `Agent.Main` is its messages, with callbacks that
come from anywhere; `Agent.Pipeline` is the callback of the ring buffer and the debouncer,
with messages that go nowhere.  Here the two are one process: an event, a tick or the
flush at shutdown leaves callbacks to be made, and they are made, one after the other,
before anything else happens.  A crash can come between any two.

What `main` counts and times is here too: the three counters of its statistics, the lines
it prints of them, and the two timers of its loop.  Readings of the clock are in
nanoseconds.

`mainSimulation` and `pipelineSimulation` say that the process refines both of its halves.
-/

namespace FileTracker
namespace Agent

open Runs

/-! ## The process -/

/-- What `Config::load` gives `main`, as far as it is used here. -/
structure ProcessConfig extends Config where
  debounceQuietMs : ℕ
  debounceMaxWaitMs : ℕ
  watchPrefix : Bytes

/-- `wal_retry_interval`. -/
def walRetryInterval : ℤ := 30 * 10 ^ 9

/-- `stats_interval`. -/
def statsInterval : ℤ := 60 * 10 ^ 9

/-- What a line of the statistics says of the process, with the reading at which it is
printed. -/
structure ProcessStats where
  now : ℤ
  kafkaSent : ℕ
  kafkaFailed : ℕ
  walSize : ℕ
  pending : ℕ

/-- The locals of `main`.  `todo` is what is left of the callbacks of the call that is
running, and `turned` says that `tick` has been called in this iteration, or `flush_all` at
the end.  A ghost: the lines of the statistics that have been printed. -/
structure Process where
  main : Main
  pipe : Pipeline
  todo : List Emission
  turned : Bool
  kafkaSent : ℕ
  kafkaFailed : ℕ
  walReplayed : ℕ
  lastWalRetry : ℤ
  lastStats : ℤ
  printed : List ProcessStats

/-- An input to the pipeline; a callback, for an event it may stem from; any other call of
`main`, with the reading of the clock behind it where there is one. -/
inductive ProcessLabel where
  | input (i : Input)
  | callback (tsMs : Int64) (src : Source) (accepted : Bool)
  | call (l : Label) (now : ℤ)

/-- The call ends the part of an iteration, or of the shutdown, in which there are inputs. -/
def Input.turns : Input → Bool
  | .event _ _ => false
  | _ => true

deriving instance DecidableEq for Emission

/-- The process dies. -/
def Label.crashes : Label → Bool
  | .crash => true
  | _ => false

/-- The step is not a crash. -/
def ProcessLabel.alive : ProcessLabel → Bool
  | .call l _ => !l.crashes
  | _ => true

/-- No process starts. -/
def ProcessLabel.goesOn : ProcessLabel → Bool
  | .call .start _ => false
  | _ => true

/-- The end of `main`, behind `flush_all`. -/
def Pc.over : Pc → Bool
  | .finalFlush | .destroy | .exited => true
  | _ => false

/-- Where an input can come: events and a tick in the loop, `flush_all` behind it. -/
def Pc.takes : Pc → Input → Bool
  | .events, .event _ _ => true
  | .events, .tick _ _ => true
  | .drain, .flushAll _ => true
  | _, _ => false

section Steps

variable (cfg : ProcessConfig)

/-- The pipeline of a process that starts. -/
def ProcessConfig.pipeline : Pipeline :=
  .init cfg.debounceQuietMs cfg.debounceMaxWaitMs cfg.watchPrefix

/-- No process runs, and the log holds complete records. -/
def Process.initial (records : List Record) : Process where
  main := .initial records
  pipe := cfg.pipeline
  todo := []
  turned := false
  kafkaSent := 0
  kafkaFailed := 0
  walReplayed := 0
  lastWalRetry := 0
  lastStats := 0
  printed := []

/-- When `main` makes the call.  It goes on behind `poll` to the retry exactly when the
interval has passed, and leaves the loop before the tick. -/
def Process.permits (s : Process) (now : ℤ) : Label → Bool
  | .callback _ _ _ => false
  | .proceed retry =>
    match s.main.pc with
    | .events | .drain => s.turned
    | .poll => retry == decide (now - s.lastWalRetry ≥ walRetryInterval)
    | _ => true
  | .stop => !s.turned
  | _ => true

/-- The timers are set when the replay at startup is over. -/
def Process.setTimers (s : Process) (now : ℤ) : Process :=
  { s with lastWalRetry := now, lastStats := now }

/-- What the statistics say now. -/
def Process.stats (s : Process) (now : ℤ) : ProcessStats where
  now := now
  kafkaSent := s.kafkaSent
  kafkaFailed := s.kafkaFailed
  walSize := s.main.wal.fileSize
  pending := s.pipe.debouncer.pending

/-- The timers at the end of an iteration: the statistics are printed, and the log is looked
at. -/
def Process.lookTimers (s : Process) (now : ℤ) : Process :=
  { s with
    lastStats := if now - s.lastStats ≥ statsInterval then now else s.lastStats
    printed := if now - s.lastStats ≥ statsInterval then s.printed ++ [s.stats now] else s.printed
    lastWalRetry := if now - s.lastWalRetry ≥ walRetryInterval then now else s.lastWalRetry }

/-- What a call of `main` does to its counters and timers. -/
def Process.book (s : Process) (now : ℤ) : Label → Process
  | .report _ ok => if ok then s else { s with kafkaFailed := s.kafkaFailed + 1 }
  | .resend accepted =>
    { s with
      walReplayed := s.walReplayed + 1
      kafkaFailed := if accepted then s.kafkaFailed else s.kafkaFailed + 1 }
  | .read =>
    match s.main.pc with
    | .read .startup => if s.main.logged = [] then s.setTimers now else s
    | _ => s
  | .proceed _ =>
    match s.main.pc with
    | .flush .startup => { s.setTimers now with turned := false }
    | .poll => { s.lookTimers now with turned := false }
    | _ => { s with turned := false }
  | .start =>
    { s with
      pipe := cfg.pipeline, todo := [], turned := false
      kafkaSent := 0, kafkaFailed := 0, walReplayed := 0 }
  | _ => s

def Process.step (s : Process) : ProcessLabel → Option Process
  | .input i =>
    if s.main.pc.takes i ∧ s.turned = false ∧ s.todo = [] then
      (s.pipe.step i).map fun pipe =>
        { s with
          pipe := pipe
          todo := pipe.emitted.drop s.pipe.emitted.length
          turned := i.turns }
    else none
  | .callback tsMs src accepted =>
    match s.todo with
    | [] => none
    | emission :: todo =>
      if src.emission = emission then
        (s.main.step cfg.toConfig (.callback tsMs src accepted)).map fun main =>
          { s with
            main := main
            todo := todo
            kafkaSent := if accepted then s.kafkaSent + 1 else s.kafkaSent
            kafkaFailed := if accepted then s.kafkaFailed else s.kafkaFailed + 1 }
      else none
  | .call l now =>
    if (s.todo = [] ∨ l.crashes) ∧ s.permits now l then
      (s.main.step cfg.toConfig l).map fun main => { s.book cfg now l with main := main }
    else none

end Steps

/-! ## What a step is to the two halves -/

variable {cfg : ProcessConfig}

/-- The calls of `main` in a step. -/
def ProcessLabel.mainCalls : ProcessLabel → List Label
  | .input _ => []
  | .callback tsMs src accepted => [.callback tsMs src accepted]
  | .call l _ => [l]

/-- The inputs of the pipeline in a step. -/
def ProcessLabel.inputs : ProcessLabel → List Input
  | .input i => [i]
  | _ => []

/-- What a step does.  A call of `main` comes between two calls of the pipeline, or is a
crash. -/
inductive Process.Moves (cfg : ProcessConfig) (s : Process) : ProcessLabel → Process → Prop where
  | input (i : Input) (pipe : Pipeline) (hpc : s.main.pc.takes i = true)
      (hturned : s.turned = false) (htodo : s.todo = []) (hpipe : s.pipe.step i = some pipe) :
      Moves cfg s (.input i) { s with
        pipe := pipe
        todo := pipe.emitted.drop s.pipe.emitted.length
        turned := i.turns }
  | callback (tsMs : Int64) (src : Source) (accepted : Bool) (todo : List Emission) (main : Main)
      (htodo : s.todo = src.emission :: todo)
      (hmain : s.main.step cfg.toConfig (.callback tsMs src accepted) = some main) :
      Moves cfg s (.callback tsMs src accepted) { s with
        main := main
        todo := todo
        kafkaSent := if accepted then s.kafkaSent + 1 else s.kafkaSent
        kafkaFailed := if accepted then s.kafkaFailed else s.kafkaFailed + 1 }
  | call (l : Label) (now : ℤ) (main : Main) (htodo : s.todo = [] ∨ l.crashes = true)
      (hpermits : s.permits now l = true) (hmain : s.main.step cfg.toConfig l = some main) :
      Moves cfg s (.call l now) { s.book cfg now l with main := main }

/-- **The inversion of a step.** -/
theorem Process.moves_of_step {s t : Process} {l : ProcessLabel} (h : s.step cfg l = some t) :
    s.Moves cfg l t := by
  cases l with
  | input i =>
    simp only [Process.step] at h
    split_ifs at h with hready
    obtain ⟨pipe, hpipe, rfl⟩ := Option.map_eq_some_iff.mp h
    exact .input i pipe hready.1 hready.2.1 hready.2.2 hpipe
  | callback tsMs src accepted =>
    simp only [Process.step] at h
    split at h
    · cases h
    · rename_i emission todo htodo
      by_cases hemission : src.emission = emission
      · rw [if_pos hemission] at h
        obtain ⟨main, hmain, rfl⟩ := Option.map_eq_some_iff.mp h
        exact .callback tsMs src accepted todo main (hemission ▸ htodo) hmain
      · rw [if_neg hemission] at h
        cases h
  | call l now =>
    simp only [Process.step] at h
    split_ifs at h with hready
    obtain ⟨main, hmain, rfl⟩ := Option.map_eq_some_iff.mp h
    exact .call l now main hready.1 hready.2 hmain

theorem onFail_pc (cfg : Config) (s : Main) (json : Bytes) :
    (s.onFail cfg json).pc = s.pc ∧ (s.onFail cfg json).sent = s.sent := by
  unfold Main.onFail
  split_ifs <;> exact ⟨rfl, rfl⟩

theorem send_pc (cfg : Config) (s : Main) (json : Bytes) (accepted : Bool) :
    (s.send cfg json accepted).pc = s.pc ∧ (s.send cfg json accepted).sent = s.sent := by
  unfold Main.send
  split_ifs
  · exact ⟨rfl, rfl⟩
  · exact onFail_pc cfg s json

theorem report_pc (cfg : Config) (s : Main) (json : Bytes) (ok : Bool) :
    (s.report cfg json ok).pc = s.pc ∧ (s.report cfg json ok).sent = s.sent := by
  unfold Main.report
  split_ifs
  · exact ⟨rfl, rfl⟩
  · exact onFail_pc cfg { s with queue := s.queue.erase json } json

/-- A callback leaves `main` where it is and sends its message. -/
theorem callback_pc {s t : Main} {tsMs : Int64} {src : Source} {accepted : Bool}
    (h : s.step cfg.toConfig (.callback tsMs src accepted) = some t) :
    s.pc.calls = true ∧ t.pc = s.pc ∧ t.sent = src.json cfg.toConfig tsMs ::ₘ s.sent := by
  simp only [Main.step] at h
  split_ifs at h with hpc
  obtain rfl := Option.some.inj h
  exact ⟨hpc, send_pc _ _ _ _⟩

/-- The process is a run of `Agent.Main`. -/
theorem mainSimulation (cfg : ProcessConfig) : Simulation (Process.step cfg)
    (Main.step cfg.toConfig) (fun _ _ => True) (fun _ _ => True) (fun s a => a = s.main)
    ProcessLabel.mainCalls (fun l => [l]) where
  matched := by
    rintro s l t _ rfl hstep -
    cases Process.moves_of_step hstep with
    | input i pipe => exact ⟨[], s.main, rfl, trivial, rfl, rfl⟩
    | callback tsMs src accepted todo main _ hmain =>
      exact ⟨[.callback tsMs src accepted], main, by simp [exec_cons, hmain],
        guarded_true _ _, rfl, rfl⟩
    | call l now main _ _ hmain =>
      exact ⟨[l], main, by simp [exec_cons, hmain], guarded_true _ _, rfl, rfl⟩

/-- What the process does to its counters and timers leaves the pipeline alone. -/
theorem Process.book_eq {s : Process} {l : Label} (hstart : l ≠ .start) (now : ℤ) :
    (s.book cfg now l).pipe = s.pipe ∧ (s.book cfg now l).todo = s.todo := by
  unfold Process.book
  cases l with
  | start => exact absurd rfl hstart
  | report json ok => cases ok <;> exact ⟨rfl, rfl⟩
  | read =>
    simp only
    split
    · split_ifs <;> exact ⟨rfl, rfl⟩
    · exact ⟨rfl, rfl⟩
  | proceed retry =>
    simp only
    split <;> exact ⟨rfl, rfl⟩
  | _ => exact ⟨rfl, rfl⟩

/-- No process starts. -/
def NoStart (_ : Process) (l : ProcessLabel) : Prop := ∀ now, l ≠ .call .start now

/-- While it lives, it is a run of `Agent.Pipeline`. -/
theorem pipelineSimulation (cfg : ProcessConfig) : Simulation (Process.step cfg) Pipeline.step
    NoStart (fun _ _ => True) (fun s a => a = s.pipe) ProcessLabel.inputs (fun i => [i]) where
  matched := by
    rintro s l t _ rfl hstep hstart
    cases Process.moves_of_step hstep with
    | input i pipe _ _ _ hpipe =>
      exact ⟨[i], pipe, by simp [exec_cons, hpipe], guarded_true _ _, rfl, rfl⟩
    | callback tsMs src accepted todo main => exact ⟨[], s.pipe, rfl, trivial, rfl, rfl⟩
    | call l now main =>
      have hl : l ≠ .start := fun hl => hstart now (congrArg (ProcessLabel.call · now) hl)
      exact ⟨[], s.pipe, rfl, trivial, (Process.book_eq hl now).1.symm, rfl⟩

def oneNodeProcess : ProcessConfig := ⟨oneNode, 10000, 3600000, ascii "/home"⟩

end Agent
end FileTracker
