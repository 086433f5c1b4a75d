import FileTracker.Consumer.EventProcessor

/-!
# Calls on the processor and a healthy Redis

A `Session` is an `EventProcessor` together with the `pending` hash, and a
sequence of calls parses message values and flushes at arbitrary places.  Run in
order, the commands of a sequence of messages leave in the hash what they set and
no later one clears (`mem_run_commandsOf`).
-/

namespace FileTracker
namespace Consumer

open LastWriter

/-- The processor and the hash it writes to. -/
structure Session where
  processor : EventProcessor
  pending : Hash

/-- A call: parse a message value, or flush. -/
inductive Call where
  | parse (v : Option Bytes)
  | flush

section Run

variable (floatRepr : Text → Text)

/-- One call, on a healthy Redis. -/
def Session.call (s : Session) : Call → Except PyError Session
  | .parse v =>
    match s.processor.parseEvent v with
    | .ok q => .ok { s with processor := q }
    | .error e => .error e
  | .flush =>
    let r := s.processor.flushBatch floatRepr .ok s.pending
    match r.outcome with
    | .ok _ => .ok ⟨r.processor, r.pending⟩
    | .error e => .error e

/-- The calls in order, up to the first exception that escapes. -/
def Session.runCalls : Session → List Call → Except PyError Session
  | s, [] => .ok s
  | s, c :: cs =>
    match s.call floatRepr c with
    | .ok t => t.runCalls cs
    | .error e => .error e

end Run

/-- The message values parsed, in order. -/
def parsed : List Call → List (Option Bytes)
  | [] => []
  | .parse v :: cs => v :: parsed cs
  | .flush :: cs => parsed cs

/-- Values that carry the given messages, all of them encodable. -/
def Carry (vs : List (Option Bytes)) (ms : List AgentMsg) : Prop :=
  List.Forall₂ (fun v m => wellFormed v = some m ∧ m.Encodable) vs ms

/-- The commands of the messages in order. -/
def commandsOf (ms : List AgentMsg) : List HashCmd := ms.flatMap AgentMsg.commands

/-! ## What a message does to a field -/

/-- The message leaves the field in the hash. -/
def AgentMsg.Sets (field : Text) : AgentMsg → Prop
  | .delete => False
  | .mtimeChange path => path = field
  | .rename _ newPath => newPath = field

/-- The message takes the field out of the hash. -/
def AgentMsg.Clears (field : Text) : AgentMsg → Prop
  | .delete => False
  | .mtimeChange _ => False
  | .rename oldPath newPath => oldPath = field ∧ newPath ≠ field

theorem mem_run_commands (pending : Hash) (m : AgentMsg) (field : Text) :
    field ∈ run pending m.commands ↔ m.Sets field ∨ (field ∈ pending ∧ ¬ m.Clears field) := by
  cases m with
  | delete => simp [AgentMsg.commands, AgentMsg.Sets, AgentMsg.Clears]
  | mtimeChange path =>
    simp [AgentMsg.commands, AgentMsg.Sets, AgentMsg.Clears, Cmd.apply, Finmap.mem_insert,
      eq_comm]
  | rename oldPath newPath =>
    simp only [AgentMsg.commands, AgentMsg.Sets, AgentMsg.Clears, run_cons, run_nil, Cmd.apply,
      Finmap.mem_insert, Finmap.mem_erase, eq_comm (a := field)]
    tauto

/-- **When a field is in the hash after a sequence of messages.** -/
theorem mem_run_commandsOf (pending : Hash) (ms : List AgentMsg) (field : Text) :
    field ∈ run pending (commandsOf ms) ↔
      (∃ pre m post, ms = pre ++ m :: post ∧ m.Sets field ∧ ∀ k ∈ post, ¬ k.Clears field) ∨
        (field ∈ pending ∧ ∀ k ∈ ms, ¬ k.Clears field) := by
  have hfold : run pending (commandsOf ms) =
      ms.foldl (fun h m => run h m.commands) pending := by
    rw [run, commandsOf, List.foldl_flatMap]
    rfl
  rw [hfold]
  exact survives_foldl_iff (fun h => field ∈ h) (fun h m => mem_run_commands h m field) pending ms

end Consumer
end FileTracker
