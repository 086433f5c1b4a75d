import FileTracker.Library.Runs
import FileTracker.Agent.Probe
import FileTracker.Agent.Debouncer
import FileTracker.Agent.EventHandler
import FileTracker.Agent.Message

/-!
# From the ring buffer to the messages

`main` of `src/main.cpp` wires the three together: `handle_event` calls the
debouncer or `on_rename`, and the debouncer calls `send_event`.  A `Pipeline` is
their joint state with what has been emitted so far, and an input is an event of
the ring buffer, a tick, or the flush at shutdown.

`exec_invariant` is the rule for its runs.  What the callback does with the
events depends on the events alone, wherever the ticks come; so an invariant has
to be checked for the calls that `handleEvents` lists, and for ticks and flushes.
-/

namespace FileTracker
namespace Agent

open Runs

/-- `send_event`. -/
def sendEvent : Callback → Emission
  | (path, .delete) => .delete path
  | (path, _) => .mtimeChange path

/-- The state behind the ring buffer. -/
structure Pipeline where
  ectx : EventCtx
  debouncer : Debouncer
  emitted : List Emission

def Pipeline.init (quietPeriod maxWait : ℤ) (watchPrefix : Bytes) : Pipeline :=
  ⟨.init watchPrefix, .init quietPeriod maxWait, []⟩

/-- An operation of the debouncer, with its callbacks' messages emitted. -/
def Pipeline.fire (s : Pipeline) (r : Debouncer × List Callback) : Pipeline :=
  { s with debouncer := r.1, emitted := s.emitted ++ r.2.map sendEvent }

/-- A call that `handle_event` makes. -/
def Pipeline.call (now : ℤ) (s : Pipeline) : HandlerCall → Pipeline
  | .onRename oldPath newPath => { s with emitted := s.emitted ++ [.rename oldPath newPath] }
  | .onEvent path eventType => s.fire (s.debouncer.onEvent now path eventType)

/-- An event, a tick, or the flush at shutdown, with the clock and the order of the
entries. -/
inductive Input where
  | event (evt : FileEvent) (now : ℤ)
  | tick (now : ℤ) (order : List Bytes)
  | flushAll (order : List Bytes)

/-- The clock reading of an input. -/
def Input.time : Input → Option ℤ
  | .event _ now => some now
  | .tick now _ => some now
  | .flushAll _ => none

/-- The calls that the callback makes for an input. -/
def Pipeline.calls (s : Pipeline) : Input → List HandlerCall
  | .event evt _ => (handleEvent s.ectx evt).2
  | _ => []

def Pipeline.step (s : Pipeline) : Input → Option Pipeline
  | .event evt now =>
    let (ectx, calls) := handleEvent s.ectx evt
    some (calls.foldl (Pipeline.call now) { s with ectx := ectx })
  | .tick now order =>
    if s.debouncer.Iterates order then some (s.fire (s.debouncer.tick now order)) else none
  | .flushAll order =>
    if s.debouncer.Iterates order then some (s.fire (s.debouncer.flushAll order)) else none

/-- The events among the inputs. -/
def events (inputs : List Input) : List FileEvent :=
  inputs.filterMap fun i =>
    match i with
    | .event evt _ => some evt
    | _ => none

theorem eq_of_step_event {s t : Pipeline} {evt : FileEvent} {now : ℤ}
    (h : s.step (.event evt now) = some t) :
    t = (handleEvent s.ectx evt).2.foldl (Pipeline.call now)
      { s with ectx := (handleEvent s.ectx evt).1 } :=
  (Option.some.inj h).symm

theorem foldl_call_ectx (now : ℤ) (calls : List HandlerCall) (s : Pipeline) :
    (calls.foldl (Pipeline.call now) s).ectx = s.ectx := by
  induction calls generalizing s with
  | nil => rfl
  | cons c calls ih =>
    rw [List.foldl_cons, ih]
    cases c <;> rfl

/-- The watched prefix stays what it is. -/
theorem watchPrefix_of_exec {s t : Pipeline} {inputs : List Input}
    (h : exec Pipeline.step s inputs = some t) :
    t.ectx.watchPrefix = s.ectx.watchPrefix := by
  refine exec_invariant (P := fun u => u.ectx.watchPrefix = s.ectx.watchPrefix)
    (fun u v i _ hu hstep => ?_) rfl h
  cases i with
  | event evt now =>
    obtain rfl := Option.some.inj hstep
    rw [foldl_call_ectx]
    exact (handleEvent_watchPrefix _ _).trans hu
  | tick now order =>
    simp only [Pipeline.step] at hstep
    split_ifs at hstep
    exact Option.some.inj hstep ▸ hu
  | flushAll order =>
    simp only [Pipeline.step] at hstep
    split_ifs at hstep
    exact Option.some.inj hstep ▸ hu

theorem foldl_call_invariant {P : Pipeline → Prop} (now : ℤ) {calls : List HandlerCall}
    (hcall : ∀ c ∈ calls, ∀ s, P s → P (s.call now c)) {s : Pipeline} (hs : P s) :
    P (calls.foldl (Pipeline.call now) s) := by
  induction calls generalizing s with
  | nil => exact hs
  | cons c calls ih =>
    exact ih (fun d hd => hcall d (List.mem_cons_of_mem _ hd)) (hcall c List.mem_cons_self s hs)

/-- **The rule for runs**: an invariant of the debouncer and the emitted messages
that is preserved by the calls of the callback, and by ticks and flushes as operations
that hand entries over. -/
theorem Pipeline.exec_invariant {P : Pipeline → Prop} {calls : List HandlerCall}
    (hectx : ∀ s ectx, P s → P { s with ectx := ectx })
    (hcall : ∀ c ∈ calls, ∀ s now, P s → P (s.call now c))
    (hfire : ∀ s r, s.debouncer.HandsOver r → P s → P (s.fire r))
    {s t : Pipeline} {inputs : List Input} (hcalls : handleEvents s.ectx (events inputs) = calls)
    (hs : P s) (hrun : exec Pipeline.step s inputs = some t) : P t := by
  induction inputs generalizing s calls with
  | nil => rwa [← Option.some.inj hrun]
  | cons i inputs ih =>
    rw [exec_cons] at hrun
    obtain ⟨u, hu, hrun⟩ := Option.bind_eq_some_iff.mp hrun
    cases i with
    | event evt now =>
      obtain rfl := Option.some.inj hu
      have hsplit : (handleEvent s.ectx evt).2 ++
          handleEvents (handleEvent s.ectx evt).1 (events inputs) = calls := hcalls
      refine ih (fun c hc => hcall c ?_) (by rw [foldl_call_ectx]) ?_ hrun
      · rw [← hsplit]
        exact List.mem_append_right _ hc
      · refine foldl_call_invariant now (fun c hc v hv => hcall c ?_ v now hv) (hectx s _ hs)
        rw [← hsplit]
        exact List.mem_append_left _ hc
    | tick now order =>
      simp only [Pipeline.step] at hu
      split_ifs at hu with horder
      obtain rfl := Option.some.inj hu
      exact ih (s := s.fire _) hcall hcalls (hfire s _ (Debouncer.handsOver_tick horder) hs) hrun
    | flushAll order =>
      simp only [Pipeline.step] at hu
      split_ifs at hu with horder
      obtain rfl := Option.some.inj hu
      exact ih (s := s.fire _) hcall hcalls (hfire s _ (Debouncer.handsOver_flushAll horder) hs) hrun

/-! ## What the callback makes of the kernel's calls -/

/-- The calls of the callback for a kernel call, all of whose events are there. -/
def VfsOp.handlerCalls (watchPrefix : Bytes) : VfsOp → List HandlerCall
  | .write file =>
    if matchesPrefix watchPrefix file.path then [.onEvent file.path .mtime] else []
  | .unlink file =>
    if matchesPrefix watchPrefix file.path then [.onEvent file.path .delete] else []
  | .rename old new =>
    if matchesPrefix watchPrefix old.path || matchesPrefix watchPrefix new.path then
      [.onRename old.path new.path]
    else []

/-- **The callback on whole kernel calls**: from an empty slot, each is handled on
its own. -/
theorem handleEvents_records {calls : List VfsCall}
    (hshallow : ∀ c ∈ calls, ∀ file ∈ c.op.files, file.Shallow) {ectx : EventCtx}
    (hslot : ectx.hasPendingRename = false) :
    handleEvents ectx (calls.flatMap VfsCall.records) =
      calls.flatMap fun c => c.op.handlerCalls ectx.watchPrefix := by
  induction calls generalizing ectx with
  | nil => rfl
  | cons c calls ih =>
    have hrest := fun k hk => hshallow k (List.mem_cons_of_mem c hk)
    have hc := hshallow c List.mem_cons_self
    obtain ⟨op, succeeds⟩ := c
    rw [List.flatMap_cons, List.flatMap_cons]
    cases op with
    | write file =>
      obtain ⟨evt, hevt, htype, hpath⟩ := emitEvent_eq (hc file (by simp [VfsOp.files])) .mtime
      have hrec : VfsCall.records ⟨.write file, succeeds⟩ = [evt] := by
        simp [VfsCall.records, traceVfsWrite, hevt]
      rw [hrec, List.singleton_append, handleEvents_single (Or.inl htype), hpath, htype]
      exact congrArg _ (ih hrest rfl)
    | unlink file =>
      obtain ⟨evt, hevt, htype, hpath⟩ := emitEvent_eq (hc file (by simp [VfsOp.files])) .delete
      have hrec : VfsCall.records ⟨.unlink file, succeeds⟩ = [evt] := by
        simp [VfsCall.records, traceVfsUnlink, hevt]
      rw [hrec, List.singleton_append, handleEvents_single (Or.inr htype), hpath, htype]
      exact congrArg _ (ih hrest rfl)
    | rename old new =>
      obtain ⟨evt₁, hevt₁, htype₁, hpath₁⟩ :=
        emitEvent_eq (hc old (by simp [VfsOp.files])) .renameFrom
      obtain ⟨evt₂, hevt₂, htype₂, hpath₂⟩ :=
        emitEvent_eq (hc new (by simp [VfsOp.files])) .renameTo
      have hrec : VfsCall.records ⟨.rename old new, succeeds⟩ = [evt₁, evt₂] := by
        simp [VfsCall.records, traceVfsRename, hevt₁, hevt₂]
      rw [hrec, List.cons_append, List.singleton_append, handleEvents_rename htype₁ htype₂, hpath₁,
        hpath₂]
      exact congrArg _ (ih hrest rfl)

end Agent
end FileTracker
