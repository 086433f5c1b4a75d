import FileTracker.Agent.Common

/-!
# The ring-buffer callback

`handle_event` of `src/main.cpp`: deletes and mtime changes under the watched
prefix go to the debouncer, and a rename comes as two events that have to be
paired.  The first of them is kept in a slot of the context, and any other event
clears it.
-/

namespace FileTracker
namespace Agent

/-- `EventCtx`: the watched prefix and the slot of the rename pairing. -/
structure EventCtx where
  watchPrefix : Bytes
  pendingRenameFrom : Bytes
  hasPendingRename : Bool

/-- The context `main` sets up. -/
def EventCtx.init (watchPrefix : Bytes) : EventCtx := ⟨watchPrefix, [], false⟩

/-- What the callback calls: `on_rename`, or `on_event` of the debouncer. -/
inductive HandlerCall where
  | onRename (oldPath newPath : Bytes)
  | onEvent (path : Bytes) (eventType : EventType)
  deriving DecidableEq

/-- `path.compare(0, watch_prefix.size(), watch_prefix) == 0`. -/
def matchesPrefix (watchPrefix path : Bytes) : Bool := path.take watchPrefix.length == watchPrefix

/-- `handle_event`. -/
def handleEvent (ectx : EventCtx) (evt : FileEvent) : EventCtx × List HandlerCall :=
  let path := buildPath evt
  match evt.eventType with
  | .renameFrom => ({ ectx with pendingRenameFrom := path, hasPendingRename := true }, [])
  | .renameTo =>
    if ectx.hasPendingRename then
      let oldMatch := matchesPrefix ectx.watchPrefix ectx.pendingRenameFrom
      let newMatch := matchesPrefix ectx.watchPrefix path
      ({ ectx with hasPendingRename := false },
        if oldMatch || newMatch then [.onRename ectx.pendingRenameFrom path] else [])
    else (ectx, [])
  | eventType =>
    ({ ectx with hasPendingRename := false },
      if matchesPrefix ectx.watchPrefix path then [.onEvent path eventType] else [])

/-- The calls for a ring-buffer content, in order. -/
def handleEvents : EventCtx → List FileEvent → List HandlerCall
  | _, [] => []
  | ectx, evt :: evts =>
    let r := handleEvent ectx evt
    r.2 ++ handleEvents r.1 evts

/-! ## What it does with an event -/

theorem handleEvent_watchPrefix (ectx : EventCtx) (evt : FileEvent) :
    (handleEvent ectx evt).1.watchPrefix = ectx.watchPrefix := by
  unfold handleEvent
  cases evt.eventType with
  | renameTo => simp only; split_ifs <;> rfl
  | _ => rfl

/-- The callback makes one call for an event, or none. -/
theorem handleEvent_calls (ectx : EventCtx) (evt : FileEvent) :
    (handleEvent ectx evt).2 = [] ∨ ∃ c, (handleEvent ectx evt).2 = [c] := by
  unfold handleEvent
  cases evt.eventType with
  | renameFrom => exact Or.inl rfl
  | renameTo =>
    simp only
    split_ifs
    · exact Or.inr ⟨_, rfl⟩
    · exact Or.inl rfl
    · exact Or.inl rfl
  | _ =>
    simp only
    split_ifs
    · exact Or.inr ⟨_, rfl⟩
    · exact Or.inl rfl

/-- A file event of its own: the callback empties the slot. -/
theorem handleEvent_single {ectx : EventCtx} {evt : FileEvent}
    (h : evt.eventType = .mtime ∨ evt.eventType = .delete) :
    handleEvent ectx evt = ({ ectx with hasPendingRename := false },
      if matchesPrefix ectx.watchPrefix (buildPath evt) then
        [.onEvent (buildPath evt) evt.eventType] else []) := by
  unfold handleEvent
  rcases h with h | h <;> simp only [h]

theorem handleEvents_single {ectx : EventCtx} {evt : FileEvent}
    (h : evt.eventType = .mtime ∨ evt.eventType = .delete) (evts : List FileEvent) :
    handleEvents ectx (evt :: evts) =
      (if matchesPrefix ectx.watchPrefix (buildPath evt) then
        [.onEvent (buildPath evt) evt.eventType] else []) ++
      handleEvents { ectx with hasPendingRename := false } evts := by
  rw [handleEvents, handleEvent_single h]

/-- The two events of a rename, one after the other: they are paired, whatever is in the
slot before. -/
theorem handleEvents_rename {ectx : EventCtx} {e t : FileEvent} (he : e.eventType = .renameFrom)
    (ht : t.eventType = .renameTo) (evts : List FileEvent) :
    handleEvents ectx (e :: t :: evts) =
      (if matchesPrefix ectx.watchPrefix (buildPath e) ||
          matchesPrefix ectx.watchPrefix (buildPath t) then
        [.onRename (buildPath e) (buildPath t)] else []) ++
      handleEvents { ectx with pendingRenameFrom := buildPath e, hasPendingRename := false }
        evts := by
  have hfirst : handleEvent ectx e =
      ({ ectx with pendingRenameFrom := buildPath e, hasPendingRename := true }, []) := by
    simp [handleEvent, he]
  simp only [handleEvents, hfirst, List.nil_append]
  simp only [handleEvent, ht, if_true]

end Agent
end FileTracker
