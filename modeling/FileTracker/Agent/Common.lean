import FileTracker.Library.LittleEndian

/-!
# Kernel events

`include/common.h`: the record the probes put into the ring buffer, and the path
user space puts together from it.  The bounds of the C array are fields of
`NameArray`: no more than `MAX_DEPTH` names, each a C string in `MAX_NAME_LEN`
bytes with its terminator.
-/

namespace FileTracker
namespace Agent

/-- `MAX_DEPTH`. -/
def MAX_DEPTH : ℕ := 20

/-- `MAX_NAME_LEN`. -/
def MAX_NAME_LEN : ℕ := 256

/-- The event types `EVENT_DELETE`, `EVENT_MTIME`, `EVENT_RENAME_FROM` and
`EVENT_RENAME_TO`. -/
inductive EventType where
  | delete
  | mtime
  | renameFrom
  | renameTo
  deriving DecidableEq, Repr

/-- The first `depth` entries of the array `names`, leaf first. -/
structure NameArray where
  names : List Bytes
  depth_le : names.length ≤ MAX_DEPTH
  name_lt : ∀ n ∈ names, n.length < MAX_NAME_LEN

/-- `struct file_event`. -/
structure FileEvent extends NameArray where
  eventType : EventType

/-- The byte `/`. -/
def slash : UInt8 := 0x2F

/-- The loop of `build_path` over names stored leaf first. -/
def joinNames (names : List Bytes) : Bytes := names.reverse.flatMap fun n => slash :: n

/-- `build_path`. -/
def buildPath (evt : FileEvent) : Bytes :=
  if joinNames evt.names = [] then [slash] else joinNames evt.names

/-- The longest path a record can spell. -/
def maxPath : ℕ := MAX_DEPTH * MAX_NAME_LEN

theorem buildPath_ne_nil (evt : FileEvent) : buildPath evt ≠ [] := by
  unfold buildPath
  split_ifs with h
  · simp
  · exact h

theorem length_flatMap_slash_le {names : List Bytes} (h : ∀ n ∈ names, n.length < MAX_NAME_LEN) :
    (names.flatMap fun n => slash :: n).length ≤ names.length * MAX_NAME_LEN := by
  induction names with
  | nil => simp
  | cons n ns ih =>
    have hn := h n List.mem_cons_self
    have hns := ih fun k hk => h k (List.mem_cons_of_mem _ hk)
    rw [List.flatMap_cons, List.length_append, List.length_cons, List.length_cons, Nat.succ_mul]
    omega

theorem length_joinNames_le {names : List Bytes} (h : ∀ n ∈ names, n.length < MAX_NAME_LEN) :
    (joinNames names).length ≤ names.length * MAX_NAME_LEN := by
  rw [joinNames, ← @List.length_reverse _ names]
  exact length_flatMap_slash_le fun n hn => h n (List.mem_reverse.mp hn)

theorem length_buildPath_le (evt : FileEvent) : (buildPath evt).length ≤ maxPath := by
  unfold buildPath
  split_ifs
  · decide
  · exact (length_joinNames_le evt.name_lt).trans (Nat.mul_le_mul_right _ evt.depth_le)

end Agent
end FileTracker
