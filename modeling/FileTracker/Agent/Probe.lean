import FileTracker.Agent.Common
import Mathlib.Data.List.TakeWhile

/-!
# The probes

`src/bpf/probe.bpf.c`: `emit_event`, which walks from a file towards the root and
copies the names it meets into a record, and the probes that call it.

The probes sit at the *entry* of the kernel's functions, so a call is reported
before its outcome is known.  `VfsCall` carries the outcome, and `records` does
not look at it.
-/

namespace FileTracker
namespace Agent

/-- A name of a directory entry. -/
structure FileName where
  bytes : Bytes
  ne_nil : bytes ≠ []
  length_lt : bytes.length < MAX_NAME_LEN
  noNul : 0 ∉ bytes
  noSlash : slash ∉ bytes

/-- A file, as the names from its own up to the child of the root. -/
abbrev Dentry := List FileName

def Dentry.names (d : Dentry) : List Bytes := d.map FileName.bytes

/-- The absolute path of a file that is not the root. -/
def Dentry.path (d : Dentry) : Bytes := joinNames d.names

/-- `bpf_probe_read_kernel_str` into one of the names of a record. -/
def readKernelStr (name : Bytes) : Bytes :=
  (name.takeWhile (· != 0)).take (MAX_NAME_LEN - 1)

/-- The loop of `emit_event`, with `n` rounds to go.  The names end at the root, which
is its own parent. -/
def walk : ℕ → List Bytes → List Bytes
  | 0, _ => []
  | _ + 1, [] => []
  | n + 1, name :: parents =>
    if name.length = 0 then [] else readKernelStr name :: walk n parents

theorem length_walk_le (n : ℕ) (names : List Bytes) : (walk n names).length ≤ n := by
  induction n generalizing names with
  | zero => simp [walk]
  | succ n ih =>
    cases names with
    | nil => simp [walk]
    | cons name parents =>
      unfold walk
      split_ifs
      · simp
      · simpa using ih parents

theorem length_lt_of_mem_walk {n : ℕ} {names : List Bytes} {name : Bytes}
    (h : name ∈ walk n names) : name.length < MAX_NAME_LEN := by
  induction n generalizing names with
  | zero => simp [walk] at h
  | succ n ih =>
    cases names with
    | nil => simp [walk] at h
    | cons first parents =>
      unfold walk at h
      split_ifs at h
      · simp at h
      · rcases List.mem_cons.mp h with rfl | h
        · exact Nat.lt_of_le_of_lt (List.length_take_le _ _) (by decide)
        · exact ih h

/-- The names of the record. -/
def recordNames (names : List Bytes) : NameArray :=
  ⟨walk MAX_DEPTH names, length_walk_le _ _, fun _ h => length_lt_of_mem_walk h⟩

/-- `emit_event`: the record it puts into the ring buffer, if any. -/
def emitEvent (dentry : Dentry) (eventType : EventType) : Option FileEvent :=
  let evt : FileEvent := ⟨recordNames dentry.names, eventType⟩
  if evt.names = [] then none else some evt

/-- `trace_vfs_unlink`. -/
def traceVfsUnlink (dentry : Dentry) : List FileEvent := (emitEvent dentry .delete).toList

/-- `trace_vfs_write`, with what `dedup_check` returns. -/
def traceVfsWrite (dedup : Bool) (dentry : Dentry) : List FileEvent :=
  if dedup then [] else (emitEvent dentry .mtime).toList

/-- `trace_do_truncate`, likewise. -/
def traceDoTruncate (dedup : Bool) (dentry : Dentry) : List FileEvent :=
  if dedup then [] else (emitEvent dentry .mtime).toList

/-- `trace_vfs_rename`. -/
def traceVfsRename (oldDentry newDentry : Dentry) : List FileEvent :=
  (emitEvent oldDentry .renameFrom).toList ++ (emitEvent newDentry .renameTo).toList

/-- An operation of the virtual file system. -/
inductive VfsOp where
  | write (file : Dentry)
  | unlink (file : Dentry)
  | rename (old new : Dentry)

/-- A call of the kernel's function, and its outcome. -/
structure VfsCall where
  op : VfsOp
  succeeds : Bool

/-- What the probes report, with nothing suppressed as a duplicate. -/
def VfsCall.records (c : VfsCall) : List FileEvent :=
  match c.op with
  | .write file => traceVfsWrite false file
  | .unlink file => traceVfsUnlink file
  | .rename old new => traceVfsRename old new

/-- The files an operation names. -/
def VfsOp.files : VfsOp → List Dentry
  | .write file => [file]
  | .unlink file => [file]
  | .rename old new => [old, new]

/-- The file is not the root, and not deeper than a record can say. -/
def Dentry.Shallow (d : Dentry) : Prop := d ≠ [] ∧ d.length ≤ MAX_DEPTH

/-! ## What a record says -/

theorem Dentry.path_ne_nil {d : Dentry} (h : d ≠ []) : d.path ≠ [] := by
  obtain ⟨name, names, rfl⟩ := List.exists_cons_of_ne_nil h
  simp [Dentry.path, Dentry.names, joinNames]

theorem readKernelStr_bytes (name : FileName) : readKernelStr name.bytes = name.bytes := by
  have hnul : name.bytes.takeWhile (· != 0) = name.bytes := by
    rw [List.takeWhile_eq_self_iff]
    intro b hb
    have hne : b ≠ 0 := fun h => name.noNul (h ▸ hb)
    simpa using hne
  rw [readKernelStr, hnul]
  exact List.take_of_length_le (Nat.le_sub_one_of_lt name.length_lt)

theorem walk_names {n : ℕ} {d : Dentry} (h : d.length ≤ n) : walk n d.names = d.names := by
  induction d generalizing n with
  | nil => cases n <;> rfl
  | cons name d ih =>
    cases n with
    | zero => simp at h
    | succ n =>
      have hlen : ¬ name.bytes.length = 0 := fun h0 => name.ne_nil (List.length_eq_zero_iff.mp h0)
      show (if name.bytes.length = 0 then [] else readKernelStr name.bytes :: walk n (Dentry.names d)) =
        name.bytes :: Dentry.names d
      rw [if_neg hlen, readKernelStr_bytes, ih (by simpa using h)]

/-- **The record of a file that is not too deep** spells its path. -/
theorem emitEvent_eq {d : Dentry} (h : d.Shallow) (eventType : EventType) :
    ∃ evt, emitEvent d eventType = some evt ∧ evt.eventType = eventType ∧
      buildPath evt = d.path := by
  obtain ⟨hne, hlen⟩ := h
  have hwalk : walk MAX_DEPTH d.names = d.names := walk_names hlen
  have hnames : d.names ≠ [] := by simpa [Dentry.names] using hne
  refine ⟨⟨recordNames d.names, eventType⟩, if_neg ?_, rfl, ?_⟩
  · simpa [recordNames, hwalk] using hnames
  · have hpath : joinNames (walk MAX_DEPTH d.names) ≠ [] := by
      rw [hwalk, joinNames]
      obtain ⟨n, ns, hns⟩ := List.exists_cons_of_ne_nil hnames
      simp [hns]
    show (if joinNames (walk MAX_DEPTH d.names) = [] then [slash]
      else joinNames (walk MAX_DEPTH d.names)) = d.path
    rw [if_neg hpath, hwalk]
    rfl

end Agent
end FileTracker
