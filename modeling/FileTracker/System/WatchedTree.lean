import FileTracker.Agent.RenamePairing
import FileTracker.Backup.Repo

/-!
# The tree that is watched and the tree that is backed up

`handle_event` compares the first characters of a path with `watch_prefix`; `get_repo_id`
compares them with `base_path` and a slash behind it.  With one string for both, the agent
watches every path that lies in the tree, and besides these the paths of its *neighbours*,
whose names go on where the name of the tree ends.

So the two agree on a stream of events exactly when the agent is told of no neighbour, or of
a rename of one only if the other path of the rename is in the tree (`agrees_iff_clear`).
-/

namespace FileTracker
namespace System

open Agent Utf8

/-- One string as `watch_prefix` of the agent and as `base_path` of the backup. -/
structure WatchedTree where
  watchPrefix : Bytes
  basePath : Text
  same : decode watchPrefix = some basePath
  noSlash : watchPrefix.getLast? ≠ some slash

namespace WatchedTree

variable (w : WatchedTree)

/-- The path is the tree's own, or starts with it and a slash. -/
def Holds (path : Bytes) : Prop := path = w.watchPrefix ∨ w.watchPrefix ++ [slash] <+: path

instance (path : Bytes) : Decidable (w.Holds path) := inferInstanceAs (Decidable (_ ∨ _))

/-- The path goes on behind the tree's own, but not with a slash. -/
def Beside (path : Bytes) : Prop :=
  ∃ c rest, path = w.watchPrefix ++ c :: rest ∧ c ≠ slash

/-- The calls that are asked for: an event of a path in the tree, and a rename with at least
one of its paths there. -/
def calls : CpuOp → List HandlerCall
  | .mtime file =>
    let path := buildPath ⟨file, .mtime⟩
    if w.Holds path then [.onEvent path .mtime] else []
  | .delete file =>
    let path := buildPath ⟨file, .delete⟩
    if w.Holds path then [.onEvent path .delete] else []
  | .rename old new =>
    let oldPath := buildPath ⟨old, .renameFrom⟩
    let newPath := buildPath ⟨new, .renameTo⟩
    if w.Holds oldPath ∨ w.Holds newPath then [.onRename oldPath newPath] else []

/-- What the callback makes of a stream. -/
def handled (ops : List CpuOp) : List HandlerCall :=
  handleEvents (.init w.watchPrefix) (ops.flatMap CpuOp.events)

/-- **Agent and backup agree**: the callback makes the calls that are asked for, and every
path of an mtime event other than the tree's own passes the test of `get_repo_id`, in the
form in which it comes to the backup. -/
structure Agrees (ops : List CpuOp) : Prop where
  handled_eq : w.handled ops = ops.flatMap w.calls
  inBase : ∀ path, .onEvent path .mtime ∈ w.handled ops → path ≠ w.watchPrefix →
    ∀ t, decode (sanitize path) = some t → (w.basePath ++ [Backup.slash]).isPrefixOf t = true

/-- No event is of a neighbour, and a rename of one has its other path in the tree. -/
def Clear : CpuOp → Prop
  | .mtime file => ¬ w.Beside (buildPath ⟨file, .mtime⟩)
  | .delete file => ¬ w.Beside (buildPath ⟨file, .delete⟩)
  | .rename old new =>
    let oldPath := buildPath ⟨old, .renameFrom⟩
    let newPath := buildPath ⟨new, .renameTo⟩
    w.Beside oldPath ∨ w.Beside newPath → w.Holds oldPath ∨ w.Holds newPath

/-! ## One path -/

/-- What the agent takes for a path of the tree. -/
theorem matchesPrefix_iff (path : Bytes) :
    matchesPrefix w.watchPrefix path = true ↔ w.Holds path ∨ w.Beside path := by
  have hbegins : matchesPrefix w.watchPrefix path = true ↔ w.watchPrefix <+: path := by
    rw [matchesPrefix, beq_iff_eq, List.prefix_iff_eq_take, eq_comm]
  rw [hbegins]
  constructor
  · rintro ⟨rest, rfl⟩
    rcases rest with _ | ⟨c, rest⟩
    · exact Or.inl (Or.inl (List.append_nil _))
    · by_cases hc : c = slash
      · exact Or.inl (Or.inr ⟨rest, by simp [hc]⟩)
      · exact Or.inr ⟨c, rest, rfl, hc⟩
  · rintro ((rfl | ⟨rest, rfl⟩) | ⟨c, rest, rfl, -⟩)
    · exact List.prefix_rfl
    · exact ⟨[slash] ++ rest, by simp⟩
    · exact List.prefix_append _ _

/-- A neighbour is not in the tree. -/
theorem not_holds_of_beside {path : Bytes} (h : w.Beside path) : ¬ w.Holds path := by
  obtain ⟨c, rest, rfl, hc⟩ := h
  rintro (heq | ⟨rest', heq⟩)
  · have hnil := List.append_right_eq_self.mp heq
    cases hnil
  · rw [List.append_assoc] at heq
    exact hc (List.cons.inj (List.append_cancel_left heq)).1.symm

/-- The test of `get_repo_id`, on a path of the tree as the backup gets it. -/
theorem isPrefixOf_of_holds {path : Bytes} (h : w.Holds path) (hne : path ≠ w.watchPrefix)
    {t : Text} (ht : decode (sanitize path) = some t) :
    (w.basePath ++ [Backup.slash]).isPrefixOf t = true := by
  obtain ⟨rest, rfl⟩ := h.resolve_left hne
  have hslash : slash.toNat < 0x80 := by decide
  have hsep : decode [slash] = some [Backup.slash] := by decide
  rw [List.append_assoc, sanitize_append_of_decode w.same, sanitize_append_of_decode hsep,
    decode_append_of_decode w.same, decode_append_of_decode hsep, Option.map_map] at ht
  obtain ⟨u, -, rfl⟩ := Option.map_eq_some_iff.mp ht
  rw [List.isPrefixOf_iff_prefix]
  exact ⟨u, by simp⟩

/-! ## One operation -/

/-- The calls that the callback makes. -/
def reported : CpuOp → List HandlerCall
  | .mtime file =>
    let path := buildPath ⟨file, .mtime⟩
    if matchesPrefix w.watchPrefix path then [.onEvent path .mtime] else []
  | .delete file =>
    let path := buildPath ⟨file, .delete⟩
    if matchesPrefix w.watchPrefix path then [.onEvent path .delete] else []
  | .rename old new =>
    let oldPath := buildPath ⟨old, .renameFrom⟩
    let newPath := buildPath ⟨new, .renameTo⟩
    if matchesPrefix w.watchPrefix oldPath || matchesPrefix w.watchPrefix newPath then
      [.onRename oldPath newPath]
    else []

/-- A call under the one condition, and under the wider one: the difference shows when only
the wider one is met. -/
theorem ite_eq_ite_iff {P Q : Prop} [Decidable P] [Decidable Q] (hPQ : P → Q)
    (c : HandlerCall) :
    (if Q then [c] else []) = (if P then [c] else []) ↔ (Q → P) := by
  by_cases hP : P
  · simp [hP, hPQ hP]
  · by_cases hQ : Q <;> simp [hP, hQ]

theorem ite_sublist_ite {P Q : Prop} [Decidable P] [Decidable Q] (hPQ : P → Q)
    (c : HandlerCall) : (if P then [c] else []).Sublist (if Q then [c] else []) := by
  by_cases hP : P
  · simp [hP, hPQ hP]
  · simp [hP]

/-- A path in the tree passes the test of the agent. -/
theorem matchesPrefix_of_holds {path : Bytes} (h : w.Holds path) :
    matchesPrefix w.watchPrefix path = true :=
  (w.matchesPrefix_iff path).mpr (Or.inl h)

theorem matchesPrefix_or_of_holds {oldPath newPath : Bytes}
    (h : w.Holds oldPath ∨ w.Holds newPath) :
    (matchesPrefix w.watchPrefix oldPath || matchesPrefix w.watchPrefix newPath) = true :=
  Bool.or_eq_true_iff.mpr (h.imp w.matchesPrefix_of_holds w.matchesPrefix_of_holds)

/-- What is asked for is done, and possibly more. -/
theorem calls_sublist_reported (op : CpuOp) : (w.calls op).Sublist (w.reported op) := by
  cases op with
  | mtime file => exact ite_sublist_ite w.matchesPrefix_of_holds _
  | delete file => exact ite_sublist_ite w.matchesPrefix_of_holds _
  | rename old new => exact ite_sublist_ite w.matchesPrefix_or_of_holds _

/-- What passes without being in the tree is a neighbour. -/
theorem matchesPrefix_imp_holds_iff (path : Bytes) :
    (matchesPrefix w.watchPrefix path = true → w.Holds path) ↔ ¬ w.Beside path := by
  rw [matchesPrefix_iff]
  exact ⟨fun h hb => w.not_holds_of_beside hb (h (Or.inr hb)),
    fun h hor => hor.resolve_right h⟩

/-- **One operation**: the callback does with it what is asked for, exactly when it is clear
of neighbours. -/
theorem reported_eq_calls_iff (op : CpuOp) : w.reported op = w.calls op ↔ w.Clear op := by
  cases op with
  | mtime file =>
    exact (ite_eq_ite_iff w.matchesPrefix_of_holds _).trans (w.matchesPrefix_imp_holds_iff _)
  | delete file =>
    exact (ite_eq_ite_iff w.matchesPrefix_of_holds _).trans (w.matchesPrefix_imp_holds_iff _)
  | rename old new =>
    refine (ite_eq_ite_iff w.matchesPrefix_or_of_holds _).trans ?_
    rw [Bool.or_eq_true, matchesPrefix_iff, matchesPrefix_iff]
    constructor
    · exact fun h hb => h (hb.imp Or.inr Or.inr)
    · rintro h ((hold | hold) | (hnew | hnew))
      · exact Or.inl hold
      · exact h (Or.inl hold)
      · exact Or.inr hnew
      · exact h (Or.inr hnew)

/-! ## The stream -/

/-- The callback on whole operations: each is handled on its own. -/
theorem handleEvents_ops {ectx : EventCtx} (hectx : ectx.watchPrefix = w.watchPrefix)
    (ops : List CpuOp) :
    handleEvents ectx (ops.flatMap CpuOp.events) = ops.flatMap w.reported := by
  induction ops generalizing ectx with
  | nil => rfl
  | cons op ops ih =>
    rw [List.flatMap_cons, List.flatMap_cons]
    cases op with
    | mtime file =>
      rw [CpuOp.events, List.singleton_append, handleEvents_single (Or.inl rfl), hectx]
      exact congrArg _ (ih rfl)
    | delete file =>
      rw [CpuOp.events, List.singleton_append, handleEvents_single (Or.inr rfl), hectx]
      exact congrArg _ (ih rfl)
    | rename old new =>
      rw [CpuOp.events, List.cons_append, List.singleton_append, handleEvents_rename rfl rfl,
        hectx]
      exact congrArg _ (ih rfl)

/-- Lists that are put together from shorter pieces are equal only if the pieces are. -/
theorem eq_of_flatMap_eq {α β : Type} {f g : α → List β} (hsub : ∀ a, (f a).Sublist (g a))
    {as : List α} (h : as.flatMap g = as.flatMap f) : ∀ a ∈ as, g a = f a := by
  induction as with
  | nil => exact fun a ha => absurd ha List.not_mem_nil
  | cons a as ih =>
    have hhead : (f a).length ≤ (g a).length := (hsub a).length_le
    have htail : (as.flatMap f).length ≤ (as.flatMap g).length :=
      (List.Sublist.flatMap_right as fun b _ => hsub b).length_le
    rw [List.flatMap_cons, List.flatMap_cons] at h
    have hlen := congrArg List.length h
    rw [List.length_append, List.length_append] at hlen
    obtain ⟨heq, hrest⟩ := List.append_inj h (by omega)
    intro b hb
    rcases List.mem_cons.mp hb with rfl | hb
    · exact heq
    · exact ih hrest b hb

/-- An mtime event that is asked for is of a path in the tree. -/
theorem holds_of_onEvent_mem {ops : List CpuOp} {path : Bytes}
    (h : .onEvent path .mtime ∈ ops.flatMap w.calls) : w.Holds path := by
  obtain ⟨op, -, hop⟩ := List.mem_flatMap.mp h
  cases op with
  | mtime file =>
    simp only [calls] at hop
    split_ifs at hop with hholds
    · obtain rfl := (HandlerCall.onEvent.inj (List.mem_singleton.mp hop)).1
      exact hholds
    · exact absurd hop List.not_mem_nil
  | delete file =>
    simp only [calls] at hop
    split_ifs at hop
    · exact nomatch (HandlerCall.onEvent.inj (List.mem_singleton.mp hop)).2
    · exact absurd hop List.not_mem_nil
  | rename old new =>
    simp only [calls] at hop
    split_ifs at hop
    · exact nomatch List.mem_singleton.mp hop
    · exact absurd hop List.not_mem_nil

end WatchedTree

/-- **When the agent watches the tree that is backed up**: for every tree and every stream,
exactly when the stream is clear of neighbours. -/
theorem agrees_iff_clear (w : WatchedTree) (ops : List CpuOp) :
    w.Agrees ops ↔ ∀ op ∈ ops, w.Clear op := by
  have hhandled : w.handled ops = ops.flatMap w.reported := w.handleEvents_ops rfl ops
  constructor
  · intro h op hop
    have hcalls := hhandled.symm.trans h.handled_eq
    exact (w.reported_eq_calls_iff op).mp
      (WatchedTree.eq_of_flatMap_eq w.calls_sublist_reported hcalls op hop)
  · intro h
    have hcalls : w.handled ops = ops.flatMap w.calls :=
      hhandled.trans (List.flatMap_congr fun op hop => (w.reported_eq_calls_iff op).mpr (h op hop))
    refine ⟨hcalls, fun path hpath hne t ht => ?_⟩
    rw [hcalls] at hpath
    exact w.isPrefixOf_of_holds (w.holds_of_onEvent_mem hpath) hne ht

/-! ## A neighbour -/

/-- The default of `watch_prefix`, with the `base_path` that the backup is shipped with. -/
def homeTree : WatchedTree where
  watchPrefix := [0x2F, 0x68, 0x6F, 0x6D, 0x65]
  basePath := text "/home"
  same := by decide
  noSlash := by decide

/-- The file `/home2/x`. -/
def homeTwoFile : NameArray :=
  ⟨[[0x78], [0x68, 0x6F, 0x6D, 0x65, 0x32]], by decide, by decide⟩

/-- A write to `/home2/x` is reported, and `get_repo_id` has no repository for it. -/
theorem not_agrees_homeTwo : ¬ ∀ (w : WatchedTree) (ops : List CpuOp), w.Agrees ops := by
  intro hclaim
  have hhandled := (hclaim homeTree [.mtime homeTwoFile]).handled_eq
  exact absurd hhandled (by decide +kernel)

end System
end FileTracker
