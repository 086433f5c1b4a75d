import FileTracker.Agent.Pipeline
import FileTracker.Consumer.Batching
import FileTracker.System.Messages

/-!
# Attempted operations

The probes report a call when it begins, so an unlink or a rename that then fails
is reported all the same, and it takes a change away in two places: the delete
drops the debouncer's entry of the file, and the rename drops the field of its
old path from `pending`.

So what the system keeps is said in terms of *attempts*.  A change of a file
reaches `pending` when no later unlink of it and no later rename away from it is
attempted (`kept_unless_attempted`); that none of them succeeds is not enough.

The argument follows one path.  From the change on it is `Covered`: it has an
entry in the debouncer, or it has been reported and no rename away from it has
been reported since.  At shutdown there are no entries left.
-/

namespace FileTracker
namespace System

open Runs Agent Consumer LastWriter Utf8

/-! ## A run of a host and of the consumer -/

/-- The operation takes the path away. -/
def takesAway (path : Bytes) : VfsOp → Prop
  | .write _ => False
  | .unlink file => file.path = path
  | .rename old new => old.path = path ∧ new.path ≠ path

/-- The kernel calls of a host, with every record in the ring buffer and ticks at any
points; the agent's run, up to the flush at shutdown; and the consumer's calls, which
parse the messages in the order of their emission. -/
structure HostRun where
  watchPrefix : Bytes
  hostname : Bytes
  quietPeriod : ℤ
  maxWait : ℤ
  calls : List VfsCall
  inputs : List Input
  order : List Bytes
  final : Pipeline
  pending : Hash
  consumer : List Call
  events_eq : events inputs = calls.flatMap VfsCall.records
  exec_eq : exec Pipeline.step (.init quietPeriod maxWait watchPrefix)
    (inputs ++ [.flushAll order]) = some final
  delivered : List.Forall₂ (fun v ev => ∃ tsMs, v = some (Emission.json tsMs hostname ev))
    (parsed consumer) final.emitted

/-- Every watched path with a successful write, and no later call that counts as
taking it away, is a field of `pending` once the consumer has flushed. -/
def HostRun.Keeps (r : HostRun) (floatRepr : Text → Text) (counts : VfsCall → Prop) : Prop :=
  ∀ before file after, r.calls = before ++ ⟨.write file, true⟩ :: after →
    matchesPrefix r.watchPrefix file.path → (∀ c ∈ after, counts c → ¬ takesAway file.path c.op) →
    ∃ session t, Session.runCalls floatRepr ⟨.init, r.pending⟩ (r.consumer ++ [.flush]) =
        .ok session ∧
      decode file.path = some t ∧ t ∈ session.pending

/-! ## One path in the agent -/

/-- The report takes the path out of `pending`. -/
def MovesAway (path : Bytes) : Emission → Prop
  | .rename oldPath newPath => oldPath = path ∧ newPath ≠ path
  | _ => False

/-- The path has been reported, and not been moved away by a later report. -/
def Reported (path : Bytes) (emitted : List Emission) : Prop :=
  ∃ pre post, emitted = pre ++ .mtimeChange path :: post ∧ ∀ ev ∈ post, ¬ MovesAway path ev

/-- The path has an entry, or it has been reported. -/
def Covered (path : Bytes) (s : Pipeline) : Prop :=
  path ∈ s.debouncer.entries ∨ Reported path s.emitted

/-- The call leaves an entry of the path and a report of it alone. -/
def Spares (path : Bytes) : HandlerCall → Prop
  | .onRename oldPath newPath => ¬ (oldPath = path ∧ newPath ≠ path)
  | .onEvent q eventType => eventType = .delete → q ≠ path

theorem Reported.append {path : Bytes} {emitted out : List Emission} (h : Reported path emitted)
    (hout : ∀ ev ∈ out, ¬ MovesAway path ev) : Reported path (emitted ++ out) := by
  obtain ⟨pre, post, rfl, hpost⟩ := h
  refine ⟨pre, post ++ out, by simp, fun ev hev => ?_⟩
  rcases List.mem_append.mp hev with hev | hev
  · exact hpost ev hev
  · exact hout ev hev

/-- The debouncer's messages move nothing away. -/
theorem not_movesAway_sendEvent {path : Bytes} {callbacks : List Callback} {ev : Emission}
    (h : ev ∈ callbacks.map sendEvent) : ¬ MovesAway path ev := by
  obtain ⟨⟨q, eventType⟩, -, rfl⟩ := List.mem_map.mp h
  cases eventType <;> exact id

/-- A callback for the path reports it. -/
theorem reported_of_callback {path : Bytes} {eventType : EventType} {emitted : List Emission}
    {callbacks : List Callback} (h : (path, eventType) ∈ callbacks) (hdel : eventType ≠ .delete) :
    Reported path (emitted ++ callbacks.map sendEvent) := by
  have hsend : sendEvent (path, eventType) = .mtimeChange path := by
    cases eventType with
    | delete => exact absurd rfl hdel
    | _ => rfl
  obtain ⟨pre, post, rfl⟩ := List.append_of_mem h
  refine ⟨emitted ++ pre.map sendEvent, post.map sendEvent, by simp [hsend], fun ev hev => ?_⟩
  exact not_movesAway_sendEvent hev

/-- An operation of the debouncer keeps the path covered if it leaves an entry of it or
reports it. -/
theorem Covered.fire {path : Bytes} {s : Pipeline} (h : Covered path s)
    {r : Debouncer × List Callback}
    (hkeep : path ∈ s.debouncer.entries →
      path ∈ r.1.entries ∨ ∃ eventType, eventType ≠ .delete ∧ (path, eventType) ∈ r.2) :
    Covered path (s.fire r) := by
  rcases h with hentry | hrep
  · rcases hkeep hentry with hin | ⟨eventType, hdel, hcall⟩
    · exact Or.inl hin
    · exact Or.inr (reported_of_callback hcall hdel)
  · exact Or.inr (hrep.append fun ev hev => not_movesAway_sendEvent hev)

theorem Covered.call {path : Bytes} {s : Pipeline} (h : Covered path s) {c : HandlerCall}
    (hc : Spares path c) (now : ℤ) : Covered path (s.call now c) := by
  cases c with
  | onRename oldPath newPath =>
    rcases h with hentry | hrep
    · exact Or.inl hentry
    · exact Or.inr (hrep.append fun ev hev => by rwa [List.mem_singleton.mp hev])
  | onEvent q eventType =>
    refine h.fire fun hentry => ?_
    rcases s.debouncer.mem_or_reported_onEvent now (Or.inl hentry) hc with hin | ⟨-, hne, hcb⟩
    · exact Or.inl hin
    · exact Or.inr ⟨eventType, hne, by simp [hcb]⟩

/-- A change of the file covers its path. -/
theorem covered_onEvent (path : Bytes) (s : Pipeline) (now : ℤ) :
    Covered path (s.call now (.onEvent path .mtime)) := by
  have hdel : EventType.mtime = .delete → path ≠ path := by simp
  rcases s.debouncer.mem_or_reported_onEvent now (Or.inr rfl) hdel with hin | ⟨-, hne, hcb⟩
  · exact Or.inl hin
  · exact Or.inr (reported_of_callback (by rw [hcb]; exact List.mem_singleton.mpr rfl) hne)

/-- The event of a write covers its path and empties the slot. -/
theorem covered_of_step {s t : Pipeline} {evt : FileEvent} {now : ℤ}
    (htype : evt.eventType = .mtime) (hwatched : matchesPrefix s.ectx.watchPrefix (buildPath evt))
    (h : s.step (.event evt now) = some t) :
    Covered (buildPath evt) t ∧ t.ectx.hasPendingRename = false := by
  rw [Pipeline.step, handleEvent_single (Or.inl htype), htype, if_pos hwatched] at h
  obtain rfl := Option.some.inj h
  exact ⟨covered_onEvent _ _ now, by rw [foldl_call_ectx]⟩

/-- **Runs keep a path covered** when every call they make spares it. -/
theorem Covered.exec {path : Bytes} {s t : Pipeline} {inputs : List Input}
    (h : Covered path s) (hrun : exec Pipeline.step s inputs = some t)
    (hcalls : ∀ c ∈ handleEvents s.ectx (events inputs), Spares path c) : Covered path t := by
  refine Pipeline.exec_invariant (P := Covered path) (fun _ _ hs => hs)
    (fun c hc s now hs => hs.call (hcalls c hc) now) (fun s r hover hs => ?_) rfl h hrun
  refine hs.fire fun hentry => ?_
  exact (hover.kept hentry).imp_right fun hcb => ⟨.mtime, by simp, hcb⟩

/-! ## All paths in the agent -/

/-- The paths of a call. -/
def callPaths : HandlerCall → List Bytes
  | .onRename oldPath newPath => [oldPath, newPath]
  | .onEvent path _ => [path]

/-- A path the messages can carry as it is. -/
def Good (path : Bytes) : Prop := path ≠ [] ∧ WellFormedUtf8 path

/-- All paths in the agent are good ones. -/
def AllGood (s : Pipeline) : Prop :=
  (∀ path ∈ s.debouncer.entries, Good path) ∧ ∀ ev ∈ s.emitted, ∀ path ∈ paths ev, Good path

/-- All paths in the agent have the property. -/
def AllPaths (Q : Bytes → Prop) (s : Pipeline) : Prop :=
  (∀ path ∈ s.debouncer.entries, Q path) ∧ ∀ ev ∈ s.emitted, ∀ path ∈ paths ev, Q path

theorem AllPaths.fire {Q : Bytes → Prop} {s : Pipeline} (h : AllPaths Q s)
    {r : Debouncer × List Callback} (hentries : ∀ path ∈ r.1.entries, Q path)
    (hcb : ∀ cb ∈ r.2, Q cb.1) : AllPaths Q (s.fire r) := by
  refine ⟨hentries, fun ev hev path hpath => ?_⟩
  rcases List.mem_append.mp hev with hev | hev
  · exact h.2 ev hev path hpath
  · obtain ⟨⟨q, eventType⟩, hmem, rfl⟩ := List.mem_map.mp hev
    have hq := hcb _ hmem
    cases eventType <;> (rw [List.mem_singleton.mp hpath]; exact hq)

theorem AllPaths.call {Q : Bytes → Prop} {s : Pipeline} (h : AllPaths Q s) (now : ℤ)
    {c : HandlerCall} (hc : ∀ path ∈ callPaths c, Q path) : AllPaths Q (s.call now c) := by
  cases c with
  | onRename oldPath newPath =>
    refine ⟨h.1, fun ev hev path hpath => ?_⟩
    rcases List.mem_append.mp hev with hev | hev
    · exact h.2 ev hev path hpath
    · rw [List.mem_singleton.mp hev] at hpath
      exact hc path hpath
  | onEvent q eventType =>
    have hq : Q q := hc q (List.mem_singleton.mpr rfl)
    refine h.fire (fun path hpath => ?_) fun cb hcb => ?_
    · rcases Debouncer.mem_of_mem_onEvent hpath with rfl | hmem
      · exact hq
      · exact h.1 path hmem
    · rw [Debouncer.eq_of_mem_callbacks_onEvent hcb]
      exact hq

/-- **The paths in the agent come from the calls of the callback.** -/
theorem AllPaths.exec {Q : Bytes → Prop} {s t : Pipeline} {inputs : List Input}
    (h : AllPaths Q s) (hrun : exec Pipeline.step s inputs = some t)
    (hcalls : ∀ c ∈ handleEvents s.ectx (events inputs), ∀ path ∈ callPaths c, Q path) :
    AllPaths Q t := by
  refine Pipeline.exec_invariant (P := AllPaths Q) (fun _ _ hs => hs)
    (fun c hc s now hs => hs.call now (hcalls c hc)) (fun s r hover hs => ?_) rfl h hrun
  exact hs.fire (fun path hpath => hs.1 path (hover.entry hpath))
    fun cb hcb => hs.1 cb.1 (hover.callback cb hcb).1

theorem AllPaths.init (Q : Bytes → Prop) (quietPeriod maxWait : ℤ) (watchPrefix : Bytes) :
    AllPaths Q (.init quietPeriod maxWait watchPrefix) := by
  simp [AllPaths, Pipeline.init, Debouncer.init, Finmap.notMem_empty]

/-- The calls of the callback name files of the kernel's calls. -/
theorem good_of_mem_handlerCalls {op : VfsOp} {watchPrefix : Bytes} {c : HandlerCall}
    (hgood : ∀ file ∈ op.files, Good file.path) (hc : c ∈ op.handlerCalls watchPrefix) :
    ∀ path ∈ callPaths c, Good path := by
  have hpaths : callPaths c = op.files.map Dentry.path := by
    cases op <;> simp only [VfsOp.handlerCalls, List.mem_ite_nil_right, List.mem_singleton] at hc <;>
      rw [hc.2] <;> rfl
  intro path hpath
  rw [hpaths] at hpath
  obtain ⟨file, hfile, rfl⟩ := List.mem_map.mp hpath
  exact hgood file hfile

/-- The calls of the callback spare a path that the kernel's call does not take
away. -/
theorem spares_of_mem_handlerCalls {op : VfsOp} {watchPrefix path : Bytes} {c : HandlerCall}
    (htake : ¬ takesAway path op) (hc : c ∈ op.handlerCalls watchPrefix) : Spares path c := by
  cases op with
  | write file =>
    simp only [VfsOp.handlerCalls, List.mem_ite_nil_right, List.mem_singleton] at hc
    rw [hc.2]
    exact fun hdel => by simp at hdel
  | unlink file =>
    simp only [VfsOp.handlerCalls, List.mem_ite_nil_right, List.mem_singleton] at hc
    rw [hc.2]
    exact fun _ => htake
  | rename old new =>
    simp only [VfsOp.handlerCalls, List.mem_ite_nil_right, List.mem_singleton] at hc
    rw [hc.2]
    exact htake

namespace HostRun

variable (r : HostRun)

/-- The files of the calls are ones a record and a message can carry: at most
`MAX_DEPTH` names, in well-formed UTF-8. -/
def Carried : Prop :=
  WellFormedUtf8 r.hostname ∧
    ∀ c ∈ r.calls, ∀ file ∈ c.op.files, file.Shallow ∧ WellFormedUtf8 file.path

variable {r}

theorem Carried.good (h : r.Carried) {c : VfsCall} (hc : c ∈ r.calls) {file : Dentry}
    (hfile : file ∈ c.op.files) : Good file.path := by
  obtain ⟨⟨hne, -⟩, hutf8⟩ := h.2 c hc file hfile
  exact ⟨Dentry.path_ne_nil hne, hutf8⟩

/-- What the callback makes of the events of the run. -/
theorem Carried.handleEvents_eq (h : r.Carried) :
    handleEvents (.init r.watchPrefix) (events r.inputs) =
      r.calls.flatMap fun c => c.op.handlerCalls r.watchPrefix := by
  rw [r.events_eq]
  exact handleEvents_records (fun c hc file hfile => (h.2 c hc file hfile).1) rfl

theorem Carried.allGood (h : r.Carried) : AllGood r.final := by
  have hevents : events (r.inputs ++ [.flushAll r.order]) = events r.inputs := by
    simp [events]
  refine (AllPaths.init Good _ _ _).exec r.exec_eq fun c hc => ?_
  rw [hevents, Pipeline.init, h.handleEvents_eq] at hc
  obtain ⟨call, hcall, hmem⟩ := List.mem_flatMap.mp hc
  exact good_of_mem_handlerCalls (fun file => h.good hcall) hmem

/-- An event of the run stands somewhere among its inputs. -/
theorem exists_input_of_events {inputs : List Input} {xs ys : List FileEvent} {evt : FileEvent}
    (h : events inputs = xs ++ evt :: ys) :
    ∃ pre now post, inputs = pre ++ .event evt now :: post ∧ events post = ys := by
  obtain ⟨pre, rest, rfl, -, hrest⟩ := List.filterMap_eq_append_iff.mp h
  obtain ⟨skip, i, post, rfl, -, hi, hpost⟩ := List.filterMap_eq_cons_iff.mp hrest
  cases i with
  | event e now =>
    obtain rfl := Option.some.inj hi
    exact ⟨pre ++ skip, now, post, by simp, hpost⟩
  | tick now order => simp at hi
  | flushAll order => simp at hi

/-- After the flush at shutdown nothing waits any more. -/
theorem entries_final : r.final.debouncer.entries = ∅ := by
  have hrun := r.exec_eq
  rw [exec_append] at hrun
  obtain ⟨s, -, hflush⟩ := Option.bind_eq_some_iff.mp hrun
  rw [exec_cons] at hflush
  obtain ⟨t, ht, hend⟩ := Option.bind_eq_some_iff.mp hflush
  simp only [Pipeline.step] at ht
  split_ifs at ht
  rw [← Option.some.inj hend, ← Option.some.inj ht]
  rfl

/-- **The agent reports the change**: the path is in a message, and no later message
moves it away. -/
theorem Carried.reported (h : r.Carried) {before after : List VfsCall} {file : Dentry}
    {succeeds : Bool} (hcalls : r.calls = before ++ ⟨.write file, succeeds⟩ :: after)
    (hwatched : matchesPrefix r.watchPrefix file.path)
    (hafter : ∀ c ∈ after, ¬ takesAway file.path c.op) :
    Reported file.path r.final.emitted := by
  have hmem : ⟨.write file, succeeds⟩ ∈ r.calls := by
    rw [hcalls]
    exact List.mem_append_right _ List.mem_cons_self
  have hshallow : ∀ c ∈ after, ∀ f ∈ c.op.files, f.Shallow := fun c hc f hf =>
    (h.2 c (by rw [hcalls]; exact List.mem_append_right _ (List.mem_cons_of_mem _ hc)) f hf).1
  obtain ⟨evt, hevt, htype, hpath⟩ :=
    emitEvent_eq (h.2 _ hmem file (by simp [VfsOp.files])).1 .mtime
  have hsplit : events r.inputs =
      before.flatMap VfsCall.records ++ evt :: after.flatMap VfsCall.records := by
    rw [r.events_eq, hcalls, List.flatMap_append, List.flatMap_cons]
    simp [VfsCall.records, traceVfsWrite, hevt]
  obtain ⟨pre, now, post, hinputs, hpost⟩ := exists_input_of_events hsplit
  have hrun := r.exec_eq
  rw [hinputs, List.append_assoc, List.cons_append, exec_append] at hrun
  obtain ⟨s, hs, hrun⟩ := Option.bind_eq_some_iff.mp hrun
  rw [exec_cons] at hrun
  obtain ⟨t, ht, hrun⟩ := Option.bind_eq_some_iff.mp hrun
  have hwatch : s.ectx.watchPrefix = r.watchPrefix := watchPrefix_of_exec hs
  obtain ⟨hcovered, hslot⟩ := covered_of_step htype (by rwa [hwatch, hpath]) ht
  rw [hpath] at hcovered
  have hfinal : Covered file.path r.final := by
    refine hcovered.exec hrun fun c hc => ?_
    have hevents : events (post ++ [.flushAll r.order]) = after.flatMap VfsCall.records := by
      rw [← hpost]
      simp [events]
    rw [hevents, handleEvents_records hshallow hslot] at hc
    obtain ⟨call, hcall, hmem⟩ := List.mem_flatMap.mp hc
    exact spares_of_mem_handlerCalls (hafter call hcall) hmem
  refine hfinal.resolve_left fun hin => ?_
  rw [entries_final] at hin
  exact absurd hin Finmap.notMem_empty

end HostRun

/-! ## At the consumer -/

/-- The consumer reads one well-formed message from every report. -/
theorem carry_of_delivered {hostname : Bytes} (hhost : WellFormedUtf8 hostname)
    {vs : List (Option Bytes)} {emitted : List Emission}
    (hgood : ∀ ev ∈ emitted, ∀ path ∈ paths ev, Good path)
    (h : List.Forall₂ (fun v ev => ∃ tsMs, v = some (Emission.json tsMs hostname ev)) vs emitted) :
    Carry vs (emitted.filterMap msg) := by
  induction h with
  | nil => exact .nil
  | cons hv _ ih =>
    obtain ⟨tsMs, rfl⟩ := hv
    obtain ⟨m, hm, hwell, henc⟩ := wellFormed_json tsMs hhost (hgood _ List.mem_cons_self)
    rw [List.filterMap_cons_some hm]
    exact .cons ⟨hwell, henc⟩ (ih fun ev hev => hgood ev (List.mem_cons_of_mem _ hev))

/-- A rename that clears the field moves the path away. -/
theorem movesAway_of_clears {path : Bytes} {t : Text} (ht : decode path = some t)
    {ev : Emission} (hgood : ∀ q ∈ paths ev, Good q) {m : AgentMsg} (hm : msg ev = some m)
    (hclears : m.Clears t) : MovesAway path ev := by
  cases ev with
  | delete q =>
    obtain rfl : AgentMsg.delete = m := Option.some.inj hm
    exact hclears.elim
  | mtimeChange q =>
    obtain ⟨u, -, rfl⟩ := Option.map_eq_some_iff.mp hm
    exact hclears.elim
  | rename oldPath newPath =>
    obtain ⟨-, o, ho, -⟩ := hgood oldPath (by simp [paths])
    obtain ⟨-, n, hn, -⟩ := hgood newPath (by simp [paths])
    rw [msg, sanitize_of_decode ho, sanitize_of_decode hn, ho, hn] at hm
    obtain rfl := Option.some.inj hm
    obtain ⟨rfl, hne⟩ := hclears
    refine ⟨?_, ?_⟩
    · rw [← encode_of_decode ho, encode_of_decode ht]
    · rintro rfl
      exact hne (Option.some.inj (hn.symm.trans ht))

/-- A reported path is a field once the messages have been applied. -/
theorem mem_of_reported {path : Bytes} {t : Text} (ht : decode path = some t)
    {emitted : List Emission} (hgood : ∀ ev ∈ emitted, ∀ q ∈ paths ev, Good q)
    (h : Reported path emitted) (pending : Hash) :
    t ∈ run pending (commandsOf (emitted.filterMap msg)) := by
  obtain ⟨pre, post, rfl, hpost⟩ := h
  refine (mem_run_commandsOf _ _ _).mpr (Or.inl ⟨pre.filterMap msg, .mtimeChange t,
    post.filterMap msg, ?_, rfl, fun m hm hclears => ?_⟩)
  · rw [List.filterMap_append, List.filterMap_cons_some (msg_of_decode ht)]
  · obtain ⟨ev, hev, hmsg⟩ := List.mem_filterMap.mp hm
    exact hpost ev hev (movesAway_of_clears ht
      (hgood ev (List.mem_append_right _ (List.mem_cons_of_mem _ hev))) hmsg hclears)

/-- **What is kept, in terms of attempts.**  For every host, every sequence of kernel
calls on files that records and messages can carry, every placement of ticks and of
the consumer's flushes: a path with a successful write is a field of `pending` in the
end, unless a later unlink of it or rename away from it was attempted. -/
theorem kept_unless_attempted (floatRepr : Text → Text) (r : HostRun) (h : r.Carried) :
    r.Keeps floatRepr fun _ => True := by
  intro before file after hcalls hwatched hafter
  have hmem : ⟨.write file, true⟩ ∈ r.calls := by
    rw [hcalls]
    exact List.mem_append_right _ List.mem_cons_self
  obtain ⟨t, ht, -⟩ := (h.2 _ hmem file (by simp [VfsOp.files])).2
  have hgood := h.allGood.2
  have hrep := h.reported hcalls hwatched fun c hc => hafter c hc trivial
  obtain ⟨session, hrun, hpending⟩ := runCalls_flush floatRepr
    (carry_of_delivered h.1 hgood r.delivered) r.pending
  refine ⟨session, t, hrun, ht, ?_⟩
  rw [hpending]
  exact mem_of_reported ht hgood hrep r.pending

/-! ## An unlink that fails -/

/-- The file `/home/a`. -/
def homeA : Dentry :=
  [⟨ascii "a", by decide +kernel, by decide +kernel, by decide +kernel, by decide +kernel⟩,
    ⟨ascii "home", by decide +kernel, by decide +kernel, by decide +kernel, by decide +kernel⟩]

/-- Its record. -/
def recordA (eventType : EventType) : FileEvent := ⟨recordNames homeA.names, eventType⟩

/-- An unlink of the file fails, and then the file is written. -/
def writtenAfterwards : HostRun where
  watchPrefix := ascii "/home"
  hostname := ascii "node-001"
  quietPeriod := 10000
  maxWait := 3600000
  calls := [⟨.unlink homeA, false⟩, ⟨.write homeA, true⟩]
  inputs := [.event (recordA .delete) 0, .event (recordA .mtime) 1, .tick 100 [ascii "/home/a"]]
  order := [ascii "/home/a"]
  final := ⟨.init (ascii "/home"), .init 10000 3600000,
    [.delete (ascii "/home/a"), .mtimeChange (ascii "/home/a")]⟩
  pending := ∅
  consumer := [
    .parse (some ((Emission.delete (ascii "/home/a")).json 1710000000000 (ascii "node-001"))),
    .flush,
    .parse (some ((Emission.mtimeChange (ascii "/home/a")).json 1710000000100 (ascii "node-001")))]
  events_eq := by rfl
  exec_eq := by rfl
  delivered := .cons ⟨_, rfl⟩ (.cons ⟨_, rfl⟩ .nil)

theorem kept_unless_attempted_writtenAfterwards :
    ∃ session t, Session.runCalls id ⟨.init, ∅⟩ (writtenAfterwards.consumer ++ [.flush]) =
        .ok session ∧
      decode homeA.path = some t ∧ t ∈ session.pending := by
  have hfile : homeA.Shallow ∧ WellFormedUtf8 homeA.path :=
    ⟨⟨by simp [homeA], by decide⟩, text "/home/a", by decide +kernel, by decide +kernel⟩
  have hcarried : writtenAfterwards.Carried := by
    refine ⟨⟨text "node-001", by decide +kernel, by decide +kernel⟩, fun c hc file hf => ?_⟩
    have heq : file = homeA := by
      rcases List.mem_cons.mp hc with rfl | hc
      · exact List.mem_singleton.mp hf
      · rw [List.mem_singleton.mp hc] at hf
        exact List.mem_singleton.mp hf
    exact heq ▸ hfile
  exact kept_unless_attempted id writtenAfterwards hcarried [⟨.unlink homeA, false⟩] homeA [] rfl
    (by decide +kernel) (by simp)

/-- The file is written, and an unlink of it fails. -/
def failedUnlink : HostRun where
  watchPrefix := ascii "/home"
  hostname := ascii "node-001"
  quietPeriod := 10000
  maxWait := 3600000
  calls := [⟨.write homeA, true⟩, ⟨.unlink homeA, false⟩]
  inputs := [.event (recordA .mtime) 0, .event (recordA .delete) 1]
  order := []
  final := ⟨.init (ascii "/home"), .init 10000 3600000, [.delete (ascii "/home/a")]⟩
  pending := ∅
  consumer := [
    .parse (some ((Emission.delete (ascii "/home/a")).json 1710000000000 (ascii "node-001")))]
  events_eq := by rfl
  exec_eq := by rfl
  delivered := .cons ⟨_, rfl⟩ .nil

/-- The delete that was reported drops the entry, and `pending` stays empty. -/
theorem failed_unlink_drops_change :
    ¬ ∀ (floatRepr : Text → Text) (r : HostRun), r.Keeps floatRepr fun c => c.succeeds := by
  intro hclaim
  obtain ⟨session, t, hrun, -, hmem⟩ := hclaim id failedUnlink [] homeA [⟨.unlink homeA, false⟩]
    rfl (by decide +kernel) (by simp)
  have hpending : ((Session.runCalls id ⟨.init, failedUnlink.pending⟩
      (failedUnlink.consumer ++ [.flush])).toOption.map fun s => s.pending) = some ∅ := by
    decide +kernel
  rw [hrun] at hpending
  have hempty : session.pending = ∅ := Option.some.inj hpending
  rw [hempty] at hmem
  exact absurd hmem Finmap.notMem_empty

end System
end FileTracker
