import FileTracker.Consumer.Batching
import FileTracker.System.FailedOps

/-!
# Renames overtake the debouncer

A rename is sent at once, and a change of the old path may still wait in the
debouncer: `on_rename` does not look there, as a delete does.  So the change can be
reported behind the rename, and put the old path back into `pending`.

`respectsRenames_iff` says when it does not.  What becomes of a path is decided by
the last call of `handle_event` that names it, or names a path `json_escape` makes
the same: a rename has to find no entry in the debouncer, and a delete no field in
`pending`.  Ticks decide nothing, as they only turn an entry into a field.
-/

namespace FileTracker
namespace System

open Runs Agent Consumer LastWriter Utf8

/-! ## What is claimed -/

/-- The last call that names the path renames it to another one. -/
def RenamedAway (p : Bytes) (calls : List VfsCall) : Prop :=
  ∃ before old new succeeds after, calls = before ++ ⟨.rename old new, succeeds⟩ :: after ∧
    old.path = p ∧ new.path ≠ p ∧ ∀ c ∈ after, ∀ file ∈ c.op.files, file.path ≠ p

/-- A host on which all calls succeed and the clock does not go back, and a consumer that
applies its messages, successfully, to an empty hash. -/
structure RenameRun (floatRepr : Text → Text) extends HostRun where
  succeeds : ∀ c ∈ calls, c.succeeds = true
  times : (inputs.filterMap Input.time).Pairwise (· ≤ ·)
  pending_eq : pending = ∅
  session : Session
  processed : (Session.mk .init pending).runTrue floatRepr (consumer ++ [.flush]) = some session

/-- No path that was renamed away is a field. -/
def RenameRun.RespectsRenames {floatRepr : Text → Text} (r : RenameRun floatRepr) : Prop :=
  ∀ p, RenamedAway p r.calls → ∀ t ∈ r.session.pending, encode t ≠ p

/-! ## When it holds -/

/-- The report puts the path into `pending`. -/
def Stores (p : Bytes) : Emission → Prop
  | .delete _ => False
  | .mtimeChange q => sanitize q = p
  | .rename _ newPath => sanitize newPath = p

/-- The report takes the path out of `pending`. -/
def TakesOut (p : Bytes) : Emission → Prop
  | .rename oldPath newPath => sanitize oldPath = p ∧ sanitize newPath ≠ p
  | _ => False

/-- Some report puts the path into `pending`, and no later one takes it out. -/
def Stored (p : Bytes) (emitted : List Emission) : Prop :=
  ∃ before ev after, emitted = before ++ ev :: after ∧ Stores p ev ∧ ∀ e ∈ after, ¬ TakesOut p e

/-- The callback makes a call for a path that is stored as `p`. -/
def Concerns (p : Bytes) (s : Pipeline) (i : Input) : Prop :=
  ∃ c ∈ s.calls i, ∃ q ∈ callPaths c, sanitize q = p

/-- The call, for a path that is stored as `p`, leaves no field of it and no entry. -/
def LeavesClear (p : Bytes) (s : Pipeline) : HandlerCall → Prop
  | .onRename _ newPath => sanitize newPath ≠ p ∧ ∀ q ∈ s.debouncer.entries, sanitize q ≠ p
  | .onEvent path eventType => eventType = .delete ∧ ¬ Stored p s.emitted ∧
      ∀ q ∈ s.debouncer.entries, sanitize q = p → q = path

/-- The last call for the path leaves it clear. -/
def RenameRun.ClearedAtLast {floatRepr : Text → Text} (r : RenameRun floatRepr) (p : Bytes) :
    Prop :=
  ∀ s i, LastMeets Pipeline.step (Concerns p) (.init r.quietPeriod r.maxWait r.watchPrefix)
    (r.inputs ++ [.flushAll r.order]) s i → ∀ c ∈ s.calls i, LeavesClear p s c

/-! ## Fields of the messages so far -/

theorem stored_append {p : Bytes} (emitted out : List Emission) :
    Stored p (emitted ++ out) ↔
      Stored p out ∨ (Stored p emitted ∧ ∀ ev ∈ out, ¬ TakesOut p ev) := by
  have hfold : ∀ (before : Prop) (es : List Emission),
      es.foldl (fun b ev => Stores p ev ∨ (b ∧ ¬ TakesOut p ev)) before ↔
        Stored p es ∨ (before ∧ ∀ ev ∈ es, ¬ TakesOut p ev) :=
    fun before es => survives_foldl_iff id (fun _ _ => Iff.rfl) before es
  have hnone : ∀ es : List Emission, Stored p es ↔
      es.foldl (fun b ev => Stores p ev ∨ (b ∧ ¬ TakesOut p ev)) False :=
    fun es => by rw [hfold, false_and, or_false]
  rw [hnone, List.foldl_append, hfold, ← hnone]

theorem stored_singleton {p : Bytes} {ev : Emission} : Stored p [ev] ↔ Stores p ev := by
  constructor
  · rintro ⟨before, e, after, hsplit, he, -⟩
    have hmem : e ∈ [ev] := by
      rw [hsplit]
      exact List.mem_append_right _ List.mem_cons_self
    rwa [← List.mem_singleton.mp hmem]
  · intro h
    exact ⟨[], ev, [], rfl, h, by simp⟩

/-- The debouncer's messages take nothing out. -/
theorem not_takesOut_sendEvent (p : Bytes) (callbacks : List Callback) :
    ∀ ev ∈ callbacks.map sendEvent, ¬ TakesOut p ev := by
  intro ev hev
  obtain ⟨⟨q, eventType⟩, -, rfl⟩ := List.mem_map.mp hev
  cases eventType <;> exact id

theorem stores_sendEvent_iff {p : Bytes} {cb : Callback} :
    Stores p (sendEvent cb) ↔ cb.2 ≠ .delete ∧ sanitize cb.1 = p := by
  obtain ⟨q, eventType⟩ := cb
  cases eventType <;> simp [sendEvent, Stores]

/-- What an operation of the debouncer adds to the fields. -/
theorem stored_fire_iff {p : Bytes} (s : Pipeline) (r : Debouncer × List Callback) :
    Stored p (s.fire r).emitted ↔
      (∃ cb ∈ r.2, cb.2 ≠ .delete ∧ sanitize cb.1 = p) ∨ Stored p s.emitted := by
  have hcallbacks : Stored p (r.2.map sendEvent) ↔
      ∃ cb ∈ r.2, cb.2 ≠ .delete ∧ sanitize cb.1 = p := by
    constructor
    · rintro ⟨before, ev, after, hsplit, hev, -⟩
      have hmem : ev ∈ r.2.map sendEvent := by
        rw [hsplit]
        exact List.mem_append_right _ List.mem_cons_self
      obtain ⟨cb, hcb, rfl⟩ := List.mem_map.mp hmem
      exact ⟨cb, hcb, stores_sendEvent_iff.mp hev⟩
    · rintro ⟨cb, hcb, hstores⟩
      have hmem : sendEvent cb ∈ r.2.map sendEvent := List.mem_map_of_mem hcb
      obtain ⟨before, after, hsplit⟩ := List.append_of_mem hmem
      refine ⟨before, _, after, hsplit, stores_sendEvent_iff.mpr hstores, fun e he => ?_⟩
      refine not_takesOut_sendEvent p r.2 e ?_
      rw [hsplit]
      exact List.mem_append_right _ (List.mem_cons_of_mem _ he)
  rw [Pipeline.fire, stored_append, hcallbacks]
  exact or_congr_right (and_iff_left (not_takesOut_sendEvent p r.2))

/-! ## What is, or will be, a field -/

/-- The path is a field once the messages so far are applied, or an entry waits to make
it one. -/
def Due (p : Bytes) (s : Pipeline) : Prop :=
  Stored p s.emitted ∨ ∃ q ∈ s.debouncer.entries, sanitize q = p

/-- An operation that turns entries into messages, and makes no others. -/
theorem due_fire_iff {p : Bytes} {s : Pipeline} {r : Debouncer × List Callback}
    (hcallbacks : ∀ cb ∈ r.2, sanitize cb.1 = p → cb.1 ∈ s.debouncer.entries)
    (hentries : ∀ q ∈ r.1.entries, sanitize q = p → q ∈ s.debouncer.entries)
    (hkeep : ∀ q ∈ s.debouncer.entries, sanitize q = p →
      q ∈ r.1.entries ∨ ∃ eventType, eventType ≠ .delete ∧ (q, eventType) ∈ r.2) :
    Due p (s.fire r) ↔ Due p s := by
  rw [Due, stored_fire_iff]
  constructor
  · rintro ((⟨cb, hcb, -, hp⟩ | hstored) | ⟨q, hq, hp⟩)
    · exact Or.inr ⟨cb.1, hcallbacks cb hcb hp, hp⟩
    · exact Or.inl hstored
    · exact Or.inr ⟨q, hentries q hq hp, hp⟩
  · rintro (hstored | ⟨q, hq, hp⟩)
    · exact Or.inl (Or.inr hstored)
    · rcases hkeep q hq hp with hin | ⟨eventType, hne, hcb⟩
      · exact Or.inr ⟨q, hin, hp⟩
      · exact Or.inl (Or.inl ⟨_, hcb, hne, hp⟩)

theorem due_handsOver_iff {p : Bytes} {s : Pipeline} {r : Debouncer × List Callback}
    (h : s.debouncer.HandsOver r) : Due p (s.fire r) ↔ Due p s := by
  refine due_fire_iff (fun cb hcb _ => (h.callback cb hcb).1) (fun q hq _ => h.entry hq)
    fun q hq _ => ?_
  exact (h.kept hq).imp_right fun hcb => ⟨.mtime, by simp, hcb⟩

/-- A call for other paths leaves it as it is. -/
theorem due_call_iff_of_not {p : Bytes} {s : Pipeline} {now : ℤ} {c : HandlerCall}
    (h : ∀ q ∈ callPaths c, sanitize q ≠ p) : Due p (s.call now c) ↔ Due p s := by
  cases c with
  | onRename oldPath newPath =>
    have hold := h oldPath (by simp [callPaths])
    have hnew := h newPath (by simp [callPaths])
    refine or_congr_left ?_
    show Stored p (s.emitted ++ [.rename oldPath newPath]) ↔ Stored p s.emitted
    rw [stored_append, stored_singleton]
    simp [Stores, TakesOut, hold, hnew]
  | onEvent path eventType =>
    have hpath := h path (by simp [callPaths])
    have hother : ∀ q, sanitize q = p → path ≠ q := by
      rintro q hq rfl
      exact hpath hq
    refine due_fire_iff (fun cb hcb hp => ?_) (fun q hq hp => ?_) fun q hq hp => ?_
    · rw [Debouncer.eq_of_mem_callbacks_onEvent hcb] at hp
      exact absurd hp hpath
    · exact (Debouncer.mem_of_mem_onEvent hq).resolve_left (hother q hp).symm
    · rcases s.debouncer.mem_or_reported_onEvent now (Or.inl hq) fun _ => hother q hp with
        hin | ⟨heq, -⟩
      · exact Or.inl hin
      · exact absurd heq.symm (hother q hp)

/-- A call for the path decides what becomes of it. -/
theorem due_call_iff_of_concerns {p : Bytes} {s : Pipeline} {now : ℤ} {c : HandlerCall}
    (h : ∃ q ∈ callPaths c, sanitize q = p) :
    Due p (s.call now c) ↔ ¬ LeavesClear p s c := by
  cases c with
  | onRename oldPath newPath =>
    show Stored p (s.emitted ++ [.rename oldPath newPath]) ∨
      (∃ q ∈ s.debouncer.entries, sanitize q = p) ↔ _
    rw [stored_append, stored_singleton]
    by_cases hnew : sanitize newPath = p
    · simp [Stores, LeavesClear, hnew]
    · have hold : sanitize oldPath = p := by
        obtain ⟨q, hq, hp⟩ := h
        rcases List.mem_cons.mp hq with rfl | hq
        · exact hp
        · rw [List.mem_singleton.mp hq] at hp
          exact absurd hp hnew
      simp [Stores, TakesOut, LeavesClear, hnew, hold]
  | onEvent path eventType =>
    have hpath : sanitize path = p := by
      obtain ⟨q, hq, hp⟩ := h
      rwa [List.mem_singleton.mp hq] at hp
    show Due p (s.fire (s.debouncer.onEvent now path eventType)) ↔ _
    by_cases hdel : eventType = .delete
    · subst hdel
      rw [Debouncer.onEvent_delete, Due, stored_fire_iff]
      show ((∃ cb ∈ [(path, EventType.delete)], _) ∨ _) ∨
        (∃ q ∈ s.debouncer.entries.erase path, sanitize q = p) ↔ _
      simp only [List.mem_singleton, exists_eq_left, ne_eq, not_true_eq_false, false_and, false_or,
        LeavesClear, true_and, Finmap.mem_erase]
      rw [not_and_or, not_not]
      refine or_congr_right ?_
      rw [not_forall]
      exact exists_congr fun q => by tauto
    · refine iff_of_true ?_ fun hclear => hdel hclear.1
      rw [Due, stored_fire_iff]
      rcases s.debouncer.mem_or_reported_onEvent now (Or.inr rfl) fun hd => absurd hd hdel with
        hin | ⟨-, -, hcb⟩
      · exact Or.inr ⟨path, hin, hpath⟩
      · exact Or.inl (Or.inl ⟨_, hcb ▸ List.mem_cons_self, hdel, hpath⟩)

/-! ## Along a run -/

theorem due_step_iff_of_concerns {p : Bytes} {s t : Pipeline} {i : Input}
    (hstep : s.step i = some t) (h : Concerns p s i) :
    Due p t ↔ ¬ ∀ c ∈ s.calls i, LeavesClear p s c := by
  obtain ⟨c, hc, hconcerns⟩ := h
  cases i with
  | event evt now =>
    rcases handleEvent_calls s.ectx evt with hnil | ⟨d, hd⟩
    · rw [Pipeline.calls, hnil] at hc
      cases hc
    · rw [Pipeline.calls, hd] at hc ⊢
      obtain rfl := List.mem_singleton.mp hc
      rw [List.forall_mem_singleton, eq_of_step_event hstep, hd, List.foldl_cons, List.foldl_nil]
      exact due_call_iff_of_concerns (s := { s with ectx := (handleEvent s.ectx evt).1 }) hconcerns
  | tick now order => cases hc
  | flushAll order => cases hc

theorem due_step_iff_of_not {p : Bytes} {s t : Pipeline} {i : Input} (hstep : s.step i = some t)
    (h : ¬ Concerns p s i) : Due p t ↔ Due p s := by
  cases i with
  | event evt now =>
    rw [eq_of_step_event hstep]
    rcases handleEvent_calls s.ectx evt with hnil | ⟨c, hc⟩
    · rw [hnil]
      exact Iff.rfl
    · rw [hc, List.foldl_cons, List.foldl_nil]
      refine due_call_iff_of_not (s := { s with ectx := (handleEvent s.ectx evt).1 })
        fun q hq hp => h ⟨c, ?_, q, hq, hp⟩
      rw [Pipeline.calls, hc]
      exact List.mem_singleton.mpr rfl
  | tick now order =>
    simp only [Pipeline.step] at hstep
    split_ifs at hstep with horder
    rw [← Option.some.inj hstep]
    exact due_handsOver_iff (Debouncer.handsOver_tick horder)
  | flushAll order =>
    simp only [Pipeline.step] at hstep
    split_ifs at hstep with horder
    rw [← Option.some.inj hstep]
    exact due_handsOver_iff (Debouncer.handsOver_flushAll horder)

/-- The paths in the calls of the callback are spelled by records, and not empty. -/
theorem callPaths_ne_nil {ectx : EventCtx} {evts : List FileEvent}
    (hslot : ectx.hasPendingRename = true → ectx.pendingRenameFrom ≠ []) :
    ∀ c ∈ handleEvents ectx evts, ∀ q ∈ callPaths c, q ≠ [] := by
  induction evts generalizing ectx with
  | nil => simp [handleEvents]
  | cons evt evts ih =>
    have hpath := buildPath_ne_nil evt
    have hevt : (∀ c ∈ (handleEvent ectx evt).2, ∀ q ∈ callPaths c, q ≠ []) ∧
        ((handleEvent ectx evt).1.hasPendingRename = true →
          (handleEvent ectx evt).1.pendingRenameFrom ≠ []) := by
      unfold handleEvent
      cases evt.eventType with
      | renameFrom => exact ⟨by simp, fun _ => hpath⟩
      | renameTo =>
        simp only
        split_ifs with hpending
        · exact ⟨by simp [callPaths, hpath, hslot hpending], by simp⟩
        · exact ⟨by simp, by simp⟩
        · exact ⟨by simp, hslot⟩
      | _ =>
        simp only
        split_ifs
        · exact ⟨by simp [callPaths, hpath], by simp⟩
        · exact ⟨by simp, by simp⟩
    intro c hc
    rcases List.mem_append.mp hc with hc | hc
    · exact hevt.1 c hc
    · exact ih hevt.2 c hc

/-! ## At the consumer -/

/-- The consumer reads one message from every report that it can parse. -/
theorem says_of_delivered {hostname : Bytes} {vs : List (Option Bytes)} {emitted : List Emission}
    (hparse : ∀ v ∈ vs, Parseable v) (hne : ∀ ev ∈ emitted, ∀ q ∈ paths ev, q ≠ [])
    (h : List.Forall₂ (fun v ev => ∃ tsMs, v = some (Emission.json tsMs hostname ev)) vs emitted) :
    Says vs (emitted.filterMap msg) ∧ ∀ ev ∈ emitted, ∃ m, msg ev = some m := by
  induction h with
  | nil => exact ⟨.nil, by simp⟩
  | @cons v ev vs emitted hv _ ih =>
    obtain ⟨tsMs, rfl⟩ := hv
    rw [List.forall_mem_cons] at hparse hne
    obtain ⟨hhost, hread⟩ := readable_of_parseable hparse.1
    obtain ⟨m, hm, hwell⟩ := wellFormed_json_of_readable tsMs hhost
      fun q hq => ⟨hne.1 q hq, hread q hq⟩
    obtain ⟨hcarry, hall⟩ := ih hparse.2 hne.2
    rw [List.filterMap_cons_some hm, List.forall_mem_cons]
    exact ⟨.cons hwell hcarry, ⟨m, hm⟩, hall⟩

/-- Two paths have the same text exactly when they are stored as the same. -/
theorem text_eq_iff {p q : Bytes} {t u : Text} (ht : decode p = some t)
    (hu : decode (sanitize q) = some u) : u = t ↔ sanitize q = p := by
  constructor
  · rintro rfl
    rw [← encode_of_decode hu, encode_of_decode ht]
  · rintro rfl
    exact Option.some.inj (hu.symm.trans ht)

theorem sets_iff {p : Bytes} {t : Text} (ht : decode p = some t) {ev : Emission} {m : AgentMsg}
    (hm : msg ev = some m) : (m.Sets t ↔ Stores p ev) ∧ (m.Clears t ↔ TakesOut p ev) := by
  cases ev with
  | delete q =>
    obtain rfl : AgentMsg.delete = m := Option.some.inj hm
    exact ⟨Iff.rfl, Iff.rfl⟩
  | mtimeChange q =>
    obtain ⟨u, hu, rfl⟩ := Option.map_eq_some_iff.mp hm
    exact ⟨text_eq_iff ht hu, Iff.rfl⟩
  | rename oldPath newPath =>
    rw [msg] at hm
    split at hm
    · rename_i o n ho hn
      obtain rfl := Option.some.inj hm
      exact ⟨text_eq_iff ht hn, and_congr (text_eq_iff ht ho) (text_eq_iff ht hn).not⟩
    · cases hm

/-- A path that is stored has a text. -/
theorem exists_text_of_stores {p : Bytes} {ev : Emission} {m : AgentMsg} (hm : msg ev = some m)
    (h : Stores p ev) : ∃ t, decode p = some t := by
  cases ev with
  | delete q => exact h.elim
  | mtimeChange q =>
    obtain ⟨u, hu, -⟩ := Option.map_eq_some_iff.mp hm
    exact ⟨u, h ▸ hu⟩
  | rename oldPath newPath =>
    rw [msg] at hm
    split at hm
    · rename_i o n ho hn
      exact ⟨n, h ▸ hn⟩
    · cases hm

/-- A field that a report sets is the text of a path. -/
theorem decode_encode_of_sets {ev : Emission} {m : AgentMsg} {t : Text} (hm : msg ev = some m)
    (h : m.Sets t) : decode (encode t) = some t := by
  have htext : ∀ {q : Bytes}, decode (sanitize q) = some t → decode (encode t) = some t := by
    intro q hq
    rw [encode_of_decode hq, hq]
  cases ev with
  | delete q =>
    obtain rfl : AgentMsg.delete = m := Option.some.inj hm
    exact h.elim
  | mtimeChange q =>
    obtain ⟨u, hu, rfl⟩ := Option.map_eq_some_iff.mp hm
    obtain rfl : u = t := h
    exact htext hu
  | rename oldPath newPath =>
    rw [msg] at hm
    split at hm
    · rename_i o n ho hn
      obtain rfl := Option.some.inj hm
      obtain rfl : n = t := h
      exact htext hn
    · cases hm

/-- **What the messages leave in the hash**: a field for every path that is stored. -/
theorem mem_run_iff_stored {p : Bytes} {t : Text} (ht : decode p = some t)
    {emitted : List Emission} (hmsg : ∀ ev ∈ emitted, ∃ m, msg ev = some m) :
    t ∈ run (∅ : Hash) (commandsOf (emitted.filterMap msg)) ↔ Stored p emitted := by
  induction emitted using List.reverseRecOn with
  | nil =>
    refine iff_of_false Finmap.notMem_empty ?_
    rintro ⟨before, ev, after, hsplit, -⟩
    simp at hsplit
  | append_singleton emitted ev ih =>
    obtain ⟨m, hm⟩ := hmsg ev (List.mem_append_right _ (List.mem_singleton.mpr rfl))
    have hrest := ih fun e he => hmsg e (List.mem_append_left _ he)
    obtain ⟨hsets, hclears⟩ := sets_iff ht hm
    rw [List.filterMap_append, List.filterMap_cons_some hm, List.filterMap_nil, commandsOf,
      List.flatMap_append, List.flatMap_singleton, run_append, mem_run_commands, ← commandsOf,
      hrest, hsets, hclears, stored_append, stored_singleton, List.forall_mem_singleton]

namespace RenameRun

variable {floatRepr : Text → Text} (r : RenameRun floatRepr)

theorem emitted_ne_nil : ∀ ev ∈ r.final.emitted, ∀ q ∈ paths ev, q ≠ [] :=
  ((AllPaths.init (· ≠ []) _ _ _).exec r.exec_eq (callPaths_ne_nil (by simp [Pipeline.init,
    EventCtx.init]))).2

/-- The fields of the hash are the paths that are stored. -/
theorem mem_pending_iff {p : Bytes} :
    (∃ t ∈ r.session.pending, encode t = p) ↔ Stored p r.final.emitted := by
  obtain ⟨hparse, -⟩ := runTrue_init_flush_iff.mp ⟨_, r.processed, rfl⟩
  obtain ⟨hcarry, hmsg⟩ := says_of_delivered hparse r.emitted_ne_nil r.delivered
  obtain ⟨-, hpending⟩ := (runTrue_flush_iff hcarry).mp ⟨_, r.processed, rfl⟩
  rw [r.pending_eq] at hpending
  rw [hpending]
  constructor
  · rintro ⟨t, ht, rfl⟩
    rcases (mem_run_commandsOf _ _ _).mp ht with ⟨before, m, after, hsplit, hsets, -⟩ | ⟨hempty, -⟩
    · have hm : m ∈ r.final.emitted.filterMap msg := by
        rw [hsplit]
        exact List.mem_append_right _ List.mem_cons_self
      obtain ⟨ev, -, hev⟩ := List.mem_filterMap.mp hm
      exact (mem_run_iff_stored (decode_encode_of_sets hev hsets) hmsg).mp ht
    · exact absurd hempty Finmap.notMem_empty
  · intro hstored
    have hmem : ∃ ev ∈ r.final.emitted, Stores p ev := by
      obtain ⟨before, ev, after, hsplit, hev, -⟩ := hstored
      rw [hsplit]
      exact ⟨ev, List.mem_append_right _ List.mem_cons_self, hev⟩
    obtain ⟨ev, hev, hstores⟩ := hmem
    obtain ⟨m, hm⟩ := hmsg ev hev
    obtain ⟨t, ht⟩ := exists_text_of_stores hm hstores
    exact ⟨t, (mem_run_iff_stored ht hmsg).mpr hstored, encode_of_decode ht⟩

/-- **What becomes of a path**: the last call for it decides. -/
theorem stored_final_iff {p : Bytes} : Stored p r.final.emitted ↔ ¬ r.ClearedAtLast p := by
  have hdue : Due p r.final ↔ Stored p r.final.emitted := by
    rw [Due, r.entries_final]
    simp [Finmap.notMem_empty]
  have hinit : ¬ Due p (.init r.quietPeriod r.maxWait r.watchPrefix) := by
    rintro (⟨before, ev, after, hsplit, -⟩ | ⟨q, hq, -⟩)
    · simp [Pipeline.init] at hsplit
    · exact absurd hq Finmap.notMem_empty
  rw [← hdue, exec_iff_last (fun s i t => due_step_iff_of_concerns)
    (fun s i t => due_step_iff_of_not) r.exec_eq]
  rw [or_iff_left fun h => hinit h.1, ClearedAtLast]
  simp only [not_forall, exists_prop]

end RenameRun

/-- **When renames are respected.**  For every run: no path that was renamed away is a
field exactly when, for each of them, the last call of `handle_event` for it leaves it
clear. -/
theorem respectsRenames_iff {floatRepr : Text → Text} (r : RenameRun floatRepr) :
    r.RespectsRenames ↔ ∀ p, RenamedAway p r.calls → r.ClearedAtLast p := by
  refine forall_congr' fun p => forall_congr' fun _ => ?_
  rw [← not_iff_not, ← r.stored_final_iff, ← r.mem_pending_iff]
  simp only [not_forall, not_not, exists_prop]

/-! ## A change that waits -/

/-- The file `/home/b`. -/
def homeB : Dentry :=
  ⟨ascii "b", by decide +kernel, by decide +kernel, by decide +kernel, by decide +kernel⟩ ::
    homeA.tail

/-- The messages of `/home/a` renamed to `/home/b`, and of its change. -/
def overtakenCalls : List Call := [
  .parse (some ((Emission.rename (ascii "/home/a") (ascii "/home/b")).json 1710000001000
    (ascii "node-001"))),
  .parse (some ((Emission.mtimeChange (ascii "/home/a")).json 1710000001001 (ascii "node-001")))]

/-- What the consumer makes of them. -/
def overtakenSession : Option Session :=
  (Session.mk .init ∅).runTrue id (overtakenCalls ++ [.flush])

/-- The file `/home/a` is written, and renamed to `/home/b` a second later. -/
def overtaken : RenameRun id where
  watchPrefix := ascii "/home"
  hostname := ascii "node-001"
  quietPeriod := 10000
  maxWait := 3600000
  calls := [⟨.write homeA, true⟩, ⟨.rename homeA homeB, true⟩]
  inputs := [.event (recordA .mtime) 0, .event (recordA .renameFrom) 1000000000,
    .event ⟨recordNames homeB.names, .renameTo⟩ 1000000000]
  order := [ascii "/home/a"]
  final := ⟨⟨ascii "/home", ascii "/home/a", false⟩, .init 10000 3600000,
    [.rename (ascii "/home/a") (ascii "/home/b"), .mtimeChange (ascii "/home/a")]⟩
  pending := ∅
  consumer := overtakenCalls
  events_eq := by rfl
  exec_eq := by rfl
  delivered := .cons ⟨_, rfl⟩ (.cons ⟨_, rfl⟩ .nil)
  succeeds := by decide
  times := by decide
  pending_eq := rfl
  session := overtakenSession.get (by decide +kernel)
  processed := (Option.some_get _).symm

theorem RenameRun.not_respectsRenames {floatRepr : Text → Text} {r : RenameRun floatRepr}
    {file : Dentry} {t : Text} (hrenamed : RenamedAway file.path r.calls)
    (htext : encode t = file.path)
    (hmem : ∀ s, (Session.mk .init r.pending).runTrue floatRepr (r.consumer ++ [.flush]) = some s →
      t ∈ s.pending) : ¬ r.RespectsRenames :=
  fun h => h _ hrenamed t (hmem r.session r.processed) htext

/-- The change is reported behind the rename, and `/home/a` is a field again. -/
theorem not_respectsRenames_overtaken :
    ¬ ∀ (floatRepr : Text → Text) (r : RenameRun floatRepr), r.RespectsRenames := by
  intro hclaim
  have hrenamed : RenamedAway homeA.path overtaken.calls :=
    ⟨[⟨.write homeA, true⟩], homeA, homeB, true, [], rfl, rfl, by decide +kernel, nofun⟩
  have htext : encode (text "/home/a") = homeA.path := by decide +kernel
  have hfield : (overtakenSession.map fun s => s.pending.lookup (text "/home/a")) =
      some (some (text "mtime_change")) := by
    decide +kernel
  refine RenameRun.not_respectsRenames hrenamed htext (fun s hs => ?_) (hclaim id overtaken)
  rw [show overtakenSession = some s from hs] at hfield
  exact Finmap.mem_of_lookup_eq_some (Option.some.inj hfield)

end System
end FileTracker
