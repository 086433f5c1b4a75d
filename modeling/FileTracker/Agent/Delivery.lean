import FileTracker.Agent.Process

/-!
# Every event is answered

What becomes of an event that the ring buffer hands to the callback.  If it is under the
watched prefix, `handle_event` calls `on_rename` or the debouncer for it, and for every
such call a message is sent later in the life of the process: a rename or a delete at
once, a change of a file when the debouncer reports it, where a later delete of the file
takes the change's place.  When the process has ended without a crash, and has been able
to write its log, the message is acknowledged, or in the log for the next process, or it
was dropped because the log had reached its limit (`answered_of_exited`).

The invariant is that the process owes an answer: it has an entry for the path, or a
callback still to be made.  `Process.Settled` says that it owes nothing once `flush_all`
and its callbacks are done.
-/

namespace FileTracker
namespace Agent

open Runs

/-! ## One input -/

/-- The message answers the call. -/
def Answers : HandlerCall → Emission → Prop
  | .onRename oldPath newPath, ev => ev = .rename oldPath newPath
  | .onEvent path .delete, ev => ev = .delete path
  | .onEvent path _, ev => ev = .mtimeChange path ∨ ev = .delete path

/-- What the pipeline emits between two states. -/
def Pipeline.emittedSince (s t : Pipeline) : List Emission := t.emitted.drop s.emitted.length

@[simp] theorem emittedSince_fire (s : Pipeline) (r : Debouncer × List Callback) :
    s.emittedSince (s.fire r) = r.2.map sendEvent := by
  simp [Pipeline.emittedSince, Pipeline.fire]

/-- An entry of a file is kept, or the file is reported, or its delete. -/
theorem mem_entries_or_reported {s t : Pipeline} {i : Input} (hstep : s.step i = some t)
    {path : Bytes} (hpath : path ∈ s.debouncer.entries) :
    path ∈ t.debouncer.entries ∨
      ∃ ev ∈ s.emittedSince t, ev = .mtimeChange path ∨ ev = .delete path := by
  have hover : ∀ {r}, s.debouncer.HandsOver r → path ∈ (s.fire r).debouncer.entries ∨
      ∃ ev ∈ s.emittedSince (s.fire r), ev = .mtimeChange path ∨ ev = .delete path := by
    intro r hr
    rcases hr.kept hpath with hin | hcb
    · exact Or.inl hin
    · refine Or.inr ⟨.mtimeChange path, ?_, Or.inl rfl⟩
      rw [emittedSince_fire]
      exact List.mem_map_of_mem (f := sendEvent) hcb
  cases i with
  | event evt now =>
    obtain rfl := eq_of_step_event hstep
    rcases handleEvent_calls s.ectx evt with hcalls | ⟨c, hcalls⟩ <;> rw [hcalls]
    · exact Or.inl hpath
    · rw [List.foldl_cons, List.foldl_nil]
      cases c with
      | onRename oldPath newPath => exact Or.inl hpath
      | onEvent q eventType =>
        have hsince : s.emittedSince (Pipeline.call now
            { s with ectx := (handleEvent s.ectx evt).1 } (.onEvent q eventType)) =
              (s.debouncer.onEvent now q eventType).2.map sendEvent :=
          emittedSince_fire s _
        rw [hsince]
        by_cases hdel : eventType = .delete ∧ q = path
        · obtain ⟨rfl, rfl⟩ := hdel
          exact Or.inr ⟨.delete q, by simp [Debouncer.onEvent, sendEvent], Or.inr rfl⟩
        · rcases s.debouncer.mem_or_reported_onEvent now (Or.inl hpath)
            (fun he hq => hdel ⟨he, hq⟩) with hin | ⟨rfl, hne, hcb⟩
          · exact Or.inl hin
          · refine Or.inr ⟨.mtimeChange path, ?_, Or.inl rfl⟩
            rw [hcb]
            cases eventType <;> simp [sendEvent] at hne ⊢
  | tick now order =>
    simp only [Pipeline.step] at hstep
    split_ifs at hstep with horder
    obtain rfl := Option.some.inj hstep
    exact hover (Debouncer.handsOver_tick horder)
  | flushAll order =>
    simp only [Pipeline.step] at hstep
    split_ifs at hstep with horder
    obtain rfl := Option.some.inj hstep
    exact hover (Debouncer.handsOver_flushAll horder)

/-- A call of the callback is answered at once, or leaves an entry. -/
theorem answered_or_mem_entries {s t : Pipeline} {evt : FileEvent} {now : ℤ}
    (hstep : s.step (.event evt now) = some t) {c : HandlerCall}
    (hc : c ∈ s.calls (.event evt now)) :
    (∃ ev ∈ s.emittedSince t, Answers c ev) ∨
      ∃ path eventType, c = .onEvent path eventType ∧ eventType ≠ .delete ∧
        path ∈ t.debouncer.entries := by
  obtain rfl := eq_of_step_event hstep
  have hcalls : (handleEvent s.ectx evt).2 = [c] := by
    have hmem : c ∈ (handleEvent s.ectx evt).2 := hc
    rcases handleEvent_calls s.ectx evt with hnil | ⟨d, hd⟩
    · rw [hnil] at hmem
      cases hmem
    · rw [hd] at hmem ⊢
      rw [List.mem_singleton.mp hmem]
  rw [hcalls, List.foldl_cons, List.foldl_nil]
  cases c with
  | onRename oldPath newPath =>
    exact Or.inl ⟨.rename oldPath newPath, by simp [Pipeline.emittedSince, Pipeline.call], rfl⟩
  | onEvent path eventType =>
    have hsince : s.emittedSince (Pipeline.call now
        { s with ectx := (handleEvent s.ectx evt).1 } (.onEvent path eventType)) =
          (s.debouncer.onEvent now path eventType).2.map sendEvent :=
      emittedSince_fire s _
    rw [hsince]
    by_cases hdel : eventType = .delete
    · subst hdel
      exact Or.inl ⟨.delete path, by simp [Debouncer.onEvent, sendEvent], rfl⟩
    · rcases s.debouncer.mem_or_reported_onEvent now (Or.inr rfl)
        (fun he => absurd he hdel) with hin | ⟨-, -, hcb⟩
      · exact Or.inr ⟨path, eventType, rfl, hdel, hin⟩
      · refine Or.inl ⟨.mtimeChange path, ?_, ?_⟩
        · rw [hcb]
          cases eventType <;> simp [sendEvent] at hdel ⊢
        · cases eventType with
          | delete => exact absurd rfl hdel
          | _ => exact Or.inl rfl

/-! ## The shutdown -/

/-- Behind `flush_all` the debouncer is empty, behind its callbacks nothing is left to send,
and a process that has ended has had its delivery reports. -/
structure Process.Settled (s : Process) : Prop where
  flushed : s.main.pc = .drain → s.turned = true → s.pipe.debouncer.entries = ∅
  ended : s.main.pc.over = true → s.pipe.debouncer.entries = ∅ ∧ s.todo = []
  served : s.main.pc = .exited → s.main.queue = 0

variable {cfg : ProcessConfig}

theorem Process.Settled.initial (cfg : ProcessConfig) (records : List Record) :
    (Process.initial cfg records).Settled :=
  ⟨fun _ _ => rfl, fun _ => ⟨rfl, rfl⟩, fun _ => rfl⟩

/-- How `main` comes to the end: from the `drain` or the destructor, whose messages have all
been served, or it is there. -/
inductive Pc.Ends (s : Main) (l : Label) (t : Main) : Prop where
  | drained (retry : Bool) (hl : l = .proceed retry) (hpc : s.pc = .drain)
      (ht : t.pc = .finalFlush)
  | within (hpc : s.pc.over = true) (hserved : t.pc = .exited → t.queue = 0)

theorem ends_of_over {s t : Main} {l : Label} (hl : l.crashes = false)
    (h : s.step cfg.toConfig l = some t) (hover : t.pc.over = true) : Pc.Ends s l t := by
  cases l with
  | crash => cases hl
  | callback tsMs src accepted =>
    obtain ⟨hcalls, hpc, -⟩ := callback_pc h
    rw [hpc] at hover
    cases hs : s.pc <;> simp [hs, Pc.calls, Pc.over] at hcalls hover
  | report json ok =>
    simp only [Main.step] at h
    split_ifs at h with hserves
    obtain rfl := Option.some.inj h
    rw [(report_pc _ _ _ _).1] at hover
    refine .within hover fun hexited => ?_
    rw [(report_pc _ _ _ _).1] at hexited
    simp [hexited, Pc.serves] at hserves
  | read =>
    simp only [Main.step] at h
    split at h
    · split_ifs at h <;>
      · obtain rfl := Option.some.inj h
        simp [Pc.over] at hover
    · cases h
  | truncate =>
    simp only [Main.step] at h
    split at h
    · obtain rfl := Option.some.inj h
      simp [Pc.over] at hover
    · cases h
  | resend accepted =>
    simp only [Main.step] at h
    split at h
    · obtain rfl := Option.some.inj h
      simp [(send_pc _ _ _ _).1, Pc.over] at hover
    · cases h
  | proceed retry =>
    simp only [Main.step] at h
    split at h
    case h_5 hpc =>
      obtain rfl := Option.some.inj h
      exact .drained retry rfl hpc rfl
    case h_6 hpc =>
      obtain rfl := Option.some.inj h
      exact .within (by simp [hpc, Pc.over]) (by simp)
    case h_7 hpc =>
      split_ifs at h with hqueue
      obtain rfl := Option.some.inj h
      exact .within (by simp [hpc, Pc.over]) fun _ => hqueue
    case h_8 => cases h
    all_goals
      try split_ifs at h
    all_goals
      obtain rfl := Option.some.inj h
      simp [Pc.over] at hover
  | stop =>
    simp only [Main.step] at h
    split at h
    · obtain rfl := Option.some.inj h
      simp [Pc.over] at hover
    · cases h
  | start =>
    simp only [Main.step] at h
    split at h
    · obtain rfl := Option.some.inj h
      simp [Pc.over] at hover
    · cases h

/-- `main` comes to the `drain` by leaving the loop. -/
theorem drain_of_step {s t : Main} {l : Label} (h : s.step cfg.toConfig l = some t)
    (hpc : t.pc = .drain) : l = .stop ∨ s.pc = .drain ∧ ∀ retry, l ≠ .proceed retry := by
  cases l with
  | callback tsMs src accepted => exact Or.inr ⟨(callback_pc h).2.1 ▸ hpc, by simp⟩
  | report json ok =>
    simp only [Main.step] at h
    split_ifs at h
    obtain rfl := Option.some.inj h
    exact Or.inr ⟨(report_pc _ _ _ _).1 ▸ hpc, by simp⟩
  | stop => exact Or.inl rfl
  | resend accepted =>
    simp only [Main.step] at h
    split at h
    · obtain rfl := Option.some.inj h
      simp [(send_pc _ _ _ _).1] at hpc
    · cases h
  | _ =>
    simp only [Main.step] at h
    split at h
    all_goals
      try split_ifs at h
    all_goals
      first
        | (obtain rfl := Option.some.inj h; simp at hpc)
        | cases h

/-- What the bookkeeping does to the pipeline: nothing, or the process starts. -/
theorem book_settled (cfg : ProcessConfig) (s : Process) (now : ℤ) (l : Label) :
    ((s.book cfg now l).pipe = s.pipe ∧ (s.book cfg now l).todo = s.todo) ∨ l = .start := by
  by_cases hl : l = .start
  · exact Or.inr hl
  · exact Or.inl (Process.book_eq hl now)

/-- **One step** of a process that lives keeps its end in order. -/
theorem Process.Settled.step {s t : Process} {l : ProcessLabel} (h : s.Settled)
    (hstep : s.step cfg l = some t) (halive : l.alive = true) : t.Settled := by
  cases Process.moves_of_step hstep with
  | input i pipe hpc hturned htodo hpipe =>
    have hover : s.main.pc.over = false := by
      cases hs : s.main.pc <;> simp_all [Pc.takes, Pc.over]
    refine ⟨fun hdrain _ => ?_, fun ho => ?_, fun hexited => ?_⟩
    · simp only at hdrain
      rw [hdrain] at hpc
      cases i with
      | flushAll order =>
        simp only [Pipeline.step] at hpipe
        split_ifs at hpipe
        obtain rfl := Option.some.inj hpipe
        rfl
      | _ => simp [Pc.takes] at hpc
    · simp only [hover] at ho
      cases ho
    · simp only at hexited
      rw [hexited, Pc.over] at hover
      cases hover
  | callback tsMs src accepted todo main htodo hmain =>
    obtain ⟨hcalls, hpc, -⟩ := callback_pc hmain
    refine ⟨fun hdrain hturned => h.flushed (hpc ▸ hdrain) hturned, fun ho => ?_,
      fun hexited => ?_⟩
    · have hover : s.main.pc.over = true := hpc ▸ ho
      cases hs : s.main.pc <;> simp [hs, Pc.calls, Pc.over] at hcalls hover
    · simp only at hexited
      rw [← hpc, hexited] at hcalls
      cases hcalls
  | call l now main htodo hpermits hmain =>
    have hlive : l.crashes = false := by simpa [ProcessLabel.alive] using halive
    have hnil : s.todo = [] := htodo.resolve_right (by simp [hlive])
    refine ⟨fun hdrain hturned => ?_, fun ho => ?_, fun hexited => ?_⟩
    · rcases drain_of_step hmain hdrain with rfl | ⟨hpc, hproceed⟩
      · have hnot : s.turned = false := by simpa [Process.permits] using hpermits
        have hturned : s.turned = true := hturned
        rw [hnot] at hturned
        cases hturned
      · have hstart : l ≠ .start := by
          rintro rfl
          simp [Main.step, hpc] at hmain
        have hkeep : (s.book cfg now l).turned = s.turned := by
          cases l with
          | proceed retry => exact absurd rfl (hproceed retry)
          | start => exact absurd rfl hstart
          | report json ok => cases ok <;> rfl
          | read => simp [Process.book, hpc]
          | _ => rfl
        show (s.book cfg now l).pipe.debouncer.entries = ∅
        rw [(Process.book_eq hstart now).1]
        exact h.flushed hpc (hkeep ▸ hturned)
    · have hstart : l ≠ .start := by
        rintro rfl
        simp only [Main.step] at hmain
        split at hmain
        · obtain rfl := Option.some.inj hmain
          cases ho
        · cases hmain
      show (s.book cfg now l).pipe.debouncer.entries = ∅ ∧ (s.book cfg now l).todo = []
      rw [(Process.book_eq hstart now).1, (Process.book_eq hstart now).2]
      cases ends_of_over hlive hmain ho with
      | drained retry hl hpc _ =>
        subst hl
        have hturned : s.turned = true := by simpa [Process.permits, hpc] using hpermits
        exact ⟨h.flushed hpc hturned, hnil⟩
      | within hpc _ => exact ⟨(h.ended hpc).1, hnil⟩
    · have hover : main.pc.over = true := by
        rw [show main.pc = .exited from hexited]
        rfl
      cases ends_of_over hlive hmain hover with
      | drained retry _ _ hpc =>
        rw [show main.pc = .exited from hexited] at hpc
        cases hpc
      | within _ hserved => exact hserved hexited

/-! ## What the process owes -/

/-- A callback that answers the call is still to be made, or there is an entry for it. -/
def Process.Owes (s : Process) (c : HandlerCall) : Prop :=
  (∃ ev ∈ s.todo, Answers c ev) ∨
    ∃ path eventType, c = .onEvent path eventType ∧ eventType ≠ .delete ∧
      path ∈ s.pipe.debouncer.entries

theorem answers_of_reported {path : Bytes} {eventType : EventType} (hne : eventType ≠ .delete)
    {ev : Emission} (h : ev = .mtimeChange path ∨ ev = .delete path) :
    Answers (.onEvent path eventType) ev := by
  cases eventType with
  | delete => exact absurd rfl hne
  | _ => exact h

/-- The step makes a callback that answers the call. -/
def Answering (c : HandlerCall) (l : ProcessLabel) : Prop :=
  ∃ tsMs src accepted, l = .callback tsMs src accepted ∧ Answers c src.emission

/-- **One step** of a process that lives answers a call, or goes on owing it. -/
theorem Process.Owes.step {s t : Process} {l : ProcessLabel} {c : HandlerCall} (h : s.Owes c)
    (hsettled : s.Settled) (hstep : s.step cfg l = some t) (halive : l.alive = true) :
    Answering c l ∨ t.Owes c := by
  cases Process.moves_of_step hstep with
  | input i pipe hpc hturned htodo hpipe =>
    right
    rcases h with ⟨ev, hev, -⟩ | ⟨path, eventType, rfl, hne, hpath⟩
    · rw [htodo] at hev
      cases hev
    · rcases mem_entries_or_reported hpipe hpath with hin | ⟨ev, hev, hreported⟩
      · exact Or.inr ⟨path, eventType, rfl, hne, hin⟩
      · exact Or.inl ⟨ev, hev, answers_of_reported hne hreported⟩
  | callback tsMs src accepted todo main htodo hmain =>
    rcases h with ⟨ev, hev, hanswers⟩ | hentry
    · rw [htodo] at hev
      rcases List.mem_cons.mp hev with rfl | hev
      · exact Or.inl ⟨tsMs, src, accepted, rfl, hanswers⟩
      · exact Or.inr (Or.inl ⟨ev, hev, hanswers⟩)
    · exact Or.inr (Or.inr hentry)
  | call l now main htodo hpermits hmain =>
    right
    rcases book_settled cfg s now l with ⟨hpipe, htodo'⟩ | rfl
    · unfold Process.Owes
      simp only [hpipe, htodo']
      exact h
    · -- a process that starts owes nothing of the one before
      have hpc : s.main.pc = .exited := by
        simp only [Main.step] at hmain
        split at hmain
        · assumption
        · cases hmain
      obtain ⟨hentries, hnil⟩ := hsettled.ended (by rw [hpc]; rfl)
      rcases h with ⟨ev, hev, -⟩ | ⟨path, eventType, -, -, hpath⟩
      · rw [hnil] at hev
        cases hev
      · rw [hentries] at hpath
        exact absurd hpath Finmap.notMem_empty

/-- **A whole run** of a process that lives and ends answers what it owes. -/
theorem Process.Owes.exec {s t : Process} {labels : List ProcessLabel} {c : HandlerCall}
    (h : s.Owes c) (hsettled : s.Settled) (halive : ∀ l ∈ labels, l.alive = true)
    (hrun : Runs.exec (Process.step cfg) s labels = some t) (hend : t.main.pc = .exited) :
    ∃ l ∈ labels, Answering c l := by
  induction labels generalizing s with
  | nil =>
    obtain rfl := Option.some.inj hrun
    obtain ⟨hentries, hnil⟩ := hsettled.ended (by rw [hend]; rfl)
    rcases h with ⟨ev, hev, -⟩ | ⟨path, eventType, -, -, hpath⟩
    · rw [hnil] at hev
      cases hev
    · rw [hentries] at hpath
      exact absurd hpath Finmap.notMem_empty
  | cons l labels ih =>
    rw [exec_cons] at hrun
    obtain ⟨u, hu, hrun⟩ := Option.bind_eq_some_iff.mp hrun
    have hl := halive l List.mem_cons_self
    rcases h.step hsettled hu hl with hanswer | howes
    · exact ⟨l, List.mem_cons_self, hanswer⟩
    · obtain ⟨k, hk, hanswer⟩ := ih howes (hsettled.step hu hl)
        (fun k hk => halive k (List.mem_cons_of_mem _ hk)) hrun
      exact ⟨k, List.mem_cons_of_mem _ hk, hanswer⟩

/-! ## Where the answer is -/

theorem sent_le_of_step {s t : Main} {l : Label} (h : s.step cfg.toConfig l = some t) :
    s.sent ≤ t.sent := by
  cases Main.moves_of_step h with
  | callback tsMs src accepted =>
    rw [(send_pc _ _ _ _).2]
    exact Multiset.le_cons_self _ _
  | report json ok => rw [(report_pc _ _ _ _).2]
  | resend block json records accepted => rw [(send_pc _ _ _ _).2]
  | _ => exact le_rfl

/-- The message of a callback is among those sent. -/
theorem mem_sent_of_callback {s t : Process} {labels : List ProcessLabel}
    (hrun : exec (Process.step cfg) s labels = some t) {tsMs : Int64} {src : Source}
    {accepted : Bool} (hmem : .callback tsMs src accepted ∈ labels) :
    src.json cfg.toConfig tsMs ∈ t.main.sent := by
  have hstep : ∀ s t, ∀ l ∈ labels, Process.step cfg s l = some t → s.main.sent ≤ t.main.sent := by
    intro s t l _ hst
    cases Process.moves_of_step hst with
    | input i pipe => exact le_rfl
    | callback tsMs src accepted todo main _ hmain => exact sent_le_of_step hmain
    | call l now main _ _ hmain => exact sent_le_of_step hmain
  obtain ⟨pre, post, rfl⟩ := List.append_of_mem hmem
  rw [exec_append] at hrun
  obtain ⟨u, -, hrun⟩ := Option.bind_eq_some_iff.mp hrun
  rw [exec_cons] at hrun
  obtain ⟨v, hv, hrun⟩ := Option.bind_eq_some_iff.mp hrun
  cases Process.moves_of_step hv with
  | callback _ _ _ todo main _ hmain =>
    refine exec_invariant (P := fun r => src.json cfg.toConfig tsMs ∈ r.main.sent)
      (fun r q l hl hr hst => Multiset.mem_of_le (hstep r q l ?_ hst) hr) ?_ hrun
    · exact List.mem_append_right _ (List.mem_cons_of_mem _ hl)
    · show src.json cfg.toConfig tsMs ∈ main.sent
      rw [(callback_pc hmain).2.2]
      exact Multiset.mem_cons_self _ _

/-- A message is where it should be when the process has ended: acknowledged, in the log,
or dropped with the log at its limit. -/
def Main.Keeps (cfg : Config) (s : Main) (json : Bytes) : Prop :=
  json ∈ s.acked ∨ json ∈ s.logged ∨ ∃ size, (json, size) ∈ s.dropped ∧ cfg.walMaxBytes ≤ size

theorem keeps_of_exited {records : List Record} {labels : List ProcessLabel} {t : Process}
    (hrun : exec (Process.step cfg) (.initial cfg records) labels = some t)
    (halive : ∀ l ∈ labels, l.alive = true) (hend : t.main.pc = .exited) {json : Bytes}
    (hsent : json ∈ t.main.sent) : t.main.Keeps cfg.toConfig json := by
  have hsettled : t.Settled := exec_invariant
    (fun u v l hl hu hstep => hu.step hstep (halive l hl)) (.initial cfg records) hrun
  obtain ⟨ms, main, hms, -, rfl, hseen⟩ :=
    (mainSimulation cfg).exec (a := .initial records) rfl hrun (guarded_true _ _)
  have hlabels : ms = labels.flatMap ProcessLabel.mainCalls := by simpa using hseen
  have hcrash : Label.crash ∉ ms := by
    rw [hlabels, List.mem_flatMap]
    rintro ⟨l, hl, hcall⟩
    have hl := halive l hl
    cases l with
    | input i => simp [ProcessLabel.mainCalls] at hcall
    | callback tsMs src accepted => simp [ProcessLabel.mainCalls] at hcall
    | call k now =>
      obtain rfl := List.mem_singleton.mp hcall
      simp [ProcessLabel.alive, Label.crashes] at hl
  have hconserved := Conserved.exec hcrash hms
  have hmem : json ∈ t.main.account := by
    rw [← hconserved.balance]
    exact Multiset.mem_add.mpr (Or.inl hsent)
  have hin : t.main.inHand = [] := Main.inHand_eq_nil (by rw [hend]; rfl)
  rw [Main.account, hsettled.served hend, hin] at hmem
  simp only [Multiset.mem_add, Multiset.mem_map, Multiset.mem_coe, Multiset.notMem_zero, or_false,
    List.not_mem_nil] at hmem
  rcases hmem with (hacked | hlogged) | ⟨⟨d, size⟩, hdropped, rfl⟩
  · exact Or.inl hacked
  · exact Or.inr (Or.inl hlogged)
  · exact Or.inr (Or.inr ⟨size, hdropped, hconserved.full _ hdropped⟩)

/-- Behind an event, a message is sent for every call that `handle_event` makes for it. -/
theorem sent_of_event {records : List Record} {before after : List ProcessLabel}
    {u t : Process} {evt : FileEvent} {now : ℤ}
    (hbefore : exec (Process.step cfg) (.initial cfg records) before = some u)
    (hafter : exec (Process.step cfg) u (.input (.event evt now) :: after) = some t)
    (halive : ∀ l ∈ before ++ after, l.alive = true) (hend : t.main.pc = .exited)
    {c : HandlerCall} (hc : c ∈ u.pipe.calls (.event evt now)) : ∃ tsMs src accepted,
      .callback tsMs src accepted ∈ after ∧ Answers c src.emission ∧
        src.json cfg.toConfig tsMs ∈ t.main.sent := by
  have hsettled : u.Settled := exec_invariant
    (fun v w l hl hv hstep => hv.step hstep (halive l (List.mem_append_left _ hl)))
    (.initial cfg records) hbefore
  rw [exec_cons] at hafter
  obtain ⟨v, hv, hrun⟩ := Option.bind_eq_some_iff.mp hafter
  have howes : v.Owes c := by
    cases Process.moves_of_step hv with
    | input i pipe _ _ _ hpipe => exact answered_or_mem_entries hpipe hc
  obtain ⟨l, hl, tsMs, src, accepted, rfl, hanswers⟩ := howes.exec (hsettled.step hv rfl)
    (fun l hl => halive l (List.mem_append_right _ hl)) hrun hend
  exact ⟨tsMs, src, accepted, hl, hanswers, mem_sent_of_callback hrun hl⟩

/-- What was sent behind an event is where it should be at the end. -/
theorem keeps_of_event {records : List Record} {before after : List ProcessLabel}
    {u t : Process} {evt : FileEvent} {now : ℤ}
    (hbefore : exec (Process.step cfg) (.initial cfg records) before = some u)
    (hafter : exec (Process.step cfg) u (.input (.event evt now) :: after) = some t)
    (halive : ∀ l ∈ before ++ after, l.alive = true) (hend : t.main.pc = .exited) {json : Bytes}
    (hsent : json ∈ t.main.sent) : t.main.Keeps cfg.toConfig json := by
  have hall : exec (Process.step cfg) (.initial cfg records)
      (before ++ .input (.event evt now) :: after) = some t := by
    rw [exec_append, hbefore]
    exact hafter
  refine keeps_of_exited hall (fun k hk => ?_) hend hsent
  rcases List.mem_append.mp hk with hk | hk
  · exact halive k (List.mem_append_left _ hk)
  · rcases List.mem_cons.mp hk with rfl | hk
    · rfl
    · exact halive k (List.mem_append_right _ hk)

/-- **Every event is answered.**  In a run without a crash up to the end of a process, for
every call that `handle_event` makes for an event a message is sent behind the event, and
at the end the message is acknowledged, or in the log, or was dropped with the log at its
limit. -/
theorem answered_of_exited {records : List Record} {before after : List ProcessLabel}
    {u t : Process} {evt : FileEvent} {now : ℤ}
    (hbefore : exec (Process.step cfg) (.initial cfg records) before = some u)
    (hafter : exec (Process.step cfg) u (.input (.event evt now) :: after) = some t)
    (halive : ∀ l ∈ before ++ after, l.alive = true) (hend : t.main.pc = .exited) :
    ∀ c ∈ u.pipe.calls (.event evt now), ∃ tsMs src accepted,
      .callback tsMs src accepted ∈ after ∧ Answers c src.emission ∧
        t.main.Keeps cfg.toConfig (src.json cfg.toConfig tsMs) := by
  intro c hc
  obtain ⟨tsMs, src, accepted, hmem, hanswers, hsent⟩ :=
    sent_of_event hbefore hafter halive hend hc
  exact ⟨tsMs, src, accepted, hmem, hanswers, keeps_of_event hbefore hafter halive hend hsent⟩

/-! ## A run -/

/-- The event of `oneWrite`. -/
def oneWriteEvent : FileEvent := ⟨recordNames [ascii "a.txt", ascii "home"], .mtime⟩

/-- The file is still in the debouncer when the process is asked to stop; the delivery of
its message fails. -/
def stoppedEarly : List ProcessLabel :=
  [.input (.tick 2000000000 [ascii "/home/a.txt"]), .call (.proceed false) 0,
    .call (.proceed false) 2100000000, .call .stop 0, .input (.flushAll [ascii "/home/a.txt"]),
    .callback 1710000000000 oneWrite true, .call (.proceed false) 0,
    .call (.report (oneWrite.json oneNode 1710000000000) false) 0, .call (.proceed false) 0,
    .call (.proceed false) 0]

theorem answered_of_exited_stoppedEarly :
    ∃ u t, exec (Process.step oneNodeProcess) (.initial oneNodeProcess [])
        [.call .start 0, .call .read 1000000000] = some u ∧
      exec (Process.step oneNodeProcess) u
        (.input (.event oneWriteEvent 1500000000) :: stoppedEarly) = some t ∧
      u.pipe.calls (.event oneWriteEvent 1500000000) = [.onEvent (ascii "/home/a.txt") .mtime] ∧
      ∀ c ∈ u.pipe.calls (.event oneWriteEvent 1500000000), ∃ tsMs src accepted,
        .callback tsMs src accepted ∈ stoppedEarly ∧ Answers c src.emission ∧
          t.main.Keeps oneNode (src.json oneNode tsMs) := by
  have hrun : (((exec (Process.step oneNodeProcess) (.initial oneNodeProcess [])
      [.call .start 0, .call .read 1000000000]).bind fun u =>
        (exec (Process.step oneNodeProcess) u
          (.input (.event oneWriteEvent 1500000000) :: stoppedEarly)).map fun t =>
            (decide (u.pipe.calls (.event oneWriteEvent 1500000000) =
              [.onEvent (ascii "/home/a.txt") .mtime]), t.main.pc.serves, t.main.pc.over,
              t.main.queue))) = some (true, false, true, 0) := by
    decide +kernel
  obtain ⟨u, hu, hmap⟩ := Option.bind_eq_some_iff.mp hrun
  obtain ⟨t, ht, hproj⟩ := Option.map_eq_some_iff.mp hmap
  obtain ⟨hcalls, hrest⟩ := Prod.mk.inj hproj
  obtain ⟨hserves, hrest⟩ := Prod.mk.inj hrest
  have hend : t.main.pc = .exited := by
    have hover := (Prod.mk.inj hrest).1
    cases hpc : t.main.pc <;> simp [hpc, Pc.serves, Pc.over] at hserves hover ⊢
  have halive : ∀ l ∈ [.call .start 0, .call .read 1000000000] ++ stoppedEarly,
      l.alive = true := by
    decide
  have hanswered := answered_of_exited hu ht halive hend
  exact ⟨u, t, hu, ht, of_decide_eq_true hcalls, hanswered⟩

end Agent
end FileTracker
