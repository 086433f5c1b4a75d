import FileTracker.Consumer.Group

/-!
# What is executed has been sent

`executed` is a ghost of `Consumer.MainLoop`: the tagged batch goes there when `flush_batch`
returns `True`.  Here is what that is worth in Redis.  Such a flush sends the commands of
every action in its batch, the deletes as well as the sets (`mem_sent`), and the tags and
the batch are the same actions in every state of every run, whatever has been thrown away
or committed by then.  So what a process has executed, a flush of its own has sent, in a
run of one process (`sent_of_executed`) and in a run of a group
(`Group.sent_of_executed`); and where delivery is at least once, that is every command of
every well-formed message below a committed offset.

An invariant of the batch needs no look at the loop: `BatchInvariant.step` is the rule.
-/

namespace FileTracker
namespace Consumer

open Runs LastWriter PyJson

variable {floatRepr : Text → Text} {log : ℕ → Option Bytes}

/-! ## Invariants of the batch -/

/-- What holds of an empty batch and its tags, and is kept by `parse_event`. -/
structure BatchInvariant (log : ℕ → Option Bytes)
    (R : List Action → List (ℕ × Action) → Prop) : Prop where
  empty : R [] []
  parsed : ∀ (s : Main) (offset : ℕ) (q : EventProcessor), R s.processor.batch s.tagged →
    s.processor.parseEvent (log offset) = .ok q → R q.batch (s.parsed offset q).tagged

namespace BatchInvariant

variable {R : List Action → List (ℕ × Action) → Prop} {s : Main}

theorem leave (hR : BatchInvariant log R) (h : R s.processor.batch s.tagged) :
    R s.leave.processor.batch s.leave.tagged := by
  unfold Main.leave
  split_ifs
  · exact h
  · exact hR.empty

theorem progress (h : R s.processor.batch s.tagged) :
    R s.progress.processor.batch s.progress.tagged := by
  unfold Main.progress
  split_ifs <;> exact h

theorem dispatch (hR : BatchInvariant log R) (h : R s.processor.batch s.tagged) (now : ℤ)
    (msg : Polled) :
    R (s.dispatch log now msg).processor.batch (s.dispatch log now msg).tagged := by
  cases msg with
  | error => exact h
  | none =>
    unfold Main.dispatch
    simp only
    split_ifs <;> exact h
  | message offset =>
    unfold Main.dispatch
    simp only
    cases hparse : s.processor.parseEvent (log offset) with
    | error e => exact hR.leave h
    | ok q =>
      have hq := hR.parsed s offset q h hparse
      simp only
      split_ifs
      · exact hq
      · exact progress (s := s.parsed offset q) hq

theorem flush (hR : BatchInvariant log R) (h : R s.processor.batch s.tagged) (site : Site)
    (reply : Reply) :
    R (s.flush floatRepr log site reply).processor.batch
      (s.flush floatRepr log site reply).tagged := by
  unfold Main.flush
  simp only
  cases hout : (s.processor.flushBatch floatRepr reply s.pending).outcome with
  | error e =>
    cases site with
    | final => exact hR.empty
    | _ => exact hR.leave h
  | ok ok =>
    have hempty : R (s.processor.flushBatch floatRepr reply s.pending).processor.batch [] := by
      rw [flushBatch_batch hout]
      exact hR.empty
    cases ok with
    | true => exact hempty
    | false =>
      cases site with
      | size => exact progress (s := s.failed log _) hempty
      | timeout now => exact hempty
      | final => exact hR.empty

theorem commit (hR : BatchInvariant log R) (h : R s.processor.batch s.tagged) (site : Site)
    (ok : Bool) (now : ℤ) :
    R (s.commit site ok now).processor.batch (s.commit site ok now).tagged := by
  unfold Main.commit
  cases site with
  | timeout n => cases ok <;> exact h
  | size => cases ok <;> exact progress h
  | final => exact hR.empty

/-- **One call** keeps an invariant of the batch. -/
theorem step (hR : BatchInvariant log R) (h : R s.processor.batch s.tagged) {t : Main} {l : Label}
    (hstep : s.step floatRepr log l = some t) : R t.processor.batch t.tagged := by
  cases l with
  | poll msg now =>
    simp only [Main.step] at hstep
    split_ifs at hstep
    · obtain rfl := Option.some.inj hstep
      exact h
    · obtain rfl := Option.some.inj hstep
      exact hR.dispatch (s := s.polled msg now) h now msg
  | stop =>
    simp only [Main.step] at hstep
    split_ifs at hstep
    obtain rfl := Option.some.inj hstep
    exact hR.leave h
  | ping ok =>
    simp only [Main.step] at hstep
    split at hstep
    · split_ifs at hstep
      · obtain rfl := Option.some.inj hstep
        exact hR.dispatch (s := { s with redisDown := false }) h _ _
      · obtain rfl := Option.some.inj hstep
        exact h
    · cases hstep
  | flush reply =>
    simp only [Main.step] at hstep
    split at hstep
    · obtain rfl := Option.some.inj hstep
      exact hR.flush h _ reply
    · cases hstep
  | commit ok now =>
    simp only [Main.step] at hstep
    split at hstep
    · obtain rfl := Option.some.inj hstep
      exact hR.commit h _ ok now
    · cases hstep
  | hlen ok now =>
    simp only [Main.step] at hstep
    split_ifs at hstep
    · obtain rfl := Option.some.inj hstep
      exact hR.leave (s := { s with lastMetricsTime := now }) h
    · obtain rfl := Option.some.inj hstep
      exact h
  | kill =>
    simp only [Main.step] at hstep
    split_ifs at hstep
    obtain rfl := Option.some.inj hstep
    exact hR.empty
  | start metricsTime batchStartTime =>
    simp only [Main.step] at hstep
    split_ifs at hstep
    obtain rfl := Option.some.inj hstep
    exact hR.empty

/-- The same, of every process of a group. -/
theorem group_step {ι P : Type} [DecidableEq ι] [DecidableEq P] {logs : P → ℕ → Option Bytes}
    {feed : ι → ℕ → P × ℕ} (hR : ∀ i, BatchInvariant (mergedLog logs feed i) R) {s t : Group ι P}
    {l : GroupLabel ι P} (h : ∀ i, R (s.member i).processor.batch (s.member i).tagged)
    (hstep : s.step floatRepr logs feed l = some t) :
    ∀ i, R (t.member i).processor.batch (t.member i).tagged := by
  cases l with
  | start j metricsTime batchStartTime =>
    simp only [Group.step] at hstep
    split_ifs at hstep
    obtain rfl := Option.some.inj hstep
    intro i
    by_cases hij : i = j
    · subst hij
      simp only [Function.update_self]
      exact (hR i).empty
    · simpa [hij] using h i
  | assign j p =>
    simp only [Group.step] at hstep
    split_ifs at hstep
    obtain rfl := Option.some.inj hstep
    exact h
  | revoke j p =>
    obtain rfl := Option.some.inj hstep
    exact h
  | call j l =>
    obtain ⟨u, hserve, hmap⟩ := Option.bind_eq_some_iff.mp hstep
    obtain ⟨r, hr, rfl⟩ := Option.map_eq_some_iff.mp hmap
    have hmember := (serve_eq hserve).1
    have hcall := (hR j).step (s := { u.member j with pending := u.pending })
      (by rw [hmember]; exact h j) hr
    intro i
    by_cases hij : i = j
    · subst hij
      simpa [Group.settle] using hcall
    · simpa [Group.settle, hij, hmember] using h i

end BatchInvariant

/-- The tags are on the actions of the batch. -/
def TagsMatch (batch : List Action) (tagged : List (ℕ × Action)) : Prop :=
  tagged.map Prod.snd = batch

theorem batchInvariant_tagsMatch (log : ℕ → Option Bytes) : BatchInvariant log TagsMatch where
  empty := rfl
  parsed s offset q h hparse := by
    obtain ⟨q', hq, hbatch⟩ :=
      parseEvent_of_parseable s.processor (parseable_of_parseEvent hparse)
    obtain rfl := Except.ok.inj (hparse.symm.trans hq)
    unfold TagsMatch at h ⊢
    simp only [Main.parsed, List.map_append, List.map_map, h, hbatch, List.drop_left]
    simp [Function.comp_def]

/-! ## What a successful flush sends -/

/-- The command of a message, as an action hands it to the client. -/
def rawCommand : HashCmd → RawCmd
  | .set path v => .hset (.str path) (.str v)
  | .del path => .hdel (.str path)

/-- An action of a message has all its commands. -/
theorem rawCommand_mem {m : AgentMsg} {a : Action} (ha : a ∈ m.actions) {c : HashCmd}
    (hc : c ∈ m.commands) : rawCommand c ∈ a.commands := by
  cases m with
  | delete => cases hc
  | mtimeChange path =>
    rw [List.mem_singleton.mp ha, List.mem_singleton.mp hc]
    exact List.mem_singleton_self _
  | rename oldPath newPath =>
    rw [List.mem_singleton.mp ha]
    rcases List.mem_pair.mp hc with rfl | rfl
    · exact List.mem_cons_self
    · exact List.mem_cons_of_mem _ List.mem_cons_self

theorem exists_action_of_command {m : AgentMsg} {c : HashCmd} (hc : c ∈ m.commands) :
    ∃ a ∈ m.actions, rawCommand c ∈ a.commands := by
  cases m with
  | delete => cases hc
  | _ => exact ⟨_, List.mem_singleton_self _, rawCommand_mem (List.mem_singleton_self _) hc⟩

theorem eq_of_encodeArg_str {s t : Text} (h : encodeArg floatRepr (.str s) = .ok t) : t = s := by
  rw [encodeArg_scalar floatRepr (scalar_of_encodeArg h)] at h
  exact (Except.ok.inj h).symm

/-- Strings are sent as they are. -/
theorem eq_of_encode_rawCommand {c d : HashCmd}
    (h : RawCmd.encode floatRepr (rawCommand c) = .ok d) : d = c := by
  cases c with
  | set path v =>
    simp only [rawCommand, RawCmd.encode] at h
    split at h
    · rename_i f w hf hw
      rw [← Except.ok.inj h, eq_of_encodeArg_str hf, eq_of_encodeArg_str hw]
    · cases h
    · cases h
  | del path =>
    simp only [rawCommand, RawCmd.encode] at h
    split at h
    · rename_i f hf
      rw [← Except.ok.inj h, eq_of_encodeArg_str hf]
    · cases h

/-- **A successful flush** sends the commands of every action in its batch. -/
theorem mem_sent {p : EventProcessor} {reply : Reply} {pending : Hash}
    (hok : (p.flushBatch floatRepr reply pending).outcome = .ok true) {a : Action}
    (ha : a ∈ p.batch) {c : HashCmd} (hc : rawCommand c ∈ a.commands) :
    c ∈ p.sent floatRepr reply := by
  have hne : p.batch ≠ [] := List.ne_nil_of_mem ha
  unfold EventProcessor.flushBatch at hok
  rw [if_neg hne] at hok
  unfold EventProcessor.sent
  cases henc : encodePipeline floatRepr (p.batch.flatMap Action.commands) with
  | error e =>
    rw [henc] at hok
    rcases reply with _ | applied
    · simp only at hok
      split_ifs at hok
      cases hok
    · cases hok
  | ok cmds =>
    rw [henc] at hok
    rcases reply with _ | applied
    · have hall := (encodePipeline_eq_ok_iff floatRepr).mp henc
      obtain ⟨d, hd, hcmd⟩ :=
        Utf8.forall₂_mem_right hall.flip (List.mem_flatMap.mpr ⟨a, ha, hc⟩)
      exact eq_of_encode_rawCommand hcmd ▸ hd
    · cases applied <;> cases hok

/-- What a call executes, it sends. -/
theorem Main.Ahead.mem_sent {s t : Main} {l : Label} (h : s.Ahead floatRepr t l)
    (htags : TagsMatch s.processor.batch s.tagged) {x : ℕ × Action} (hnew : x ∈ t.executed)
    (hold : x ∉ s.executed) : ∃ reply, l = .flush reply ∧ x ∈ s.tagged ∧
      ∀ c, rawCommand c ∈ x.2.commands → c ∈ s.sent floatRepr l := by
  rcases h.executed with hsame | ⟨reply, rfl, hok, happend⟩
  · exact absurd (hsame ▸ hnew) hold
  · rw [happend] at hnew
    have htagged : x ∈ s.tagged := (List.mem_append.mp hnew).resolve_left hold
    have hbatch : x.2 ∈ s.processor.batch := htags ▸ List.mem_map_of_mem (f := Prod.snd) htagged
    exact ⟨reply, rfl, htagged, fun c hc => Consumer.mem_sent hok hbatch hc⟩

/-! ## One process -/

theorem tagsMatch_of_run {pending : Hash} {labels : List Label} {t : Main}
    (hrun : exec (Main.step floatRepr log) (.initial pending) labels = some t) :
    TagsMatch t.processor.batch t.tagged := by
  have hinitial : TagsMatch (Main.initial pending).processor.batch (Main.initial pending).tagged :=
    rfl
  exact exec_invariant (P := fun s : Main => TagsMatch s.processor.batch s.tagged)
    (fun _ _ _ _ h hstep => (batchInvariant_tagsMatch log).step h hstep) hinitial hrun

/-- **What a process has executed, it has sent**: some flush of the run has sent every command
of the message. -/
theorem sent_of_executed {pending : Hash} {labels : List Label} {t : Main}
    (hrun : exec (Main.step floatRepr log) (.initial pending) labels = some t) {offset : ℕ}
    {m : AgentMsg} {a : Action} (ha : a ∈ m.actions) (hexecuted : (offset, a) ∈ t.executed) :
    ∃ before reply after s, labels = before ++ .flush reply :: after ∧
      exec (Main.step floatRepr log) (.initial pending) before = some s ∧
        (offset, a) ∈ s.tagged ∧ ∀ c ∈ m.commands, c ∈ s.sent floatRepr (.flush reply) := by
  obtain ⟨before, l, after, s, u, rfl, hs, hu, -, hold, hnew⟩ :=
    exists_turn (P := fun s : Main => (offset, a) ∈ s.executed) hrun (by simp [Main.initial])
      hexecuted
  have hstart : ∀ n b, l ≠ .start n b := by
    rintro n b rfl
    simp only [Main.step] at hu
    split_ifs at hu
    obtain rfl := Option.some.inj hu
    exact hold hnew
  obtain ⟨reply, rfl, htagged, hsent⟩ :=
    (ahead_of_step hstart hu).mem_sent (tagsMatch_of_run hs) hnew hold
  exact ⟨before, reply, after, s, rfl, hs, htagged, fun c hc => hsent c (rawCommand_mem ha hc)⟩

/-- While delivery is at least once, every command of a well-formed message below the
committed offset has been sent. -/
theorem sent_of_delivered {pending : Hash} {labels : List Label} {t : Main}
    (hrun : exec (Main.step floatRepr log) (.initial pending) labels = some t)
    (hdelivered : t.Delivered log) {offset : ℕ} (hlt : offset < t.committed) {m : AgentMsg}
    (hm : wellFormed (log offset) = some m) {c : HashCmd} (hc : c ∈ m.commands) :
    ∃ before reply after s, labels = before ++ .flush reply :: after ∧
      exec (Main.step floatRepr log) (.initial pending) before = some s ∧
        c ∈ s.sent floatRepr (.flush reply) := by
  obtain ⟨a, ha, -⟩ := exists_action_of_command hc
  obtain ⟨before, reply, after, s, hsplit, hs, -, hsent⟩ :=
    sent_of_executed hrun ha (hdelivered offset hlt m hm a ha)
  exact ⟨before, reply, after, s, hsplit, hs, hsent c hc⟩

/-! ## A group -/

section Group

variable {ι P : Type} [DecidableEq ι] [DecidableEq P] {logs : P → ℕ → Option Bytes}
  {feed : ι → ℕ → P × ℕ}

/-- The commands on the hash that the server executes in a step. -/
def Group.sent (floatRepr : Text → Text) (s : Group ι P) : GroupLabel ι P → List HashCmd
  | .call i l => (s.member i).sent floatRepr l
  | _ => []

/-- What a call of a process does to the hash, and what it adds to the executed actions. -/
theorem call_eq {s t : Group ι P} {i : ι} {l : Label}
    (hstep : s.step floatRepr logs feed (.call i l) = some t) :
    ∃ r, ({ s.member i with pending := s.pending } : Main).Ahead floatRepr r l ∧
      t.pending = r.pending ∧ (t.member i).executed = r.executed ∧
        ∀ j, j ≠ i → t.member j = s.member j := by
  obtain ⟨u, hserve, hmap⟩ := Option.bind_eq_some_iff.mp hstep
  obtain ⟨r, hr, rfl⟩ := Option.map_eq_some_iff.mp hmap
  obtain ⟨hmember, -, hpending, -, hstart⟩ := serve_eq hserve
  rw [hmember, hpending] at hr
  refine ⟨r, ahead_of_step hstart hr, rfl, by simp [Group.settle], fun j hj => ?_⟩
  simp [Group.settle, hj, hmember]

/-- **Nothing but a flush touches the hash.** -/
theorem Group.pending_of_step {s t : Group ι P} {l : GroupLabel ι P}
    (hstep : s.step floatRepr logs feed l = some t) :
    t.pending = run s.pending (s.sent floatRepr l) := by
  cases l with
  | start i metricsTime batchStartTime =>
    simp only [Group.step] at hstep
    split_ifs at hstep
    obtain rfl := Option.some.inj hstep
    rfl
  | assign i p =>
    simp only [Group.step] at hstep
    split_ifs at hstep
    obtain rfl := Option.some.inj hstep
    rfl
  | revoke i p =>
    obtain rfl := Option.some.inj hstep
    rfl
  | call i l =>
    obtain ⟨r, hahead, hpending, -⟩ := call_eq hstep
    exact hpending.trans hahead.pending

/-- The tags of all processes. -/
def Group.TagsMatch (s : Group ι P) : Prop :=
  ∀ i, Consumer.TagsMatch (s.member i).processor.batch (s.member i).tagged

/-- **An action is executed by a flush of its own process**, which sends the commands of the
batch. -/
theorem Group.flush_of_executed {s t : Group ι P} {l : GroupLabel ι P} (h : s.TagsMatch)
    (hstep : s.step floatRepr logs feed l = some t) {i : ι} {n : ℕ} {a : Action}
    (hnew : (n, a) ∈ (t.member i).executed) (hold : (n, a) ∉ (s.member i).executed) :
    ∃ reply, l = .call i (.flush reply) ∧ (n, a) ∈ (s.member i).tagged ∧
      ∀ c, rawCommand c ∈ a.commands → c ∈ s.sent floatRepr l := by
  cases l with
  | start j metricsTime batchStartTime =>
    simp only [Group.step] at hstep
    split_ifs at hstep
    obtain rfl := Option.some.inj hstep
    by_cases hij : i = j
    · subst hij
      exact absurd (by simpa [Main.start] using hnew) hold
    · exact absurd (by simpa [hij] using hnew) hold
  | assign j p =>
    simp only [Group.step] at hstep
    split_ifs at hstep
    obtain rfl := Option.some.inj hstep
    exact absurd hnew hold
  | revoke j p =>
    obtain rfl := Option.some.inj hstep
    exact absurd hnew hold
  | call j l =>
    obtain ⟨r, hahead, -, hexecuted, hothers⟩ := call_eq hstep
    by_cases hij : i = j
    · subst hij
      rw [hexecuted] at hnew
      obtain ⟨reply, rfl, htagged, hsent⟩ := hahead.mem_sent (h i) hnew hold
      exact ⟨reply, rfl, htagged, hsent⟩
    · rw [hothers i hij] at hnew
      exact absurd hnew hold

theorem Group.tagsMatch_of_step {s t : Group ι P} {l : GroupLabel ι P} (h : s.TagsMatch)
    (hstep : s.step floatRepr logs feed l = some t) : t.TagsMatch :=
  BatchInvariant.group_step (fun i => batchInvariant_tagsMatch (mergedLog logs feed i)) h hstep

/-- **What a group has executed, it has sent**: for every action that a process of the group
has executed, some flush of this process in the run has sent every command of its message. -/
theorem Group.sent_of_executed {pending : Hash} {labels : List (GroupLabel ι P)} {t : Group ι P}
    (hrun : exec (Group.step floatRepr logs feed) (.initial pending) labels = some t) {i : ι}
    {n : ℕ} {m : AgentMsg} {a : Action} (ha : a ∈ m.actions)
    (hexecuted : (n, a) ∈ (t.member i).executed) :
    ∃ before reply after s, labels = before ++ .call i (.flush reply) :: after ∧
      exec (Group.step floatRepr logs feed) (.initial pending) before = some s ∧
        (n, a) ∈ (s.member i).tagged ∧
          ∀ c ∈ m.commands, c ∈ s.sent floatRepr (.call i (.flush reply)) := by
  obtain ⟨before, l, after, s, u, rfl, hs, hu, -, hold, hnew⟩ :=
    exists_turn (P := fun s : Group ι P => (n, a) ∈ (s.member i).executed) hrun
      (by simp [Group.initial, Main.initial]) hexecuted
  have hinitial : (Group.initial pending : Group ι P).TagsMatch := fun _ => rfl
  have htags : s.TagsMatch :=
    exec_invariant (fun _ _ _ _ h hstep => Group.tagsMatch_of_step h hstep) hinitial hs
  obtain ⟨reply, rfl, htagged, hsent⟩ := flush_of_executed htags hu hnew hold
  exact ⟨before, reply, after, s, rfl, hs, htagged, fun c hc => hsent c (rawCommand_mem ha hc)⟩

/-- The same below the committed offsets of a group. -/
theorem Group.sent_of_delivered {pending : Hash} {labels : List (GroupLabel ι P)} {t : Group ι P}
    (hrun : exec (Group.step floatRepr logs feed) (.initial pending) labels = some t)
    (hdelivered : t.Delivered logs feed) {p : P} {offset : ℕ} (hlt : offset < t.committed p)
    {m : AgentMsg} (hm : wellFormed (logs p offset) = some m) {c : HashCmd} (hc : c ∈ m.commands) :
    ∃ before i reply after s, labels = before ++ .call i (.flush reply) :: after ∧
      exec (Group.step floatRepr logs feed) (.initial pending) before = some s ∧
        c ∈ s.sent floatRepr (.call i (.flush reply)) := by
  obtain ⟨a, ha, -⟩ := exists_action_of_command hc
  obtain ⟨i, n, -, hexecuted⟩ := hdelivered p offset hlt m hm a ha
  obtain ⟨before, reply, after, s, hsplit, hs, -, hsent⟩ :=
    Group.sent_of_executed hrun ha hexecuted
  exact ⟨before, i, reply, after, s, hsplit, hs, hsent c hc⟩

end Group

end Consumer
end FileTracker
