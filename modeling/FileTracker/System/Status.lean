import FileTracker.Library.Tally
import FileTracker.Backup.Inventory
import FileTracker.System.Store

/-!
# What `status` prints

`cmd_status` of `backup/cli.py`, on the Redis that the consumers and the backups share and
on the bucket that the backups write to.

With `-v` it counts the values of `pending`.  Whatever bytes are on the topic, there are
only three of them (`known_of_run`): the event types that a consumer accepts come from
two literals of `parse_event` and `flush_batch`, and a backup puts back what has failed as
`retry`.  So the command prints three lines at most, always in the same order, and their
numbers add up to the number of pending paths (`prints_of_run`).
-/

namespace FileTracker
namespace Consumer

open LastWriter PyJson

/-! ## What a consumer writes -/

/-- The event type that an action writes is one of the two. -/
def Action.Known : Action → Prop
  | .hset _ eventType => eventType = .str (text "mtime_change")
  | .rename _ _ => True

theorem known_of_mem_eventActions {ms : List (Text × Json)} {a : Action}
    (h : a ∈ eventActions ms) : a.Known := by
  unfold eventActions at h
  simp only at h
  split_ifs at h with hren hboth hmt hpath
  · rw [List.mem_singleton.mp h]
    trivial
  · cases h
  · rw [List.mem_singleton.mp h]
    exact isStr_iff.mp hmt
  · cases h
  · cases h

theorem known_of_mem_valueActions {v : Option Bytes} {a : Action} (h : a ∈ valueActions v) :
    a.Known := by
  unfold valueActions at h
  split at h
  · cases h
  · split at h
    · exact known_of_mem_eventActions h
    · cases h

/-- The batch holds such actions only. -/
def EventProcessor.Known (p : EventProcessor) : Prop := ∀ a ∈ p.batch, a.Known

theorem EventProcessor.Known.parse {p q : EventProcessor} {v : Option Bytes} (h : p.Known)
    (hparse : p.parseEvent v = .ok q) : q.Known := by
  obtain ⟨q', hq, hbatch⟩ := parseEvent_of_parseable p (parseable_of_parseEvent hparse)
  obtain rfl := Except.ok.inj (hparse.symm.trans hq)
  intro a ha
  rw [hbatch] at ha
  rcases List.mem_append.mp ha with ha | ha
  · exact h a ha
  · exact known_of_mem_valueActions ha

theorem EventProcessor.known_init : EventProcessor.init.Known := fun _ ha => nomatch ha

/-- An invariant of the batch. -/
theorem batchInvariant_known (log : ℕ → Option Bytes) :
    BatchInvariant log fun batch _ => ∀ a ∈ batch, a.Known where
  empty := fun _ ha => nomatch ha
  parsed s _ _ h hparse := EventProcessor.Known.parse (p := s.processor) h hparse

/-! ## What a flush sends -/

/-- The values the programs write into the hashes. -/
def eventTypes : List Text := [text "mtime_change", text "rename", text "retry"]

/-- The commands set known values only. -/
def KnownCommands (cmds : List HashCmd) : Prop :=
  ∀ field v, .set field v ∈ cmds → v ∈ eventTypes

/-- The hash holds known values only. -/
def KnownHash (h : Hash) : Prop := ∀ field v, h.lookup field = some v → v ∈ eventTypes

theorem mem_of_lastValue {cmds : List HashCmd} {field v : Text}
    (h : lastValue cmds field = some (some v)) : .set field v ∈ cmds := by
  obtain ⟨c, hc, hvalue⟩ := Option.map_eq_some_iff.mp h
  have hmem := List.mem_of_getLast? hc
  obtain ⟨hin, hkey⟩ := List.mem_filter.mp hmem
  cases c with
  | set k w =>
    obtain rfl := Option.some.inj hvalue
    obtain rfl : k = field := of_decide_eq_true hkey
    exact hin
  | del k => cases hvalue

/-- **What is in a hash** was there, or one of the commands has set it. -/
theorem KnownHash.run {h : Hash} (hh : KnownHash h) {cmds : List HashCmd}
    (hcmds : KnownCommands cmds) : KnownHash (run h cmds) := by
  intro field v hv
  rw [lookup_run] at hv
  cases hlast : lastValue cmds field with
  | none =>
    rw [hlast] at hv
    exact hh field v hv
  | some last =>
    rw [hlast, Option.getD_some] at hv
    exact hcmds field v (mem_of_lastValue (hlast.trans (congrArg some hv)))

theorem knownHash_empty : KnownHash ∅ := by
  intro field v hv
  rw [Finmap.lookup_empty] at hv
  cases hv

/-- An action's commands set known values. -/
theorem known_of_encode {floatRepr : Text → Text} {a : Action} (ha : a.Known) {c : RawCmd}
    (hc : c ∈ a.commands) {field v : Text} (h : c.encode floatRepr = .ok (.set field v)) :
    v ∈ eventTypes := by
  have hvalue : ∀ f s, RawCmd.encode floatRepr (.hset f (.str s)) = .ok (.set field v) → v = s := by
    intro f s hset
    simp only [RawCmd.encode] at hset
    split at hset
    · rename_i f' v' _ hv'
      rw [encodeArg_scalar floatRepr (scalar_of_encodeArg hv')] at hv'
      obtain rfl := Except.ok.inj hv'
      exact (Cmd.set.inj (Except.ok.inj hset)).2.symm
    · cases hset
    · cases hset
  cases a with
  | hset path eventType =>
    obtain rfl : eventType = .str (text "mtime_change") := ha
    rw [List.mem_singleton.mp hc] at h
    rw [hvalue _ _ h]
    exact List.mem_cons_self
  | rename oldPath newPath =>
    simp only [Action.commands, List.mem_cons, List.not_mem_nil, or_false] at hc
    rcases hc with rfl | rfl
    · simp only [RawCmd.encode] at h
      split at h
      · cases Except.ok.inj h
      · cases h
    · rw [hvalue _ _ h]
      exact List.mem_cons_of_mem _ List.mem_cons_self

theorem EventProcessor.Known.sent {floatRepr : Text → Text} {p : EventProcessor} (h : p.Known)
    (reply : Reply) : KnownCommands (p.sent floatRepr reply) := by
  have hall : ∀ cmds, encodePipeline floatRepr (p.batch.flatMap Action.commands) = .ok cmds →
      KnownCommands cmds := by
    intro cmds henc field v hset
    obtain ⟨c, hc, hencode⟩ :=
      Utf8.forall₂_mem_right ((encodePipeline_eq_ok_iff floatRepr).mp henc) hset
    obtain ⟨a, ha, hca⟩ := List.mem_flatMap.mp hc
    exact known_of_encode (h a ha) hca hencode
  unfold EventProcessor.sent
  split
  · exact hall _ ‹_›
  · exact hall _ ‹_›
  · exact fun _ _ hset => nomatch hset

section Group

variable {ι P : Type} [DecidableEq ι] [DecidableEq P] {floatRepr : Text → Text}
  {logs : P → ℕ → Option Bytes} {feed : ι → ℕ → P × ℕ}

/-- **One step** of the group keeps the batches known. -/
theorem Group.known_of_step {s t : Group ι P} {l : GroupLabel ι P}
    (h : ∀ i, (s.member i).processor.Known) (hstep : s.step floatRepr logs feed l = some t) :
    ∀ i, (t.member i).processor.Known :=
  BatchInvariant.group_step (fun i => batchInvariant_known (mergedLog logs feed i)) h hstep

omit [DecidableEq ι] [DecidableEq P] in
/-- What the group sends in a step. -/
theorem Group.known_sent {s : Group ι P} (h : ∀ i, (s.member i).processor.Known)
    (l : GroupLabel ι P) : KnownCommands (s.sent floatRepr l) := by
  cases l with
  | call i l =>
    cases l with
    | flush reply => exact (h i).sent reply
    | _ => exact fun _ _ hset => nomatch hset
  | _ => exact fun _ _ hset => nomatch hset

end Group

end Consumer

namespace Backup

open Runs LastWriter Consumer

/-! ## What a backup writes -/

/-- A run puts back what has failed, as `retry`. -/
theorem known_retry (s : State) : KnownCommands s.retry := by
  intro field v hset
  unfold State.retry at hset
  split at hset
  · obtain ⟨path, -, heq⟩ := List.mem_map.mp hset
    obtain ⟨-, rfl⟩ := Cmd.set.inj heq
    decide +kernel
  · cases hset

/-- Both hashes hold known values only. -/
def KnownHashes (pending processing : Hash) : Prop := KnownHash pending ∧ KnownHash processing

/-- **One step** of a run. -/
theorem knownHashes_of_step {s t : State} {l : Label} (h : KnownHashes s.pending s.processing)
    (hflush : ∀ cmds, l ≠ .flush cmds) (hstep : s.step l = some t) :
    KnownHashes t.pending t.processing := by
  have hsent : KnownCommands (s.sent l) := by
    unfold State.sent
    split
    · exact absurd rfl (hflush _)
    · exact known_retry s
    · exact known_retry s
    · exact fun _ _ hset => nomatch hset
  rcases step_hashes hstep with ⟨hpending, hprocessing⟩ | ⟨hpending, hprocessing, -⟩ |
      ⟨hpending, hprocessing, -⟩
  · rw [hpending, hprocessing]
    exact ⟨h.1.run hsent, h.2⟩
  · rw [hpending, hprocessing]
    exact ⟨knownHash_empty, h.1⟩
  · rw [hpending, hprocessing]
    exact ⟨h.1, knownHash_empty⟩

section Cluster

variable {ι : Type} [DecidableEq ι] {program : ι → Program} {nodeId : ι → Text}

/-- **One step** of the cluster. -/
theorem Cluster.known_of_step {s t : Cluster ι} {l : ClusterLabel ι}
    (h : KnownHashes s.pending s.processing) (hflush : ∀ cmds, l = .flush cmds → KnownCommands cmds)
    (hstep : s.step program nodeId l = some t) : KnownHashes t.pending t.processing := by
  cases l with
  | tick ms =>
    obtain rfl := Option.some.inj hstep
    exact h
  | flush cmds =>
    obtain rfl := Option.some.inj hstep
    exact ⟨h.1.run (hflush cmds rfl), h.2⟩
  | acquire p =>
    obtain ⟨lock, -, rfl⟩ := Option.map_eq_some_iff.mp hstep
    exact h
  | run p l =>
    simp only [Cluster.step] at hstep
    split at hstep
    · split_ifs at hstep with hown
      obtain ⟨u, hu, rfl⟩ := Option.map_eq_some_iff.mp hstep
      refine knownHashes_of_step (s := s.view _) h ?_ hu
      rintro cmds rfl
      exact absurd hown.2 Bool.false_ne_true
    · cases hstep
  | prune p =>
    simp only [Cluster.step] at hstep
    split at hstep
    · split_ifs at hstep
      obtain rfl := Option.some.inj hstep
      exact h
    · cases hstep
  | release p =>
    simp only [Cluster.step] at hstep
    split at hstep
    · obtain ⟨lock, -, rfl⟩ := Option.map_eq_some_iff.mp hstep
      exact h
    · cases hstep
  | crash p applied =>
    obtain ⟨lock, -, hmap⟩ := Option.bind_eq_some_iff.mp hstep
    obtain ⟨u, hu, rfl⟩ := Option.map_eq_some_iff.mp hmap
    cases applied with
    | true =>
      obtain ⟨v, hv, rfl⟩ := Option.map_eq_some_iff.mp hu
      refine knownHashes_of_step (s := s.view _) h ?_ hv
      rintro cmds ⟨⟩
    | false =>
      obtain rfl := Option.some.inj hu
      exact h

end Cluster

end Backup

namespace System

open Runs LastWriter Consumer

section Store

variable {ι κ P : Type} [DecidableEq ι] [DecidableEq κ] [DecidableEq P] {d : Deployment ι κ P}

/-- The batches and the hashes hold known values only. -/
structure Store.Known (s : Store ι κ P) : Prop where
  members : ∀ i, (s.group.member i).processor.Known
  hashes : Backup.KnownHashes s.cluster.pending s.cluster.processing

/-- **One step** of the store, in which nobody else writes to the hash. -/
theorem Store.Known.step {s t : Store ι κ P} {l : StoreLabel ι κ P} (h : s.Known)
    (hours : ∀ cmds, l ≠ .backup (.flush cmds)) (hstep : s.step d l = some t) : t.Known := by
  cases l with
  | consumer l =>
    obtain ⟨group, hgroup, rfl⟩ := Option.map_eq_some_iff.mp hstep
    refine ⟨Group.known_of_step h.members hgroup, ?_, h.hashes.2⟩
    have hsent : KnownCommands (s.group.sent d.floatRepr l) := Group.known_sent h.members l
    have hpending := h.hashes.1.run hsent
    rwa [← s.shared, ← Group.pending_of_step hgroup] at hpending
  | backup l =>
    obtain ⟨cluster, hcluster, rfl⟩ := Option.map_eq_some_iff.mp hstep
    refine ⟨h.members, Backup.Cluster.known_of_step h.hashes ?_ hcluster⟩
    rintro cmds rfl
    exact absurd rfl (hours cmds)

/-- The values in Redis at the end of a run. -/
theorem known_of_run {cluster : Backup.Cluster κ}
    (hknown : Backup.KnownHashes cluster.pending cluster.processing)
    {labels : List (StoreLabel ι κ P)} (hours : ∀ cmds, .backup (.flush cmds) ∉ labels)
    {t : Store ι κ P} (hrun : exec (Store.step d) (.initial cluster) labels = some t) :
    t.Known := by
  refine exec_invariant (P := Store.Known) (fun s u l hl h hstep => h.step ?_ hstep) ?_ hrun
  · rintro cmds rfl
    exact hours cmds hl
  · exact ⟨fun _ => EventProcessor.known_init, hknown⟩

end Store

/-! ## The command -/

/-- What Redis answers to `HLEN` and `HGETALL`, what the listing of the bucket comes to, and
the time of a repository's last snapshot, as far as restic tells it. -/
structure StatusAnswers where
  hlen : ℕ
  hgetall : List (Text × Text)
  objects : Except PyError (List Text)
  latest : Text → Except PyError Text

/-- What the command has printed, and how it ends. -/
structure StatusRun where
  stdout : List Text
  outcome : Except PyError Unit

/-- The line for an event type. -/
def eventLine (eventType : Text) (count : ℕ) : Text :=
  text "  " ++ eventType ++ text ": " ++ text (toString count)

/-- The line for a repository. -/
def repoLine (cfg : Backup.MinioConfig) (verbose : Bool) (a : StatusAnswers) (repoId : Text) :
    Except PyError Text :=
  if verbose then do
    let url ← Backup.Cli.repoUrl cfg repoId
    let last ← a.latest url
    .ok (text "  " ++ repoId ++ text "  (last: " ++ last ++ text ")")
  else .ok (text "  " ++ repoId)

/-- The loop over the repositories. -/
def printRepos (line : Text → Except PyError Text) : List Text → StatusRun
  | [] => ⟨[], .ok ()⟩
  | repoId :: rest =>
    match line repoId with
    | .error e => ⟨[], .error e⟩
    | .ok printed =>
      let run := printRepos line rest
      { run with stdout := printed :: run.stdout }

/-- `cmd_status`. -/
def cmdStatus (cfg : Backup.MinioConfig) (verbose : Bool) (a : StatusAnswers) : StatusRun :=
  let counts :=
    if verbose ∧ 0 < a.hlen then
      (Tally.histogram (a.hgetall.map Prod.snd)).map fun x => eventLine x.1 x.2
    else []
  let head := (text "Pending events: " ++ text (toString a.hlen)) :: counts
  match Backup.Cli.listRepos cfg a.objects with
  | .error e => ⟨head, .error e⟩
  | .ok repos =>
    let run := printRepos (repoLine cfg verbose a) repos
    { run with
      stdout := head ++ (text "Repos: " ++ text (toString repos.length)) :: run.stdout }

/-! ## What it reports -/

/-- The number of fields with the value. -/
def fieldsWith (h : Hash) (v : Text) : ℕ :=
  (h.keys.filter fun field => h.lookup field = some v).card

/-- Redis answers for this hash: the number of its fields, and each of them once, in any
order. -/
structure AnswersFor (h : Hash) (a : StatusAnswers) : Prop where
  hlen : a.hlen = h.keys.card
  nodup : (a.hgetall.map Prod.fst).Nodup
  mem_iff : ∀ field v, (field, v) ∈ a.hgetall ↔ h.lookup field = some v

/-- The loop over the repositories ends before these: there are none of them left, or the
line of the first cannot be made. -/
def EndsBefore (line : Text → Except PyError Text) (outcome : Except PyError Unit) :
    List Text → Prop
  | [] => outcome = .ok ()
  | repoId :: _ => ∃ e, line repoId = .error e ∧ outcome = .error e

/-- The command reports a hash and a bucket: the number of fields; with `-v`, the event types
that occur, in their order, with numbers that add up to it; the number of repositories; and
each of them, up to the first for which a line cannot be made.  Without `-v` all of them
can. -/
structure Prints (h : Hash) (b : Backup.Bucket) (cfg : Backup.MinioConfig) (verbose : Bool)
    (a : StatusAnswers) : Prop where
  stdout : ∃ shown rest lines, b.repos.sort = shown ++ rest ∧
    List.Forall₂ (fun repoId line => repoLine cfg verbose a repoId = .ok line) shown lines ∧
    EndsBefore (repoLine cfg verbose a) (cmdStatus cfg verbose a).outcome rest ∧
    (cmdStatus cfg verbose a).stdout =
      (text "Pending events: " ++ text (toString h.keys.card)) ::
        (if verbose then (eventTypes.filter fun v => 0 < fieldsWith h v).map fun v =>
          eventLine v (fieldsWith h v) else []) ++
        (text "Repos: " ++ text (toString b.repos.card)) :: lines
  plain : verbose = false → (cmdStatus cfg verbose a).outcome = .ok ()
  total : (eventTypes.map (fieldsWith h)).sum = h.keys.card

theorem printRepos_eq (line : Text → Except PyError Text) (repos : List Text) :
    ∃ shown rest, repos = shown ++ rest ∧
      List.Forall₂ (fun repoId printed => line repoId = .ok printed) shown
        (printRepos line repos).stdout ∧
      EndsBefore line (printRepos line repos).outcome rest := by
  induction repos with
  | nil => exact ⟨[], [], rfl, .nil, rfl⟩
  | cons repoId repos ih =>
    rw [printRepos]
    cases hline : line repoId with
    | error e => exact ⟨[], repoId :: repos, rfl, .nil, e, hline, rfl⟩
    | ok printed =>
      obtain ⟨shown, rest, hsplit, hall, hend⟩ := ih
      exact ⟨repoId :: shown, rest, by rw [hsplit]; rfl, .cons hline hall, hend⟩

/-- A loop in which every line can be made comes to its end. -/
theorem printRepos_ok {line : Text → Except PyError Text} {repos : List Text}
    (h : ∀ repoId ∈ repos, ∃ printed, line repoId = .ok printed) :
    (printRepos line repos).outcome = .ok () := by
  obtain ⟨shown, rest, hsplit, -, hend⟩ := printRepos_eq line repos
  cases rest with
  | nil => exact hend
  | cons repoId rest =>
    obtain ⟨e, he, -⟩ := hend
    obtain ⟨printed, hprinted⟩ := h repoId (hsplit ▸ List.mem_append_right _ List.mem_cons_self)
    cases he.symm.trans hprinted

section Answers

variable {h : Hash} {a : StatusAnswers}

theorem AnswersFor.keys_eq (ha : AnswersFor h a) : (a.hgetall.map Prod.fst).toFinset = h.keys := by
  ext field
  rw [List.mem_toFinset, List.mem_map, Finmap.mem_keys, ← Finmap.lookup_isSome,
    Option.isSome_iff_exists]
  constructor
  · rintro ⟨⟨f, v⟩, hin, rfl⟩
    exact ⟨v, (ha.mem_iff f v).mp hin⟩
  · rintro ⟨v, hv⟩
    exact ⟨(field, v), (ha.mem_iff field v).mpr hv, rfl⟩

theorem AnswersFor.length_eq (ha : AnswersFor h a) : a.hgetall.length = h.keys.card := by
  rw [← ha.keys_eq, List.toFinset_card_of_nodup ha.nodup, List.length_map]

/-- The values are counted by their fields. -/
theorem AnswersFor.count_eq (ha : AnswersFor h a) (v : Text) :
    Tally.occurrences (a.hgetall.map Prod.snd) v = fieldsWith h v := by
  have hfields : ((a.hgetall.filter fun x => decide (x.2 = v)).map Prod.fst).toFinset =
      h.keys.filter fun field => h.lookup field = some v := by
    ext field
    simp only [List.mem_toFinset, List.mem_map, List.mem_filter, Finset.mem_filter,
      decide_eq_true_iff]
    constructor
    · rintro ⟨⟨f, w⟩, ⟨hin, rfl⟩, rfl⟩
      have hlookup := (ha.mem_iff f w).mp hin
      exact ⟨Finmap.mem_keys.mpr (Finmap.lookup_isSome.mp (hlookup ▸ rfl)), hlookup⟩
    · rintro ⟨-, hlookup⟩
      exact ⟨(field, v), ⟨(ha.mem_iff field v).mpr hlookup, rfl⟩, rfl⟩
  have hnodup : ((a.hgetall.filter fun x => decide (x.2 = v)).map Prod.fst).Nodup :=
    ha.nodup.sublist (List.filter_sublist.map _)
  rw [fieldsWith, ← hfields, List.toFinset_card_of_nodup hnodup, List.length_map,
    Tally.occurrences_eq_length, List.filter_map, List.length_map]
  rfl

theorem sortedLT_eventTypes : eventTypes.SortedLT :=
  (by decide +kernel : eventTypes.Pairwise (· < ·)).sortedLT

/-- The values of the hash are event types. -/
theorem AnswersFor.known (ha : AnswersFor h a) (hknown : KnownHash h) :
    ∀ v ∈ a.hgetall.map Prod.snd, v ∈ eventTypes := by
  intro v hv
  obtain ⟨⟨field, w⟩, hin, rfl⟩ := List.mem_map.mp hv
  exact hknown field w ((ha.mem_iff field w).mp hin)

/-- The lines for the event types. -/
theorem AnswersFor.histogram_eq (ha : AnswersFor h a) (hknown : KnownHash h) :
    (Tally.histogram (a.hgetall.map Prod.snd)).map (fun x => eventLine x.1 x.2) =
      (eventTypes.filter fun v => 0 < fieldsWith h v).map fun v =>
        eventLine v (fieldsWith h v) := by
  rw [Tally.histogram_of_subset (ha.known hknown) sortedLT_eventTypes, List.map_map]
  simp only [Function.comp_def, ha.count_eq]

/-- Nothing is counted in an empty hash. -/
theorem filter_fieldsWith_eq_nil (hempty : ¬ 0 < h.keys.card) :
    eventTypes.filter (fun v => 0 < fieldsWith h v) = [] := by
  refine List.filter_eq_nil_iff.mpr fun v hv => ?_
  have hle : fieldsWith h v ≤ h.keys.card := Finset.card_filter_le _ _
  rw [decide_eq_true_iff]
  omega

/-- **What the command reports** of a hash with known values. -/
theorem AnswersFor.prints (ha : AnswersFor h a) (hknown : KnownHash h) {b : Backup.Bucket}
    {cfg : Backup.MinioConfig} (hlisted : Backup.Cli.listRepos cfg a.objects = .ok b.repos.sort)
    (verbose : Bool) : Prints h b cfg verbose a := by
  have htotal : (eventTypes.map (fieldsWith h)).sum = h.keys.card := by
    have hsum := Tally.sum_occurrences (ha.known hknown) sortedLT_eventTypes.nodup
    rw [List.length_map, ha.length_eq] at hsum
    rwa [funext ha.count_eq] at hsum
  have houtcome : (cmdStatus cfg verbose a).outcome =
      (printRepos (repoLine cfg verbose a) b.repos.sort).outcome := by
    rw [cmdStatus, hlisted]
  refine ⟨?_, ?_, htotal⟩
  · obtain ⟨shown, rest, hsplit, hall, hend⟩ :=
      printRepos_eq (repoLine cfg verbose a) b.repos.sort
    refine ⟨shown, rest, _, hsplit, hall, houtcome ▸ hend, ?_⟩
    simp only [cmdStatus, hlisted, ha.hlen, Finset.length_sort, ha.histogram_eq hknown]
    cases verbose with
    | false => rfl
    | true =>
      by_cases hpos : 0 < h.keys.card
      · simp only [hpos, and_self, if_true]
      · simp only [hpos, and_false, if_false, filter_fieldsWith_eq_nil hpos, if_true]
        rfl
  · rintro rfl
    rw [houtcome]
    exact printRepos_ok fun repoId _ => ⟨_, rfl⟩

end Answers

section Run

variable {ι κ P : Type} [DecidableEq ι] [DecidableEq κ] [DecidableEq P] {d : Deployment ι κ P}

/-- **What `status` reports**, at the end of any run of the consumers and the backups, whatever
is on the topic.  Nobody else writes to the hash; the repositories in the bucket come from the
paths of a mapping. -/
theorem prints_of_run {cluster : Backup.Cluster κ}
    (hknown : Backup.KnownHashes cluster.pending cluster.processing)
    {labels : List (StoreLabel ι κ P)} (hours : ∀ cmds, .backup (.flush cmds) ∉ labels)
    {t : Store ι κ P} (hrun : exec (Store.step d) (.initial cluster) labels = some t)
    {a : StatusAnswers} (ha : AnswersFor t.cluster.pending a) (m : Backup.RepoMapping)
    {b : Backup.Bucket} (hmapped : ∀ r ∈ b.repos, ∃ p, m.repo p = some r)
    (hobjects : a.objects = .ok b.objects) {url : Text} (hurl : Backup.repoUrl m.minio [] = .ok url)
    (verbose : Bool) : Prints t.cluster.pending b m.minio verbose a := by
  refine ha.prints (known_of_run hknown hours hrun).hashes.1 ?_ verbose
  rw [hobjects]
  exact Backup.listRepos_of_mapping hmapped hurl

end Run

/-- A change is flushed, and the command is run before a backup swaps it out. -/
def flushed : List (StoreLabel ℕ ℕ ℕ) := swappedOut.take 5

/-- What the command is told then. -/
def oneChange : StatusAnswers :=
  ⟨1, [(text "/home/a", text "mtime_change")], .ok Backup.twoUsers.objects, fun _ => .ok []⟩

theorem prints_of_run_oneChange :
    ∃ t, exec (Store.step oneRedis) (.initial .initial) flushed = some t ∧
      Prints t.cluster.pending Backup.twoUsers Backup.homes.minio true oneChange := by
  have hrun : ((exec (Store.step oneRedis) (.initial .initial) flushed).map
      fun t => t.cluster.pending) =
      some (Finmap.singleton (text "/home/a") (text "mtime_change")) := by
    decide +kernel
  obtain ⟨t, ht, hpending⟩ := Option.map_eq_some_iff.mp hrun
  have hanswers : AnswersFor t.cluster.pending oneChange := by
    rw [hpending]
    refine ⟨rfl, List.nodup_singleton _, fun field v => ?_⟩
    by_cases hfield : field = text "/home/a"
    · subst hfield
      simp [oneChange, eq_comm]
    · rw [Finmap.lookup_eq_none.mpr fun hin => hfield ((Finmap.mem_singleton _ _ _).mp hin)]
      simp [oneChange, hfield]
  have hours : ∀ cmds, .backup (.flush cmds) ∉ flushed := by
    intro cmds hin
    simp [flushed, swappedOut] at hin
  exact ⟨t, ht, prints_of_run ⟨knownHash_empty, knownHash_empty⟩ hours ht hanswers Backup.homes
    Backup.twoUsers_mapped rfl rfl true⟩

end System
end FileTracker
