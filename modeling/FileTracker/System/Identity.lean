import FileTracker.Agent.Probe
import FileTracker.Backup.NoLoss
import FileTracker.Consumer.Batching
import FileTracker.System.FailedOps
import FileTracker.System.Messages

/-!
# A path on its way to the backup

The path of a file is a byte string in the kernel, and a byte string again where
`os.path.exists` tests it.  In between it is escaped, decoded, stored as a field of
a hash, scanned and listed, and only one of these stages changes it: `json_escape`
replaces a byte that is in no UTF-8 sequence.

So what is tested is the *sanitized* path (`Passage.eq_of_storedAs`), and it is the
path of the kernel exactly when no byte was replaced (`identity_iff_nothing_replaced`).
-/

namespace FileTracker
namespace System

open Agent Backup Consumer LastWriter PyJson Utf8

/-! ## The stages -/

/-- A change of a file that a record can carry, with its record and its message. -/
structure Change where
  file : Dentry
  depth_le : file.length ≤ MAX_DEPTH
  record : FileEvent
  probed : emitEvent file .mtime = some record
  tsMs : Int64
  hostname : Bytes

/-- The value of its message. -/
def Change.value (c : Change) : Option Bytes :=
  some (buildJson c.tsMs (ascii "mtime_change") (buildPath c.record) c.hostname)

/-- The message's own commands set the field. -/
def Change.Sets (floatRepr : Text → Text) (c : Change) (field : Text) : Prop :=
  ∃ cmds v, encodePipeline floatRepr ((valueActions c.value).flatMap Action.commands) = .ok cmds ∧
    .set field v ∈ cmds

/-- The message is parsed and flushed successfully, among any other calls and on any
hash, and a backup goes through the hash: its scan returns the fields, and the
repositories get their answers. -/
structure Passage (floatRepr : Text → Text) (c : Change) where
  pending : Hash
  before : List Call
  after : List Call
  session : Session
  processed : (Session.mk .init pending).runTrue floatRepr
    (before ++ .parse c.value :: after ++ [.flush]) = some session
  cfg : BackupConfig
  items : List Text
  scanned : ∀ field, field ∈ items ↔ field ∈ session.pending
  answers : Text → RepoAnswers

namespace Passage

variable {floatRepr : Text → Text} {c : Change} (p : Passage floatRepr c)

/-- The message puts the field into the hash: without it, the field is not there, or the
message sets it again. -/
def Puts (field : Text) : Prop :=
  ∀ u, (Session.mk .init p.pending).runTrue floatRepr (p.before ++ p.after ++ [.flush]) = some u →
    field ∈ u.pending → c.Sets floatRepr field

/-- The field is there because of the message. -/
def StoredAs (field : Text) : Prop := field ∈ p.session.pending ∧ p.Puts field

/-- The tasks of the backup. -/
def tasks : Tasks := (p.items.foldl (Scan.item p.cfg) .init).tasks

/-- The string is one that `backup_repo` tests, and does not without the message, or for the
message as well. -/
def TestedAs (x : Text) : Prop :=
  (∃ repoId, x ∈ testedPaths repoId (p.tasks.paths repoId) p.cfg.minio (p.answers repoId)) ∧
    p.Puts x

end Passage

/-! ## The record and the message -/

theorem Change.shallow (c : Change) : c.file.Shallow := by
  refine ⟨?_, c.depth_le⟩
  intro hnil
  have hprobed := c.probed
  rw [hnil] at hprobed
  cases hprobed

/-- The record spells the path. -/
theorem Change.buildPath_record (c : Change) : buildPath c.record = c.file.path := by
  obtain ⟨evt, hevt, -, hpath⟩ := emitEvent_eq c.shallow .mtime
  obtain rfl := Option.some.inj (hevt.symm.trans c.probed)
  exact hpath

/-- What a message that is parsed puts into the batch: the sanitized path. -/
theorem Change.valueActions_eq {c : Change} (h : Parseable c.value) :
    ∃ t, decode (sanitize c.file.path) = some t ∧
      valueActions c.value = (AgentMsg.mtimeChange t).actions := by
  have hvalue : c.value = some ((Emission.mtimeChange c.file.path).json c.tsMs c.hostname) := by
    rw [← c.buildPath_record]
    rfl
  rw [hvalue] at h ⊢
  obtain ⟨hhost, hpaths⟩ := readable_of_parseable h
  have hne : ∀ path ∈ paths (.mtimeChange c.file.path), path ≠ [] ∧ Readable path := by
    intro path hpath
    refine ⟨?_, hpaths path hpath⟩
    rw [List.mem_singleton.mp hpath]
    exact Dentry.path_ne_nil c.shallow.1
  obtain ⟨m, hm, hwell⟩ := wellFormed_json_of_readable c.tsMs hhost hne
  obtain ⟨t, ht, rfl⟩ := Option.map_eq_some_iff.mp hm
  exact ⟨t, ht, (valueActions_wellFormed hwell).2⟩

namespace Passage

variable {floatRepr : Text → Text} {c d : Change}

/-- **What the message does to the hash**: it sets one field, and everything else in the
hash is what the other calls leave. -/
theorem exists_field (p : Passage floatRepr c) :
    ∃ t u, decode (sanitize c.file.path) = some t ∧
      encodePipeline floatRepr ((valueActions c.value).flatMap Action.commands) =
        .ok (AgentMsg.mtimeChange t).commands ∧
      (Session.mk .init p.pending).runTrue floatRepr (p.before ++ p.after ++ [.flush]) = some u ∧
      ∀ x, x ≠ t → p.session.pending.lookup x = u.pending.lookup x := by
  obtain ⟨hparse, cmds, henc, hpending⟩ := runTrue_init_flush_iff.mp ⟨_, p.processed, rfl⟩
  rw [parsed_append, parsed, List.forall_mem_append, List.forall_mem_cons] at hparse
  obtain ⟨hbefore, hvalue, hafter⟩ := hparse
  obtain ⟨t, ht, hactions⟩ := c.valueActions_eq hvalue
  -- the commands before the message, its own, and those behind it
  rw [parsed_append, parsed, List.flatMap_append, List.flatMap_cons, List.flatMap_append,
    List.flatMap_append] at henc
  obtain ⟨first, more, hfirst, hmore, rfl⟩ := exists_of_encodePipeline_append floatRepr henc
  obtain ⟨own, last, hown, hlast, rfl⟩ := exists_of_encodePipeline_append floatRepr hmore
  have hencode : encodePipeline floatRepr ((valueActions c.value).flatMap Action.commands) =
      .ok (AgentMsg.mtimeChange t).commands := by
    rw [hactions] at hown ⊢
    exact encodePipeline_actions floatRepr (encodable_of_encodePipeline hown)
  obtain rfl := Except.ok.inj (hencode.symm.trans hown)
  have hothers : encodePipeline floatRepr
      (((parsed (p.before ++ p.after)).flatMap valueActions).flatMap Action.commands) =
        .ok (first ++ last) := by
    rw [parsed_append, List.flatMap_append, List.flatMap_append]
    exact encodePipeline_append floatRepr hfirst hlast
  have hparsed : ∀ v ∈ parsed (p.before ++ p.after), Parseable v := by
    rw [parsed_append, List.forall_mem_append]
    exact ⟨hbefore, hafter⟩
  obtain ⟨u, hu, hrest⟩ := runTrue_init_flush_iff.mpr ⟨hparsed, _, hothers, rfl⟩
  refine ⟨t, u, ht, hencode, hu, ?_⟩
  intro x hx
  rw [hpending, hrest, lookup_run, lookup_run, lastValue_append, lastValue_append, lastValue_append,
    AgentMsg.commands, lastValue_singleton, Cmd.key, if_neg (Ne.symm hx), Option.or_none]

/-- **What the path is stored as**: its sanitized text. -/
theorem eq_of_storedAs (p : Passage floatRepr c) {field : Text} (h : p.StoredAs field) :
    encode field = sanitize c.file.path := by
  obtain ⟨t, u, ht, hencode, hu, hothers⟩ := p.exists_field
  have hfield : field = t := by
    by_cases hin : field ∈ u.pending
    · obtain ⟨cmds, v, henc, hset⟩ := h.2 u hu hin
      obtain rfl := Except.ok.inj (hencode.symm.trans henc)
      exact (Cmd.set.inj (List.mem_singleton.mp hset)).1
    · by_contra hne
      refine hin ?_
      rw [← Finmap.lookup_isSome, ← hothers field hne, Finmap.lookup_isSome]
      exact h.1
  rw [hfield]
  exact encode_of_decode ht

/-- What the backup tests is the field as it is. -/
theorem storedAs_of_testedAs (p : Passage floatRepr c) {x : Text} (h : p.TestedAs x) :
    p.StoredAs x := by
  obtain ⟨⟨repoId, hx⟩, hputs⟩ := h
  have hpaths : x ∈ p.tasks.paths repoId := by
    unfold testedPaths at hx
    split at hx
    · exact hx
    · cases hx
  rcases (mem_tasks_foldl_iff p.cfg p.items .init).mp hpaths with hinit | ⟨hitem, -⟩
  · cases hinit
  · exact ⟨(p.scanned x).mp hitem, hputs⟩

end Passage

/-- **When a path keeps its identity.**  However its message is processed and the hash
backed up: the string that is tested is, in UTF-8, the path of the kernel exactly when
`json_escape` replaces no byte of it.  And two paths of which no byte is replaced are
never stored as the same field. -/
theorem identity_iff_nothing_replaced {floatRepr : Text → Text} {c : Change}
    (p : Passage floatRepr c) :
    (∀ x, p.TestedAs x → (encode x = c.file.path ↔ none ∉ chunks c.file.path)) ∧
      ∀ (d : Change) (q : Passage floatRepr d) (field : Text), p.StoredAs field →
        q.StoredAs field → none ∉ chunks c.file.path → none ∉ chunks d.file.path →
          d.file.path = c.file.path := by
  refine ⟨fun x hx => ?_, fun d q field hp hq hc hd => ?_⟩
  · rw [p.eq_of_storedAs (p.storedAs_of_testedAs hx), sanitize_eq_iff]
  · rw [← sanitize_eq_iff] at hc hd
    rw [← hc, ← hd, ← p.eq_of_storedAs hp, ← q.eq_of_storedAs hq]

/-! ## A name in Latin-1 -/

/-- A file with the name `0xFF` in the directory `/home/a`. -/
def latin1 : Change where
  file := ⟨[0xFF], by decide, by decide, by decide, by decide⟩ :: homeA
  depth_le := by decide
  record := ⟨recordNames ([0xFF] :: homeA.names), .mtime⟩
  probed := rfl
  tsMs := 1710000000000
  hostname := ascii "node-001"

/-- The text under which it is stored. -/
def latin1Field : Text := text "/home/a/" ++ [⟨0xFFFD, by decide⟩]

/-- Repositories that are there, for the directories below `/home`. -/
def homeRepos : BackupConfig :=
  ⟨text "/home", 1, ⟨some (text "minio"), some (text "backup"), false⟩⟩

/-- The repository is there, and no file exists. -/
def noFiles : RepoAnswers :=
  ⟨true, .ok ⟨0, []⟩, .ok ⟨0, []⟩, fun _ _ => false, .ok (), fun _ => .ok ⟨0, []⟩, .ok ()⟩

/-- The calls for its message. -/
def latin1Run : Option Session :=
  (Session.mk .init ∅).runTrue id ([] ++ .parse latin1.value :: [] ++ [.flush])

/-- Its message alone, and a backup of the one field. -/
def latin1Passage : Passage id latin1 where
  pending := ∅
  before := []
  after := []
  session := latin1Run.get (by decide +kernel)
  processed := (Option.some_get _).symm
  cfg := homeRepos
  items := [latin1Field]
  scanned := fun field => by
    have hkeys : (latin1Run.get (by decide +kernel)).pending.keys = {latin1Field} := by
      decide +kernel
    rw [List.mem_singleton, ← Finmap.mem_keys, hkeys, Finset.mem_singleton]
  answers := fun _ => noFiles

/-- What the backup tests is `U+FFFD` in the place of the byte. -/
theorem not_identity_latin1 :
    ¬ ∀ (floatRepr : Text → Text) (c : Change) (p : Passage floatRepr c) (x : Text),
      p.TestedAs x → encode x = c.file.path := by
  intro hclaim
  have htested : latin1Passage.TestedAs latin1Field := by
    refine ⟨⟨text "a", by decide +kernel⟩, ?_⟩
    intro u hu hin
    obtain rfl := Option.some.inj hu
    exact absurd hin Finmap.notMem_empty
  have hne : encode latin1Field ≠ latin1.file.path := by decide +kernel
  exact hne (hclaim id latin1 latin1Passage latin1Field htested)

end System
end FileTracker
