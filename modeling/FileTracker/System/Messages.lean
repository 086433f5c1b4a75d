import FileTracker.Agent.MessageText
import FileTracker.Consumer.EventProcessor

/-!
# The agent's messages at the consumer

The agent and the consumer have to agree on what UTF-8 is.  `json_escape` copies
a multi-byte sequence through when it has the right shape; the consumer's
decoder also looks at its value, and the Redis client refuses surrogates on top
of that.  `safe_iff_harmless` draws the line: a message goes through the
consumer exactly when every sequence in its strings is one that the next stage
takes, and its paths are not empty.
-/

namespace FileTracker
namespace System

open Agent Consumer PyJson Utf8

/-- What a report says to the consumer, with the paths' sanitized texts: for a
well-formed path that is the path itself. -/
def msg : Emission → Option AgentMsg
  | .delete _ => some .delete
  | .mtimeChange path => (decode (sanitize path)).map .mtimeChange
  | .rename oldPath newPath =>
    match decode (sanitize oldPath), decode (sanitize newPath) with
    | some o, some n => some (.rename o n)
    | _, _ => none

theorem msg_of_decode {path : Bytes} {t : Text} (h : decode path = some t) :
    msg (.mtimeChange path) = some (.mtimeChange t) := by
  rw [msg, sanitize_of_decode h, h, Option.map_some]

/-- The consumer takes the message: `parse_event` raises nothing and appends the
actions of the event and no others, and the client encodes their commands. -/
def Safe (floatRepr : Text → Text) (tsMs : Int64) (hostname : Bytes) (ev : Emission) : Prop :=
  ∀ p : EventProcessor, ∃ q m, p.parseEvent (some (ev.json tsMs hostname)) = .ok q ∧
    msg ev = some m ∧ q.batch = p.batch ++ m.actions ∧
      encodePipeline floatRepr (m.actions.flatMap Action.commands) = .ok m.commands

/-- Every sequence of the string is one the consumer's decoder takes: not
overlong, and not above `U+10FFFF`. -/
def Readable (s : Bytes) : Prop := ∀ q, some q ∈ chunks s → (decodeSeq q).isSome

/-- The string is not empty, and none of its sequences encodes a surrogate. -/
def Writable (s : Bytes) : Prop :=
  s ≠ [] ∧ ∀ q, some q ∈ chunks s → ∀ x, decodeSeq q = some x → isSurrogate x = false

/-- The strings of the message hold nothing the consumer chokes on. -/
def Harmless (hostname : Bytes) : Emission → Prop
  | .delete path => Readable path ∧ Readable hostname
  | .mtimeChange path => Readable path ∧ Readable hostname ∧ Writable path
  | .rename oldPath newPath =>
    Readable oldPath ∧ Readable newPath ∧ Readable hostname ∧ Writable oldPath ∧ Writable newPath

theorem readable_iff {s : Bytes} : Readable s ↔ ∃ t, decode (sanitize s) = some t :=
  (exists_decode_sanitize_iff s).symm

theorem decode_eq_none_of_not_readable {s : Bytes} (h : ¬ Readable s) :
    decode (sanitize s) = none := by
  rw [readable_iff, not_exists] at h
  exact Option.eq_none_iff_forall_not_mem.mpr h

theorem writable_iff {s : Bytes} {t : Text} (h : decode (sanitize s) = some t) :
    Writable s ↔ t ≠ [] ∧ Scalar t := by
  rw [Writable, scalar_sanitize_iff h, Ne, Ne, sanitize_text_eq_nil_iff h]

/-! ## What the consumer reads -/

/-- The keys of the two formats. -/
theorem plain_keys : Plain (ascii "path") ∧ Plain (ascii "old_path") ∧ Plain (ascii "new_path") ∧
    Plain (ascii "hostname") := by
  decide +kernel

theorem plain_events : Plain (ascii "delete") ∧ Plain (ascii "mtime_change") ∧
    Plain (ascii "rename") := by
  decide +kernel

theorem jsonLoads_buildJson (tsMs : Int64) {eventType : Bytes} (hev : Plain eventType)
    {path hostname : Bytes} {t h : Text} (ht : decode (sanitize path) = some t)
    (hh : decode (sanitize hostname) = some h) :
    jsonLoads (buildJson tsMs eventType path hostname) = .ok (.object
      [(text "ts", .int tsMs.toInt), (text "event", .str (asciiText eventType)),
        (asciiText (ascii "path"), .str t), (asciiText (ascii "hostname"), .str h)]) := by
  rw [buildJson_eq]
  refine jsonLoads_message tsMs hev ?_ (.cons ht (.cons hh .nil))
  simp [plain_keys]

theorem jsonLoads_renameJson (tsMs : Int64) {oldPath newPath hostname : Bytes} {o n h : Text}
    (ho : decode (sanitize oldPath) = some o) (hn : decode (sanitize newPath) = some n)
    (hh : decode (sanitize hostname) = some h) :
    jsonLoads (renameJson tsMs oldPath newPath hostname) = .ok (.object
      [(text "ts", .int tsMs.toInt), (text "event", .str (asciiText (ascii "rename"))),
        (asciiText (ascii "old_path"), .str o), (asciiText (ascii "new_path"), .str n),
        (asciiText (ascii "hostname"), .str h)]) := by
  rw [renameJson_eq]
  refine jsonLoads_message tsMs plain_events.2.2 ?_ (.cons ho (.cons hn (.cons hh .nil)))
  simp [plain_keys]

theorem jsonLoads_buildJson_error (tsMs : Int64) {eventType : Bytes} (hev : Plain eventType)
    {path hostname : Bytes} (hbad : ¬ (Readable path ∧ Readable hostname)) :
    jsonLoads (buildJson tsMs eventType path hostname) = .error .unicodeDecodeError := by
  rw [buildJson_eq]
  refine jsonLoads_message_error tsMs hev (by simp [plain_keys]) ?_
  rcases not_and_or.mp hbad with hp | hh
  · exact ⟨_, List.mem_cons_self, decode_eq_none_of_not_readable hp⟩
  · exact ⟨⟨ascii "hostname", hostname⟩, by simp, decode_eq_none_of_not_readable hh⟩

theorem jsonLoads_renameJson_error (tsMs : Int64) {oldPath newPath hostname : Bytes}
    (hbad : ¬ (Readable oldPath ∧ Readable newPath ∧ Readable hostname)) :
    jsonLoads (renameJson tsMs oldPath newPath hostname) = .error .unicodeDecodeError := by
  rw [renameJson_eq]
  refine jsonLoads_message_error tsMs plain_events.2.2 (by simp [plain_keys]) ?_
  rcases not_and_or.mp hbad with ho | hrest
  · exact ⟨_, List.mem_cons_self, decode_eq_none_of_not_readable ho⟩
  rcases not_and_or.mp hrest with hn | hh
  · exact ⟨⟨ascii "new_path", newPath⟩, by simp, decode_eq_none_of_not_readable hn⟩
  · exact ⟨⟨ascii "hostname", hostname⟩, by simp, decode_eq_none_of_not_readable hh⟩

/-- The texts of the literals both sides use. -/
theorem literals : asciiText (ascii "path") = text "path" ∧
    asciiText (ascii "old_path") = text "old_path" ∧
    asciiText (ascii "new_path") = text "new_path" ∧
    asciiText (ascii "hostname") = text "hostname" ∧
    asciiText (ascii "delete") = text "delete" ∧
    asciiText (ascii "mtime_change") = text "mtime_change" ∧
    asciiText (ascii "rename") = text "rename" := by
  decide +kernel

theorem keys_ne : text "hostname" ≠ text "event" ∧ text "path" ≠ text "event" ∧
    text "old_path" ≠ text "event" ∧ text "new_path" ≠ text "event" ∧
    text "hostname" ≠ text "path" ∧ text "hostname" ≠ text "old_path" ∧
    text "hostname" ≠ text "new_path" ∧ text "new_path" ≠ text "old_path" := by
  decide +kernel

theorem events_ne : text "mtime_change" ≠ text "delete" ∧ text "mtime_change" ≠ text "rename" ∧
    text "rename" ≠ text "delete" := by
  decide +kernel

/-- `parse_event` on a delete. -/
theorem parseEvent_delete (p : EventProcessor) (tsMs : Int64) {path hostname : Bytes}
    (hp : Readable path) (hh : Readable hostname) :
    p.parseEvent (some (buildJson tsMs (ascii "delete") path hostname)) =
      .ok { p with skippedDelete := p.skippedDelete + 1, processed := p.processed + 1 } := by
  obtain ⟨t, ht⟩ := readable_iff.mp hp
  obtain ⟨h, hh⟩ := readable_iff.mp hh
  simp [EventProcessor.parseEvent, jsonLoads_buildJson tsMs plain_events.1 ht hh,
    EventProcessor.handle, getOrNone, PyJson.get, isStr, literals, keys_ne]

/-- `parse_event` on an mtime change: an empty path is counted and dropped. -/
theorem parseEvent_mtimeChange (p : EventProcessor) (tsMs : Int64) {path hostname : Bytes}
    {t : Text} (ht : decode (sanitize path) = some t) (hh : Readable hostname) :
    p.parseEvent (some (buildJson tsMs (ascii "mtime_change") path hostname)) =
      .ok { p with
        batch := p.batch ++ if t = [] then [] else (AgentMsg.mtimeChange t).actions
        processed := p.processed + 1 } := by
  obtain ⟨h, hh⟩ := readable_iff.mp hh
  by_cases hnil : t = []
  · subst hnil
    simp [EventProcessor.parseEvent, jsonLoads_buildJson tsMs plain_events.2.1 ht hh,
      EventProcessor.handle, getOrNone, PyJson.get, isStr, literals, keys_ne, events_ne, truthy]
  · simp [EventProcessor.parseEvent, jsonLoads_buildJson tsMs plain_events.2.1 ht hh,
      EventProcessor.handle, getOrNone, PyJson.get, isStr, literals, keys_ne, events_ne, truthy, hnil,
      AgentMsg.actions]

/-- `parse_event` on a rename: an empty path is an error. -/
theorem parseEvent_rename (p : EventProcessor) (tsMs : Int64) {oldPath newPath hostname : Bytes}
    {o n : Text} (ho : decode (sanitize oldPath) = some o)
    (hn : decode (sanitize newPath) = some n) (hh : Readable hostname) :
    p.parseEvent (some (renameJson tsMs oldPath newPath hostname)) =
      .ok (if o = [] ∨ n = [] then p.countError
        else { p with
          batch := p.batch ++ (AgentMsg.rename o n).actions, processed := p.processed + 1 }) := by
  obtain ⟨h, hh⟩ := readable_iff.mp hh
  by_cases hnil : o = [] ∨ n = []
  · rcases hnil with rfl | rfl <;>
      simp [EventProcessor.parseEvent, jsonLoads_renameJson tsMs ho hn hh,
        EventProcessor.handle, getOrNone, PyJson.get, isStr, literals, keys_ne, events_ne, truthy,
        logWarning_flat, reprDepth, Except.map]
  · obtain ⟨ho', hn'⟩ := not_or.mp hnil
    simp [EventProcessor.parseEvent, jsonLoads_renameJson tsMs ho hn hh,
      EventProcessor.handle, getOrNone, PyJson.get, isStr, literals, keys_ne, events_ne, truthy, ho', hn',
      AgentMsg.actions]

/-- The string is well-formed UTF-8. -/
def WellFormedUtf8 (s : Bytes) : Prop := ∃ t, decode s = some t ∧ Scalar t

/-- The paths of a report. -/
def paths : Emission → List Bytes
  | .delete path => [path]
  | .mtimeChange path => [path]
  | .rename oldPath newPath => [oldPath, newPath]

/-- A message that can be parsed has strings the decoder takes. -/
theorem readable_of_parseable {tsMs : Int64} {hostname : Bytes} {ev : Emission}
    (h : Parseable (some (ev.json tsMs hostname))) :
    Readable hostname ∧ ∀ path ∈ paths ev, Readable path := by
  by_contra hbad
  have hload : jsonLoads (ev.json tsMs hostname) = .error .unicodeDecodeError := by
    cases ev with
    | delete path =>
      exact jsonLoads_buildJson_error tsMs plain_events.1 fun hr =>
        hbad ⟨hr.2, by simpa [paths] using hr.1⟩
    | mtimeChange path =>
      exact jsonLoads_buildJson_error tsMs plain_events.2.1 fun hr =>
        hbad ⟨hr.2, by simpa [paths] using hr.1⟩
    | rename oldPath newPath =>
      exact jsonLoads_renameJson_error tsMs fun hr =>
        hbad ⟨hr.2.2, by simpa [paths] using ⟨hr.1, hr.2.1⟩⟩
  rw [Parseable, hload] at h
  exact h

/-- **A report with readable paths** is a well-formed message to the consumer. -/
theorem wellFormed_json_of_readable (tsMs : Int64) {hostname : Bytes} (hh : Readable hostname)
    {ev : Emission} (hpaths : ∀ path ∈ paths ev, path ≠ [] ∧ Readable path) :
    ∃ m, msg ev = some m ∧ wellFormed (some (ev.json tsMs hostname)) = some m := by
  obtain ⟨h, hhost⟩ := readable_iff.mp hh
  have htext : ∀ path ∈ paths ev, ∃ t, decode (sanitize path) = some t ∧ t ≠ [] := by
    intro path hpath
    obtain ⟨hne, hread⟩ := hpaths path hpath
    obtain ⟨t, ht⟩ := readable_iff.mp hread
    exact ⟨t, ht, fun hnil => hne ((sanitize_text_eq_nil_iff ht).mp hnil)⟩
  cases ev with
  | delete path =>
    obtain ⟨t, hpath, hne⟩ := htext path (by simp [paths])
    refine ⟨.delete, rfl, ?_⟩
    simp [Emission.json, wellFormed, jsonLoads_buildJson tsMs plain_events.1 hpath hhost,
      getOrNone, PyJson.get, isStr, literals, keys_ne]
  | mtimeChange path =>
    obtain ⟨t, hpath, hne⟩ := htext path (by simp [paths])
    refine ⟨.mtimeChange t, by rw [msg, hpath, Option.map_some], ?_⟩
    simp [Emission.json, wellFormed, jsonLoads_buildJson tsMs plain_events.2.1 hpath hhost,
      getOrNone, PyJson.get, isStr, literals, keys_ne, events_ne, nonemptyStr, hne]
  | rename oldPath newPath =>
    obtain ⟨o, hold, hone⟩ := htext oldPath (by simp [paths])
    obtain ⟨n, hnew, hnne⟩ := htext newPath (by simp [paths])
    refine ⟨.rename o n, by rw [msg, hold, hnew], ?_⟩
    simp [Emission.json, wellFormed, jsonLoads_renameJson tsMs hold hnew hhost,
      getOrNone, PyJson.get, isStr, literals, keys_ne, events_ne, nonemptyStr, hone, hnne]

/-- Well-formed UTF-8 is taken as it is. -/
theorem WellFormedUtf8.decode_sanitize {s : Bytes} (h : WellFormedUtf8 s) :
    ∃ t, decode (sanitize s) = some t ∧ Scalar t := by
  obtain ⟨t, ht, hs⟩ := h
  exact ⟨t, by rw [sanitize_of_decode ht, ht], hs⟩

theorem WellFormedUtf8.readable {s : Bytes} (h : WellFormedUtf8 s) : Readable s := by
  obtain ⟨t, ht, -⟩ := h.decode_sanitize
  exact readable_iff.mpr ⟨t, ht⟩

/-- **A report with well-formed paths** is a message whose paths can be sent on. -/
theorem wellFormed_json (tsMs : Int64) {hostname : Bytes} (hh : WellFormedUtf8 hostname)
    {ev : Emission} (hpaths : ∀ path ∈ paths ev, path ≠ [] ∧ WellFormedUtf8 path) :
    ∃ m, msg ev = some m ∧ wellFormed (some (ev.json tsMs hostname)) = some m ∧
      m.Encodable := by
  obtain ⟨m, hm, hwell⟩ := wellFormed_json_of_readable tsMs hh.readable
    fun path hpath => ⟨(hpaths path hpath).1, (hpaths path hpath).2.readable⟩
  refine ⟨m, hm, hwell, ?_⟩
  cases ev with
  | delete path =>
    obtain rfl : AgentMsg.delete = m := Option.some.inj hm
    trivial
  | mtimeChange path =>
    obtain ⟨t, ht, hs⟩ := (hpaths path (by simp [paths])).2.decode_sanitize
    rw [msg, ht] at hm
    obtain rfl := Option.some.inj hm
    exact hs
  | rename oldPath newPath =>
    obtain ⟨o, ho, hos⟩ := (hpaths oldPath (by simp [paths])).2.decode_sanitize
    obtain ⟨n, hn, hns⟩ := (hpaths newPath (by simp [paths])).2.decode_sanitize
    rw [msg, ho, hn] at hm
    obtain rfl := Option.some.inj hm
    exact ⟨hos, hns⟩

/-! ## Where the line is -/

theorem safe_delete_iff {floatRepr : Text → Text} {tsMs : Int64} {hostname path : Bytes} :
    Safe floatRepr tsMs hostname (.delete path) ↔ Readable path ∧ Readable hostname := by
  constructor
  · intro hsafe
    by_contra hbad
    obtain ⟨q, m, hq, -⟩ := hsafe .init
    rw [Emission.json, EventProcessor.parseEvent,
      jsonLoads_buildJson_error tsMs plain_events.1 hbad] at hq
    simp at hq
  · rintro ⟨hp, hh⟩ p
    exact ⟨_, .delete, parseEvent_delete p tsMs hp hh, rfl, by simp [AgentMsg.actions], rfl⟩

theorem safe_mtimeChange_iff {floatRepr : Text → Text} {tsMs : Int64} {hostname path : Bytes} :
    Safe floatRepr tsMs hostname (.mtimeChange path) ↔
      Readable path ∧ Readable hostname ∧ Writable path := by
  constructor
  · intro hsafe
    obtain ⟨q, m, hq, hm, hbatch, henc⟩ := hsafe .init
    obtain ⟨hp, hh⟩ : Readable path ∧ Readable hostname := by
      by_contra hbad
      rw [Emission.json, EventProcessor.parseEvent,
        jsonLoads_buildJson_error tsMs plain_events.2.1 hbad] at hq
      simp at hq
    obtain ⟨t, ht⟩ := readable_iff.mp hp
    obtain rfl : AgentMsg.mtimeChange t = m := by simpa [msg, ht] using hm
    rw [Emission.json, parseEvent_mtimeChange _ tsMs ht hh] at hq
    obtain rfl := Except.ok.inj hq
    refine ⟨hp, hh, (writable_iff ht).mpr ⟨fun hnil => ?_, encodable_of_encodePipeline henc⟩⟩
    simp [hnil, AgentMsg.actions] at hbatch
  · rintro ⟨hp, hh, hw⟩ p
    obtain ⟨t, ht⟩ := readable_iff.mp hp
    obtain ⟨hne, hs⟩ := (writable_iff ht).mp hw
    refine ⟨_, .mtimeChange t, parseEvent_mtimeChange p tsMs ht hh, by simp [msg, ht],
      by simp [hne], encodePipeline_actions floatRepr hs⟩

theorem safe_rename_iff {floatRepr : Text → Text} {tsMs : Int64}
    {hostname oldPath newPath : Bytes} :
    Safe floatRepr tsMs hostname (.rename oldPath newPath) ↔
      Readable oldPath ∧ Readable newPath ∧ Readable hostname ∧ Writable oldPath ∧
        Writable newPath := by
  constructor
  · intro hsafe
    obtain ⟨q, m, hq, hm, hbatch, henc⟩ := hsafe .init
    obtain ⟨ho, hn, hh⟩ : Readable oldPath ∧ Readable newPath ∧ Readable hostname := by
      by_contra hbad
      rw [Emission.json, EventProcessor.parseEvent, jsonLoads_renameJson_error tsMs hbad] at hq
      simp at hq
    obtain ⟨o, ho'⟩ := readable_iff.mp ho
    obtain ⟨n, hn'⟩ := readable_iff.mp hn
    obtain rfl : AgentMsg.rename o n = m := by simpa [msg, ho', hn'] using hm
    rw [Emission.json, parseEvent_rename _ tsMs ho' hn' hh] at hq
    obtain rfl := Except.ok.inj hq
    obtain ⟨hso, hsn⟩ := encodable_of_encodePipeline henc
    have hnil : ¬ (o = [] ∨ n = []) := by
      intro hnil
      rw [if_pos hnil] at hbatch
      simp [AgentMsg.actions, EventProcessor.countError] at hbatch
    obtain ⟨hone, hnne⟩ := not_or.mp hnil
    exact ⟨ho, hn, hh, (writable_iff ho').mpr ⟨hone, hso⟩,
      (writable_iff hn').mpr ⟨hnne, hsn⟩⟩
  · rintro ⟨ho, hn, hh, hwo, hwn⟩ p
    obtain ⟨o, ho'⟩ := readable_iff.mp ho
    obtain ⟨n, hn'⟩ := readable_iff.mp hn
    obtain ⟨hone, hso⟩ := (writable_iff ho').mp hwo
    obtain ⟨hnne, hsn⟩ := (writable_iff hn').mp hwn
    refine ⟨_, .rename o n, parseEvent_rename p tsMs ho' hn' hh, by simp [msg, ho', hn'],
      ?_, encodePipeline_actions floatRepr ⟨hso, hsn⟩⟩
    rw [if_neg (not_or.mpr ⟨hone, hnne⟩)]

/-- **Which messages the consumer takes.**  For every timestamp, host name and
event: exactly those whose strings hold no overlong sequence and none above
`U+10FFFF`, and whose recorded paths are nonempty and free of surrogates. -/
theorem safe_iff_harmless (floatRepr : Text → Text) (tsMs : Int64) (hostname : Bytes)
    (ev : Emission) : Safe floatRepr tsMs hostname ev ↔ Harmless hostname ev := by
  cases ev with
  | delete path => exact safe_delete_iff
  | mtimeChange path => exact safe_mtimeChange_iff
  | rename oldPath newPath => exact safe_rename_iff

/-- An overlong slash in a file name: `json_escape` copies it through, and
`json.loads` raises `UnicodeDecodeError`. -/
theorem overlong_name_raises :
    ¬ ∀ (tsMs : Int64) (hostname : Bytes) (ev : Emission), Safe id tsMs hostname ev := by
  intro hclaim
  obtain ⟨q, m, hq, -⟩ := hclaim 1710000000000 (ascii "node-001")
    (.mtimeChange (ascii "/home/" ++ [0xC0, 0xAF])) .init
  have hraise : jsonLoads ((Emission.mtimeChange (ascii "/home/" ++ [0xC0, 0xAF])).json
      1710000000000 (ascii "node-001")) = .error .unicodeDecodeError :=
    jsonLoads_buildJson_error _ plain_events.2.1 fun hbad => absurd
      (hbad.1 [0xC0, 0xAF] (by decide +kernel)) (by decide +kernel)
  rw [EventProcessor.parseEvent, hraise] at hq
  simp at hq

end System
end FileTracker
