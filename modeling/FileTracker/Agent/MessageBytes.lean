import FileTracker.Agent.MessageText
import FileTracker.Library.ByteJson

/-!
# A message read byte by byte

`Agent.MessageText` reads a message the way the consumer does, which gives up
where a string has a sequence of the right shape and the wrong value.  A reader
that leaves such bytes alone never gives up: whatever the bytes of the paths and
of the host name are, it finds the members the builder meant, with every string
sanitized, and no byte of a path can end the string it stands in.

The argument is again one chunk at a time.  An ASCII byte is spelled by its
escape, a byte in no sequence by `\ufffd`, and a longer sequence by itself,
because all of its bytes are from `0x80` on and neither the quote nor the
backslash is.
-/

namespace FileTracker
namespace Agent

open ByteJson Utf8

/-! ## The escaped string -/

theorem byteSpells_escapeChar {c : UInt8} (h : c.toNat < 0x80) : Spells (escapeChar c) [c] := by
  have hone : encodeValue c.toNat = [c] := by rw [encodeValue, if_pos h, UInt8.ofNat_toNat]
  rcases escapeChar_cases h with ⟨e, d, x, heq, hd, hu, hx, hc⟩ | ⟨hlt, heq⟩ | ⟨hq, hb, hge, heq⟩
  · have hval : c.toNat = x.val := congrArg Fin.val (List.cons.inj hc).1
    rw [heq, ← hone, hval]
    exact spells_simple hd hu hx
  · have hspell := spells_unicode (hex4_control hlt) (Or.inl (by omega))
    have hval : c.toNat % 0x110000 = c.toNat := Nat.mod_eq_of_lt (by omega)
    rw [Fin.val_ofNat, hval, hone] at hspell
    rw [heq]
    exact hspell
  · rw [heq]
    exact spells_plain hq hb hge

/-- The bytes of a longer sequence are all from `0x80` on. -/
theorem le_of_mem_seq {a b : UInt8} {q : Bytes} (h : IsSeq (a :: b :: q)) :
    ∀ c ∈ a :: b :: q, 0x80 ≤ c.toNat := by
  rcases h.cases with ⟨_, heq, -⟩ | ⟨_, _, heq, ha, hb⟩ | ⟨_, _, _, heq, ha, hb, hc⟩ |
    ⟨_, _, _, _, heq, ha, hb, hc, hd⟩
  · simp at heq
  all_goals
    simp only [heq, List.forall_mem_cons, List.not_mem_nil, false_implies, implies_true, and_true]
    omega

/-- **A chunk is read back**, a byte in no sequence as `U+FFFD`. -/
theorem byteSpells_escapeChunk {c : Option Bytes} (h : IsSeq (c.getD replacement)) :
    Spells (escapeChunk c) (c.getD replacement) := by
  match c, h with
  | none, _ => exact spells_unicode (u := 0xFFFD) (by decide +kernel) (Or.inr (by omega))
  | some [], h => exact absurd rfl h.ne_nil
  | some [b], h => exact byteSpells_escapeChar h.lt_of_singleton
  | some (a :: b :: q), h =>
    refine spells_of_plain fun c hc => ?_
    have hge := le_of_mem_seq h c hc
    refine ⟨?_, ?_, by omega⟩
    · rintro rfl
      exact absurd hge (by decide)
    · rintro rfl
      exact absurd hge (by decide)

/-- **An escaped string is read back sanitized**, whatever its bytes are. -/
theorem byteSpells_jsonEscape (s : Bytes) : Spells (jsonEscape s) (sanitize s) := by
  have hchunks : ∀ cs : List (Option Bytes), (∀ c ∈ cs, IsSeq (c.getD replacement)) →
      Spells (cs.flatMap escapeChunk) (cs.flatMap fun c => c.getD replacement) := by
    intro cs hcs
    induction cs with
    | nil => exact spells_nil
    | cons c cs ih =>
      rw [List.flatMap_cons, List.flatMap_cons]
      exact (byteSpells_escapeChunk (hcs c List.mem_cons_self)).append
        (ih fun d hd => hcs d (List.mem_cons_of_mem _ hd))
  rw [jsonEscape_eq]
  exact hchunks _ fun _ hc => isSeq_getD_of_mem_chunks hc

theorem Plain.byteSpells {s : Bytes} (h : Plain s) : Spells s s :=
  spells_of_plain fun c hc =>
    have hfacts := h.facts c hc
    ⟨hfacts.2.2.1, hfacts.2.2.2, hfacts.1⟩

/-! ## The whole message -/

/-- A timestamp is read back. -/
theorem byteFlatValue_toDecString (n : Int64) : FlatValue (toDecString n) (.int n.toInt) := by
  obtain ⟨sign, hsign, heq, hvalue⟩ := exists_sign n
  have hval := flatValue_int hsign (PyJson.isNumeral_decimal n.toInt.natAbs)
  rw [PyJson.ofDecimal_decimal, ← hvalue] at hval
  rwa [heq]

/-- A string member, with the bytes its value is spelled by. -/
def byteMember (key e s : Bytes) : Member := ⟨key, quote :: (e ++ [quote]), .str s⟩

/-- The members of a message: timestamp, event, fields. -/
def byteMembers (tsMs : Int64) (eventType : Bytes) (fields : List Field) : List Member :=
  ⟨ascii "ts", toDecString tsMs, .int tsMs.toInt⟩ ::
    byteMember (ascii "event") eventType eventType ::
    fields.map fun f => byteMember f.key (jsonEscape f.value) (sanitize f.value)

theorem renderMembers_byteMember (key e s : Bytes) (fields : List Field) :
    renderMembers (byteMember key e s ::
        fields.map fun f => byteMember f.key (jsonEscape f.value) (sanitize f.value)) =
      key ++ quote :: colon :: quote ::
        (e ++ (fields.flatMap Field.print ++ ascii "\"\x7d")) := by
  have hend : ascii "\"\x7d" = [quote, rbrace] := by decide +kernel
  have hopen : ascii "\",\"" = [quote, comma, quote] := by decide +kernel
  have hmid : ascii "\":\"" = [quote, colon, quote] := by decide +kernel
  induction fields generalizing key e s with
  | nil => simp [renderMembers, byteMember, hend]
  | cons f fs ih =>
    rw [List.map_cons, renderMembers, ih]
    · simp [byteMember, Field.print, hopen, hmid]
    · exact fun h => absurd h (List.cons_ne_nil _ _)

theorem renderObject_byteMembers (tsMs : Int64) (eventType : Bytes) (fields : List Field) :
    renderObject (byteMembers tsMs eventType fields) = message tsMs eventType fields := by
  have h1 : ascii "\x7b\"ts\":" = lbrace :: quote :: (ascii "ts" ++ [quote, colon]) := by
    decide +kernel
  have h2 : ascii ",\"event\":\"" =
      comma :: quote :: (ascii "event" ++ [quote, colon, quote]) := by
    decide +kernel
  rw [renderObject, byteMembers, renderMembers, renderMembers_byteMember, message, h1, h2]
  · simp
  · exact fun h => absurd h (List.cons_ne_nil _ _)

/-- **The message is read back**, with every field sanitized. -/
theorem parse_message (tsMs : Int64) {eventType : Bytes} (hev : Plain eventType)
    {fields : List Field} (hkey : ∀ f ∈ fields, Plain f.key) :
    parse (message tsMs eventType fields) = some (.object
      ((ascii "ts", .int tsMs.toInt) :: (ascii "event", .str eventType) ::
        fields.map fun f => (f.key, .str (sanitize f.value)))) := by
  have hkeys : Plain (ascii "ts") ∧ Plain (ascii "event") := by decide +kernel
  have hok : ∀ m ∈ byteMembers tsMs eventType fields, m.Ok := by
    intro m hm
    rcases List.mem_cons.mp hm with rfl | hm
    · exact ⟨hkeys.1.byteSpells, byteFlatValue_toDecString tsMs⟩
    rcases List.mem_cons.mp hm with rfl | hm
    · exact ⟨hkeys.2.byteSpells, flatValue_str hev.byteSpells⟩
    · obtain ⟨f, hf, rfl⟩ := List.mem_map.mp hm
      exact ⟨(hkey f hf).byteSpells, flatValue_str (byteSpells_jsonEscape f.value)⟩
  have hne : byteMembers tsMs eventType fields ≠ [] := List.cons_ne_nil _ _
  rw [← renderObject_byteMembers, parse_renderObject hne hok]
  simp only [byteMembers, byteMember, List.map_cons, List.map_map, Function.comp_def]

/-- The `type_str` of an event: a literal of printable ASCII with nothing in it to
escape, which is what `build_json` prints without escaping it. -/
structure TypeStr where
  name : Bytes
  plain : Plain name

/- The two that `send_event` passes. -/
example : Plain (ascii "delete") ∧ Plain (ascii "mtime_change") := by decide +kernel

/-- **Faithful and injection-free.**  For every timestamp and event type and for
arbitrary bytes in the paths and the host name, both builders print an object
with exactly the members they mean, in their order; each string is the sanitized
one, and a string that decodes is its own sanitized form. -/
theorem parse_built (tsMs : Int64) (hostname : Bytes) :
    (∀ (eventType : TypeStr) (path : Bytes),
      parse (buildJson tsMs eventType.name path hostname) = some (.object
        [(ascii "ts", .int tsMs.toInt), (ascii "event", .str eventType.name),
          (ascii "path", .str (sanitize path)),
          (ascii "hostname", .str (sanitize hostname))])) ∧
    (∀ oldPath newPath : Bytes,
      parse (renameJson tsMs oldPath newPath hostname) = some (.object
        [(ascii "ts", .int tsMs.toInt), (ascii "event", .str (ascii "rename")),
          (ascii "old_path", .str (sanitize oldPath)),
          (ascii "new_path", .str (sanitize newPath)),
          (ascii "hostname", .str (sanitize hostname))])) ∧
    ∀ (s : Bytes) (t : Text), decode s = some t → sanitize s = s := by
  have hkeys : Plain (ascii "path") ∧ Plain (ascii "hostname") ∧ Plain (ascii "old_path") ∧
      Plain (ascii "new_path") ∧ Plain (ascii "rename") := by
    decide +kernel
  obtain ⟨hpath, hhost, hold, hnew, hrename⟩ := hkeys
  refine ⟨fun eventType path => ?_, fun oldPath newPath => ?_, fun _ _ => sanitize_of_decode⟩
  · rw [buildJson_eq, parse_message tsMs eventType.plain]
    · rfl
    · simp [hpath, hhost]
  · rw [renameJson_eq, parse_message tsMs hrename]
    · rfl
    · simp [hold, hnew, hhost]

/- A path that tries to end its string and to open a member of its own, and a
sequence that its lead byte announces and the path does not have. -/
example : parse (buildJson 7 (ascii "delete") (ascii "x\",\"event\":\"rename" ++ [0xE2, 0x82]) []) =
    some (.object [(ascii "ts", .int 7), (ascii "event", .str (ascii "delete")),
      (ascii "path", .str (ascii "x\",\"event\":\"rename" ++ replacement ++ replacement)),
      (ascii "hostname", .str [])]) := rfl

end Agent
end FileTracker
