import FileTracker.Agent.Message

/-!
# A message is read back field by field

Both builders print the same thing: a timestamp, an event, and then string
fields that end in the host name.  `message` is that format with the fields as a
parameter, and `jsonLoads_message` reads it back.  One field that does not
decode makes the whole message undecodable, whatever the others hold
(`jsonLoads_message_error`).
-/

namespace FileTracker
namespace Agent

open PyJson Utf8

/-- A string field: its key, and the bytes that are escaped. -/
structure Field where
  key : Bytes
  value : Bytes

/-- The text of a field, from the quote that closes the value before it to the
end of its own value. -/
def Field.print (f : Field) : Bytes :=
  ascii "\",\"" ++ f.key ++ ascii "\":\"" ++ jsonEscape f.value

/-- A message with a timestamp, an event and string fields. -/
def message (tsMs : Int64) (eventType : Bytes) (fields : List Field) : Bytes :=
  ascii "\x7b\"ts\":" ++ toDecString tsMs ++ ascii ",\"event\":\"" ++ eventType ++
    (fields.flatMap Field.print ++ ascii "\"\x7d")

theorem buildJson_eq (tsMs : Int64) (eventType path hostname : Bytes) :
    buildJson tsMs eventType path hostname =
      message tsMs eventType [⟨ascii "path", path⟩, ⟨ascii "hostname", hostname⟩] := by
  have h1 : ascii "\",\"path\":\"" = ascii "\",\"" ++ (ascii "path" ++ ascii "\":\"") := by
    decide +kernel
  have h2 : ascii "\",\"hostname\":\"" =
      ascii "\",\"" ++ (ascii "hostname" ++ ascii "\":\"") := by
    decide +kernel
  simp only [buildJson, message, Field.print, List.flatMap_cons, List.flatMap_nil, h1, h2,
    List.append_assoc, List.nil_append]

theorem renameJson_eq (tsMs : Int64) (oldPath newPath hostname : Bytes) :
    renameJson tsMs oldPath newPath hostname =
      message tsMs (ascii "rename") [⟨ascii "old_path", oldPath⟩, ⟨ascii "new_path", newPath⟩,
        ⟨ascii "hostname", hostname⟩] := by
  have h0 : ascii ",\"event\":\"rename\",\"old_path\":\"" = ascii ",\"event\":\"" ++
      (ascii "rename" ++ (ascii "\",\"" ++ (ascii "old_path" ++ ascii "\":\""))) := by
    decide +kernel
  have h1 : ascii "\",\"new_path\":\"" =
      ascii "\",\"" ++ (ascii "new_path" ++ ascii "\":\"") := by
    decide +kernel
  have h2 : ascii "\",\"hostname\":\"" =
      ascii "\",\"" ++ (ascii "hostname" ++ ascii "\":\"") := by
    decide +kernel
  simp only [renameJson, message, Field.print, List.flatMap_cons, List.flatMap_nil, h0, h1, h2,
    List.append_assoc, List.nil_append]

/-! ## The text of a message -/

/-- Printable ASCII that needs no escape: the keys and the event names. -/
def Plain (s : Bytes) : Prop :=
  (s.all fun c => 0x20 ≤ c.toNat && c.toNat < 0x80 && c != 0x22 && c != 0x5C) = true

instance (s : Bytes) : Decidable (Plain s) := inferInstanceAs (Decidable (_ = true))

theorem Plain.facts {s : Bytes} (h : Plain s) :
    ∀ c ∈ s, 0x20 ≤ c.toNat ∧ c.toNat < 0x80 ∧ c ≠ 0x22 ∧ c ≠ 0x5C := by
  simpa [Plain, and_assoc] using h

theorem Plain.spells {s : Bytes} (h : Plain s) : Spells (asciiText s) (asciiText s) := by
  refine spells_of_plain fun c hc => ?_
  obtain ⟨b, hb, rfl⟩ := List.mem_map.mp hc
  obtain ⟨hge, -, hq, hs⟩ := h.facts b hb
  refine ⟨fun heq => hq ?_, fun heq => hs ?_, hge⟩
  · exact UInt8.toNat_inj.mp (show b.toNat = 0x22 from congrArg Fin.val heq)
  · exact UInt8.toNat_inj.mp (show b.toNat = 0x5C from congrArg Fin.val heq)

theorem Plain.ascii {s : Bytes} (h : Plain s) : ∀ c ∈ s, c.toNat < 0x80 :=
  fun c hc => (h.facts c hc).2.1

/-- Every byte of a literal is ASCII. -/
theorem ascii_of_all {s : Bytes} (h : (s.all fun c => c.toNat < 0x80) = true) :
    ∀ c ∈ s, c.toNat < 0x80 := by
  simpa using h

/-- The text of the fields, from the quote that closes the value before them to
the closing brace. -/
def fieldsText : List (Text × Text) → Text
  | [] => [quote, rbrace]
  | (key, e) :: fs =>
    quote :: comma :: quote :: (key ++ (quote :: colon :: quote :: (e ++ fieldsText fs)))

/-- Decoding the fields decodes each of their values. -/
theorem decode_fields {fields : List Field} {es : List Text} (hkey : ∀ f ∈ fields, Plain f.key)
    (h : List.Forall₂ (fun f e => decode (jsonEscape f.value) = some e) fields es) :
    decode (fields.flatMap Field.print ++ ascii "\"\x7d") =
      some (fieldsText (List.zipWith (fun f e => (asciiText f.key, e)) fields es)) := by
  induction h with
  | nil => decide +kernel
  | @cons f e fs es hf _ ih =>
    have hrest := ih fun g hg => hkey g (List.mem_cons_of_mem _ hg)
    have hplain := (hkey f List.mem_cons_self).ascii
    have hopen : ∀ c ∈ ascii "\",\"", c.toNat < 0x80 := ascii_of_all (by decide +kernel)
    have hmid : ∀ c ∈ ascii "\":\"", c.toNat < 0x80 := ascii_of_all (by decide +kernel)
    rw [List.flatMap_cons, Field.print]
    simp only [List.append_assoc]
    rw [decode_ascii_append hopen, decode_ascii_append hplain, decode_ascii_append hmid,
      closed_jsonEscape, hf, hrest]
    rfl

theorem decode_fields_eq_none {fields : List Field} (hkey : ∀ f ∈ fields, Plain f.key)
    (h : ∃ f ∈ fields, decode (jsonEscape f.value) = none) :
    decode (fields.flatMap Field.print ++ ascii "\"\x7d") = none := by
  induction fields with
  | nil => simp at h
  | cons f fs ih =>
    have hplain := (hkey f List.mem_cons_self).ascii
    have hopen : ∀ c ∈ ascii "\",\"", c.toNat < 0x80 := ascii_of_all (by decide +kernel)
    have hmid : ∀ c ∈ ascii "\":\"", c.toNat < 0x80 := ascii_of_all (by decide +kernel)
    rw [List.flatMap_cons, Field.print]
    simp only [List.append_assoc]
    rw [decode_ascii_append hopen, decode_ascii_append hplain, decode_ascii_append hmid,
      closed_jsonEscape]
    obtain ⟨g, hg, hnone⟩ := h
    rcases List.mem_cons.mp hg with rfl | hg
    · rw [hnone]
      rfl
    · rw [ih (fun k hk => hkey k (List.mem_cons_of_mem _ hk)) ⟨g, hg, hnone⟩]
      cases decode (jsonEscape f.value) <;> rfl

/-! ## The timestamp -/

theorem toDecString_ascii (n : Int64) : ∀ c ∈ toDecString n, c.toNat < 0x80 := by
  obtain ⟨sign, hsign, heq, -⟩ := exists_sign n
  intro c hc
  rw [heq] at hc
  rcases List.mem_append.mp hc with hc | hc
  · rcases hsign with rfl | rfl
    · simp at hc
    · rw [List.mem_singleton.mp hc]
      decide
  · have hd := decimal_ascii _ c hc
    omega

/-- A timestamp is read back. -/
theorem flatValue_toDecString (n : Int64) :
    FlatValue (asciiText (toDecString n)) (.int n.toInt) := by
  have hlo := n.le_toInt
  have hhi := n.toInt_lt
  have hlen : (asciiText (decimal n.toInt.natAbs)).length ≤ intMaxStrDigits := by
    have hle := length_decimal_le (n := n.toInt.natAbs) (k := 19) (by norm_num) (by omega)
    rw [length_asciiText]
    exact hle.trans (by decide)
  obtain ⟨sign, hsign, heq, hvalue⟩ := exists_sign n
  have hsign' : asciiText sign = [] ∨ asciiText sign = [0x2D] := by
    rcases hsign with rfl | rfl
    · exact Or.inl rfl
    · exact Or.inr rfl
  have hval := flatValue_int hsign' (isNumeral_decimal n.toInt.natAbs) hlen
  rw [ofDecimal_decimal] at hval
  have hnil : asciiText sign = [] ↔ sign = [] := List.map_eq_nil_iff
  simp only [hnil, ← hvalue] at hval
  rwa [heq, asciiText_append]

/-! ## The whole message -/

/-- A string member, with the text its value is spelled by. -/
def strMember (key e t : Text) : Member := ⟨key, quote :: (e ++ [quote]), .str t⟩

theorem renderMembers_strMember (key e t : Text) (fs : List (Text × Text × Text)) :
    renderMembers (strMember key e t :: fs.map fun f => strMember f.1 f.2.1 f.2.2) =
      key ++ quote :: colon :: quote :: (e ++ fieldsText (fs.map fun f => (f.1, f.2.1))) := by
  induction fs generalizing key e t with
  | nil => simp [renderMembers, strMember, fieldsText]
  | cons f fs ih =>
    rw [List.map_cons, renderMembers, ih]
    · simp [strMember, fieldsText]
    · exact fun h => absurd h (List.cons_ne_nil _ _)

/-- The members of a message: timestamp, event, fields. -/
def messageMembers (tsMs : Int64) (eventType : Bytes) (fs : List (Text × Text × Text)) :
    List Member :=
  ⟨text "ts", asciiText (toDecString tsMs), .int tsMs.toInt⟩ ::
    strMember (text "event") (asciiText eventType) (asciiText eventType) ::
    fs.map fun f => strMember f.1 f.2.1 f.2.2

theorem decodeBytes_message (tsMs : Int64) {eventType : Bytes} (hev : Plain eventType)
    (fields : List Field) :
    decodeBytes (message tsMs eventType fields) =
      (decode (fields.flatMap Field.print ++ ascii "\"\x7d")).map fun t =>
        asciiText (ascii "\x7b\"ts\":") ++ (asciiText (toDecString tsMs) ++
          (asciiText (ascii ",\"event\":\"") ++ (asciiText eventType ++ t))) := by
  have henc : detectEncoding (message tsMs eventType fields) = .utf8 := by
    have hlit : ascii "\x7b\"ts\":" = [0x7B, 0x22, 0x74, 0x73, 0x22, 0x3A] := by decide +kernel
    simp only [message, hlit, List.cons_append]
    rfl
  have hopen : ∀ c ∈ ascii "\x7b\"ts\":", c.toNat < 0x80 := ascii_of_all (by decide +kernel)
  have hmid : ∀ c ∈ ascii ",\"event\":\"", c.toNat < 0x80 := ascii_of_all (by decide +kernel)
  rw [decodeBytes, henc]
  simp only [message, List.append_assoc]
  rw [decode_ascii_append hopen, decode_ascii_append (toDecString_ascii tsMs),
    decode_ascii_append hmid, decode_ascii_append hev.ascii]
  simp only [Option.map_map, Function.comp_def]

/-- Every decodable field has an escaped text that spells it. -/
theorem exists_spells_fields {fields : List Field} {ts : List Text}
    (h : List.Forall₂ (fun f t => decode (sanitize f.value) = some t) fields ts) :
    ∃ es, List.Forall₂ (fun f e => decode (jsonEscape f.value) = some e) fields es ∧
      List.Forall₂ Spells es ts := by
  induction h with
  | nil => exact ⟨[], List.Forall₂.nil, List.Forall₂.nil⟩
  | cons hf _ ih =>
    obtain ⟨e, he, hse⟩ := exists_spells_jsonEscape hf
    obtain ⟨es, hes, hses⟩ := ih
    exact ⟨e :: es, List.Forall₂.cons he hes, List.Forall₂.cons hse hses⟩

/-- The fields with both of their texts, the escaped one and the one it spells. -/
theorem exists_fieldTexts {fields : List Field} {es ts : List Text}
    (hkey : ∀ f ∈ fields, Plain f.key)
    (hes : List.Forall₂ (fun f e => decode (jsonEscape f.value) = some e) fields es)
    (hspell : List.Forall₂ Spells es ts) :
    ∃ fs : List (Text × Text × Text),
      List.zipWith (fun f e => (asciiText f.key, e)) fields es = fs.map (fun f => (f.1, f.2.1)) ∧
        List.zipWith (fun f t => (asciiText f.key, Json.str t)) fields ts =
          fs.map (fun f => (f.1, .str f.2.2)) ∧
        ∀ f ∈ fs, Spells f.1 f.1 ∧ Spells f.2.1 f.2.2 := by
  induction hspell generalizing fields with
  | nil => exact ⟨[], by simp, by simp, by simp⟩
  | @cons e t es ts hse _ ih =>
    rcases fields with _ | ⟨f, fields⟩
    · simp at hes
    · obtain ⟨fs, h1, h2, h3⟩ := ih (fun g hg => hkey g (List.mem_cons_of_mem _ hg))
        (List.forall₂_cons.mp hes).2
      refine ⟨(asciiText f.key, e, t) :: fs, by simp [h1], by simp [h2], ?_⟩
      exact List.forall_mem_cons.mpr ⟨⟨(hkey f List.mem_cons_self).spells, hse⟩, h3⟩

theorem renderObject_messageMembers (tsMs : Int64) (eventType : Bytes)
    (fs : List (Text × Text × Text)) :
    renderObject (messageMembers tsMs eventType fs) =
      asciiText (ascii "\x7b\"ts\":") ++ (asciiText (toDecString tsMs) ++
        (asciiText (ascii ",\"event\":\"") ++ (asciiText eventType ++
          fieldsText (fs.map fun f => (f.1, f.2.1))))) := by
  have h1 : asciiText (ascii "\x7b\"ts\":") =
      lbrace :: quote :: (text "ts" ++ [quote, colon]) := by
    decide +kernel
  have h2 : asciiText (ascii ",\"event\":\"") =
      comma :: quote :: (text "event" ++ [quote, colon, quote]) := by
    decide +kernel
  rw [renderObject, messageMembers, renderMembers, renderMembers_strMember, h1, h2]
  · simp
  · exact fun h => absurd h (List.cons_ne_nil _ _)

theorem messageMembers_ok (tsMs : Int64) {eventType : Bytes} (hev : Plain eventType)
    {fs : List (Text × Text × Text)} (hok : ∀ f ∈ fs, Spells f.1 f.1 ∧ Spells f.2.1 f.2.2) :
    ∀ m ∈ messageMembers tsMs eventType fs, m.Ok := by
  intro m hm
  have hts : Plain (ascii "ts") ∧ Plain (ascii "event") := by decide +kernel
  rcases List.mem_cons.mp hm with rfl | hm
  · exact ⟨hts.1.spells, flatValue_toDecString tsMs⟩
  rcases List.mem_cons.mp hm with rfl | hm
  · exact ⟨hts.2.spells, flatValue_str hev.spells⟩
  · obtain ⟨f, hf, rfl⟩ := List.mem_map.mp hm
    exact ⟨(hok f hf).1, flatValue_str (hok f hf).2⟩

/-- **The message is read back**, with the sanitized text of every field. -/
theorem jsonLoads_message (tsMs : Int64) {eventType : Bytes} (hev : Plain eventType)
    {fields : List Field} {ts : List Text} (hkey : ∀ f ∈ fields, Plain f.key)
    (h : List.Forall₂ (fun f t => decode (sanitize f.value) = some t) fields ts) :
    jsonLoads (message tsMs eventType fields) = .ok (.object
      ((text "ts", .int tsMs.toInt) :: (text "event", .str (asciiText eventType)) ::
        List.zipWith (fun f t => (asciiText f.key, .str t)) fields ts)) := by
  obtain ⟨es, hes, hspell⟩ := exists_spells_fields h
  obtain ⟨fs, hfs1, hfs2, hok⟩ := exists_fieldTexts hkey hes hspell
  have hobject := decodeText_flatObject (List.cons_ne_nil _ _) (messageMembers_ok tsMs hev hok)
  rw [jsonLoads, decodeBytes_message tsMs hev, decode_fields hkey hes, hfs1, Option.map_some,
    ← renderObject_messageMembers]
  simp only [hobject, messageMembers, List.map_cons, List.map_map, hfs2]
  rfl

/-- **One undecodable field makes the message undecodable.** -/
theorem jsonLoads_message_error (tsMs : Int64) {eventType : Bytes} (hev : Plain eventType)
    {fields : List Field} (hkey : ∀ f ∈ fields, Plain f.key)
    (h : ∃ f ∈ fields, decode (sanitize f.value) = none) :
    jsonLoads (message tsMs eventType fields) = .error .unicodeDecodeError := by
  obtain ⟨f, hf, hnone⟩ := h
  rw [jsonLoads, decodeBytes_message tsMs hev,
    decode_fields_eq_none hkey ⟨f, hf, decode_jsonEscape_eq_none hnone⟩]
  rfl

end Agent
end FileTracker
