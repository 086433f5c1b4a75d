import FileTracker.Library.FlatObject

/-!
# The agent's messages

`json_escape`, `build_json` and the builder inside `on_rename`, of
`src/main.cpp`.  The builders print a flat JSON object by hand, and
`json_escape` decides on its own what UTF-8 is: by the shape of a sequence, not
by its value.

So the escaped string is best read along the chunks of `Library.Utf8`, one
escape a chunk, and two things follow.  Where every sequence that is copied
through is one the decoder takes, the message is read back with the *sanitized*
strings in it; and where one is not --- an overlong form, a value above
`U+10FFFF` --- the whole message is undecodable.
-/

namespace FileTracker
namespace Agent

open PyJson Utf8

/-! ## The code -/

/-- The digit of `%x`. -/
def hexDigit (n : ℕ) : UInt8 := if n < 10 then UInt8.ofNat (0x30 + n) else UInt8.ofNat (0x57 + n)

/-- `json_escape` on a byte below `0x80`. -/
def escapeChar (c : UInt8) : Bytes :=
  if c = 0x22 then ascii "\\\""
  else if c = 0x5C then ascii "\\\\"
  else if c = 0x08 then ascii "\\b"
  else if c = 0x0C then ascii "\\f"
  else if c = 0x0A then ascii "\\n"
  else if c = 0x0D then ascii "\\r"
  else if c = 0x09 then ascii "\\t"
  else if c < 0x20 then ascii "\\u00" ++ [hexDigit (c.toNat / 16), hexDigit (c.toNat % 16)]
  else [c]

/-- `seq_len`: what the lead bits of a byte from `0x80` on announce. -/
def leadLen (c : UInt8) : ℕ :=
  if c &&& 0xE0 == 0xC0 then 2
  else if c &&& 0xF0 == 0xE0 then 3
  else if c &&& 0xF8 == 0xF0 then 4
  else 0

/-- The loop of `json_escape`, with `k` bytes of the sequence just copied still to
be passed over. -/
def jsonEscapeFrom : ℕ → Bytes → Bytes
  | _, [] => []
  | k + 1, _ :: rest => jsonEscapeFrom k rest
  | 0, c :: rest =>
    if c < 0x80 then escapeChar c ++ jsonEscapeFrom 0 rest
    else if 2 ≤ leadLen c ∧ leadLen c ≤ rest.length + 1 ∧
        (rest.take (leadLen c - 1)).all fun b => b &&& 0xC0 == 0x80 then
      c :: rest.take (leadLen c - 1) ++ jsonEscapeFrom (leadLen c - 1) rest
    else ascii "\\ufffd" ++ jsonEscapeFrom 0 rest

/-- What `json_escape` appends. -/
def jsonEscape (s : Bytes) : Bytes := jsonEscapeFrom 0 s

/-- `std::to_string` of an `int64_t`. -/
def toDecString (n : Int64) : Bytes :=
  (if n.toInt < 0 then ascii "-" else []) ++ decimal n.toInt.natAbs

/-- `build_json`. -/
def buildJson (tsMs : Int64) (eventType path hostname : Bytes) : Bytes :=
  ascii "\x7b\"ts\":" ++ toDecString tsMs ++ ascii ",\"event\":\"" ++ eventType ++
    ascii "\",\"path\":\"" ++ jsonEscape path ++
    ascii "\",\"hostname\":\"" ++ jsonEscape hostname ++ ascii "\"\x7d"

/-- The message `on_rename` builds. -/
def renameJson (tsMs : Int64) (oldPath newPath hostname : Bytes) : Bytes :=
  ascii "\x7b\"ts\":" ++ toDecString tsMs ++
    ascii ",\"event\":\"rename\",\"old_path\":\"" ++ jsonEscape oldPath ++
    ascii "\",\"new_path\":\"" ++ jsonEscape newPath ++
    ascii "\",\"hostname\":\"" ++ jsonEscape hostname ++ ascii "\"\x7d"

/-- What the agent reports: the arguments of the `Debouncer` callback `send_event`
and of `on_rename`. -/
inductive Emission where
  | delete (path : Bytes)
  | mtimeChange (path : Bytes)
  | rename (oldPath newPath : Bytes)

/-- The message that is sent for it. -/
def Emission.json (tsMs : Int64) (hostname : Bytes) : Emission → Bytes
  | .delete path => buildJson tsMs (ascii "delete") path hostname
  | .mtimeChange path => buildJson tsMs (ascii "mtime_change") path hostname
  | .rename oldPath newPath => renameJson tsMs oldPath newPath hostname

/-! ## The escaped string, chunk by chunk -/

/-- What `json_escape` makes of a chunk. -/
def escapeChunk : Option Bytes → Bytes
  | none => ascii "\\ufffd"
  | some [c] => escapeChar c
  | some q => q

theorem seqLen_of_lt {c : UInt8} (h : c < 0x80) : seqLen c = 1 := by
  rw [seqLen, if_pos h]

theorem seqLen_eq_leadLen {c : UInt8} (h : ¬ c < 0x80) : seqLen c = leadLen c := by
  rw [seqLen, if_neg h, leadLen]

theorem leadLen_ne_one (c : UInt8) : leadLen c ≠ 1 := by
  unfold leadLen
  split_ifs <;> decide

/-- **The loop goes chunk by chunk.** -/
theorem jsonEscapeFrom_eq (k : ℕ) (s : Bytes) :
    jsonEscapeFrom k s = (chunksFrom k s).flatMap escapeChunk := by
  induction s generalizing k with
  | nil => cases k <;> rfl
  | cons c rest ih =>
    cases k with
    | succ k => rw [jsonEscapeFrom, chunksFrom, ih]
    | zero =>
      rw [jsonEscapeFrom, chunksFrom, headSeq]
      by_cases hc : c < 0x80
      · have hlen := seqLen_of_lt hc
        rw [if_pos hc, hlen, if_pos ⟨one_ne_zero, Nat.le_add_left 1 _, by simp⟩]
        simp only [Nat.sub_self, List.take_zero, List.length_singleton, List.flatMap_cons, ih]
        rfl
      · have hne := leadLen_ne_one c
        rw [if_neg hc, seqLen_eq_leadLen hc]
        split_ifs with h1 h2 h2
        · obtain ⟨h0, hle, -⟩ := h2
          have hlen : (c :: rest.take (leadLen c - 1)).length = leadLen c := by
            rw [List.length_cons, List.length_take]
            omega
          have hchunk : escapeChunk (some (c :: rest.take (leadLen c - 1))) =
              c :: rest.take (leadLen c - 1) := by
            obtain ⟨d, ds, hds⟩ : ∃ d ds, rest.take (leadLen c - 1) = d :: ds := by
              refine List.exists_cons_of_length_pos ?_
              rw [List.length_cons] at hlen
              omega
            rw [hds]
            rfl
          simp only [List.flatMap_cons, hlen, hchunk, ih]
        · exact absurd ⟨by omega, h1.2⟩ h2
        · exact absurd ⟨by omega, h2.2⟩ h1
        · simp only [List.flatMap_cons, ih]
          rfl

theorem jsonEscape_eq (s : Bytes) : jsonEscape s = (chunks s).flatMap escapeChunk :=
  jsonEscapeFrom_eq 0 s

theorem escapeChar_ascii {c : UInt8} (h : c.toNat < 0x80) :
    ∀ b ∈ escapeChar c, b.toNat < 0x80 := by
  have hall : (escapeChar c).all fun b => b.toNat < 0x80 := by
    revert c
    decide +kernel
  simpa using hall

/-- A control character without a short escape is read back from its `\u` form. -/
theorem hex4_control {c : UInt8} (h : c.toNat < 0x20) :
    hex4 (asciiText [0x30, 0x30, hexDigit (c.toNat / 16), hexDigit (c.toNat % 16)]) =
      some c.toNat := by
  revert c
  decide +kernel

/-- The escapes by kind: a letter behind a backslash, a `\u` form, the byte itself. -/
theorem escapeChar_cases {c : UInt8} (h : c.toNat < 0x80) :
    (∃ e d x, escapeChar c = [0x5C, e] ∧ asciiText [e] = [d] ∧ d ≠ letterU ∧
      simpleEscape d = some x ∧ asciiText [c] = [x]) ∨
    (c.toNat < 0x20 ∧ escapeChar c =
      [0x5C, 0x75, 0x30, 0x30, hexDigit (c.toNat / 16), hexDigit (c.toNat % 16)]) ∨
    (c ≠ 0x22 ∧ c ≠ 0x5C ∧ 0x20 ≤ c.toNat ∧ escapeChar c = [c]) := by
  unfold escapeChar
  split_ifs with h1 h2 h3 h4 h5 h6 h7 hc
  · subst h1
    exact Or.inl ⟨0x22, _, _, by decide +kernel, rfl, by decide, rfl, rfl⟩
  · subst h2
    exact Or.inl ⟨0x5C, _, _, by decide +kernel, rfl, by decide, rfl, rfl⟩
  · subst h3
    exact Or.inl ⟨0x62, _, _, by decide +kernel, rfl, by decide, rfl, rfl⟩
  · subst h4
    exact Or.inl ⟨0x66, _, _, by decide +kernel, rfl, by decide, rfl, rfl⟩
  · subst h5
    exact Or.inl ⟨0x6E, _, _, by decide +kernel, rfl, by decide, rfl, rfl⟩
  · subst h6
    exact Or.inl ⟨0x72, _, _, by decide +kernel, rfl, by decide, rfl, rfl⟩
  · subst h7
    exact Or.inl ⟨0x74, _, _, by decide +kernel, rfl, by decide, rfl, rfl⟩
  · have hform : ascii "\\u00" = [0x5C, 0x75, 0x30, 0x30] := by decide +kernel
    rw [hform]
    exact Or.inr (Or.inl ⟨UInt8.lt_iff_toNat_lt.mp hc, rfl⟩)
  · have hge : 0x20 ≤ c.toNat := Nat.not_lt.mp fun hlt => hc (UInt8.lt_iff_toNat_lt.mpr hlt)
    exact Or.inr (Or.inr ⟨h1, h2, hge, rfl⟩)

theorem spells_escapeChar {c : UInt8} (h : c.toNat < 0x80) :
    Spells (asciiText (escapeChar c)) (asciiText [c]) := by
  rcases escapeChar_cases h with ⟨e, d, x, heq, hd, hu, hx, hc⟩ | ⟨hlt, heq⟩ | ⟨hq, hb, hge, heq⟩
  · rw [heq, hc, show asciiText [0x5C, e] = backslash :: asciiText [e] from rfl, hd]
    exact spells_simple hu hx
  · have hspell := spells_unicode (hex4_control hlt) (Or.inl (by omega))
    have hval : (Fin.ofNat 0x110000 c.toNat : CodePoint) = ⟨c.toNat, by omega⟩ :=
      Fin.ext (Nat.mod_eq_of_lt (by omega))
    rw [hval] at hspell
    rw [heq]
    exact hspell
  · rw [heq]
    refine spells_plain (fun he => hq ?_) (fun he => hb ?_) hge
    · exact UInt8.toNat_inj.mp (show c.toNat = 0x22 from congrArg Fin.val he)
    · exact UInt8.toNat_inj.mp (show c.toNat = 0x5C from congrArg Fin.val he)

/-- The value of a sequence of several bytes that decodes is not ASCII. -/
theorem le_of_decodeSeq {a b : UInt8} {q : Bytes} {x : CodePoint} (hq : IsSeq (a :: b :: q))
    (hx : decodeSeq (a :: b :: q) = some x) : 0x80 ≤ x.val := by
  obtain ⟨hmin, hval⟩ := decodeSeq_eq_some_iff.mp hx
  rw [hval] at hmin
  rcases hq.cases with ⟨_, heq, -⟩ | ⟨_, _, heq, -⟩ | ⟨_, _, _, heq, -⟩ | ⟨_, _, _, _, heq, -⟩ <;>
    simp only [List.cons.injEq, reduceCtorEq, and_false] at heq <;>
    obtain ⟨rfl, rfl, rfl⟩ := heq <;>
    simp only [minValue, List.length_cons, List.length_nil, Nat.zero_add, Nat.reduceAdd] at hmin <;>
    omega

/-- **What the decoder and the scanner make of an escaped chunk.** -/
theorem escapeChunk_spec {c : Option Bytes} (h : IsSeq (c.getD replacement)) :
    Closed (escapeChunk c) ∧
      match decodeSeq (c.getD replacement) with
      | some x => ∃ e, decode (escapeChunk c) = some e ∧ Spells e [x]
      | none => decode (escapeChunk c) = none := by
  match c, h with
  | none, _ =>
    have hasc : ∀ b ∈ ascii "\\ufffd", b.toNat < 0x80 := by
      have hall : (ascii "\\ufffd").all fun b => b.toNat < 0x80 := by decide +kernel
      simpa using hall
    have hspell : Spells (asciiText (ascii "\\ufffd")) [0xFFFD] :=
      spells_unicode (u := 0xFFFD) (by decide +kernel) (Or.inr (by omega))
    have hdec := decode_ascii_append hasc []
    rw [List.append_nil, decode_nil, Option.map_some, List.append_nil] at hdec
    rw [Option.getD_none, decodeSeq_replacement]
    exact ⟨closed_ascii hasc, _, hdec, hspell⟩
  | some [], h => exact absurd rfl h.ne_nil
  | some [b], h =>
    have hb : b.toNat < 0x80 := h.lt_of_singleton
    have hasc := escapeChar_ascii hb
    have hdec := decode_ascii_append hasc []
    rw [List.append_nil, decode_nil, Option.map_some, List.append_nil] at hdec
    rw [show (some [b]).getD replacement = [b] from rfl, decodeSeq_ascii hb]
    exact ⟨closed_ascii hasc, _, hdec, spells_escapeChar hb⟩
  | some (a :: b :: q), h =>
    rw [Option.getD_some] at h ⊢
    refine ⟨h.closed, ?_⟩
    rw [show escapeChunk (some (a :: b :: q)) = a :: b :: q from rfl, h.decode_eq]
    cases hx : decodeSeq (a :: b :: q) with
    | none => rfl
    | some x =>
      have hge := le_of_decodeSeq h hx
      refine ⟨[x], rfl, spells_plain ?_ ?_ (by omega)⟩
      · rintro rfl
        exact absurd hge (by decide)
      · rintro rfl
        exact absurd hge (by decide)

theorem escapeChunks_spec {cs : List (Option Bytes)} (h : ∀ c ∈ cs, IsSeq (c.getD replacement)) :
    Closed (cs.flatMap escapeChunk) ∧
      match cs.mapM fun c => decodeSeq (c.getD replacement) with
      | some t => ∃ e, decode (cs.flatMap escapeChunk) = some e ∧ Spells e t
      | none => decode (cs.flatMap escapeChunk) = none := by
  induction cs with
  | nil => exact ⟨closed_ascii (by simp), [], rfl, spells_nil⟩
  | cons c cs ih =>
    obtain ⟨hclosed, hspec⟩ := escapeChunk_spec (h c List.mem_cons_self)
    obtain ⟨hrest, hih⟩ := ih fun d hd => h d (List.mem_cons_of_mem _ hd)
    rw [List.flatMap_cons, List.mapM_cons, hclosed]
    refine ⟨?_, ?_⟩
    · intro rest
      rw [List.append_assoc, hclosed, hclosed, hrest]
      cases decode (escapeChunk c) with
      | none => rfl
      | some e => cases decode (cs.flatMap escapeChunk) <;> simp [Option.map_map, Function.comp_def]
    · cases hx : decodeSeq (c.getD replacement) with
      | none =>
        rw [hx] at hspec
        simp only at hspec
        rw [hspec]
        rfl
      | some x =>
        rw [hx] at hspec
        obtain ⟨e, he, hse⟩ := hspec
        rw [he]
        cases ht : cs.mapM fun c => decodeSeq (c.getD replacement) with
        | none =>
          rw [ht] at hih
          simp only at hih
          rw [hih]
          rfl
        | some t =>
          rw [ht] at hih
          obtain ⟨e', he', hse'⟩ := hih
          rw [he']
          exact ⟨e ++ e', rfl, hse.append hse'⟩

theorem closed_jsonEscape (s : Bytes) : Closed (jsonEscape s) := by
  rw [jsonEscape_eq]
  exact (escapeChunks_spec fun _ hc => isSeq_getD_of_mem_chunks hc).1

/-- The escaped form of a string spells its sanitized text. -/
theorem exists_spells_jsonEscape {s : Bytes} {t : Text} (h : decode (sanitize s) = some t) :
    ∃ e, decode (jsonEscape s) = some e ∧ Spells e t := by
  have hspec := (escapeChunks_spec fun c hc => isSeq_getD_of_mem_chunks (s := s) hc).2
  rw [decode_sanitize] at h
  rw [h] at hspec
  rw [jsonEscape_eq]
  exact hspec

/-- A string whose sanitized form does not decode has an undecodable escaped
form. -/
theorem decode_jsonEscape_eq_none {s : Bytes} (h : decode (sanitize s) = none) :
    decode (jsonEscape s) = none := by
  have hspec := (escapeChunks_spec fun c hc => isSeq_getD_of_mem_chunks (s := s) hc).2
  rw [decode_sanitize] at h
  rw [h] at hspec
  rw [jsonEscape_eq]
  exact hspec

theorem length_escapeChar_le (c : UInt8) : (escapeChar c).length ≤ 6 := by
  revert c
  decide +kernel

theorem length_escapeChunk_le {c : Option Bytes} (h : IsSeq (c.getD replacement)) :
    (escapeChunk c).length ≤ 6 := by
  match c, h with
  | none, _ => decide +kernel
  | some [], h => exact absurd rfl h.ne_nil
  | some [b], _ => exact length_escapeChar_le b
  | some (a :: b :: q), h =>
    rcases h.cases with ⟨_, heq, -⟩ | ⟨_, _, heq, -⟩ | ⟨_, _, _, heq, -⟩ | ⟨_, _, _, _, heq, -⟩ <;>
      simp only [Option.getD_some] at heq <;> simp [escapeChunk, heq]

/-! ## The size of a message -/

/-- Escaping makes a string at most six times as long. -/
theorem length_jsonEscape_le (s : Bytes) : (jsonEscape s).length ≤ 6 * s.length := by
  have hchunks : ∀ cs : List (Option Bytes), (∀ c ∈ cs, IsSeq (c.getD replacement)) →
      (cs.flatMap escapeChunk).length ≤ 6 * cs.length := by
    intro cs hcs
    induction cs with
    | nil => simp
    | cons c cs ih =>
      have hc := length_escapeChunk_le (hcs c List.mem_cons_self)
      have hrest := ih fun d hd => hcs d (List.mem_cons_of_mem _ hd)
      rw [List.flatMap_cons, List.length_append, List.length_cons]
      omega
  rw [jsonEscape_eq]
  exact (hchunks _ fun _ hc => isSeq_getD_of_mem_chunks hc).trans
    (Nat.mul_le_mul_left 6 (length_chunks_le s))

/-- A timestamp is printed as a sign and a numeral. -/
theorem exists_sign (n : Int64) :
    ∃ sign, (sign = [] ∨ sign = [0x2D]) ∧ toDecString n = sign ++ decimal n.toInt.natAbs ∧
      n.toInt = if sign = [] then (n.toInt.natAbs : ℤ) else -(n.toInt.natAbs : ℤ) := by
  have hminus : ascii "-" = [0x2D] := by decide +kernel
  rw [toDecString, hminus]
  by_cases hneg : n.toInt < 0
  · refine ⟨[0x2D], Or.inr rfl, by rw [if_pos hneg], ?_⟩
    rw [if_neg (List.cons_ne_nil _ _)]
    omega
  · refine ⟨[], Or.inl rfl, by rw [if_neg hneg], ?_⟩
    rw [if_pos rfl]
    omega

theorem length_toDecString_le (n : Int64) : (toDecString n).length ≤ 20 := by
  have hlo := n.le_toInt
  have hhi := n.toInt_lt
  have hle := length_decimal_le (n := n.toInt.natAbs) (k := 19) (by norm_num) (by omega)
  obtain ⟨sign, hsign, heq, -⟩ := exists_sign n
  have hlen : sign.length ≤ 1 := by rcases hsign with rfl | rfl <;> decide
  rw [heq, List.length_append]
  omega

/-- The strings of a report, by length. -/
def Emission.pathLength : Emission → ℕ
  | .delete path => path.length
  | .mtimeChange path => path.length
  | .rename oldPath newPath => oldPath.length + newPath.length

/-- A message is at most six times as long as its strings, and a little more. -/
theorem Emission.length_json_le (tsMs : Int64) (hostname : Bytes) (ev : Emission) :
    (ev.json tsMs hostname).length ≤ 6 * (ev.pathLength + hostname.length) + 128 := by
  have hts := length_toDecString_le tsMs
  have hhost := length_jsonEscape_le hostname
  have hlits : (ascii "\x7b\"ts\":").length = 6 ∧ (ascii ",\"event\":\"").length = 10 ∧
      (ascii "\",\"path\":\"").length = 10 ∧ (ascii "\",\"hostname\":\"").length = 14 ∧
      (ascii "\"\x7d").length = 2 ∧ (ascii "delete").length = 6 ∧
      (ascii "mtime_change").length = 12 ∧
      (ascii ",\"event\":\"rename\",\"old_path\":\"").length = 30 ∧
      (ascii "\",\"new_path\":\"").length = 14 := by
    decide +kernel
  cases ev with
  | delete path =>
    have hpath := length_jsonEscape_le path
    simp only [Emission.json, buildJson, Emission.pathLength, List.length_append, hlits]
    omega
  | mtimeChange path =>
    have hpath := length_jsonEscape_le path
    simp only [Emission.json, buildJson, Emission.pathLength, List.length_append, hlits]
    omega
  | rename oldPath newPath =>
    have hold := length_jsonEscape_le oldPath
    have hnew := length_jsonEscape_le newPath
    simp only [Emission.json, renameJson, Emission.pathLength, List.length_append, hlits]
    omega

end Agent
end FileTracker
