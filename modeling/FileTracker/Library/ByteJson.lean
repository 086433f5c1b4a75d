import FileTracker.Library.FlatObject

/-!
# JSON read byte by byte

A reader that never asks whether its input is UTF-8: a string is the bytes
between its quotes, those from `0x80` on taken as they are, and an escape stands
for the UTF-8 bytes of its code point.  The grammar is that of RFC 8259,
containers and all, and there is no other limit: `fuel` is there to make the
recursion structural.

What is ASCII by the grammar --- an escape, a numeral --- is read by the pieces
of `Library.PyJson`, on the bytes taken as characters.  The rest of the module
reads a flat object back, as `Library.FlatObject` does for texts; `Spells` says
here that a run of bytes inside a string is read as other bytes.
-/

namespace FileTracker
namespace ByteJson

open Utf8

/-- A value.  A number with a fraction or an exponent keeps its bytes; an object
keeps its members in the order of the input, repeated keys included. -/
inductive Value where
  | null
  | bool (b : Bool)
  | int (i : ℤ)
  | real (lexeme : Bytes)
  | str (s : Bytes)
  | array (xs : List Value)
  | object (members : List (Bytes × Value))

/-! ## Reading -/

def quote : UInt8 := 0x22
def backslash : UInt8 := 0x5C
def lbrace : UInt8 := 0x7B
def rbrace : UInt8 := 0x7D
def lbracket : UInt8 := 0x5B
def rbracket : UInt8 := 0x5D
def colon : UInt8 := 0x3A
def comma : UInt8 := 0x2C
def minus : UInt8 := 0x2D

/-- The whitespace of JSON: space, tab, newline, carriage return. -/
def isWs (c : UInt8) : Bool := c == 0x20 || c == 0x09 || c == 0x0A || c == 0x0D

def skipWs (s : Bytes) : Bytes := s.dropWhile isWs

/-- What stands behind a backslash: the bytes it means and how many bytes it
takes. -/
def readEscape (s : Bytes) : Option (Bytes × ℕ) :=
  (PyJson.readEscape (asciiText s)).map fun p => (encodeValue p.1.val, p.2)

/-- A string behind its opening quote, with `k` bytes of the escape just read
still to be passed over.  A control character has to be escaped. -/
def readString : ℕ → Bytes → Option (Bytes × Bytes)
  | _, [] => none
  | k + 1, _ :: rest => readString k rest
  | 0, c :: rest =>
    if c = quote then some ([], rest)
    else if c = backslash then
      match readEscape rest with
      | some (x, n) => (readString n rest).map fun p => (x ++ p.1, p.2)
      | none => none
    else if c < 0x20 then none
    else (readString 0 rest).map fun p => (c :: p.1, p.2)

/-- A number: sign, integer part, fraction, exponent. -/
def readNumber (s : Bytes) : Option (Value × Bytes) :=
  let sign := if s.head? = some minus then 1 else 0
  let digits := PyJson.integerPart (asciiText (s.drop sign))
  let s₁ := s.drop (sign + digits.length)
  let frac := PyJson.fraction (asciiText s₁)
  let exp := PyJson.exponent (asciiText (s₁.drop frac.length))
  if digits = [] then none
  else if frac = [] ∧ exp = [] then
    some (.int (if sign = 0 then PyJson.ofDecimal digits else -(PyJson.ofDecimal digits : ℤ)), s₁)
  else
    some (.real (s.take (sign + digits.length + frac.length + exp.length)),
      s₁.drop (frac.length + exp.length))

/-- The values that are read without recursion: the literals and the numbers. -/
def readAtom (s : Bytes) : Option (Value × Bytes) :=
  if s.take 4 = ascii "null" then some (.null, s.drop 4)
  else if s.take 4 = ascii "true" then some (.bool true, s.drop 4)
  else if s.take 5 = ascii "false" then some (.bool false, s.drop 5)
  else readNumber s

/-- What stands behind the byte `c`, whitespace in front of it passed over. -/
def expect (c : UInt8) (s : Bytes) : Option Bytes :=
  match skipWs s with
  | [] => none
  | d :: rest => if d = c then some rest else none

mutual

/-- One value. -/
def readValue : ℕ → Bytes → Option (Value × Bytes)
  | 0, _ => none
  | n + 1, s =>
    match skipWs s with
    | [] => none
    | c :: rest =>
      if c = quote then (readString 0 rest).map fun p => (.str p.1, p.2)
      else if c = lbrace then
        match expect rbrace rest with
        | some rest => some (.object [], rest)
        | none =>
          match expect quote rest with
          | some rest => (readMembers n rest).map fun p => (.object p.1, p.2)
          | none => none
      else if c = lbracket then
        match expect rbracket rest with
        | some rest => some (.array [], rest)
        | none => (readElements n rest).map fun p => (.array p.1, p.2)
      else readAtom (c :: rest)

/-- The members of an object, behind the quote that opens a key. -/
def readMembers : ℕ → Bytes → Option (List (Bytes × Value) × Bytes)
  | 0, _ => none
  | n + 1, s =>
    match readString 0 s with
    | none => none
    | some (key, s) =>
      match expect colon s with
      | none => none
      | some s =>
        match readValue n s with
        | none => none
        | some (v, s) =>
          match expect rbrace s with
          | some rest => some ([(key, v)], rest)
          | none =>
            match (expect comma s).bind (expect quote) with
            | some s => (readMembers n s).map fun p => ((key, v) :: p.1, p.2)
            | none => none

/-- The elements of an array. -/
def readElements : ℕ → Bytes → Option (List Value × Bytes)
  | 0, _ => none
  | n + 1, s =>
    match readValue n s with
    | none => none
    | some (v, s) =>
      match expect rbracket s with
      | some rest => some ([v], rest)
      | none =>
        match expect comma s with
        | some s => (readElements n s).map fun p => (v :: p.1, p.2)
        | none => none

end

/-- A whole input: one value, and nothing but whitespace behind it. -/
def parse (s : Bytes) : Option Value :=
  match readValue (2 * s.length + 2) s with
  | none => none
  | some (v, rest) => if skipWs rest = [] then some v else none

/-! ## Spelling -/

/-- In the middle of a string the bytes `e` are read as `s`. -/
def Spells (e s : Bytes) : Prop :=
  ∀ rest, readString 0 (e ++ rest) = (readString 0 rest).map fun p => (s ++ p.1, p.2)

theorem spells_nil : Spells [] [] := by
  intro rest
  cases h : readString 0 rest <;> simp [h]

theorem Spells.append {e₁ e₂ s₁ s₂ : Bytes} (h₁ : Spells e₁ s₁) (h₂ : Spells e₂ s₂) :
    Spells (e₁ ++ e₂) (s₁ ++ s₂) := by
  intro rest
  rw [List.append_assoc, h₁, h₂]
  cases readString 0 rest <;> simp

theorem readString_eq_drop (k : ℕ) (s : Bytes) : readString k s = readString 0 (s.drop k) := by
  induction s generalizing k with
  | nil => cases k <;> simp [readString]
  | cons c rest ih =>
    cases k with
    | zero => rw [List.drop_zero]
    | succ k => rw [readString, List.drop_succ_cons, ih]

/-- A byte with no meaning of its own spells itself. -/
theorem spells_plain {c : UInt8} (hq : c ≠ quote) (hb : c ≠ backslash) (hc : 0x20 ≤ c.toNat) :
    Spells [c] [c] := by
  intro rest
  have hge : ¬ c < 0x20 := fun hlt => Nat.not_lt.mpr hc (UInt8.lt_iff_toNat_lt.mp hlt)
  rw [List.cons_append, List.nil_append, readString, if_neg hq, if_neg hb, if_neg hge]
  rfl

theorem spells_of_plain {s : Bytes}
    (h : ∀ c ∈ s, c ≠ quote ∧ c ≠ backslash ∧ 0x20 ≤ c.toNat) : Spells s s := by
  induction s with
  | nil => exact spells_nil
  | cons c s ih =>
    obtain ⟨hq, hb, hc⟩ := h c List.mem_cons_self
    exact (spells_plain hq hb hc).append (ih fun d hd => h d (List.mem_cons_of_mem _ hd))

/-- An escape that means `x` in a text spells the UTF-8 bytes of `x`. -/
theorem spells_escape {e : Bytes} {x : CodePoint}
    (h : ∀ rest, PyJson.readEscape (asciiText e ++ rest) = some (x, e.length)) :
    Spells (backslash :: e) (encodeValue x.val) := by
  intro rest
  have hread : readEscape (e ++ rest) = some (encodeValue x.val, e.length) := by
    rw [readEscape, asciiText_append, h]
    rfl
  rw [List.cons_append, readString, if_neg (by decide), if_pos rfl, hread]
  simp only [readString_eq_drop e.length, List.drop_left]

theorem spells_simple {c : UInt8} {d x : CodePoint} (hd : asciiText [c] = [d])
    (hu : d ≠ PyJson.letterU) (hx : PyJson.simpleEscape d = some x) :
    Spells [backslash, c] (encodeValue x.val) := by
  refine spells_escape ?_
  rw [hd]
  exact PyJson.readEscape_simple hu hx

theorem spells_unicode {a b c d : UInt8} {u : ℕ}
    (hu : PyJson.hex4 (asciiText [a, b, c, d]) = some u) (hs : u < 0xD800 ∨ 0xDBFF < u) :
    Spells [backslash, 0x75, a, b, c, d] (encodeValue (Fin.ofNat 0x110000 u).val) := by
  refine spells_escape fun rest => ?_
  exact PyJson.readEscape_unicode hu hs rest

/-- A string ends where its closing quote stands. -/
theorem Spells.readString_quote {e s : Bytes} (h : Spells e s) (rest : Bytes) :
    readString 0 (e ++ quote :: rest) = some (s, rest) := by
  rw [h, readString, if_pos rfl, Option.map_some, List.append_nil]

/-! ## Values in front of a delimiter -/

theorem skipWs_cons {c : UInt8} (h : isWs c = false) (s : Bytes) : skipWs (c :: s) = c :: s := by
  simp [skipWs, h]

theorem expect_cons {c d : UInt8} (h : isWs d = false) (s : Bytes) :
    expect c (d :: s) = if d = c then some s else none := by
  rw [expect, skipWs_cons h]

/-- Bytes that are read as `v` when a comma or a closing brace stands behind
them, without entering a container. -/
def FlatValue (b : Bytes) (v : Value) : Prop :=
  ∀ n c rest, c = comma ∨ c = rbrace → readValue (n + 1) (b ++ c :: rest) = some (v, c :: rest)

theorem flatValue_str {e s : Bytes} (h : Spells e s) :
    FlatValue (quote :: (e ++ [quote])) (.str s) := by
  intro n c rest _
  rw [List.cons_append, List.append_assoc, List.cons_append, List.nil_append, readValue,
    skipWs_cons (by decide)]
  simp only [if_true, h.readString_quote, Option.map_some]

/-- A nonempty string of digits that starts with `0` only if it is `0`. -/
def IsNumeral (ds : Bytes) : Prop := PyJson.IsNumeral (asciiText ds)

theorem IsNumeral.exists_cons {ds : Bytes} (h : IsNumeral ds) :
    ∃ d tail, ds = d :: tail ∧ 0x30 ≤ d.toNat ∧ d.toNat ≤ 0x39 := by
  rcases ds with _ | ⟨d, tail⟩
  · exact absurd rfl h.ne_nil
  · have hd := h.digits _ List.mem_cons_self
    simp only [PyJson.isDigit, Bool.and_eq_true, decide_eq_true_eq] at hd
    exact ⟨d, tail, rfl, hd⟩

/-- A number with its sign, in front of a delimiter. -/
theorem readNumber_numeral {sign ds : Bytes} (hsign : sign = [] ∨ sign = [minus])
    (h : IsNumeral ds) {c : UInt8} (hc : c = comma ∨ c = rbrace) (rest : Bytes) :
    readNumber (sign ++ (ds ++ c :: rest)) =
      some (.int (if sign = [] then PyJson.ofDecimal (asciiText ds)
        else -(PyJson.ofDecimal (asciiText ds) : ℤ)), c :: rest) := by
  obtain ⟨d, hd, hcons⟩ : ∃ d, (d = PyJson.comma ∨ d = PyJson.rbrace) ∧
      asciiText (c :: rest) = d :: asciiText rest := by
    rcases hc with rfl | rfl
    · exact ⟨_, Or.inl rfl, rfl⟩
    · exact ⟨_, Or.inr rfl, rfl⟩
  obtain ⟨hdig, hfrac, hexp⟩ := PyJson.delimiter_facts hd (asciiText rest)
  have hint : PyJson.integerPart (asciiText (ds ++ c :: rest)) = asciiText ds := by
    rw [asciiText_append, hcons]
    exact h.integerPart hdig _
  have htake : (if (sign ++ (ds ++ c :: rest)).head? = some minus then 1 else 0) =
      sign.length := by
    rcases hsign with rfl | rfl
    · obtain ⟨d, tail, rfl, hge, -⟩ := h.exists_cons
      have hne : d ≠ minus := by
        rintro rfl
        exact absurd hge (by decide)
      simp [hne]
    · rfl
  have hdrop : (sign ++ (ds ++ c :: rest)).drop (sign.length + ds.length) = c :: rest := by
    rw [← List.drop_drop, List.drop_left, List.drop_left]
  have hne : asciiText ds ≠ [] := h.ne_nil
  simp only [readNumber, htake, List.drop_left, hint, length_asciiText, hdrop, hcons, hfrac,
    List.length_nil, List.drop_zero, hexp, hne, if_false, and_self, if_true,
    List.length_eq_zero_iff]

theorem take_ne_ascii {c a : UInt8} (h : c ≠ a) (k : ℕ) (s w : Bytes) :
    (c :: s).take (k + 1) ≠ a :: w := by
  rw [List.take_succ_cons]
  exact fun he => h (List.cons.inj he).1

theorem readAtom_number {c : UInt8} (hc : 0x30 ≤ c.toNat ∧ c.toNat ≤ 0x39 ∨ c = minus)
    (s : Bytes) : readAtom (c :: s) = readNumber (c :: s) := by
  have hlit : ascii "null" = [0x6E, 0x75, 0x6C, 0x6C] ∧ ascii "true" = [0x74, 0x72, 0x75, 0x65] ∧
      ascii "false" = [0x66, 0x61, 0x6C, 0x73, 0x65] := by
    decide +kernel
  obtain ⟨hnull, htrue, hfalse⟩ := hlit
  have hne : ∀ a : UInt8, 0x39 < a.toNat → c ≠ a := by
    rintro a ha rfl
    rcases hc with hc | rfl
    · omega
    · exact absurd ha (by decide)
  rw [readAtom, hnull, htrue, hfalse, if_neg (take_ne_ascii (hne _ (by decide)) _ _ _),
    if_neg (take_ne_ascii (hne _ (by decide)) _ _ _),
    if_neg (take_ne_ascii (hne _ (by decide)) _ _ _)]

theorem readValue_number {c : UInt8} (hc : 0x30 ≤ c.toNat ∧ c.toNat ≤ 0x39 ∨ c = minus)
    (n : ℕ) (s : Bytes) : readValue (n + 1) (c :: s) = readNumber (c :: s) := by
  have hfacts : isWs c = false ∧ c ≠ quote ∧ c ≠ lbrace ∧ c ≠ lbracket := by
    have hall : ∀ c : UInt8, (0x30 ≤ c.toNat ∧ c.toNat ≤ 0x39 ∨ c = minus) →
        isWs c = false ∧ c ≠ quote ∧ c ≠ lbrace ∧ c ≠ lbracket := by
      decide +kernel
    exact hall c hc
  obtain ⟨hws, hq, hl, hb⟩ := hfacts
  rw [readValue, skipWs_cons hws]
  simp only [hq, hl, hb, if_false]
  exact readAtom_number hc s

/-- An integer with its sign is a flat value. -/
theorem flatValue_int {sign ds : Bytes} (hsign : sign = [] ∨ sign = [minus]) (h : IsNumeral ds) :
    FlatValue (sign ++ ds) (.int (if sign = [] then PyJson.ofDecimal (asciiText ds)
      else -(PyJson.ofDecimal (asciiText ds) : ℤ))) := by
  intro n c rest hc
  rw [List.append_assoc, ← readNumber_numeral hsign h hc rest]
  rcases hsign with rfl | rfl
  · obtain ⟨d, tail, rfl, hd⟩ := h.exists_cons
    exact readValue_number (Or.inl hd) n _
  · exact readValue_number (Or.inr rfl) n _

/-! ## Members -/

/-- A member as it is printed: the key between its quotes, the bytes of the
value, and the value. -/
structure Member where
  key : Bytes
  body : Bytes
  value : Value

/-- What the printer owes for a member. -/
def Member.Ok (m : Member) : Prop := Spells m.key m.key ∧ FlatValue m.body m.value

/-- The members behind the quote that opens the first key, up to the closing
brace. -/
def renderMembers : List Member → Bytes
  | [] => []
  | [m] => m.key ++ quote :: colon :: (m.body ++ [rbrace])
  | m :: ms => m.key ++ quote :: colon :: (m.body ++ comma :: quote :: renderMembers ms)

/-- The object, as it is printed. -/
def renderObject (ms : List Member) : Bytes := lbrace :: quote :: renderMembers ms

theorem readMembers_render {ms : List Member} (hne : ms ≠ []) (hok : ∀ m ∈ ms, m.Ok)
    {n : ℕ} (hn : ms.length < n) :
    readMembers n (renderMembers ms) = some (ms.map fun m => (m.key, m.value), []) := by
  induction ms generalizing n with
  | nil => exact absurd rfl hne
  | cons m ms ih =>
    obtain ⟨n, rfl⟩ : ∃ k, n = k + 2 := ⟨n - 2, by simp at hn; omega⟩
    obtain ⟨hkey, hval⟩ := hok m List.mem_cons_self
    rcases ms with _ | ⟨m', ms⟩
    · have hread := hval n rbrace [] (Or.inr rfl)
      rw [renderMembers, readMembers, hkey.readString_quote]
      simp only [expect_cons (show isWs colon = false by decide), if_true, hread,
        expect_cons (show isWs rbrace = false by decide)]
      rfl
    · have hread := hval n comma (quote :: renderMembers (m' :: ms)) (Or.inl rfl)
      have hrest := ih (List.cons_ne_nil _ _) (fun k hk => hok k (List.mem_cons_of_mem _ hk))
        (n := n + 1) (by simpa using hn)
      rw [renderMembers, readMembers, hkey.readString_quote]
      · simp only [expect_cons (show isWs colon = false by decide), if_true, hread,
          expect_cons (show isWs comma = false by decide), show comma ≠ rbrace by decide, if_false,
          Option.bind_some, expect_cons (show isWs quote = false by decide), hrest]
        rfl
      · exact fun h => absurd h (List.cons_ne_nil _ _)

theorem length_le_renderMembers (ms : List Member) :
    ms.length ≤ (renderMembers ms).length := by
  induction ms with
  | nil => rfl
  | cons m ms ih =>
    rcases ms with _ | ⟨m', ms⟩
    · simp [renderMembers]
      omega
    · rw [renderMembers]
      · simp only [List.length_append, List.length_cons] at ih ⊢
        omega
      · exact fun h => absurd h (List.cons_ne_nil _ _)

/-- An object is read with more fuel than it has members. -/
theorem readValue_renderObject {ms : List Member} (hne : ms ≠ []) (hok : ∀ m ∈ ms, m.Ok)
    {n : ℕ} (hn : ms.length < n) :
    readValue (n + 1) (renderObject ms) =
      some (.object (ms.map fun m => (m.key, m.value)), []) := by
  have hmembers := readMembers_render hne hok hn
  rw [renderObject, readValue, skipWs_cons (by decide)]
  simp only [show lbrace ≠ quote by decide, if_false, if_true,
    expect_cons (show isWs quote = false by decide), show quote ≠ rbrace by decide, hmembers]
  rfl

/-- **A flat object is read back member by member.** -/
theorem parse_renderObject {ms : List Member} (hne : ms ≠ []) (hok : ∀ m ∈ ms, m.Ok) :
    parse (renderObject ms) = some (.object (ms.map fun m => (m.key, m.value))) := by
  have hlen := length_le_renderMembers ms
  have hread := readValue_renderObject hne hok (n := 2 * (renderObject ms).length + 1)
    (by simp only [renderObject, List.length_cons]; omega)
  rw [parse, hread]
  rfl

end ByteJson
end FileTracker
