import FileTracker.Library.Utf8

/-!
# Python's `json.loads` on a byte string

`jsonLoads` follows the documented behaviour of the standard library: the
encoding is guessed from the first bytes, the bytes are decoded with the
`surrogatepass` handler, and the text is scanned by the recursive scanner of
`json.scanner`.  The exceptions it can raise are kept apart, because a caller
that catches `JSONDecodeError` alone lets the others escape.

The scanner's recursion is bounded twice.  `depth` is the interpreter's own
limit on nested containers, whose exhaustion is a `RecursionError`; `fuel` is
only there to make the recursion structural, and `2 * length + 2` of it is more
than the scanner can use, since every two calls read at least one character.

The same limit is met again where a value that has been read is printed, and a
little earlier: `logWarning`.
-/

namespace FileTracker

/-- The exceptions the modelled Python code can raise. -/
inductive PyError where
  | jsonDecodeError
  | unicodeDecodeError
  | unicodeEncodeError
  | recursionError
  | valueError
  | typeError
  | attributeError
  | keyError
  | redisError
  | dataError
  | osError
  | timeoutExpired
  deriving DecidableEq, Repr

/-- A value `json.loads` returns.  Floats keep their text; an object keeps its
members in the order of the text, repeated keys included. -/
inductive Json where
  | null
  | bool (b : Bool)
  | int (i : ℤ)
  | float (lexeme : Text)
  | str (s : Text)
  | array (xs : List Json)
  | object (members : List (Text × Json))

/-- The bytes of an ASCII literal. -/
def ascii (s : String) : Bytes := s.toByteArray.data.toList

/-- The code points of a literal. -/
def text (s : String) : Text := s.toList.map fun c => Fin.ofNat 0x110000 c.toNat

namespace PyJson

/-! ## Decoding the bytes -/

/-- The encodings `json.detect_encoding` tells apart. -/
inductive Encoding where
  | utf8
  | utf8Sig
  | utf16 (bigEndian : Bool) (bom : Bool)
  | utf32 (bigEndian : Bool) (bom : Bool)
  deriving DecidableEq, Repr

/-- `json.detect_encoding`: byte order marks first, then the pattern of NUL bytes
among the first four. -/
def detectEncoding : Bytes → Encoding
  | 0 :: 0 :: 0xFE :: 0xFF :: _ => .utf32 true true
  | 0xFF :: 0xFE :: 0 :: 0 :: _ => .utf32 false true
  | 0xFE :: 0xFF :: _ => .utf16 true true
  | 0xFF :: 0xFE :: _ => .utf16 false true
  | 0xEF :: 0xBB :: 0xBF :: _ => .utf8Sig
  | a :: b :: c :: d :: _ =>
    if a = 0 then (if b = 0 then .utf32 true false else .utf16 true false)
    else if b = 0 then
      (if c = 0 ∧ d = 0 then .utf32 false false else .utf16 false false)
    else .utf8
  | [a, b] =>
    if a = 0 then .utf16 true false else if b = 0 then .utf16 false false else .utf8
  | _ => .utf8

/-- The 16-bit units of a byte string of even length. -/
def units16 (bigEndian : Bool) : Bytes → Option (List ℕ)
  | [] => some []
  | a :: b :: rest =>
    (units16 bigEndian rest).map
      ((if bigEndian then a.toNat * 256 + b.toNat else b.toNat * 256 + a.toNat) :: ·)
  | _ => none

/-- Join surrogate pairs; a lone surrogate passes. -/
def joinPairs : List ℕ → Text
  | [] => []
  | u :: rest =>
    match rest with
    | v :: rest' =>
      if 0xD800 ≤ u ∧ u ≤ 0xDBFF ∧ 0xDC00 ≤ v ∧ v ≤ 0xDFFF then
        Fin.ofNat 0x110000 (0x10000 + (u - 0xD800) * 0x400 + (v - 0xDC00)) :: joinPairs rest'
      else Fin.ofNat 0x110000 u :: joinPairs (v :: rest')
    | [] => [Fin.ofNat 0x110000 u]

/-- The 32-bit units of a byte string, each a code point. -/
def decode32 (bigEndian : Bool) : Bytes → Option Text
  | [] => some []
  | a :: b :: c :: d :: rest =>
    let v := if bigEndian then LittleEndian.ofLe32 d c b a else LittleEndian.ofLe32 a b c d
    if h : v < 0x110000 then (decode32 bigEndian rest).map (⟨v, h⟩ :: ·) else none
  | _ => none

/-- `bytes.decode(encoding, "surrogatepass")`. -/
def decodeBytes (b : Bytes) : Option Text :=
  match detectEncoding b with
  | .utf8 => Utf8.decode b
  | .utf8Sig => Utf8.decode (b.drop 3)
  | .utf16 be bom => (units16 be (if bom then b.drop 2 else b)).map joinPairs
  | .utf32 be bom => decode32 be (if bom then b.drop 4 else b)

/-! ## Scanning -/

def quote : CodePoint := 0x22
def backslash : CodePoint := 0x5C
def lbrace : CodePoint := 0x7B
def rbrace : CodePoint := 0x7D
def lbracket : CodePoint := 0x5B
def rbracket : CodePoint := 0x5D
def colon : CodePoint := 0x3A
def comma : CodePoint := 0x2C
def letterU : CodePoint := 0x75

/-- The whitespace of JSON: space, tab, newline, carriage return. -/
def isWs (c : CodePoint) : Bool :=
  c.val == 0x20 || c.val == 0x09 || c.val == 0x0A || c.val == 0x0D

def skipWs (s : Text) : Text := s.dropWhile isWs

def isDigit (c : CodePoint) : Bool := 0x30 ≤ c.val && c.val ≤ 0x39

/-- The value of a hexadecimal digit. -/
def hexValue (c : CodePoint) : Option ℕ :=
  if 0x30 ≤ c.val ∧ c.val ≤ 0x39 then some (c.val - 0x30)
  else if 0x41 ≤ c.val ∧ c.val ≤ 0x46 then some (c.val - 0x41 + 10)
  else if 0x61 ≤ c.val ∧ c.val ≤ 0x66 then some (c.val - 0x61 + 10)
  else none

/-- `_decode_uXXXX`: four hexadecimal digits. -/
def hex4 : Text → Option ℕ
  | a :: b :: c :: d :: _ =>
    match hexValue a, hexValue b, hexValue c, hexValue d with
    | some i, some j, some k, some l => some (i * 4096 + j * 256 + k * 16 + l)
    | _, _, _, _ => none
  | _ => none

/-- `BACKSLASH`: the one-character escapes. -/
def simpleEscape (c : CodePoint) : Option CodePoint :=
  if c.val = 0x22 then some 0x22
  else if c.val = 0x5C then some 0x5C
  else if c.val = 0x2F then some 0x2F
  else if c.val = 0x62 then some 0x08
  else if c.val = 0x66 then some 0x0C
  else if c.val = 0x6E then some 0x0A
  else if c.val = 0x72 then some 0x0D
  else if c.val = 0x74 then some 0x09
  else none

/-- What stands behind a backslash: the character it means and how many
characters it takes.  A high surrogate takes a following low one with it. -/
def readEscape : Text → Option (CodePoint × ℕ)
  | [] => none
  | c :: rest =>
    if c = letterU then
      match hex4 rest with
      | none => none
      | some u =>
        if 0xD800 ≤ u ∧ u ≤ 0xDBFF ∧ (rest.drop 4).take 2 = [backslash, letterU] then
          match hex4 (rest.drop 6) with
          | some v =>
            if 0xDC00 ≤ v ∧ v ≤ 0xDFFF then
              some (Fin.ofNat 0x110000 (0x10000 + (u - 0xD800) * 0x400 + (v - 0xDC00)), 11)
            else some (Fin.ofNat 0x110000 u, 5)
          | none => some (Fin.ofNat 0x110000 u, 5)
        else some (Fin.ofNat 0x110000 u, 5)
    else (simpleEscape c).map fun x => (x, 1)

/-- `scanstring` behind the opening quote, in strict mode, with `k` characters of
the escape just read still to be passed over. -/
def scanString : ℕ → Text → Except PyError (Text × Text)
  | _, [] => .error .jsonDecodeError
  | k + 1, _ :: rest => scanString k rest
  | 0, c :: rest =>
    if c = quote then .ok ([], rest)
    else if c = backslash then
      match readEscape rest with
      | some (x, n) => (scanString n rest).map fun p => (x :: p.1, p.2)
      | none => .error .jsonDecodeError
    else if c.val < 0x20 then .error .jsonDecodeError
    else (scanString 0 rest).map fun p => (c :: p.1, p.2)

/-- CPython refuses to read an integer with more digits than this. -/
def intMaxStrDigits : ℕ := 4300

/-- The number a string of decimal digits spells. -/
def ofDecimal (ds : Text) : ℕ := ds.foldl (fun n d => n * 10 + (d.val - 0x30)) 0

/-- The fraction or exponent at the head of a text, or nothing: `\.\d+` and
`[eE][-+]?\d+` of `NUMBER_RE`. -/
def fraction : Text → Text
  | c :: rest =>
    if c.val = 0x2E ∧ rest.takeWhile isDigit ≠ [] then c :: rest.takeWhile isDigit else []
  | [] => []

def exponent : Text → Text
  | c :: rest =>
    if c.val = 0x65 ∨ c.val = 0x45 then
      let sign := (rest.take 1).filter fun d => d.val == 0x2B || d.val == 0x2D
      let digits := (rest.drop sign.length).takeWhile isDigit
      if digits ≠ [] then c :: (sign ++ digits) else []
    else []
  | [] => []

/-- The integer part of a number: `0` or a digit string that does not start with
`0`. -/
def integerPart : Text → Text
  | c :: rest =>
    if c.val = 0x30 then [c] else if isDigit c then c :: rest.takeWhile isDigit else []
  | [] => []

/-- `NUMBER_RE`: sign, integer part, fraction, exponent. -/
def scanNumber (s : Text) : Except PyError (Json × Text) :=
  let sign := (s.take 1).filter fun c => c.val == 0x2D
  let s₁ := s.drop sign.length
  let digits := integerPart s₁
  let s₂ := s₁.drop digits.length
  let frac := fraction s₂
  let s₃ := s₂.drop frac.length
  let exp := exponent s₃
  if digits = [] then .error .jsonDecodeError
  else if frac = [] ∧ exp = [] then
    if intMaxStrDigits < digits.length then .error .valueError
    else .ok (.int (if sign = [] then ofDecimal digits else -(ofDecimal digits : ℤ)), s₂)
  else .ok (.float (sign ++ digits ++ frac ++ exp), s₃.drop exp.length)

/-- The values `scan_once` reads without recursion: the literals and the
numbers. -/
def scanAtom (s : Text) : Except PyError (Json × Text) :=
  if s.take 4 = text "null" then .ok (.null, s.drop 4)
  else if s.take 4 = text "true" then .ok (.bool true, s.drop 4)
  else if s.take 5 = text "false" then .ok (.bool false, s.drop 5)
  else if s.take 3 = text "NaN" then .ok (.float (text "NaN"), s.drop 3)
  else if s.take 8 = text "Infinity" then .ok (.float (text "Infinity"), s.drop 8)
  else if s.take 9 = text "-Infinity" then .ok (.float (text "-Infinity"), s.drop 9)
  else scanNumber s

mutual

/-- `scan_once`: one value at the head of the text. -/
def scanOnce : ℕ → ℕ → Text → Except PyError (Json × Text)
  | 0, _, _ => .error .recursionError
  | _ + 1, _, [] => .error .jsonDecodeError
  | n + 1, depth, c :: rest =>
    if c = quote then (scanString 0 rest).map fun p => (.str p.1, p.2)
    else if c = lbrace then
      match depth with
      | 0 => .error .recursionError
      | d + 1 => scanObject n d (skipWs rest)
    else if c = lbracket then
      match depth with
      | 0 => .error .recursionError
      | d + 1 => scanArray n d (skipWs rest)
    else scanAtom (c :: rest)

/-- `JSONObject` behind the brace: no member, or a first key. -/
def scanObject : ℕ → ℕ → Text → Except PyError (Json × Text)
  | 0, _, _ => .error .recursionError
  | _ + 1, _, [] => .error .jsonDecodeError
  | n + 1, depth, c :: rest =>
    if c = rbrace then .ok (.object [], rest)
    else if c = quote then (scanMembers n depth rest).map fun p => (.object p.1, p.2)
    else .error .jsonDecodeError

/-- The loop of `JSONObject`, behind the quote that opens a key. -/
def scanMembers : ℕ → ℕ → Text → Except PyError (List (Text × Json) × Text)
  | 0, _, _ => .error .recursionError
  | n + 1, depth, s =>
    match scanString 0 s with
    | .error e => .error e
    | .ok (key, r) =>
      match skipWs r with
      | [] => .error .jsonDecodeError
      | c :: r =>
        if c = colon then
          match scanOnce n depth (skipWs r) with
          | .error e => .error e
          | .ok (v, r) =>
            match skipWs r with
            | [] => .error .jsonDecodeError
            | c :: r =>
              if c = rbrace then .ok ([(key, v)], r)
              else if c = comma then
                match skipWs r with
                | [] => .error .jsonDecodeError
                | c :: r =>
                  if c = quote then
                    (scanMembers n depth r).map fun p => ((key, v) :: p.1, p.2)
                  else .error .jsonDecodeError
              else .error .jsonDecodeError
        else .error .jsonDecodeError

/-- `JSONArray` behind the bracket: no element, or a first one. -/
def scanArray : ℕ → ℕ → Text → Except PyError (Json × Text)
  | 0, _, _ => .error .recursionError
  | _ + 1, _, [] => .error .jsonDecodeError
  | n + 1, depth, c :: rest =>
    if c = rbracket then .ok (.array [], rest)
    else (scanElements n depth (c :: rest)).map fun p => (.array p.1, p.2)

/-- The loop of `JSONArray`, at an element. -/
def scanElements : ℕ → ℕ → Text → Except PyError (List Json × Text)
  | 0, _, _ => .error .recursionError
  | n + 1, depth, s =>
    match scanOnce n depth s with
    | .error e => .error e
    | .ok (v, r) =>
      match skipWs r with
      | [] => .error .jsonDecodeError
      | c :: r =>
        if c = rbracket then .ok ([v], r)
        else if c = comma then
          (scanElements n depth (skipWs r)).map fun p => (v :: p.1, p.2)
        else .error .jsonDecodeError

end

theorem scanOnce_cons (n depth : ℕ) (c : CodePoint) (rest : Text) :
    scanOnce (n + 1) depth (c :: rest) =
      if c = quote then (scanString 0 rest).map fun p => (.str p.1, p.2)
      else if c = lbrace then
        match depth with
        | 0 => .error .recursionError
        | d + 1 => scanObject n d (skipWs rest)
      else if c = lbracket then
        match depth with
        | 0 => .error .recursionError
        | d + 1 => scanArray n d (skipWs rest)
      else scanAtom (c :: rest) := by
  rw [scanOnce.eq_def]

/-- How many containers the scanner can nest: what CPython 3.11 has left of its default limit
of 1000 nested calls when the main function of a program calls a function that calls
`json.loads`. -/
def recursionLimit : ℕ := 993

/-- `JSONDecoder.decode`: one value, with whitespace around it and nothing
else. -/
def decodeText (s : Text) : Except PyError Json :=
  match scanOnce (2 * s.length + 2) recursionLimit (skipWs s) with
  | .error e => .error e
  | .ok (v, rest) => if skipWs rest = [] then .ok v else .error .jsonDecodeError

/-- `json.loads` on a byte string. -/
def jsonLoads (b : Bytes) : Except PyError Json :=
  match decodeBytes b with
  | none => .error .unicodeDecodeError
  | some s => decodeText s

mutual

/-- How many calls of `repr` on a value are nested: one for a container, and those for what
is in it. -/
def reprDepth : Json → ℕ
  | .array xs => elementsDepth xs + 1
  | .object ms => membersDepth ms + 1
  | _ => 1

def elementsDepth : List Json → ℕ
  | [] => 0
  | x :: xs => max (reprDepth x) (elementsDepth xs)

/-- Of the members with a key only the last one is in the dict. -/
def membersDepth : List (Text × Json) → ℕ
  | [] => 0
  | (key, v) :: ms =>
    if ms.any fun m => m.1 = key then membersDepth ms
    else max (reprDepth v) (membersDepth ms)

end

/-- How many calls of `repr` can be nested in a record that the same function hands to a
logger, whose handler raises the `RecursionError` again. -/
def reprLimit : ℕ := 988

/-- `log.warning` with the value for an argument. -/
def logWarning (v : Json) : Except PyError Unit :=
  if reprDepth v ≤ reprLimit then .ok () else .error .recursionError

theorem membersDepth_le {ms : List (Text × Json)} {n : ℕ} (h : ∀ m ∈ ms, reprDepth m.2 ≤ n) :
    membersDepth ms ≤ n := by
  induction ms with
  | nil => exact Nat.zero_le n
  | cons m ms ih =>
    obtain ⟨hm, hms⟩ := List.forall_mem_cons.mp h
    rw [membersDepth]
    split_ifs
    · exact ih hms
    · exact max_le hm (ih hms)

/-- An object that holds no containers can be printed. -/
theorem logWarning_flat {ms : List (Text × Json)} (h : ∀ m ∈ ms, reprDepth m.2 = 1) :
    logWarning (.object ms) = .ok () := by
  have hdepth := membersDepth_le fun m hm => (h m hm).le
  refine if_pos ?_
  rw [reprDepth, reprLimit]
  omega

/-- `dict.get`: the last member of that key. -/
def get (members : List (Text × Json)) (key : Text) : Option Json :=
  (members.reverse.find? fun m => m.1 = key).map (·.2)

end PyJson
end FileTracker
