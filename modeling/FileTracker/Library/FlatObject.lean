import FileTracker.Library.PyJson
import Mathlib.Data.Nat.Digits.Lemmas

/-!
# Scanning a flat object back

A writer that prints `{"k1":v1,...,"kn":vn}` with string and integer values, no
whitespace and its own escaping is read back by the scanner of
`Library.PyJson` member by member.  What the writer owes for each string is that
its escaped form *spells* it: `Spells e s` says that the scanner, in the middle
of a string, turns `e` into `s` whatever stands behind.  That is closed under
concatenation, so it is checked one escape at a time.

`decodeText_flatObject` is the result; fuel and nesting depth do not show in it,
because the bound `decodeText` starts with is enough.
-/

namespace FileTracker
namespace PyJson

/-! ## Spelling -/

/-- In the middle of a string the scanner reads `e` as `s`. -/
def Spells (e s : Text) : Prop :=
  ∀ rest, scanString 0 (e ++ rest) = (scanString 0 rest).map fun p => (s ++ p.1, p.2)

theorem spells_nil : Spells [] [] := by
  intro rest
  cases h : scanString 0 rest <;> simp [h, Except.map]

theorem Spells.append {e₁ e₂ s₁ s₂ : Text} (h₁ : Spells e₁ s₁) (h₂ : Spells e₂ s₂) :
    Spells (e₁ ++ e₂) (s₁ ++ s₂) := by
  intro rest
  rw [List.append_assoc, h₁, h₂]
  cases scanString 0 rest <;> simp [Except.map]

theorem scanString_eq_drop (k : ℕ) {s : Text} (h : k < s.length) :
    scanString k s = scanString 0 (s.drop k) := by
  induction k generalizing s with
  | zero => rw [List.drop_zero]
  | succ k ih =>
    cases s with
    | nil => simp at h
    | cons c rest =>
      rw [scanString, List.drop_succ_cons]
      exact ih (by simpa using h)

/-- A character with no meaning of its own spells itself. -/
theorem spells_plain {c : CodePoint} (hq : c ≠ quote) (hb : c ≠ backslash)
    (hc : 0x20 ≤ c.val) : Spells [c] [c] := by
  intro rest
  rw [List.cons_append, List.nil_append, scanString, if_neg hq, if_neg hb,
    if_neg (Nat.not_lt.mpr hc)]
  cases scanString 0 rest <;> simp [Except.map]

theorem spells_of_plain {s : Text}
    (h : ∀ c ∈ s, c ≠ quote ∧ c ≠ backslash ∧ 0x20 ≤ c.val) : Spells s s := by
  induction s with
  | nil => exact spells_nil
  | cons c s ih =>
    obtain ⟨hq, hb, hc⟩ := h c List.mem_cons_self
    exact (spells_plain hq hb hc).append (ih fun d hd => h d (List.mem_cons_of_mem _ hd))

/-- A string ends where its closing quote stands. -/
theorem Spells.scanString_quote {e s : Text} (h : Spells e s) (rest : Text) :
    scanString 0 (e ++ quote :: rest) = .ok (s, rest) := by
  rw [h, scanString, if_pos rfl]
  simp [Except.map]

/-- An escape that reads as `x` and takes all `e` behind the backslash spells
`x`. -/
theorem spells_escape {e : Text} {x : CodePoint}
    (h : ∀ rest, readEscape (e ++ rest) = some (x, e.length)) :
    Spells (backslash :: e) [x] := by
  intro rest
  rw [List.cons_append, scanString, if_neg (by decide), if_pos rfl, h rest]
  simp only
  rcases rest with _ | ⟨c, rest⟩
  · have hnil : ∀ k (t : Text), t.length ≤ k →
        scanString k t = .error PyError.jsonDecodeError := by
      intro k t ht
      induction k generalizing t with
      | zero => rw [List.length_eq_zero_iff.mp (Nat.le_zero.mp ht), scanString]
      | succ k ih =>
        cases t with
        | nil => rw [scanString]
        | cons c t => rw [scanString, ih t (by simpa using ht)]
    rw [hnil _ _ (by simp), hnil 0 [] (by simp)]
    rfl
  · rw [scanString_eq_drop _ (by simp), List.drop_left]
    cases scanString 0 (c :: rest) <;> simp [Except.map]

theorem readEscape_simple {c x : CodePoint} (hu : c ≠ letterU) (hx : simpleEscape c = some x)
    (rest : Text) : readEscape ([c] ++ rest) = some (x, 1) := by
  rw [List.cons_append, List.nil_append, readEscape, if_neg hu, hx]
  rfl

theorem spells_simple {c x : CodePoint} (hu : c ≠ letterU) (hx : simpleEscape c = some x) :
    Spells [backslash, c] [x] :=
  spells_escape (readEscape_simple hu hx)

theorem readEscape_unicode {a b c d : CodePoint} {u : ℕ} (hu : hex4 [a, b, c, d] = some u)
    (hs : u < 0xD800 ∨ 0xDBFF < u) (rest : Text) :
    readEscape ([letterU, a, b, c, d] ++ rest) = some (Fin.ofNat 0x110000 u, 5) := by
  have hhex : hex4 ([a, b, c, d] ++ rest) = some u := hu
  rw [List.cons_append, readEscape, if_pos rfl, hhex]
  simp only
  rw [if_neg (by omega)]

theorem spells_unicode {a b c d : CodePoint} {u : ℕ} (hu : hex4 [a, b, c, d] = some u)
    (hs : u < 0xD800 ∨ 0xDBFF < u) :
    Spells [backslash, letterU, a, b, c, d] [Fin.ofNat 0x110000 u] :=
  spells_escape (readEscape_unicode hu hs)

/-! ## Values in front of a delimiter -/

/-- A text that the scanner reads as `v` when a comma or a closing brace stands
behind it, without entering a container. -/
structure FlatValue (t : Text) (v : Json) : Prop where
  /-- It does not start with whitespace. -/
  starts : ∀ rest, skipWs (t ++ rest) = t ++ rest
  /-- It is read as `v`. -/
  scans : ∀ n depth c rest, c = comma ∨ c = rbrace →
    scanOnce (n + 1) depth (t ++ c :: rest) = .ok (v, c :: rest)

theorem skipWs_cons {c : CodePoint} (h : isWs c = false) (s : Text) :
    skipWs (c :: s) = c :: s := by
  simp [skipWs, h]

theorem flatValue_str {e s : Text} (h : Spells e s) :
    FlatValue (quote :: (e ++ [quote])) (.str s) where
  starts rest := by rw [List.cons_append, skipWs_cons (by decide)]
  scans n depth c rest _ := by
    rw [List.cons_append, List.append_assoc, List.cons_append, List.nil_append, scanOnce_cons,
      if_pos rfl, h.scanString_quote]
    rfl

/-- A nonempty string of digits that starts with `0` only if it is `0`. -/
structure IsNumeral (ds : Text) : Prop where
  digits : ∀ d ∈ ds, isDigit d = true
  ne_nil : ds ≠ []
  lead : ∀ d rest, ds = d :: rest → d.val = 0x30 → rest = []

theorem takeWhile_digits {ds : Text} (h : ∀ d ∈ ds, isDigit d = true) {c : CodePoint}
    (hc : isDigit c = false) (rest : Text) : (ds ++ c :: rest).takeWhile isDigit = ds := by
  rw [List.takeWhile_append_of_pos h, List.takeWhile_cons_of_neg (by simp [hc]),
    List.append_nil]

theorem IsNumeral.integerPart {ds : Text} (h : IsNumeral ds) {c : CodePoint}
    (hc : isDigit c = false) (rest : Text) : integerPart (ds ++ c :: rest) = ds := by
  rcases ds with _ | ⟨d, ds⟩
  · exact absurd rfl h.ne_nil
  · rw [List.cons_append, PyJson.integerPart]
    split_ifs with h0 hd
    · rw [h.lead d ds rfl h0]
    · rw [takeWhile_digits (fun e he => h.digits e (List.mem_cons_of_mem _ he)) hc]
    · exact absurd (h.digits d List.mem_cons_self) hd

theorem delimiter_facts {c : CodePoint} (hc : c = comma ∨ c = rbrace) (rest : Text) :
    isDigit c = false ∧ fraction (c :: rest) = [] ∧ exponent (c :: rest) = [] := by
  have hval : c.val = 0x2C ∨ c.val = 0x7D := by
    rcases hc with rfl | rfl
    · exact Or.inl rfl
    · exact Or.inr rfl
  refine ⟨?_, if_neg fun h => ?_, if_neg ?_⟩
  · simp only [isDigit, Bool.and_eq_false_iff, decide_eq_false_iff_not]
    omega
  · have hdot := h.1
    omega
  · omega

/-- A number with its sign, in front of a delimiter. -/
theorem scanNumber_numeral {sign ds : Text} (hsign : sign = [] ∨ sign = [0x2D])
    (h : IsNumeral ds) (hlen : ds.length ≤ intMaxStrDigits) {c : CodePoint}
    (hc : c = comma ∨ c = rbrace) (rest : Text) :
    scanNumber (sign ++ (ds ++ c :: rest)) =
      .ok (.int (if sign = [] then ofDecimal ds else -(ofDecimal ds : ℤ)), c :: rest) := by
  obtain ⟨hdig, hfrac, hexp⟩ := delimiter_facts hc rest
  have htake : ((sign ++ (ds ++ c :: rest)).take 1).filter (fun c => c.val == 0x2D) = sign := by
    rcases hsign with rfl | rfl
    · rcases ds with _ | ⟨d, ds⟩
      · exact absurd rfl h.ne_nil
      · have hd := h.digits d List.mem_cons_self
        simp only [isDigit, Bool.and_eq_true, decide_eq_true_eq] at hd
        have hne : ¬ d.val = 0x2D := by omega
        simp [hne]
    · rfl
  have hint := h.integerPart hdig rest
  simp only [scanNumber, htake, List.drop_left, hint, hfrac, hexp, h.ne_nil, if_false,
    List.length_nil, List.drop_zero, and_self, if_true, Nat.not_lt.mpr hlen]

theorem take_ne_text {c : CodePoint} {k : ℕ} {s w : Text} {a : CodePoint}
    (h : c ≠ a) : (c :: s).take (k + 1) ≠ a :: w := by
  rw [List.take_succ_cons]
  exact fun he => h (List.cons.inj he).1

theorem scanAtom_number {c : CodePoint} {s : Text}
    (hc : isDigit c = true ∨ c = 0x2D ∧ ∃ d r, s = d :: r ∧ isDigit d = true) :
    scanAtom (c :: s) = scanNumber (c :: s) := by
  have hne : ∀ a : CodePoint, isDigit a = false → a ≠ 0x2D → c ≠ a := by
    rintro a ha hm rfl
    rcases hc with hd | ⟨rfl, -⟩
    · simp [ha] at hd
    · exact hm rfl
  have hminus : (c :: s).take 9 ≠ text "-Infinity" := by
    rcases hc with hd | ⟨rfl, d, r, rfl, hd⟩
    · exact take_ne_text (by rintro rfl; exact absurd hd (by decide))
    · rw [List.take_succ_cons]
      intro he
      exact take_ne_text (a := 0x49) (by rintro rfl; exact absurd hd (by decide))
        (List.cons.inj he).2
  have h1 : (c :: s).take 4 ≠ text "null" := take_ne_text (hne 0x6E (by decide) (by decide))
  have h2 : (c :: s).take 4 ≠ text "true" := take_ne_text (hne 0x74 (by decide) (by decide))
  have h3 : (c :: s).take 5 ≠ text "false" := take_ne_text (hne 0x66 (by decide) (by decide))
  have h4 : (c :: s).take 3 ≠ text "NaN" := take_ne_text (hne 0x4E (by decide) (by decide))
  have h5 : (c :: s).take 8 ≠ text "Infinity" :=
    take_ne_text (hne 0x49 (by decide) (by decide))
  rw [scanAtom, if_neg h1, if_neg h2, if_neg h3, if_neg h4, if_neg h5, if_neg hminus]

theorem scanOnce_atom {n depth : ℕ} {c : CodePoint} {s : Text}
    (h : c ≠ quote ∧ c ≠ lbrace ∧ c ≠ lbracket) :
    scanOnce (n + 1) depth (c :: s) = scanAtom (c :: s) := by
  rw [scanOnce_cons, if_neg h.1, if_neg h.2.1, if_neg h.2.2]

theorem digit_facts {d : CodePoint} (hd : isDigit d = true) :
    (d ≠ quote ∧ d ≠ lbrace ∧ d ≠ lbracket) ∧ isWs d = false := by
  refine ⟨⟨?_, ?_, ?_⟩, ?_⟩
  · rintro rfl; exact absurd hd (by decide)
  · rintro rfl; exact absurd hd (by decide)
  · rintro rfl; exact absurd hd (by decide)
  · simp only [isDigit, Bool.and_eq_true, decide_eq_true_eq] at hd
    simp only [isWs, Bool.or_eq_false_iff, beq_eq_false_iff_ne]
    omega

/-- An integer with its sign is a flat value. -/
theorem flatValue_int {sign ds : Text} (hsign : sign = [] ∨ sign = [0x2D])
    (h : IsNumeral ds) (hlen : ds.length ≤ intMaxStrDigits) :
    FlatValue (sign ++ ds) (.int (if sign = [] then ofDecimal ds else -(ofDecimal ds : ℤ))) := by
  obtain ⟨d, ds', rfl⟩ := List.exists_cons_of_ne_nil h.ne_nil
  have hd := h.digits d List.mem_cons_self
  obtain ⟨hdne, hdws⟩ := digit_facts hd
  constructor
  · intro rest
    rcases hsign with rfl | rfl
    · exact skipWs_cons hdws _
    · exact skipWs_cons (by decide) _
  · intro n depth c rest hc
    rw [List.append_assoc, ← scanNumber_numeral hsign h hlen hc rest]
    rcases hsign with rfl | rfl
    · exact (scanOnce_atom hdne).trans (scanAtom_number (Or.inl hd))
    · exact (scanOnce_atom (by decide)).trans
        (scanAtom_number (Or.inr ⟨rfl, d, _, rfl, hd⟩))

/-! ## Members -/

/-- A member as it is printed: the key between its quotes, the value's text, and
the value. -/
structure Member where
  key : Text
  body : Text
  value : Json

/-- What the printer owes for a member. -/
def Member.Ok (m : Member) : Prop := Spells m.key m.key ∧ FlatValue m.body m.value

/-- The members behind the quote that opens the first key, up to the closing
brace. -/
def renderMembers : List Member → Text
  | [] => []
  | [m] => m.key ++ quote :: colon :: (m.body ++ [rbrace])
  | m :: ms => m.key ++ quote :: colon :: (m.body ++ comma :: quote :: renderMembers ms)

/-- The object, as it is printed. -/
def renderObject (ms : List Member) : Text := lbrace :: quote :: renderMembers ms

theorem scanMembers_render {ms : List Member} (hne : ms ≠ []) (hok : ∀ m ∈ ms, m.Ok)
    {n : ℕ} (hn : ms.length < n) (depth : ℕ) :
    scanMembers n depth (renderMembers ms) = .ok (ms.map fun m => (m.key, m.value), []) := by
  induction ms generalizing n with
  | nil => exact absurd rfl hne
  | cons m ms ih =>
    obtain ⟨n, rfl⟩ : ∃ k, n = k + 2 := ⟨n - 2, by simp at hn; omega⟩
    obtain ⟨hkey, hval⟩ := hok m List.mem_cons_self
    rcases ms with _ | ⟨m', ms⟩
    · have hscan := hval.scans n depth rbrace [] (Or.inr rfl)
      rw [renderMembers, scanMembers, hkey.scanString_quote]
      simp only [skipWs_cons (show isWs colon = false by decide), if_true, hval.starts, hscan,
        skipWs_cons (show isWs rbrace = false by decide)]
      rfl
    · have hscan := hval.scans n depth comma (quote :: renderMembers (m' :: ms)) (Or.inl rfl)
      have hrest := ih (List.cons_ne_nil _ _) (fun k hk => hok k (List.mem_cons_of_mem _ hk))
        (n := n + 1) (by simpa using hn)
      rw [renderMembers, scanMembers, hkey.scanString_quote]
      · simp only [skipWs_cons (show isWs colon = false by decide), if_true, hval.starts,
          hscan, skipWs_cons (show isWs comma = false by decide),
          show comma ≠ rbrace by decide, if_false,
          skipWs_cons (show isWs quote = false by decide), hrest]
        rfl
      · exact fun h => absurd h (List.cons_ne_nil _ _)

theorem length_le_renderMembers (ms : List Member) :
    ms.length ≤ (renderMembers ms).length := by
  induction ms with
  | nil => rfl
  | cons m ms ih =>
    rcases ms with _ | ⟨m', ms⟩
    · simp [renderMembers]
      omega
    · rw [renderMembers]
      · simp only [List.length_append, List.length_cons] at ih ⊢
        omega
      · exact fun h => absurd h (List.cons_ne_nil _ _)

/-- **A flat object is read back member by member.** -/
theorem decodeText_flatObject {ms : List Member} (hne : ms ≠ []) (hok : ∀ m ∈ ms, m.Ok) :
    decodeText (renderObject ms) = .ok (.object (ms.map fun m => (m.key, m.value))) := by
  have hlen := length_le_renderMembers ms
  have hmembers := scanMembers_render hne hok
    (n := 2 * (renderObject ms).length) (by simp only [renderObject, List.length_cons]; omega)
    (recursionLimit - 1)
  have hscan : scanOnce (2 * (renderObject ms).length + 2) recursionLimit (renderObject ms) =
      .ok (.object (ms.map fun m => (m.key, m.value)), []) := by
    generalize 2 * (renderObject ms).length = n at hmembers
    rw [renderObject, scanOnce_cons, if_neg (by decide), if_pos rfl, recursionLimit]
    simp only [skipWs_cons (show isWs quote = false by decide)]
    rw [scanObject, if_neg (by decide), if_pos rfl]
    exact congrArg _ hmembers
  rw [decodeText, show skipWs (renderObject ms) = renderObject ms from
    skipWs_cons (by decide) _, hscan]
  rfl

/-! ## Decimal numerals -/

/-- The decimal digits of a number, as `std::to_string` prints it. -/
def decimal (n : ℕ) : Bytes :=
  if n = 0 then [0x30] else (Nat.digits 10 n).reverse.map fun d => UInt8.ofNat (0x30 + d)

theorem toNat_digit {n d : ℕ} (hd : d ∈ Nat.digits 10 n) :
    (UInt8.ofNat (0x30 + d)).toNat = 0x30 + d := by
  have := Nat.digits_lt_base (by norm_num) hd
  rw [UInt8.toNat_ofNat']
  omega

theorem decimal_ascii (n : ℕ) : ∀ b ∈ decimal n, 0x30 ≤ b.toNat ∧ b.toNat ≤ 0x39 := by
  intro b hb
  unfold decimal at hb
  split_ifs at hb with h0
  · rw [List.mem_singleton.mp hb]
    decide
  · obtain ⟨d, hd, rfl⟩ := List.mem_map.mp hb
    have hd' := List.mem_reverse.mp hd
    have := Nat.digits_lt_base (by norm_num) hd'
    rw [toNat_digit hd']
    omega

theorem isNumeral_decimal (n : ℕ) : IsNumeral (Utf8.asciiText (decimal n)) := by
  constructor
  · intro d hd
    obtain ⟨b, hb, rfl⟩ := List.mem_map.mp hd
    simpa [isDigit] using decimal_ascii n b hb
  · unfold decimal
    split_ifs with h0
    · simp [Utf8.asciiText]
    · simpa [Utf8.asciiText, Nat.digits_eq_nil_iff_eq_zero] using h0
  · intro d rest hds h30
    unfold decimal at hds
    split_ifs at hds with h0
    · exact (List.cons.inj hds).2.symm
    · -- the leading digit is the last one of `Nat.digits`, which is not zero
      exfalso
      have hne : Nat.digits 10 n ≠ [] := Nat.digits_ne_nil_iff_ne_zero.mpr h0
      have hlast := Nat.getLast_digit_ne_zero 10 h0
      have hhead := congrArg List.head? hds
      rw [Utf8.asciiText, List.map_map, List.head?_map, List.head?_reverse,
        List.getLast?_eq_some_getLast hne, List.head?_cons, Option.map_some,
        Option.some.injEq] at hhead
      have hval := congrArg Fin.val hhead
      simp only [Function.comp_apply, toNat_digit (List.getLast_mem hne), h30] at hval
      omega

theorem length_decimal_le {n k : ℕ} (hk : 0 < k) (h : n < 10 ^ k) :
    (decimal n).length ≤ k := by
  unfold decimal
  split_ifs with h0
  · exact hk
  · rw [List.length_map, List.length_reverse]
    exact (Nat.digits_length_le_iff (by norm_num) n).mpr h

theorem ofDecimal_decimal (n : ℕ) : ofDecimal (Utf8.asciiText (decimal n)) = n := by
  unfold decimal
  split_ifs with h0
  · rw [h0]
    decide
  · have hfold : ∀ l : List ℕ, (∀ d ∈ l, d ∈ Nat.digits 10 n) →
        ofDecimal (Utf8.asciiText (l.reverse.map fun d => UInt8.ofNat (0x30 + d))) =
          Nat.ofDigits 10 l := by
      intro l hl
      induction l with
      | nil => rfl
      | cons d l ih =>
        have hd := toNat_digit (hl d List.mem_cons_self)
        rw [List.reverse_cons, List.map_append, Utf8.asciiText, List.map_append, ofDecimal,
          List.foldl_append]
        have hrest := ih fun e he => hl e (List.mem_cons_of_mem _ he)
        rw [Utf8.asciiText, ofDecimal] at hrest
        rw [hrest, Nat.ofDigits_cons]
        simp only [List.map_cons, List.map_nil, List.foldl_cons, List.foldl_nil, hd]
        ring_nf
        omega
    rw [hfold _ fun d hd => hd, Nat.ofDigits_digits]

end PyJson
end FileTracker
