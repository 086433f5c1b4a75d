import Mathlib.Data.List.Basic
import Mathlib.Data.FinEnum
import FileTracker.Library.LittleEndian

/-!
# UTF-8 with surrogates

A text is a list of code points, surrogates included, as the strings of a
language whose decoder may let lone surrogates pass are.  `decode` is the
generalized UTF-8 decoder: it refuses stray continuation bytes, truncated
sequences, overlong forms and values above `U+10FFFF`, and lets the three-byte
forms of surrogates through.  `Scalar` says that a text has none of those, which
is what the strict encoder and the strict decoder, `decodeStrict`, ask.

Decoding goes one *sequence* at a time.  `headSeq` finds the sequence at the
head of a byte string by its shape alone --- a lead byte and as many
continuation bytes as it announces --- and `decodeSeq` then judges its value.
The split matters to a client that checks shapes but not values: it sees exactly
the sequences of `headSeq`, and `decode_seq_append` says what the decoder makes
of each of them, whatever follows.
-/

namespace FileTracker

/-- A code point, surrogates included. -/
abbrev CodePoint := Fin 0x110000

/-- A string as a list of code points. -/
abbrev Text := List CodePoint

namespace Utf8

/-- A continuation byte `10xxxxxx`. -/
def isCont (b : UInt8) : Bool := b &&& 0xC0 == 0x80

/-- The length of the sequence a byte announces, and `0` for a byte that leads
none. -/
def seqLen (c : UInt8) : ℕ :=
  if c < 0x80 then 1
  else if c &&& 0xE0 == 0xC0 then 2
  else if c &&& 0xF0 == 0xE0 then 3
  else if c &&& 0xF8 == 0xF0 then 4
  else 0

/-- The sequence at the head of a byte string: a lead byte with all the
continuation bytes it announces. -/
def headSeq : Bytes → Option Bytes
  | [] => none
  | c :: rest =>
    if seqLen c ≠ 0 ∧ seqLen c ≤ rest.length + 1 ∧ (rest.take (seqLen c - 1)).all isCont
    then some (c :: rest.take (seqLen c - 1))
    else none

/-- The bits a sequence carries. -/
def seqValue : Bytes → ℕ
  | [a] => a.toNat
  | [a, b] => a.toNat % 32 * 64 + b.toNat % 64
  | [a, b, c] => a.toNat % 16 * 4096 + b.toNat % 64 * 64 + c.toNat % 64
  | [a, b, c, d] =>
    a.toNat % 8 * 262144 + b.toNat % 64 * 4096 + c.toNat % 64 * 64 + d.toNat % 64
  | _ => 0

/-- The least value a sequence of this length may carry; a smaller one is an
overlong form. -/
def minValue : ℕ → ℕ
  | 2 => 0x80
  | 3 => 0x800
  | 4 => 0x10000
  | _ => 0

/-- The code point of a sequence, unless it is overlong or too large. -/
def decodeSeq (q : Bytes) : Option CodePoint :=
  if minValue q.length ≤ seqValue q then
    if h : seqValue q < 0x110000 then some ⟨seqValue q, h⟩ else none
  else none

/-- Decode, with `k` bytes of the sequence just read still to be passed over. -/
def decodeFrom : ℕ → Bytes → Option Text
  | _, [] => some []
  | k + 1, _ :: rest => decodeFrom k rest
  | 0, c :: rest =>
    match headSeq (c :: rest) with
    | none => none
    | some q => (decodeSeq q).bind fun x => (decodeFrom (q.length - 1) rest).map (x :: ·)

/-- The generalized UTF-8 decoder. -/
def decode (s : Bytes) : Option Text := decodeFrom 0 s

/-- A surrogate code point. -/
def isSurrogate (x : CodePoint) : Bool := 0xD800 ≤ x.val && x.val ≤ 0xDFFF

/-- A text without surrogates: what the strict encoder accepts. -/
def Scalar (t : Text) : Prop := ∀ x ∈ t, isSurrogate x = false

instance (t : Text) : Decidable (Scalar t) :=
  List.decidableBAll (fun x => isSurrogate x = false) t

/-- The strict decoder: it refuses surrogates too. -/
def decodeStrict (s : Bytes) : Option Text := (decode s).filter Scalar

/-- The bytes that carry a value, in the shortest form. -/
def encodeValue (v : ℕ) : Bytes :=
  if v < 0x80 then [UInt8.ofNat v]
  else if v < 0x800 then [UInt8.ofNat (0xC0 + v / 64), UInt8.ofNat (0x80 + v % 64)]
  else if v < 0x10000 then
    [UInt8.ofNat (0xE0 + v / 4096), UInt8.ofNat (0x80 + v / 64 % 64),
      UInt8.ofNat (0x80 + v % 64)]
  else
    [UInt8.ofNat (0xF0 + v / 262144), UInt8.ofNat (0x80 + v / 4096 % 64),
      UInt8.ofNat (0x80 + v / 64 % 64), UInt8.ofNat (0x80 + v % 64)]

/-- The UTF-8 bytes of a text. -/
def encode (t : Text) : Bytes := t.flatMap fun x => encodeValue x.val

/-! ## The shape of a sequence -/

theorem isCont_iff (b : UInt8) : isCont b = true ↔ 0x80 ≤ b.toNat ∧ b.toNat < 0xC0 := by
  revert b
  decide +kernel

/-- The length a byte announces, by ranges. -/
theorem seqLen_eq (c : UInt8) :
    seqLen c = if c.toNat < 0x80 then 1 else if c.toNat < 0xC0 then 0
      else if c.toNat < 0xE0 then 2 else if c.toNat < 0xF0 then 3
      else if c.toNat < 0xF8 then 4 else 0 := by
  revert c
  decide +kernel

/-- A complete sequence: its own head. -/
def IsSeq (q : Bytes) : Prop := headSeq q = some q

theorem headSeq_cons_eq_some {c : UInt8} {rest q : Bytes} :
    headSeq (c :: rest) = some q ↔
      (seqLen c ≠ 0 ∧ seqLen c ≤ rest.length + 1 ∧ (rest.take (seqLen c - 1)).all isCont) ∧
        q = c :: rest.take (seqLen c - 1) := by
  rw [headSeq, Option.ite_none_right_eq_some, Option.some.injEq, eq_comm (a := q)]

/-- A head sequence splits the string, and is a complete sequence itself. -/
theorem headSeq_split {s q : Bytes} (h : headSeq s = some q) :
    s = q ++ s.drop q.length ∧ IsSeq q ∧ 0 < q.length := by
  cases s with
  | nil => simp [headSeq] at h
  | cons c rest =>
    obtain ⟨⟨h0, hlen, hall⟩, rfl⟩ := headSeq_cons_eq_some.mp h
    have htake : (rest.take (seqLen c - 1)).length = seqLen c - 1 := by
      rw [List.length_take]
      omega
    refine ⟨?_, ?_, by simp⟩
    · rw [List.length_cons, htake, List.drop_succ_cons, List.cons_append,
        List.take_append_drop]
    · refine headSeq_cons_eq_some.mpr ⟨⟨h0, ?_, ?_⟩, ?_⟩
      · rw [htake]
        omega
      · rwa [List.take_take, Nat.min_self]
      · rw [List.take_take, Nat.min_self]

theorem IsSeq.length_eq {c : UInt8} {rest : Bytes} (h : IsSeq (c :: rest)) :
    rest.length + 1 = seqLen c ∧ rest.all isCont := by
  obtain ⟨⟨h0, hlen, hall⟩, heq⟩ := headSeq_cons_eq_some.mp h
  have hrest : rest = rest.take (seqLen c - 1) := (List.cons.inj heq).2
  refine ⟨?_, hrest ▸ hall⟩
  have hle : rest.length ≤ seqLen c - 1 := by
    rw [hrest, List.length_take]
    omega
  omega

theorem IsSeq.ne_nil {q : Bytes} (h : IsSeq q) : q ≠ [] := by
  rintro rfl
  simp [IsSeq, headSeq] at h

/-- A complete sequence is still the head sequence in front of anything. -/
theorem IsSeq.headSeq_append {q : Bytes} (h : IsSeq q) (rest : Bytes) :
    headSeq (q ++ rest) = some q := by
  cases q with
  | nil => exact absurd rfl h.ne_nil
  | cons c tail =>
    obtain ⟨hlen, hall⟩ := h.length_eq
    have htake : (tail ++ rest).take (seqLen c - 1) = tail := by
      rw [show seqLen c - 1 = tail.length by omega, List.take_left]
    rw [List.cons_append]
    refine headSeq_cons_eq_some.mpr ⟨⟨by omega, ?_, by rwa [htake]⟩, by rw [htake]⟩
    rw [List.length_append]
    omega

/-- An ASCII byte is a sequence by itself. -/
theorem isSeq_ascii {c : UInt8} (h : c.toNat < 0x80) : IsSeq [c] := by
  have hlen : seqLen c = 1 := by rw [seqLen_eq, if_pos h]
  refine headSeq_cons_eq_some.mpr ⟨⟨by omega, by simp [hlen], by simp⟩, by simp⟩

/-- The sequences, by length, with the ranges of their bytes. -/
theorem IsSeq.cases {q : Bytes} (h : IsSeq q) :
    (∃ a, q = [a] ∧ a.toNat < 0x80) ∨
    (∃ a b, q = [a, b] ∧ (0xC0 ≤ a.toNat ∧ a.toNat < 0xE0) ∧
      (0x80 ≤ b.toNat ∧ b.toNat < 0xC0)) ∨
    (∃ a b c, q = [a, b, c] ∧ (0xE0 ≤ a.toNat ∧ a.toNat < 0xF0) ∧
      (0x80 ≤ b.toNat ∧ b.toNat < 0xC0) ∧ (0x80 ≤ c.toNat ∧ c.toNat < 0xC0)) ∨
    (∃ a b c d, q = [a, b, c, d] ∧ (0xF0 ≤ a.toNat ∧ a.toNat < 0xF8) ∧
      (0x80 ≤ b.toNat ∧ b.toNat < 0xC0) ∧ (0x80 ≤ c.toNat ∧ c.toNat < 0xC0) ∧
      (0x80 ≤ d.toNat ∧ d.toNat < 0xC0)) := by
  cases q with
  | nil => exact absurd rfl h.ne_nil
  | cons a rest =>
    obtain ⟨hlen, hall⟩ := h.length_eq
    rw [seqLen_eq] at hlen
    rcases rest with _ | ⟨b, _ | ⟨c, _ | ⟨d, _ | ⟨e, rest⟩⟩⟩⟩ <;>
      simp only [List.all_cons, List.all_nil, Bool.and_true, Bool.and_eq_true,
        isCont_iff, List.length_cons, List.length_nil] at hlen hall
    · refine Or.inl ⟨a, rfl, ?_⟩
      split_ifs at hlen <;> omega
    · refine Or.inr (Or.inl ⟨a, b, rfl, ?_, hall⟩)
      split_ifs at hlen <;> omega
    · refine Or.inr (Or.inr (Or.inl ⟨a, b, c, rfl, ?_, hall⟩))
      split_ifs at hlen <;> omega
    · refine Or.inr (Or.inr (Or.inr ⟨a, b, c, d, rfl, ?_, hall⟩))
      split_ifs at hlen <;> omega
    · split_ifs at hlen <;> omega

theorem IsSeq.lt_of_singleton {b : UInt8} (h : IsSeq [b]) : b.toNat < 0x80 := by
  rcases h.cases with ⟨a, heq, ha⟩ | ⟨_, _, heq, -⟩ | ⟨_, _, _, heq, -⟩ | ⟨_, _, _, _, heq, -⟩
  · rwa [(List.cons.inj heq).1]
  all_goals simp at heq

/-! ## Decoding, one sequence at a time -/

theorem decodeFrom_eq_drop (k : ℕ) (s : Bytes) : decodeFrom k s = decode (s.drop k) := by
  induction s generalizing k with
  | nil => cases k <;> rfl
  | cons c rest ih =>
    cases k with
    | zero => rfl
    | succ k => rw [decodeFrom, ih, List.drop_succ_cons]

@[simp] theorem decode_nil : decode [] = some [] := rfl

/-- **The decoder in front of a complete sequence.**  What follows the sequence
does not change how it is judged. -/
theorem decode_seq_append {q : Bytes} (h : IsSeq q) (rest : Bytes) :
    decode (q ++ rest) = (decodeSeq q).bind fun x => (decode rest).map (x :: ·) := by
  cases q with
  | nil => exact absurd rfl h.ne_nil
  | cons c tail =>
    have hhead := h.headSeq_append rest
    rw [List.cons_append] at hhead ⊢
    rw [decode, decodeFrom, hhead]
    simp only [List.length_cons, Nat.add_sub_cancel, decodeFrom_eq_drop, List.drop_left]

theorem decode_of_headSeq_none {c : UInt8} {rest : Bytes} (h : headSeq (c :: rest) = none) :
    decode (c :: rest) = none := by
  rw [decode, decodeFrom, h]

theorem decodeSeq_ascii {c : UInt8} (h : c.toNat < 0x80) :
    decodeSeq [c] = some ⟨c.toNat, by omega⟩ := by
  simp [decodeSeq, minValue, seqValue, show c.toNat < 0x110000 by omega]

theorem decode_ascii_cons {c : UInt8} (h : c.toNat < 0x80) (rest : Bytes) :
    decode (c :: rest) = (decode rest).map (⟨c.toNat, by omega⟩ :: ·) := by
  have happ := decode_seq_append (isSeq_ascii h) rest
  rw [decodeSeq_ascii h] at happ
  exact happ

/-- The code points of a byte string of ASCII characters. -/
def asciiText (s : Bytes) : Text := s.map fun c => ⟨c.toNat, by have := c.toNat_lt; omega⟩

theorem asciiText_append (a b : Bytes) : asciiText (a ++ b) = asciiText a ++ asciiText b :=
  List.map_append

@[simp] theorem length_asciiText (s : Bytes) : (asciiText s).length = s.length :=
  List.length_map _

/-- Bytes below `0x80` decode to themselves, and the decoder goes on behind
them. -/
theorem decode_ascii_append {s : Bytes} (h : ∀ c ∈ s, c.toNat < 0x80) (rest : Bytes) :
    decode (s ++ rest) = (decode rest).map (asciiText s ++ ·) := by
  induction s with
  | nil => simp [asciiText]
  | cons c s ih =>
    have hs : ∀ d ∈ s, d.toNat < 0x80 := fun d hd => h d (List.mem_cons_of_mem _ hd)
    rw [List.cons_append, decode_ascii_cons (h c List.mem_cons_self), ih hs, Option.map_map]
    rfl

/-- Induction along the sequences of a byte string: it is empty, or it starts
with a byte in no sequence, or it starts with a sequence. -/
theorem seq_induction {motive : Bytes → Prop} (nil : motive [])
    (bad : ∀ c rest, headSeq (c :: rest) = none → motive rest → motive (c :: rest))
    (seq : ∀ q rest, IsSeq q → motive rest → motive (q ++ rest)) (s : Bytes) : motive s := by
  induction hn : s.length using Nat.strong_induction_on generalizing s with
  | _ n ih =>
    cases s with
    | nil => exact nil
    | cons c rest =>
      cases hq : headSeq (c :: rest) with
      | none => exact bad c rest hq (ih rest.length (by rw [← hn]; simp) rest rfl)
      | some q =>
        obtain ⟨hsplit, hseq, hpos⟩ := headSeq_split hq
        rw [hsplit]
        refine seq q _ hseq (ih _ ?_ _ rfl)
        rw [List.length_drop, ← hn, List.length_cons]
        omega

/-- A byte string that ends where a sequence ends: decoding can be cut behind it. -/
def Closed (s : Bytes) : Prop :=
  ∀ rest, decode (s ++ rest) = (decode s).bind fun t => (decode rest).map (t ++ ·)

theorem closed_ascii {s : Bytes} (h : ∀ c ∈ s, c.toNat < 0x80) : Closed s := by
  intro rest
  have hs := decode_ascii_append h []
  rw [List.append_nil, decode_nil, Option.map_some, List.append_nil] at hs
  rw [decode_ascii_append h, hs, Option.bind_some]

theorem IsSeq.decode_eq {q : Bytes} (h : IsSeq q) : decode q = (decodeSeq q).map ([·]) := by
  have happ := decode_seq_append h []
  rw [List.append_nil, decode_nil] at happ
  rw [happ]
  cases decodeSeq q <;> rfl

theorem IsSeq.closed {q : Bytes} (h : IsSeq q) : Closed q := by
  intro rest
  rw [decode_seq_append h, h.decode_eq]
  cases decodeSeq q <;> rfl

/-! ## Chunks

A scanner that goes by shape cuts a byte string into complete sequences and the
single bytes that are in none. -/

/-- The chunks of a byte string, a byte in no sequence as `none`, with `k` bytes
of the sequence just found still to be passed over. -/
def chunksFrom : ℕ → Bytes → List (Option Bytes)
  | _, [] => []
  | k + 1, _ :: rest => chunksFrom k rest
  | 0, c :: rest =>
    match headSeq (c :: rest) with
    | none => none :: chunksFrom 0 rest
    | some q => some q :: chunksFrom (q.length - 1) rest

/-- The chunks of a byte string. -/
def chunks (s : Bytes) : List (Option Bytes) := chunksFrom 0 s

/-- The bytes of `U+FFFD`. -/
def replacement : Bytes := [0xEF, 0xBF, 0xBD]

/-- Every byte in no sequence becomes `U+FFFD`. -/
def sanitize (s : Bytes) : Bytes := (chunks s).flatMap fun c => c.getD replacement

theorem chunksFrom_eq_drop (k : ℕ) (s : Bytes) : chunksFrom k s = chunks (s.drop k) := by
  induction s generalizing k with
  | nil => cases k <;> rfl
  | cons c rest ih =>
    cases k with
    | zero => rfl
    | succ k => rw [chunksFrom, ih, List.drop_succ_cons]

@[simp] theorem chunks_nil : chunks [] = [] := rfl

theorem chunks_seq_append {q : Bytes} (h : IsSeq q) (rest : Bytes) :
    chunks (q ++ rest) = some q :: chunks rest := by
  cases q with
  | nil => exact absurd rfl h.ne_nil
  | cons c tail =>
    have hhead := h.headSeq_append rest
    rw [List.cons_append] at hhead ⊢
    rw [chunks, chunksFrom, hhead]
    simp only [List.length_cons, Nat.add_sub_cancel, chunksFrom_eq_drop, List.drop_left]

theorem chunks_bad_cons {c : UInt8} {rest : Bytes} (h : headSeq (c :: rest) = none) :
    chunks (c :: rest) = none :: chunks rest := by
  rw [chunks, chunksFrom, h]
  rfl

theorem isSeq_of_mem_chunks {s q : Bytes} (h : some q ∈ chunks s) : IsSeq q := by
  induction s using seq_induction with
  | nil => simp at h
  | bad c rest hc ih =>
    rw [chunks_bad_cons hc] at h
    exact ih (by simpa using h)
  | seq r rest hr ih =>
    rw [chunks_seq_append hr] at h
    rcases List.mem_cons.mp h with heq | h
    · rwa [Option.some.inj heq]
    · exact ih h

theorem isSeq_replacement : IsSeq replacement := by
  unfold IsSeq
  decide

/-- A chunk stands for a complete sequence. -/
theorem isSeq_getD_of_mem_chunks {s : Bytes} {c : Option Bytes} (h : c ∈ chunks s) :
    IsSeq (c.getD replacement) := by
  cases c with
  | none => exact isSeq_replacement
  | some q => exact isSeq_of_mem_chunks h

/-- **Decoding what was sanitized**: one code point a chunk. -/
theorem decode_flatMap_chunks {cs : List (Option Bytes)}
    (h : ∀ c ∈ cs, IsSeq (c.getD replacement)) :
    decode (cs.flatMap fun c => c.getD replacement) =
      cs.mapM fun c => decodeSeq (c.getD replacement) := by
  induction cs with
  | nil => rfl
  | cons c cs ih =>
    rw [List.flatMap_cons, decode_seq_append (h c List.mem_cons_self),
      ih fun d hd => h d (List.mem_cons_of_mem _ hd), List.mapM_cons]
    cases decodeSeq (c.getD replacement) with
    | none => rfl
    | some x => cases cs.mapM fun c => decodeSeq (c.getD replacement) <;> rfl

theorem decode_sanitize (s : Bytes) :
    decode (sanitize s) = (chunks s).mapM fun c => decodeSeq (c.getD replacement) :=
  decode_flatMap_chunks fun _ hc => isSeq_getD_of_mem_chunks hc

theorem mapM_eq_some_iff {α β : Type*} {f : α → Option β} {xs : List α} {ys : List β} :
    xs.mapM f = some ys ↔ List.Forall₂ (fun x y => f x = some y) xs ys := by
  induction xs generalizing ys with
  | nil => simp [eq_comm]
  | cons x xs ih =>
    rw [List.mapM_cons, List.forall₂_cons_left_iff]
    simp only [bind, pure, Option.bind_eq_some_iff, Option.some.injEq]
    constructor
    · rintro ⟨y, hy, zs, hzs, rfl⟩
      exact ⟨y, zs, hy, ih.mp hzs, rfl⟩
    · rintro ⟨y, zs, hy, hzs, rfl⟩
      exact ⟨y, hy, zs, ih.mpr hzs, rfl⟩

/-- The sanitized text of a string has one code point a chunk. -/
theorem decode_sanitize_eq_some_iff {s : Bytes} {t : Text} :
    decode (sanitize s) = some t ↔
      List.Forall₂ (fun c x => decodeSeq (c.getD replacement) = some x) (chunks s) t := by
  rw [decode_sanitize, mapM_eq_some_iff]

theorem decodeSeq_replacement : decodeSeq replacement = some 0xFFFD := by decide +kernel

theorem exists_forall₂_iff {α β : Type*} {R : α → β → Prop} {xs : List α} :
    (∃ ys, List.Forall₂ R xs ys) ↔ ∀ x ∈ xs, ∃ y, R x y := by
  induction xs with
  | nil => simp
  | cons x xs ih =>
    rw [List.forall_mem_cons, ← ih]
    constructor
    · rintro ⟨ys, h⟩
      obtain ⟨y, zs, hy, hzs, -⟩ := List.forall₂_cons_left_iff.mp h
      exact ⟨⟨y, hy⟩, zs, hzs⟩
    · rintro ⟨⟨y, hy⟩, zs, hzs⟩
      exact ⟨y :: zs, List.Forall₂.cons hy hzs⟩

/-- The sanitized string decodes exactly when every sequence of the string
does. -/
theorem exists_decode_sanitize_iff (s : Bytes) :
    (∃ t, decode (sanitize s) = some t) ↔ ∀ q, some q ∈ chunks s → (decodeSeq q).isSome := by
  simp only [decode_sanitize_eq_some_iff, exists_forall₂_iff, Option.isSome_iff_exists]
  constructor
  · exact fun h q hq => h (some q) hq
  · rintro h (_ | q) hc
    · exact ⟨_, decodeSeq_replacement⟩
    · exact h q hc

theorem forall₂_mem_right {α β : Type*} {R : α → β → Prop} {xs : List α} {ys : List β}
    (h : List.Forall₂ R xs ys) {y : β} (hy : y ∈ ys) : ∃ x ∈ xs, R x y := by
  induction h with
  | nil => simp at hy
  | @cons a b xs ys hab _ ih =>
    rcases List.mem_cons.mp hy with rfl | hy
    · exact ⟨a, List.mem_cons_self, hab⟩
    · obtain ⟨x, hx, hxy⟩ := ih hy
      exact ⟨x, List.mem_cons_of_mem _ hx, hxy⟩

/-- Surrogates in the sanitized text come from sequences of the string. -/
theorem scalar_sanitize_iff {s : Bytes} {t : Text} (h : decode (sanitize s) = some t) :
    Scalar t ↔ ∀ q, some q ∈ chunks s → ∀ x, decodeSeq q = some x → isSurrogate x = false := by
  have hall := decode_sanitize_eq_some_iff.mp h
  constructor
  · intro hs q hq x hx
    obtain ⟨y, hy, hxy⟩ := forall₂_mem_right hall.flip hq
    obtain rfl : y = x := Option.some.inj (hxy.symm.trans hx)
    exact hs y hy
  · intro hq x hx
    obtain ⟨c, hc, hcx⟩ := forall₂_mem_right hall hx
    cases c with
    | none =>
      obtain rfl := Option.some.inj (decodeSeq_replacement.symm.trans hcx)
      decide
    | some q => exact hq q hc x hcx

theorem length_chunks_le (s : Bytes) : (chunks s).length ≤ s.length := by
  induction s using seq_induction with
  | nil => exact Nat.le_refl 0
  | bad c rest hc ih =>
    rw [chunks_bad_cons hc, List.length_cons, List.length_cons]
    omega
  | seq q rest hq ih =>
    have hpos := List.length_pos_iff.mpr hq.ne_nil
    rw [chunks_seq_append hq, List.length_cons, List.length_append]
    omega

theorem chunks_eq_nil_iff {s : Bytes} : chunks s = [] ↔ s = [] := by
  induction s using seq_induction with
  | nil => simp
  | bad c rest hc _ => simp [chunks_bad_cons hc]
  | seq q rest hq _ => simp [chunks_seq_append hq, hq.ne_nil]

theorem sanitize_text_eq_nil_iff {s : Bytes} {t : Text} (h : decode (sanitize s) = some t) :
    t = [] ↔ s = [] := by
  have hlen := (decode_sanitize_eq_some_iff.mp h).length_eq
  rw [← chunks_eq_nil_iff, ← List.length_eq_zero_iff, ← List.length_eq_zero_iff, hlen]

/-- What decodes has nothing to be replaced. -/
theorem sanitize_of_decode {s : Bytes} {t : Text} (h : decode s = some t) : sanitize s = s := by
  induction s using seq_induction generalizing t with
  | nil => rfl
  | bad c rest hc _ => rw [decode_of_headSeq_none hc] at h; simp at h
  | seq q rest hq ih =>
    rw [decode_seq_append hq, Option.bind_eq_some_iff] at h
    obtain ⟨x, -, hrest⟩ := h
    obtain ⟨u, hu, -⟩ := Option.map_eq_some_iff.mp hrest
    have hsan := ih hu
    unfold sanitize at hsan ⊢
    rw [chunks_seq_append hq, List.flatMap_cons, hsan]
    rfl

/-- What stands behind a string that decodes is sanitized on its own. -/
theorem sanitize_append_of_decode {s : Bytes} {t : Text} (h : decode s = some t) (rest : Bytes) :
    sanitize (s ++ rest) = s ++ sanitize rest := by
  induction s using seq_induction generalizing t with
  | nil => rfl
  | bad c s hc _ => rw [decode_of_headSeq_none hc] at h; simp at h
  | seq q s hq ih =>
    rw [decode_seq_append hq, Option.bind_eq_some_iff] at h
    obtain ⟨x, -, hrest⟩ := h
    obtain ⟨u, hu, -⟩ := Option.map_eq_some_iff.mp hrest
    have hsan := ih hu
    unfold sanitize at hsan ⊢
    rw [List.append_assoc, chunks_seq_append hq, List.flatMap_cons, hsan, List.append_assoc]
    rfl

/-- Decoding can be cut behind a string that decodes. -/
theorem decode_append_of_decode {s : Bytes} {t : Text} (h : decode s = some t) (rest : Bytes) :
    decode (s ++ rest) = (decode rest).map (t ++ ·) := by
  induction s using seq_induction generalizing t with
  | nil =>
    obtain rfl := Option.some.inj h
    simp
  | bad c s hc _ => rw [decode_of_headSeq_none hc] at h; simp at h
  | seq q s hq ih =>
    rw [decode_seq_append hq, Option.bind_eq_some_iff] at h
    obtain ⟨x, hx, hrest⟩ := h
    obtain ⟨u, hu, rfl⟩ := Option.map_eq_some_iff.mp hrest
    rw [List.append_assoc, decode_seq_append hq, hx, Option.bind_some, ih hu, Option.map_map]
    rfl

/-- A byte that is replaced becomes three. -/
theorem length_sanitize (s : Bytes) :
    (sanitize s).length = s.length + 2 * (chunks s).count none := by
  induction s using seq_induction with
  | nil => rfl
  | bad c rest hc ih =>
    unfold sanitize at ih ⊢
    rw [chunks_bad_cons hc, List.flatMap_cons, List.length_append, ih, List.count_cons_self]
    simp only [Option.getD_none, replacement, List.length_cons, List.length_nil]
    omega
  | seq q rest hq ih =>
    unfold sanitize at ih ⊢
    rw [chunks_seq_append hq, List.flatMap_cons, List.length_append, ih,
      List.count_cons_of_ne (by simp), Option.getD_some, List.length_append]
    omega

/-- **Nothing is replaced** in a string, and in no other, all of whose bytes are in
sequences. -/
theorem sanitize_eq_iff {s : Bytes} : sanitize s = s ↔ none ∉ chunks s := by
  constructor
  · intro h hmem
    have hlen := length_sanitize s
    have hpos := List.count_pos_iff.mpr hmem
    rw [h] at hlen
    omega
  · intro h
    induction s using seq_induction with
    | nil => rfl
    | bad c rest hc _ =>
      rw [chunks_bad_cons hc] at h
      exact absurd List.mem_cons_self h
    | seq q rest hq ih =>
      rw [chunks_seq_append hq] at h
      have hrest := ih fun hmem => h (List.mem_cons_of_mem _ hmem)
      unfold sanitize at hrest ⊢
      rw [chunks_seq_append hq, List.flatMap_cons, hrest]
      rfl

/-! ## Encoding -/

@[simp] theorem encode_nil : encode [] = [] := rfl

@[simp] theorem encode_cons (x : CodePoint) (t : Text) :
    encode (x :: t) = encodeValue x.val ++ encode t := rfl

theorem decodeSeq_eq_some_iff {q : Bytes} {x : CodePoint} :
    decodeSeq q = some x ↔ minValue q.length ≤ seqValue q ∧ seqValue q = x.val := by
  unfold decodeSeq
  split_ifs with hmin hmax
  · simp only [Option.some.injEq, hmin, true_and, Fin.ext_iff]
  · have := x.isLt
    simp only [hmin, true_and, false_iff]
    omega
  · simp [hmin]

theorem ofNat_eq_of_toNat {v : ℕ} {b : UInt8} (h : v = b.toNat) : UInt8.ofNat v = b := by
  rw [h, UInt8.ofNat_toNat]

/-- A value read from a sequence that is not overlong encodes back to it. -/
theorem encodeValue_seqValue {q : Bytes} (h : IsSeq q) (hmin : minValue q.length ≤ seqValue q)
    (hmax : seqValue q < 0x110000) : encodeValue (seqValue q) = q := by
  rcases h.cases with ⟨a, rfl, ha⟩ | ⟨a, b, rfl, ha, hb⟩ | ⟨a, b, c, rfl, ha, hb, hc⟩ |
    ⟨a, b, c, d, rfl, ha, hb, hc, hd⟩ <;>
    simp only [seqValue, minValue, List.length_cons, List.length_nil, Nat.zero_add,
      Nat.reduceAdd] at hmin hmax ⊢ <;> unfold encodeValue
  · rw [if_pos ha, UInt8.ofNat_toNat]
  · rw [if_neg (by omega), if_pos (by omega), ofNat_eq_of_toNat (b := a) (by omega),
      ofNat_eq_of_toNat (b := b) (by omega)]
  · rw [if_neg (by omega), if_neg (by omega), if_pos (by omega),
      ofNat_eq_of_toNat (b := a) (by omega), ofNat_eq_of_toNat (b := b) (by omega),
      ofNat_eq_of_toNat (b := c) (by omega)]
  · rw [if_neg (by omega), if_neg (by omega), if_neg (by omega),
      ofNat_eq_of_toNat (b := a) (by omega), ofNat_eq_of_toNat (b := b) (by omega),
      ofNat_eq_of_toNat (b := c) (by omega), ofNat_eq_of_toNat (b := d) (by omega)]

/-- **What decodes is what the text encodes to.** -/
theorem encode_of_decode {s : Bytes} {t : Text} (h : decode s = some t) : encode t = s := by
  induction s using seq_induction generalizing t with
  | nil => rw [← Option.some.inj h]; rfl
  | bad c rest hc _ => rw [decode_of_headSeq_none hc] at h; simp at h
  | seq q rest hq ih =>
    rw [decode_seq_append hq, Option.bind_eq_some_iff] at h
    obtain ⟨x, hx, hrest⟩ := h
    obtain ⟨u, hu, rfl⟩ := Option.map_eq_some_iff.mp hrest
    obtain ⟨hmin, hval⟩ := decodeSeq_eq_some_iff.mp hx
    rw [encode_cons, ← hval, encodeValue_seqValue hq hmin (hval ▸ x.isLt), ih hu]

end Utf8
end FileTracker
