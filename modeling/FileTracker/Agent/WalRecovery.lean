import FileTracker.Agent.Wal

/-!
# The log across restarts

The startup block of `main` and its periodic retry read the log and truncate it
under one condition: that something was read.  A file whose first record is torn
is therefore never truncated, and `append` goes on writing behind the torn
bytes, where the reader does not come.

`recovers_iff` makes that exact.  The log recovers from a given content --- every
record appended later is read back until the next truncation --- when the file
is empty or begins with a complete record, and from no other content: for each
of the others one append is enough to lose a record.
-/

namespace FileTracker
namespace Agent

open LittleEndian

/-- The startup block and the retry block, as far as the log is concerned: it is
truncated when something was read from it. -/
def Wal.replay (w : Wal) : Wal := if readAll w.content = [] then w else w.truncate .both

/-- The retry block looks at the size of the file first. -/
def Wal.retry (w : Wal) : Wal := if 0 < w.fileSize then w.replay else w

/-- What happens to the log after startup. -/
inductive WalOp where
  | append (data : Bytes)
  | retry

/-- The log, and the records that `append` has returned true for since the log
was last truncated. -/
structure Recovery where
  wal : Wal
  since : List Bytes

/-- After the startup block, on a file with the given content. -/
def Recovery.startup (content : Bytes) : Recovery := ⟨Wal.replay ⟨content, true, 0⟩, []⟩

def Recovery.op (s : Recovery) : WalOp → Recovery
  | .append data =>
    let r := s.wal.append data .ok
    ⟨r.2, if r.1 then s.since ++ [data] else s.since⟩
  | .retry => ⟨s.wal.retry, if readAll s.wal.content = [] then s.since else []⟩

def Recovery.run (s : Recovery) (ops : List WalOp) : Recovery := ops.foldl Recovery.op s

/-- Every record appended since the last truncation is read back, in order,
after any appends of records the reader takes and any retries. -/
def Recovers (content : Bytes) : Prop :=
  ∀ ops : List WalOp, (∀ data, .append data ∈ ops → data.length ≤ maxRecord) →
    ((Recovery.startup content).run ops).since.Sublist
      (readAll ((Recovery.startup content).run ops).wal.content)

/-- The file begins with a complete record. -/
def BeginsIntact (content : Bytes) : Prop :=
  ∃ data rest, data.length ≤ maxRecord ∧ content = encodeRecord data ++ rest

theorem beginsIntact_iff {content : Bytes} : BeginsIntact content ↔ readAll content ≠ [] := by
  rw [Ne, readAll_eq_nil_iff]
  constructor
  · rintro ⟨data, rest, hle, rfl⟩
    rw [readRecord_encodeRecord hle]
    simp
  · intro h
    obtain ⟨⟨data, rest⟩, hread⟩ := Option.ne_none_iff_exists'.mp h
    obtain ⟨hle, hsplit⟩ := eq_of_readRecord hread
    exact ⟨data, rest, hle, hsplit⟩

/-! ## A clean file stays clean -/

/-- The file holds the records since the last truncation and nothing else. -/
structure Recovery.Clean (s : Recovery) : Prop where
  opened : s.wal.opened = true
  content : s.wal.content = s.since.flatMap encodeRecord
  size : ∀ r ∈ s.since, r.length ≤ maxRecord

theorem Recovery.Clean.op {s : Recovery} (h : s.Clean) {o : WalOp}
    (ho : ∀ data, o = .append data → data.length ≤ maxRecord) : (s.op o).Clean := by
  cases o with
  | append data =>
    simp only [Recovery.op, Wal.append, h.opened, if_true]
    refine ⟨rfl, by simp [h.content], fun r hr => ?_⟩
    rcases List.mem_append.mp hr with hr | hr
    · exact h.size r hr
    · rw [List.mem_singleton.mp hr]
      exact ho data rfl
  | retry =>
    have hread : readAll s.wal.content = s.since := by
      rw [h.content]
      exact readAll_encoded h.size
    simp only [Recovery.op, Wal.retry, Wal.replay, hread]
    by_cases hnil : s.since = []
    · simp only [hnil, if_true, ite_self]
      exact ⟨h.opened, by rw [h.content, hnil], by simp⟩
    · have hpos : 0 < s.wal.fileSize := by
        obtain ⟨r, rs, hrs⟩ := List.exists_cons_of_ne_nil hnil
        rw [Wal.fileSize, h.content, hrs, List.flatMap_cons, List.length_append,
          length_encodeRecord (h.size r (by simp [hrs]))]
        omega
      simp only [if_pos hpos, if_neg hnil]
      exact ⟨rfl, rfl, by simp⟩

theorem Recovery.Clean.run {s : Recovery} (h : s.Clean) {ops : List WalOp}
    (hops : ∀ data, .append data ∈ ops → data.length ≤ maxRecord) : (s.run ops).Clean := by
  induction ops generalizing s with
  | nil => exact h
  | cons o ops ih =>
    refine ih (h.op fun data ho => hops data ?_) fun data hd => hops data ?_
    · rw [ho]
      exact List.mem_cons_self
    · exact List.mem_cons_of_mem _ hd

theorem clean_startup {content : Bytes} (h : content = [] ∨ BeginsIntact content) :
    (Recovery.startup content).Clean := by
  rcases h with rfl | h
  · exact ⟨rfl, rfl, by simp [Recovery.startup]⟩
  · rw [Recovery.startup, Wal.replay, if_neg (beginsIntact_iff.mp h)]
    exact ⟨rfl, rfl, by simp⟩

/-! ## A torn file stays torn -/

/-- Fewer than eight bytes hold no record. -/
theorem readRecord_short {s : Bytes} (h : s.length < 8) : readRecord s = none := by
  unfold readRecord
  split
  · simp only [List.length_cons] at h
    omega
  · rfl

/-- Behind bytes that hold no record, an empty record is read back only where it
cannot be told from them: eight zero bytes behind fewer than eight. -/
theorem nil_not_mem_readAll {content : Bytes} (hnone : readRecord content = none)
    (hzero : ¬ (content.length < 8 ∧ ∀ b ∈ content, b = 0)) :
    [] ∉ readAll (content ++ encodeRecord []) := by
  have henc : encodeRecord [] = [0, 0, 0, 0, 0, 0, 0, 0] := by decide
  intro hmem
  cases hread : readRecord (content ++ encodeRecord []) with
  | none =>
    rw [readAll_eq_nil_iff.mpr hread] at hmem
    simp at hmem
  | some p =>
    obtain ⟨data, rest⟩ := p
    obtain ⟨hle, hsplit⟩ := eq_of_readRecord hread
    have hlen := congrArg List.length hsplit
    rw [List.length_append, List.length_append, length_encodeRecord hle, henc] at hlen
    simp only [List.length_cons, List.length_nil] at hlen
    -- a record inside the content would have been read from it
    have hover : content.length < 8 + data.length := by
      by_contra hge
      have htake : content = encodeRecord data ++ content.drop (encodeRecord data).length := by
        have hpre := congrArg (List.take (encodeRecord data).length) hsplit
        rw [List.take_append_of_le_length (by rw [length_encodeRecord hle]; omega),
          List.take_left] at hpre
        nth_rewrite 1 [← List.take_append_drop (encodeRecord data).length content]
        rw [hpre]
      rw [htake, readRecord_encodeRecord hle] at hnone
      simp at hnone
    have hrest : readAll rest = [] := readAll_eq_nil_iff.mpr (readRecord_short (by omega))
    rw [readAll, RecordStream.parseAll_cons readRecord_shrinks hread, ← readAll, hrest,
      List.mem_singleton] at hmem
    subst hmem
    refine hzero ⟨by simpa using hover, fun b hb => ?_⟩
    have hmem : b ∈ encodeRecord [] ++ rest := hsplit ▸ List.mem_append_left _ hb
    have hpre := congrArg (List.take content.length) hsplit
    rw [List.take_left, List.take_append_of_le_length (by rw [henc]; simp at hover ⊢; omega),
      henc] at hpre
    have hb8 : b ∈ [0, 0, 0, 0, 0, 0, 0, (0 : UInt8)] := List.mem_of_mem_take (hpre ▸ hb)
    simpa using hb8

/-- A nonempty record behind one to seven zero bytes is not read. -/
theorem readRecord_zeros {k : ℕ} (hk : k < 8) (hpos : 0 < k) :
    readRecord (List.replicate k 0 ++ encodeRecord [0x78]) = none := by
  have hall : ∀ k < 8, 0 < k →
      readRecord (List.replicate k 0 ++ encodeRecord [0x78]) = none := by
    decide +kernel
  exact hall k hk hpos

/-- Behind bytes that hold no record, some record is lost: the empty one, or one of a
single byte. -/
theorem exists_lost {content : Bytes} (hne : content ≠ []) (hnone : readRecord content = none) :
    ∃ data, data.length ≤ maxRecord ∧ data ∉ readAll (content ++ encodeRecord data) := by
  by_cases hzero : content.length < 8 ∧ ∀ b ∈ content, b = 0
  · obtain ⟨hlt, hall⟩ := hzero
    have hread := readRecord_zeros hlt (List.length_pos_iff.mpr hne)
    rw [← List.eq_replicate_of_mem hall] at hread
    refine ⟨[0x78], by decide, ?_⟩
    rw [readAll_eq_nil_iff.mpr hread]
    exact List.not_mem_nil
  · exact ⟨[], by decide, nil_not_mem_readAll hnone hzero⟩

/-- One append shows that the log does not recover from a file that holds
something but begins with no complete record. -/
theorem not_recovers {content : Bytes} (hne : content ≠ []) (hnone : readRecord content = none) :
    ¬ Recovers content := by
  intro hrec
  obtain ⟨data, hle, hlost⟩ := exists_lost hne hnone
  have hstart : Recovery.startup content = ⟨⟨content, true, 0⟩, []⟩ := by
    rw [Recovery.startup, Wal.replay, if_pos (readAll_eq_nil_iff.mpr hnone)]
  have hsub := hrec [.append data] fun d hd => by
    obtain rfl := WalOp.append.inj (List.mem_singleton.mp hd)
    exact hle
  rw [hstart] at hsub
  exact hlost (hsub.subset (List.mem_singleton_self data))

/-- **When the log recovers.**  From an empty file, and from one that begins with
a complete record; from any other, one more append is already lost. -/
theorem recovers_iff (content : Bytes) :
    Recovers content ↔ content = [] ∨ BeginsIntact content := by
  constructor
  · intro hrec
    by_contra hbad
    obtain ⟨hne, hnot⟩ := not_or.mp hbad
    rw [beginsIntact_iff, not_not, readAll_eq_nil_iff] at hnot
    exact not_recovers hne hnot hrec
  · intro h ops hops
    have hclean := (clean_startup h).run hops
    rw [hclean.content, readAll_encoded hclean.size]

/-- A crash that leaves the first byte of a record behind. -/
theorem not_recovers_torn :
    ¬ ∀ content : Bytes, Recovers content :=
  fun h => not_recovers (by simp) (by decide) (h [0x64])

end Agent
end FileTracker
