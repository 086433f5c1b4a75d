import FileTracker.Agent.WalRecovery

/-!
# What a true `append` is worth

`append` writes the three parts of a record one after the other and returns false at
the first `fwrite` that fails; it flushes at the end and does not look at the result.
The reader has a limit on the length of a record that the writer does not have.  Two
properties that a caller relies on fail for these reasons, and each theorem says
exactly when it holds.

A failed append is no append, and a true one is read back, for those failures that
leave nothing in the file and come back from `fwrite` (`atomic_iff_harmless`): a torn record in
the middle of the file shifts everything behind it, and `exists_lost` finds the append
that is lost there.

All records of a run of appends are read back if each is within the reader's limit,
and only then (`allRead_iff`): a longer one is written, counted and returned true
for, but is never read, nor is what was appended behind it (`readAll_too_long`).
-/

namespace FileTracker
namespace Agent

open LittleEndian RecordStream

/-! ## A failed append -/

/-- The bytes of the record that reach the file before the error are not all of them. -/
def WriteOutcome.Proper (data : Bytes) : WriteOutcome → Prop
  | .ok => True
  | .fwriteError reached => reached < (encodeRecord data).length
  | .fflushError reached => reached < (encodeRecord data).length

/-- An append to a file of complete records, and how its write goes. -/
structure AppendCall where
  records : List Record
  opened : Bool
  record : Record
  outcome : WriteOutcome
  proper : outcome.Proper record.data

/-- The log before the call. -/
def AppendCall.wal (c : AppendCall) : Wal :=
  ⟨(c.records.map Record.data).flatMap encodeRecord, c.opened, c.records.length⟩

/-- What the call returns, and the log behind it. -/
def AppendCall.result (c : AppendCall) : Bool × Wal := c.wal.append c.record.data c.outcome

/-- The append is atomic: false means that nothing was appended, as far as the reader
can tell now or behind any later appends, and true that the record is read back last. -/
structure AppendCall.Atomic (c : AppendCall) : Prop where
  of_false : c.result.1 = false → ∀ later,
    readAll (c.result.2.appends later).content = readAll (c.wal.appends later).content
  of_true : c.result.1 = true → (readAll c.result.2.content).getLast? = some c.record.data

/-- The failures that do no harm: none, one in front of the first byte that `append`
sees, and one it does not see of a record equal to the last one in the file. -/
def AppendCall.Harmless (c : AppendCall) : Prop :=
  c.opened = false ∨
    match c.outcome with
    | .ok => True
    | .fwriteError reached => reached = 0
    | .fflushError _ => (c.records.map Record.data).getLast? = some c.record.data

/-- What is read behind the complete records. -/
theorem AppendCall.readAll_wal (c : AppendCall) (rest : Bytes) :
    readAll (c.wal.content ++ rest) = c.records.map Record.data ++ readAll rest :=
  readAll_flatMap length_le_of_mem_data rest

/-- A torn record is not read. -/
theorem readAll_torn (record : Record) {reached : ℕ}
    (h : reached < (encodeRecord record.data).length) :
    readAll ((encodeRecord record.data).take reached) = [] :=
  readAll_eq_nil_iff.mpr (readRecord_take record.length_le h)

/-- A torn record is seen by a later append. -/
theorem exists_later_lost (c : AppendCall) {reached : ℕ} (hpos : 0 < reached)
    (h : reached < (encodeRecord c.record.data).length) :
    ∃ data, readAll (c.wal.content ++ (encodeRecord c.record.data).take reached ++
      encodeRecord data) ≠ readAll (c.wal.content ++ encodeRecord data) := by
  have hne : (encodeRecord c.record.data).take reached ≠ [] := by
    rw [← List.length_pos_iff, List.length_take]
    omega
  obtain ⟨data, hle, hlost⟩ := exists_lost hne (readRecord_take c.record.length_le h)
  refine ⟨data, fun heq => hlost ?_⟩
  have hone : readAll (encodeRecord data) = [data] := by
    have hall : readAll ([data].flatMap encodeRecord) = [data] :=
      readAll_encoded fun r hr => List.mem_singleton.mp hr ▸ hle
    rwa [List.flatMap_cons, List.flatMap_nil, List.append_nil] at hall
  rw [List.append_assoc, c.readAll_wal, c.readAll_wal, List.append_cancel_left_eq, hone] at heq
  rw [heq]
  exact List.mem_singleton_self data

/-- An append whose write succeeds is read back last. -/
theorem AppendCall.atomic_ok (c : AppendCall) (hopened : c.opened = true) (hok : c.outcome = .ok) :
    c.Atomic := by
  have hresult : c.result = (true, ⟨c.wal.content ++ encodeRecord c.record.data, c.wal.opened,
      c.wal.recordsWritten + 1⟩) := by
    rw [AppendCall.result, hok, Wal.append, if_pos (show c.wal.opened = true from hopened)]
  refine ⟨fun h => ?_, fun _ => ?_⟩
  · rw [hresult] at h
    exact absurd h Bool.noConfusion
  · have hread := readRecord_encodeRecord c.record.length_le []
    rw [List.append_nil] at hread
    rw [hresult, c.readAll_wal, readAll, parseAll_cons readRecord_shrinks hread,
      List.getLast?_append]
    rfl

/-- An error that `append` sees leaves the reader where it was when nothing has reached
the file, and only then. -/
theorem AppendCall.atomic_fwriteError_iff (c : AppendCall) (hopened : c.opened = true) {reached : ℕ}
    (herror : c.outcome = .fwriteError reached) : c.Atomic ↔ reached = 0 := by
  have hwal : c.wal.opened = true := hopened
  have hproper : reached < (encodeRecord c.record.data).length := by
    have hp := c.proper
    rwa [herror] at hp
  have hresult : c.result = (false, ⟨c.wal.content ++ (encodeRecord c.record.data).take reached,
      c.wal.opened, c.wal.recordsWritten⟩) := by
    rw [AppendCall.result, herror, Wal.append, if_pos hwal]
  constructor
  · intro h
    by_contra hne
    obtain ⟨data, hlost⟩ := exists_later_lost c (Nat.pos_of_ne_zero hne) hproper
    have hsame := h.of_false (by rw [hresult]) [data]
    have hstill : c.result.2.opened = true := by rw [hresult]; exact hwal
    rw [Wal.content_appends hstill, Wal.content_appends hwal, hresult, List.flatMap_cons,
      List.flatMap_nil, List.append_nil] at hsame
    exact hlost hsame
  · rintro rfl
    refine ⟨fun _ later => ?_, fun h => ?_⟩
    · rw [hresult, List.take_zero, List.append_nil]
    · rw [hresult] at h
      exact absurd h Bool.noConfusion

/-- An error that `append` does not see is a record that is not read back, unless the
last one that is read happens to equal it. -/
theorem AppendCall.atomic_fflushError_iff (c : AppendCall) (hopened : c.opened = true)
    {reached : ℕ} (herror : c.outcome = .fflushError reached) :
    c.Atomic ↔ (c.records.map Record.data).getLast? = some c.record.data := by
  have hproper : reached < (encodeRecord c.record.data).length := by
    have hp := c.proper
    rwa [herror] at hp
  have hresult : c.result = (true, ⟨c.wal.content ++ (encodeRecord c.record.data).take reached,
      c.wal.opened, c.wal.recordsWritten + 1⟩) := by
    rw [AppendCall.result, herror, Wal.append, if_pos (show c.wal.opened = true from hopened)]
  have hread : readAll c.result.2.content = c.records.map Record.data := by
    rw [hresult, c.readAll_wal, readAll_torn c.record hproper, List.append_nil]
  constructor
  · intro h
    have hlast := h.of_true (by rw [hresult])
    rwa [hread] at hlast
  · intro h
    refine ⟨fun hfalse => ?_, fun _ => ?_⟩
    · rw [hresult] at hfalse
      exact absurd hfalse Bool.noConfusion
    · rwa [hread]

/-- A log that is not open is left alone, and says so. -/
theorem AppendCall.atomic_closed (c : AppendCall) (hclosed : c.opened = false) : c.Atomic := by
  have hresult : c.result = (false, c.wal) := by
    obtain ⟨records, opened, record, outcome, proper⟩ := c
    obtain rfl : opened = false := hclosed
    cases outcome <;> rfl
  refine ⟨fun _ later => ?_, fun h => ?_⟩
  · rw [hresult]
  · rw [hresult] at h
    exact absurd h Bool.noConfusion

/-- **When an append is atomic.**  For every file of complete records, every record and
every way the write goes: exactly when the failure is harmless. -/
theorem atomic_iff_harmless (c : AppendCall) : c.Atomic ↔ c.Harmless := by
  cases hopened : c.opened with
  | false => exact ⟨fun _ => Or.inl hopened, fun _ => c.atomic_closed hopened⟩
  | true =>
    have hnot : c.opened ≠ false := by
      rw [hopened]
      exact Bool.noConfusion
    rw [AppendCall.Harmless, or_iff_right hnot]
    cases houtcome : c.outcome with
    | ok => exact ⟨fun _ => trivial, fun _ => c.atomic_ok hopened houtcome⟩
    | fwriteError reached => exact c.atomic_fwriteError_iff hopened houtcome
    | fflushError reached => exact c.atomic_fflushError_iff hopened houtcome

/-- One byte of a record reaches an empty file and `fwrite` reports the error; none does
and only the flush fails. -/
theorem not_atomic_short_write :
    ¬ (⟨[], true, ⟨[0x78], by decide⟩, .fwriteError 1, Nat.lt_add_left 7 one_lt_two⟩ :
      AppendCall).Atomic ∧
    ¬ (⟨[], true, ⟨[0x78], by decide⟩, .fflushError 0, Nat.succ_pos 8⟩ : AppendCall).Atomic := by
  refine ⟨fun h => ?_, fun h => ?_⟩
  · exact absurd (h.of_false rfl [[]]) (by decide +kernel)
  · exact absurd (h.of_true rfl) (by decide +kernel)

/-! ## Data of any length -/

/-- A fresh log, and a run of appends whose writes all succeed. -/
def Recovery.appends (datas : List Bytes) : Recovery :=
  Recovery.run ⟨⟨[], true, 0⟩, []⟩ (datas.map .append)

/-- What was appended with true is read back, in order. -/
def AllRead (datas : List Bytes) : Prop :=
  (Recovery.appends datas).since.Sublist (readAll (Recovery.appends datas).wal.content)

theorem Recovery.run_appends (w : Wal) (since datas : List Bytes) (hopened : w.opened = true) :
    Recovery.run ⟨w, since⟩ (datas.map .append) = ⟨w.appends datas, since ++ datas⟩ := by
  induction datas generalizing w since with
  | nil => rw [List.append_nil]; rfl
  | cons data datas ih =>
    have hop : Recovery.op ⟨w, since⟩ (.append data) = ⟨(w.append data .ok).2, since ++ [data]⟩ := by
      simp only [Recovery.op, Wal.append, hopened, if_true]
    have hstill : (w.append data .ok).2.opened = true := by
      rw [Wal.append, if_pos hopened]
      exact hopened
    rw [List.map_cons, Recovery.run, List.foldl_cons, ← Recovery.run, hop, ih _ _ hstill,
      List.append_assoc]
    rfl

theorem Recovery.since_appends (datas : List Bytes) : (Recovery.appends datas).since = datas := by
  rw [Recovery.appends, Recovery.run_appends _ _ _ rfl, List.nil_append]

theorem Recovery.content_appends (datas : List Bytes) :
    (Recovery.appends datas).wal.content = datas.flatMap encodeRecord := by
  rw [Recovery.appends, Recovery.run_appends _ _ _ rfl, Wal.content_appends rfl, List.nil_append]

/-- What is read is within the reader's limit. -/
theorem length_le_of_mem_readAll {content data : Bytes} (h : data ∈ readAll content) :
    data.length ≤ maxRecord := by
  obtain ⟨s, rest, hread⟩ := exists_next_of_mem_parseAll h
  exact (eq_of_readRecord hread).1

/-- **When all appends are read back.**  Exactly when each is within the limit of the
reader; and then they are all that is read. -/
theorem allRead_iff (datas : List Bytes) :
    AllRead datas ↔ ∀ data ∈ datas, data.length ≤ maxRecord := by
  rw [AllRead, Recovery.since_appends, Recovery.content_appends]
  constructor
  · intro hsub data hdata
    exact length_le_of_mem_readAll (hsub.subset hdata)
  · intro hle
    rw [readAll_encoded hle]

/-- A record whose length field is above the limit hides what was appended behind it. -/
theorem readAll_too_long {before : List Bytes} {data : Bytes} (after : Bytes)
    (hbefore : ∀ d ∈ before, d.length ≤ maxRecord) (hlong : maxRecord < data.length % 2 ^ 32) :
    readAll (before.flatMap encodeRecord ++ (encodeRecord data ++ after)) = before := by
  have hnone : readRecord (encodeRecord data ++ after) = none := by
    have hlen : data.length % 2 ^ 32 < 2 ^ 32 := Nat.mod_lt _ (by norm_num)
    rw [encodeRecord, List.append_assoc]
    exact (readRecord_eq_none_iff hlen (crc32 data).isLt _).mpr (Or.inl hlong)
  exact (readAll_append_eq_iff hbefore).mpr hnone

/-- One byte more than the limit. -/
theorem not_allRead_long : ¬ AllRead [List.replicate (maxRecord + 1) 0] := by
  rw [AllRead, Recovery.since_appends, Recovery.content_appends]
  intro hsub
  have hle := length_le_of_mem_readAll (hsub.subset List.mem_cons_self)
  rw [List.length_replicate] at hle
  exact Nat.not_succ_le_self _ hle

end Agent
end FileTracker
