import FileTracker.Library.LittleEndian
import FileTracker.Library.RecordStream
import Mathlib.Data.Nat.Bitwise

/-!
# The write-ahead log

`src/wal.cpp`: an append-only file of records, each with its length and a CRC in
front.  `append` writes behind whatever the file holds, and `readAll` reads from
the front to the first record it cannot read, which is `RecordStream.parseAll`
for the one-record reader `readRecord`.

The round trip of a single record, `readRecord_encodeRecord`, is all that the
rest of the development needs of the format.
-/

namespace FileTracker
namespace Agent

open LittleEndian RecordStream

/-! ## The checksum -/

/-- One entry of the table: eight steps of the reflected polynomial. -/
def crc32Steps : ℕ → BitVec 32 → BitVec 32
  | 0, c => c
  | j + 1, c =>
    crc32Steps j (if c &&& 1 = 1 then 0xEDB88320 ^^^ (c >>> 1) else c >>> 1)

/-- `crc32_table`, as `init_crc32_table` fills it. -/
def crc32Table : Vector (BitVec 32) 256 :=
  Vector.ofFn fun i => crc32Steps 8 (BitVec.ofNat 32 i.val)

theorem crc32Index_lt (c : BitVec 32) (b : UInt8) :
    ((c ^^^ b.toBitVec.setWidth 32) &&& 0xFF).toNat < 256 := by
  rw [BitVec.toNat_and]
  exact Nat.lt_of_le_of_lt Nat.and_le_right (by decide)

/-- One step of the loop of `crc32`. -/
def crc32Byte (c : BitVec 32) (b : UInt8) : BitVec 32 :=
  crc32Table.get ⟨((c ^^^ b.toBitVec.setWidth 32) &&& 0xFF).toNat, crc32Index_lt c b⟩ ^^^ (c >>> 8)

/-- `WAL::crc32`. -/
def crc32 (data : Bytes) : BitVec 32 := data.foldl crc32Byte 0xFFFFFFFF ^^^ 0xFFFFFFFF

/-! ## Records -/

/-- The most bytes of payload `read_all` takes for a record. -/
def maxRecord : ℕ := 1024 * 1024

/-- What a complete `append` writes: the length as a `uint32_t`, the checksum of
the data, and as many bytes of it as that length says. -/
def encodeRecord (data : Bytes) : Bytes :=
  le32 (data.length % 2 ^ 32) ++ le32 (crc32 data).toNat ++ data.take (data.length % 2 ^ 32)

/-- One round of the loop of `read_all`: a record and what follows it, or `none`
where the loop stops. -/
def readRecord : Bytes → Option (Bytes × Bytes)
  | a :: b :: c :: d :: e :: f :: g :: h :: rest =>
    let len := ofLe32 a b c d
    let checksum := ofLe32 e f g h
    if maxRecord < len then none
    else if rest.length < len then none
    else if (crc32 (rest.take len)).toNat ≠ checksum then none
    else some (rest.take len, rest.drop len)
  | _ => none

/-- `read_all` on the content of the file. -/
def readAll (content : Bytes) : List Bytes := parseAll readRecord content

/-- Data that the reader takes as a record. -/
structure Record where
  data : Bytes
  length_le : data.length ≤ maxRecord

/-! ## The open log -/

/-- The log: what the file holds, whether `fp_` is open for appending, and the
counter. -/
structure Wal where
  content : Bytes
  opened : Bool
  recordsWritten : ℕ

/-- How a write goes: it reaches the file, or so many bytes of it do and the
error comes back from one of the `fwrite` calls, or only from the `fflush`,
whose result nobody looks at. -/
inductive WriteOutcome where
  | ok
  | fwriteError (reached : ℕ)
  | fflushError (reached : ℕ)

/-- `append`, and what it returns. -/
def Wal.append (w : Wal) (data : Bytes) : WriteOutcome → Bool × Wal
  | .ok =>
    if w.opened then
      (true, { w with
        content := w.content ++ encodeRecord data, recordsWritten := w.recordsWritten + 1 })
    else (false, w)
  | .fwriteError reached =>
    (false, if w.opened then { w with content := w.content ++ (encodeRecord data).take reached }
      else w)
  | .fflushError reached =>
    if w.opened then
      (true, { w with
        content := w.content ++ (encodeRecord data).take reached
        recordsWritten := w.recordsWritten + 1 })
    else (false, w)

/-- Which of the two `fopen` calls of `truncate` succeed. -/
inductive OpenOutcome where
  | both
  | first
  | neither

/-- `truncate`. -/
def Wal.truncate (w : Wal) : OpenOutcome → Wal
  | .both => ⟨[], true, 0⟩
  | .first => ⟨[], false, 0⟩
  | .neither => { w with opened := false, recordsWritten := 0 }

/-- `file_size`, where `stat` finds the file; the size it gives one that is not there is
that of an empty one. -/
def Wal.fileSize (w : Wal) : ℕ := w.content.length

/-! ## Reading records back -/

theorem readRecord_shrinks : Shrinks readRecord := by
  intro s a rest h
  unfold readRecord at h
  split at h
  · simp only at h
    split_ifs at h
    obtain ⟨-, rfl⟩ := Prod.mk.inj (Option.some.inj h)
    rw [List.length_drop]
    simp only [List.length_cons]
    omega
  · simp at h

theorem encodeRecord_of_le {data : Bytes} (h : data.length ≤ maxRecord) :
    encodeRecord data = le32 data.length ++ le32 (crc32 data).toNat ++ data := by
  have hmod : data.length % 2 ^ 32 = data.length :=
    Nat.mod_eq_of_lt (Nat.lt_of_le_of_lt h (by decide))
  rw [encodeRecord, hmod, List.take_length]

theorem length_encodeRecord {data : Bytes} (h : data.length ≤ maxRecord) :
    (encodeRecord data).length = 8 + data.length := by
  simp only [encodeRecord_of_le h, List.length_append, length_le32]

/-- **The round trip of a record**, whatever follows it. -/
theorem readRecord_encodeRecord {data : Bytes} (h : data.length ≤ maxRecord) (rest : Bytes) :
    readRecord (encodeRecord data ++ rest) = some (data, rest) := by
  have hlen : data.length % 2 ^ 32 = data.length :=
    Nat.mod_eq_of_lt (Nat.lt_of_le_of_lt h (by decide))
  have hcrc : (crc32 data).toNat % 2 ^ 32 = (crc32 data).toNat :=
    Nat.mod_eq_of_lt (crc32 data).isLt
  rw [encodeRecord_of_le h, le32, le32]
  simp only [List.cons_append, List.nil_append, readRecord, ofLe32_le32, hlen, hcrc,
    List.take_left, List.drop_left, List.length_append]
  rw [if_neg (Nat.not_lt.mpr h), if_neg (by omega), if_neg (by simp)]

/-- When nothing is read behind a header: the length is above the limit or above what is
left, or the bytes have another checksum. -/
theorem readRecord_eq_none_iff {len checksum : ℕ} (hlen : len < 2 ^ 32)
    (hchecksum : checksum < 2 ^ 32) (rest : Bytes) :
    readRecord (le32 len ++ le32 checksum ++ rest) = none ↔
      maxRecord < len ∨ rest.length < len ∨ (crc32 (rest.take len)).toNat ≠ checksum := by
  rw [le32, le32]
  simp only [List.cons_append, List.nil_append, readRecord, ofLe32_le32, Nat.mod_eq_of_lt hlen,
    Nat.mod_eq_of_lt hchecksum]
  split_ifs with hmax hshort hcrc
  · exact iff_of_true rfl (Or.inl hmax)
  · exact iff_of_true rfl (Or.inr (Or.inl hshort))
  · exact iff_of_true rfl (Or.inr (Or.inr hcrc))
  · exact iff_of_false not_false fun h => h.elim hmax fun h => h.elim hshort hcrc

/-- What is read as a record was written as one. -/
theorem eq_of_readRecord {s data rest : Bytes} (h : readRecord s = some (data, rest)) :
    data.length ≤ maxRecord ∧ s = encodeRecord data ++ rest := by
  unfold readRecord at h
  split at h
  · rename_i a b c d e f g i tail
    simp only at h
    split_ifs at h with hmax hshort hcrc
    obtain ⟨rfl, rfl⟩ := Prod.mk.inj (Option.some.inj h)
    have hlen : (tail.take (ofLe32 a b c d)).length = ofLe32 a b c d := by
      rw [List.length_take]
      omega
    have hle : (tail.take (ofLe32 a b c d)).length ≤ maxRecord := by omega
    refine ⟨hle, ?_⟩
    rw [encodeRecord_of_le hle, hlen, not_not.mp hcrc, le32_ofLe32, le32_ofLe32, List.append_assoc,
      List.take_append_drop]
    rfl
  · simp at h

/-- The file that complete appends leave behind reads back as their data, in
order, and the reader goes on with what follows. -/
theorem readAll_flatMap {records : List Bytes} (h : ∀ r ∈ records, r.length ≤ maxRecord)
    (rest : Bytes) : readAll (records.flatMap encodeRecord ++ rest) = records ++ readAll rest :=
  parseAll_flatMap readRecord_shrinks (fun r hr rest => readRecord_encodeRecord (h r hr) rest) rest

@[simp] theorem readAll_nil : readAll [] = [] := rfl

theorem readAll_encoded {records : List Bytes} (h : ∀ r ∈ records, r.length ≤ maxRecord) :
    readAll (records.flatMap encodeRecord) = records := by
  have hall := readAll_flatMap h []
  rwa [List.append_nil, readAll_nil, List.append_nil] at hall

theorem readAll_eq_nil_iff {content : Bytes} : readAll content = [] ↔ readRecord content = none :=
  parseAll_eq_nil_iff

/-- The reader stops behind complete records where it reads nothing. -/
theorem readAll_append_eq_iff {records : List Bytes} (h : ∀ r ∈ records, r.length ≤ maxRecord)
    {rest : Bytes} :
    readAll (records.flatMap encodeRecord ++ rest) = records ↔ readRecord rest = none := by
  rw [readAll_flatMap h, List.append_right_eq_self, readAll_eq_nil_iff]

/-! ## A log that is cut off -/

/-- Appends of data of any length whose writes succeed, one after the other. -/
def Wal.appends (w : Wal) (datas : List Bytes) : Wal :=
  datas.foldl (fun w data => (w.append data .ok).2) w

/-- Complete appends, one after the other. -/
def Wal.appendAll (w : Wal) (records : List Record) : Wal :=
  records.foldl (fun w r => (w.append r.data .ok).2) w

theorem Wal.content_appends {w : Wal} (hopened : w.opened = true) (datas : List Bytes) :
    (w.appends datas).content = w.content ++ datas.flatMap encodeRecord := by
  induction datas generalizing w with
  | nil => rw [List.flatMap_nil, List.append_nil]; rfl
  | cons data datas ih =>
    have happend : (w.append data .ok).2 =
        ⟨w.content ++ encodeRecord data, w.opened, w.recordsWritten + 1⟩ := by
      rw [Wal.append, if_pos hopened]
    have hrest := ih (w := ⟨w.content ++ encodeRecord data, w.opened, w.recordsWritten + 1⟩)
      hopened
    rw [Wal.appends, List.foldl_cons, ← Wal.appends, happend, hrest, List.flatMap_cons,
      List.append_assoc]

theorem Wal.appendAll_eq (w : Wal) (records : List Record) :
    w.appendAll records = w.appends (records.map Record.data) := by
  rw [Wal.appendAll, Wal.appends, List.foldl_map]

theorem Wal.content_appendAll {w : Wal} (hopened : w.opened = true) (records : List Record) :
    (w.appendAll records).content =
      w.content ++ (records.map Record.data).flatMap encodeRecord := by
  rw [Wal.appendAll_eq, Wal.content_appends hopened]

theorem Wal.content_appendAll_empty (records : List Record) :
    (Wal.appendAll ⟨[], true, 0⟩ records).content =
      (records.map Record.data).flatMap encodeRecord := by
  rw [Wal.content_appendAll rfl, List.nil_append]

/-- The data of records are within the reader's limit. -/
theorem length_le_of_mem_data {records : List Record} :
    ∀ data ∈ records.map Record.data, data.length ≤ maxRecord := by
  intro data hdata
  obtain ⟨r, -, rfl⟩ := List.mem_map.mp hdata
  exact r.length_le

/-- A record that is cut off is not read. -/
theorem readRecord_take {data : Bytes} (h : data.length ≤ maxRecord) {k : ℕ}
    (hk : k < (encodeRecord data).length) : readRecord ((encodeRecord data).take k) = none := by
  by_contra hread
  obtain ⟨⟨other, rest⟩, hsome⟩ := Option.ne_none_iff_exists'.mp hread
  obtain ⟨hle, hsplit⟩ := eq_of_readRecord hsome
  -- the same record would be read from the whole encoding, with something behind it
  have hwhole : encodeRecord data = encodeRecord other ++ (rest ++ (encodeRecord data).drop k) := by
    rw [← List.append_assoc, ← hsplit, List.take_append_drop]
  have hfirst := readRecord_encodeRecord h []
  rw [List.append_nil, hwhole, readRecord_encodeRecord hle] at hfirst
  have hnil := (List.append_eq_nil_iff.mp (Prod.mk.inj (Option.some.inj hfirst)).2).2
  exact absurd (List.drop_eq_nil_iff.mp hnil) (Nat.not_le.mpr hk)

/-- **Reading a log that is cut off.**  Records appended to an empty log, and the file
cut off at any byte: `read_all` returns the longest prefix of the records whose
encodings lie before the cut; and with no cut, all of them. -/
theorem readAll_cut (records : List Record) (cut : ℕ) :
    let file := (Wal.appendAll ⟨[], true, 0⟩ records).content
    WholePrefix encodeRecord (records.map Record.data) cut (readAll (file.take cut)) ∧
      readAll file = records.map Record.data := by
  intro file
  have hfile : file = (records.map Record.data).flatMap encodeRecord :=
    Wal.content_appendAll_empty records
  have hle : ∀ r ∈ records.map Record.data, r.length ≤ maxRecord := length_le_of_mem_data
  rw [hfile]
  exact ⟨parseAll_take readRecord_shrinks
    (fun r hr rest => readRecord_encodeRecord (hle r hr) rest)
    (fun r hr k hk => readRecord_take (hle r hr) hk) cut, readAll_encoded hle⟩

end Agent
end FileTracker
