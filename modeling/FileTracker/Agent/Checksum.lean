import FileTracker.Agent.Wal
import FileTracker.Library.Register

/-!
# A damaged payload is not read

The checksum of the log is a table-driven register over the payload, and the table
that `init_crc32_table` fills has different top bytes.  That is all the general
argument of `Register` asks for: a payload that differs from the one written within
four consecutive bytes has another checksum (`crc32_ne`), however many bytes are left
behind the change.  So the reader stops in front of it, and what it has returned by
then are the records before (`readAll_damaged`).

That the top bytes are different is seen by running the eight steps of an entry
backwards from its top byte alone.
-/

namespace FileTracker
namespace Agent

open LittleEndian RecordStream Register

/-! ## The table -/

/-- The steps of an entry, undone: the polynomial sets the top bit, so that bit says
whether it was added. -/
def crc32Back : ℕ → BitVec 32 → BitVec 32
  | 0, c => c
  | j + 1, c => crc32Back j (if c.msb then ((c ^^^ 0xEDB88320) <<< 1) ||| 1 else c <<< 1)

theorem get_crc32Table (i : Fin 256) :
    crc32Table.get i = crc32Steps 8 (BitVec.ofNat 32 i.val) := by
  have hget : ∀ {n : ℕ} (v : Vector (BitVec 32) n) (i : Fin n), v.get i = v[i.val] :=
    fun _ _ => rfl
  rw [crc32Table, hget, Vector.getElem_ofFn]

/-- The top byte of an entry leads back to its index. -/
theorem crc32Back_top (i : Fin 256) :
    crc32Back 8 (crc32Steps 8 (BitVec.ofNat 32 i.val) >>> 24 <<< 24) &&& 0xFF =
      BitVec.ofNat 32 i.val := by
  revert i
  decide +kernel

theorem topsDiffer_crc32Table : TopsDiffer crc32Table.get := by
  intro i j h
  have htop : crc32Steps 8 (BitVec.ofNat 32 i.val) >>> 24 =
      crc32Steps 8 (BitVec.ofNat 32 j.val) >>> 24 := by
    rw [← get_crc32Table, ← get_crc32Table]
    exact h
  have hindex : BitVec.ofNat 32 i.val = BitVec.ofNat 32 j.val := by
    rw [← crc32Back_top i, ← crc32Back_top j, htop]
  have hval := congrArg BitVec.toNat hindex
  rw [BitVec.toNat_ofNat, BitVec.toNat_ofNat] at hval
  exact Fin.ext (by omega)

/-! ## The checksum -/

/-- The loop of `crc32` is the register driven by the table. -/
theorem crc32Byte_eq_tableStep : crc32Byte = tableStep crc32Table.get := rfl

/-- **A change within four consecutive bytes changes the checksum.** -/
theorem crc32_ne {xs ys : Bytes} (hlen : xs.length = ys.length) {start : ℕ}
    (hwithin : ∀ i, xs[i]? ≠ ys[i]? → start ≤ i ∧ i < start + 4) (hne : xs ≠ ys) :
    crc32 xs ≠ crc32 ys := by
  intro h
  rw [crc32, crc32, BitVec.xor_left_inj, crc32Byte_eq_tableStep] at h
  exact hne (eq_of_foldl_eq (keeps_tableStep topsDiffer_crc32Table)
    (fun _ hm => tells_tableStep topsDiffer_crc32Table hm) hlen hwithin h)

/-! ## The log -/

/-- A file that was changed in the bytes from `payload` to `payload + len` only, and
there within four consecutive places. -/
structure PayloadDamage (file altered : Bytes) (payload len : ℕ) : Prop where
  length_eq : altered.length = file.length
  ne : altered ≠ file
  inside : ∀ i, altered[i]? ≠ file[i]? → payload ≤ i ∧ i < payload + len
  narrow : ∃ start, ∀ i, altered[i]? ≠ file[i]? → start ≤ i ∧ i < start + 4

/-- One byte of the payload set to something else. -/
theorem payloadDamage_set {file : Bytes} {payload len i : ℕ} {b : UInt8} (hi : i < file.length)
    (hb : file[i]? ≠ some b) (hin : payload ≤ i ∧ i < payload + len) :
    PayloadDamage file (file.set i b) payload len := by
  have honly : ∀ j, (file.set i b)[j]? ≠ file[j]? → j = i := by
    intro j hj
    by_contra hne
    exact hj (List.getElem?_set_ne fun h => hne h.symm)
  refine ⟨List.length_set, fun heq => hb ?_, fun j hj => ?_, i, fun j hj => ?_⟩
  · rw [← heq, List.getElem?_set_self hi]
  · rw [honly j hj]
    exact hin
  · have hj := honly j hj
    omega

/-- Behind the header of a record, bytes of the same length with another checksum are
not read. -/
theorem readRecord_of_crc32_ne {data other rest : Bytes} (h : data.length ≤ maxRecord)
    (hlen : other.length = data.length) (hne : crc32 other ≠ crc32 data) :
    readRecord (le32 data.length ++ le32 (crc32 data).toNat ++ (other ++ rest)) = none := by
  have hmax : data.length < 2 ^ 32 := Nat.lt_of_le_of_lt h (by decide)
  refine (readRecord_eq_none_iff hmax (crc32 data).isLt _).mpr (Or.inr (Or.inr ?_))
  rw [← hlen, List.take_left]
  exact fun heq => hne (BitVec.eq_of_toNat_eq heq)

/-- A damaged payload stands where the payload stood. -/
theorem PayloadDamage.exists_payload {front data back altered : Bytes}
    (h : PayloadDamage (front ++ (data ++ back)) altered front.length data.length) :
    ∃ other, altered = front ++ (other ++ back) ∧ other.length = data.length ∧ other ≠ data ∧
      ∃ start, ∀ i, other[i]? ≠ data[i]? → start ≤ i ∧ i < start + 4 := by
  have hfront : altered.take front.length = front := by
    refine List.ext_getElem? fun i => ?_
    rw [List.getElem?_take]
    split
    · rename_i hi
      have hthere : (front ++ (data ++ back))[i]? = front[i]? := List.getElem?_append_left hi
      rw [← hthere]
      by_contra hne
      have hin := h.inside i hne
      omega
    · rw [List.getElem?_eq_none (by omega)]
  have hback : altered.drop (front.length + data.length) = back := by
    refine List.ext_getElem? fun i => ?_
    rw [List.getElem?_drop]
    have hbehind : (front ++ (data ++ back))[front.length + data.length + i]? = back[i]? := by
      rw [List.getElem?_append_right (by omega), List.getElem?_append_right (by omega)]
      congr 1
      omega
    rw [← hbehind]
    by_contra hne
    have hin := h.inside _ hne
    omega
  have hsplit : altered = front ++ ((altered.drop front.length).take data.length ++ back) := by
    nth_rewrite 1 [← List.take_append_drop front.length altered]
    rw [hfront, ← hback, ← List.drop_drop, List.take_append_drop]
  have hlen : ((altered.drop front.length).take data.length).length = data.length := by
    rw [List.length_take, List.length_drop, h.length_eq, List.length_append, List.length_append]
    omega
  refine ⟨_, hsplit, hlen, ?_, ?_⟩
  · intro heq
    rw [heq] at hsplit
    exact h.ne hsplit
  · obtain ⟨start, hstart⟩ := h.narrow
    refine ⟨start - front.length, fun i hi => ?_⟩
    have hlt : i < data.length := by
      by_contra hge
      rw [List.getElem?_eq_none (by omega), List.getElem?_eq_none (by omega)] at hi
      exact hi rfl
    have hchanged : altered[front.length + i]? ≠ (front ++ (data ++ back))[front.length + i]? := by
      rw [List.getElem?_append_right (by omega), Nat.add_sub_cancel_left,
        List.getElem?_append_left hlt, ← List.getElem?_drop]
      rwa [List.getElem?_take, if_pos hlt] at hi
    have hin := hstart _ hchanged
    omega

/-- **Payload corruption is always detected.**  Records appended to an empty log, and
the payload of one of them changed within four consecutive bytes: `read_all` returns
the records before it, and nothing else. -/
theorem readAll_damaged (before after : List Record) (record : Record) (altered : Bytes)
    (h : PayloadDamage (Wal.appendAll ⟨[], true, 0⟩ (before ++ record :: after)).content altered
      ((Wal.appendAll ⟨[], true, 0⟩ before).content.length + 8) record.data.length) :
    readAll altered = before.map Record.data := by
  rw [Wal.content_appendAll_empty, Wal.content_appendAll_empty, List.map_append, List.map_cons,
    List.flatMap_append, List.flatMap_cons, encodeRecord_of_le record.length_le] at h
  set front := (before.map Record.data).flatMap encodeRecord
  set header := le32 record.data.length ++ le32 (crc32 record.data).toNat
  set back := (after.map Record.data).flatMap encodeRecord
  have hfile : front ++ (header ++ record.data ++ back) =
      front ++ header ++ (record.data ++ back) := by
    rw [List.append_assoc header, List.append_assoc front]
  have hlen : front.length + 8 = (front ++ header).length := by
    rw [List.length_append]
    rfl
  rw [hfile, hlen] at h
  obtain ⟨other, rfl, hother, hne, start, hstart⟩ := h.exists_payload
  have hnone : readRecord (header ++ (other ++ back)) = none :=
    readRecord_of_crc32_ne record.length_le hother (crc32_ne hother hstart hne)
  rw [List.append_assoc]
  exact (readAll_append_eq_iff length_le_of_mem_data).mpr hnone

/-- Three records, and the last byte of the second one changed. -/
theorem readAll_damaged_byte :
    let records : List Record := [⟨[0x61], by decide⟩, ⟨[0x62, 0x63], by decide⟩, ⟨[], by decide⟩]
    readAll ((Wal.appendAll ⟨[], true, 0⟩ records).content.set 18 0x64) = [[0x61]] :=
  readAll_damaged [⟨[0x61], by decide⟩] [⟨[], by decide⟩] ⟨[0x62, 0x63], by decide⟩ _
    (payloadDamage_set (by decide +kernel) (by decide +kernel) (by decide +kernel))

end Agent
end FileTracker
