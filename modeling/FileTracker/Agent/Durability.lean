import FileTracker.Agent.Conservation

/-!
# The log and crashes

The log is there so that a record, once written, survives until its delivery is
acknowledged.  The replay blocks truncate it first and send afterwards, so
between the two the records are in the memory of the process only, and a crash
there loses them.

The exact statement is `durable_iff_acked`: along a run, with crashes anywhere,
every record ever written stays in the log until it is acknowledged, or dropped
at the size limit, exactly when no truncation comes while a record in the log is
neither.
-/

namespace FileTracker
namespace Agent

open Runs

/-- The record has been acknowledged, or dropped at the size limit. -/
def Main.Settled (s : Main) (r : Bytes) : Prop := r ∈ s.acked ∨ r ∈ s.dropped.map Prod.fst

/-- Every record that was ever written is in the log, or acknowledged, or
dropped. -/
def Main.Durable (s : Main) : Prop :=
  ∀ r ∈ s.written, r ∈ readAll s.wal.content ∨ s.Settled r

/-- The step does not truncate the log while a record in it is neither acknowledged
nor dropped. -/
def AckedFirst (s : Main) (l : Label) : Prop :=
  l = .truncate → ∀ r ∈ readAll s.wal.content, s.Settled r

/-- The invariant of the good steps. -/
structure Kept (s : Main) : Prop where
  sound : s.Sound
  durable : s.Durable
  logged_written : ∀ r ∈ s.logged, r ∈ s.written

variable {cfg : Config}

theorem Kept.failed {s t : Main} {json : Bytes} (hs : s.Sound) (hd : s.Durable)
    (hw : ∀ r ∈ s.logged, r ∈ s.written) (hjson : json.length ≤ maxRecord)
    (hf : s.Failed cfg json t) : t.Durable ∧ ∀ r ∈ t.logged, r ∈ t.written := by
  cases hf with
  | logged w opened content =>
    have hread : readAll w.content = s.logged ++ [json] := by
      rw [content, hs.readAll_append hjson]
    refine ⟨fun r hr => ?_, fun r hr => ?_⟩
    · rw [hread]
      rcases Multiset.mem_cons.mp hr with rfl | hr
      · exact Or.inl (List.mem_append_right _ (List.mem_singleton_self r))
      · exact (hd r hr).imp_left fun hlog => List.mem_append_left _ hlog
    · rw [Main.logged, hread] at hr
      rcases List.mem_append.mp hr with hr | hr
      · exact Multiset.mem_cons_of_mem (hw r hr)
      · rw [List.mem_singleton.mp hr]
        exact Multiset.mem_cons_self _ _
  | dropped full =>
    refine ⟨fun r hr => (hd r hr).imp_right fun hset => hset.imp_right fun hdrop => ?_, hw⟩
    rw [Multiset.map_cons]
    exact Multiset.mem_cons_of_mem hdrop

theorem Kept.send {s : Main} {json : Bytes} (hs : s.Sound) (hd : s.Durable)
    (hw : ∀ r ∈ s.logged, r ∈ s.written) (hjson : json.length ≤ maxRecord) (accepted : Bool) :
    (s.send cfg json accepted).Durable ∧
      ∀ r ∈ (s.send cfg json accepted).logged, r ∈ (s.send cfg json accepted).written := by
  unfold Main.send
  split_ifs
  · exact ⟨hd, hw⟩
  · exact Kept.failed hs hd hw hjson (failed_onFail cfg hs.opened json)

/-- **One call**, unless it truncates too early, keeps every written record. -/
theorem Kept.step {s t : Main} {l : Label} (h : Kept s) (hstep : s.step cfg l = some t)
    (hacked : AckedFirst s l) : Kept t := by
  have hs := h.sound
  have hd := h.durable
  have hw := h.logged_written
  suffices hsuff : t.Durable ∧ ∀ r ∈ t.logged, r ∈ t.written from
    ⟨hs.step hstep, hsuff.1, hsuff.2⟩
  cases Main.moves_of_step hstep with
  | callback tsMs src accepted hpc =>
    exact Kept.send (hs.sent (src.json cfg tsMs ::ₘ s.sent)) hd hw (src.length_json_le cfg tsMs) accepted
  | report json ok hpc hmem =>
    unfold Main.report
    split_ifs
    · exact ⟨fun r hr => (hd r hr).imp_right (Or.imp_left Multiset.mem_cons_of_mem), hw⟩
    · exact Kept.failed (hs.erase json) hd hw (hs.queue_le json hmem)
        (failed_onFail cfg (hs.erase json).opened json)
  | truncate block records hpc =>
    refine ⟨fun r hr => Or.inr ?_, by simp [Main.logged, Wal.truncate]⟩
    exact (hd r hr).elim (fun hlog => hacked rfl r hlog) id
  | resend block json records accepted hpc =>
    obtain ⟨hjson, hnext⟩ := hs.next hpc
    exact Kept.send hnext hd hw hjson accepted
  | read block hpc => exact ⟨hd, hw⟩
  | go l pc hl hin hread hresend => exact ⟨hd, hw⟩
  | crash => exact ⟨hd, hw⟩
  | start hpc => exact ⟨hd, hw⟩

/-- A truncation that comes too early breaks the promise at once. -/
theorem ackedFirst_of_durable {s t : Main} {l : Label} (h : Kept s)
    (hstep : s.step cfg l = some t) (hd : t.Durable) : AckedFirst s l := by
  rintro rfl r hr
  cases Main.moves_of_step hstep with
  | truncate block records hpc =>
    rcases hd r (h.logged_written r hr) with hlog | hset
    · simp [Wal.truncate] at hlog
    · exact hset
  | go _ pc hl hin hread hresend => exact absurd rfl hl

theorem Kept.initial (records : List Record) : Kept (Main.initial records) := by
  have hlogged : (Main.initial records).logged = records.map Record.data := by
    have hle : ∀ r ∈ records.map Record.data, r.length ≤ maxRecord :=
      List.forall_mem_map.mpr fun r _ => r.length_le
    rw [Main.logged, ← readAll_encoded hle, List.flatMap_map]
    rfl
  refine ⟨Main.Sound.initial records, fun r hr => Or.inl ?_, fun r hr => ?_⟩
  · rw [← Main.logged, hlogged]
    exact hr
  · rw [hlogged] at hr
    exact hr

/-- **Durability, exactly.**  Along any run with crashes, every record ever written
is throughout in the log, acknowledged, or dropped at the size limit, exactly when
no truncation comes while a record in the log is neither acknowledged nor
dropped. -/
theorem durable_iff_acked (cfg : Config) (records : List Record) (labels : List Label) :
    Always (Main.step cfg) Main.Durable (Main.initial records) labels ↔
      Guarded (Main.step cfg) AckedFirst (Main.initial records) labels :=
  always_iff_guarded (I := Kept) (fun _ h => h.durable)
    (fun _ _ _ h hstep hacked => h.step hstep hacked)
    (fun _ _ _ h hstep hd => ackedFirst_of_durable h hstep hd) (Kept.initial records) labels

/-- The delivery of one write fails and is logged; the retry truncates the log,
and the process dies before it sends. -/
def crashInRetry : List Label :=
  [.start, .read, .callback 1710000000000 oneWrite true, .proceed false,
    .report (oneWrite.json oneNode 1710000000000) false, .proceed true, .read, .truncate,
    .crash]

theorem not_durable_crashInRetry :
    ¬ Always (Main.step oneNode) Main.Durable (Main.initial []) crashInRetry := by
  have hrun : ((exec (Main.step oneNode) (Main.initial []) crashInRetry).map fun s =>
      (s.written, readAll s.wal.content, s.acked, s.dropped.map Prod.fst)) =
        some ({oneWrite.json oneNode 1710000000000}, [], 0, 0) := by
    decide +kernel
  obtain ⟨s, hs, hproj⟩ := Option.map_eq_some_iff.mp hrun
  obtain ⟨hwritten, hrest⟩ := Prod.mk.inj hproj
  obtain ⟨hlog, hrest⟩ := Prod.mk.inj hrest
  obtain ⟨hacked, hdropped⟩ := Prod.mk.inj hrest
  refine not_always_of_exec hs fun hd => ?_
  have hlost := hd (oneWrite.json oneNode 1710000000000) (by simp [hwritten])
  simp [Main.Settled, hlog, hacked, hdropped] at hlost

end Agent
end FileTracker
