import FileTracker.Agent.Main
import Mathlib.Tactic.Abel

/-!
# No event is lost or doubled without a crash

Every message the callbacks hand to `send`, and every record the log held at the
start, is in exactly one place: acknowledged, in the producer's queue, in the
log, dropped, or in hand.  The places partition a multiset, so a step lemma that
moves one message from one place to another is all there is to prove --- also
where a failed delivery writes into the log that the running replay has just
truncated.
-/

namespace FileTracker
namespace Agent

open Runs

/-- All messages, by the place they are in. -/
def Main.account (s : Main) : Multiset Bytes :=
  s.acked + s.queue + s.logged + s.dropped.map Prod.fst + s.inHand

/-- A message is dropped only when the log has reached its limit. -/
def Main.DroppedFull (cfg : Config) (s : Main) : Prop :=
  ∀ d ∈ s.dropped, cfg.walMaxBytes ≤ d.2

/-- What is conserved: `held` is what the log held at the start. -/
structure Conserved (cfg : Config) (held : Multiset Bytes) (s : Main) : Prop where
  sound : s.Sound
  balance : s.sent + held = s.account
  full : s.DroppedFull cfg

variable {cfg : Config}

theorem Main.account_failed {s t : Main} {json : Bytes} (h : s.Sound)
    (hjson : json.length ≤ maxRecord) (hf : s.Failed cfg json t) :
    t.sent = s.sent ∧ t.account = json ::ₘ s.account := by
  refine ⟨by cases hf <;> rfl, ?_⟩
  cases hf with
  | logged w opened content =>
    have hread : readAll w.content = s.logged ++ [json] := by
      rw [content, h.readAll_append hjson]
    simp only [Main.account, Main.logged, Main.inHand, hread, ← Multiset.coe_add,
      ← Multiset.singleton_add, Multiset.coe_singleton]
    abel
  | dropped full =>
    rw [Main.account, Main.account, Multiset.map_cons]
    simp only [Main.logged, Main.inHand, ← Multiset.singleton_add]
    abel

theorem Main.DroppedFull.failed {s t : Main} {json : Bytes} (h : s.DroppedFull cfg)
    (hf : s.Failed cfg json t) : t.DroppedFull cfg := by
  cases hf with
  | logged w opened content => exact h
  | dropped full =>
    intro d hd
    rcases Multiset.mem_cons.mp hd with rfl | hd
    · exact full
    · exact h d hd

theorem Main.account_queue (s : Main) (json : Bytes) (queue : Multiset Bytes) :
    ({ s with queue := json ::ₘ queue } : Main).account =
      json ::ₘ ({ s with queue := queue } : Main).account := by
  simp only [Main.account, Main.logged, Main.inHand, ← Multiset.singleton_add]
  abel

theorem Main.account_acked (s : Main) (json : Bytes) :
    ({ s with acked := json ::ₘ s.acked } : Main).account = json ::ₘ s.account := by
  simp only [Main.account, Main.logged, Main.inHand, ← Multiset.singleton_add]
  abel

/-- `send` puts the message somewhere. -/
theorem Main.account_send (cfg : Config) {s : Main} {json : Bytes} (h : s.Sound)
    (hjson : json.length ≤ maxRecord) (accepted : Bool) :
    (s.send cfg json accepted).sent = s.sent ∧
      (s.send cfg json accepted).account = json ::ₘ s.account := by
  unfold Main.send
  split_ifs
  · exact ⟨rfl, s.account_queue json s.queue⟩
  · exact Main.account_failed h hjson (failed_onFail cfg h.opened json)

/-- A delivery report moves the message out of the queue. -/
theorem Main.account_report (cfg : Config) {s : Main} {json : Bytes} (h : s.Sound)
    (hmem : json ∈ s.queue) (ok : Bool) :
    (s.report cfg json ok).sent = s.sent ∧ (s.report cfg json ok).account = s.account := by
  have hs := h.erase json
  have herase : json ::ₘ ({ s with queue := s.queue.erase json } : Main).account = s.account := by
    rw [← Main.account_queue, Multiset.cons_erase hmem]
  unfold Main.report
  split_ifs
  · exact ⟨rfl, (Main.account_acked _ json).trans herase⟩
  · obtain ⟨hsent, haccount⟩ :=
      Main.account_failed hs (h.queue_le json hmem) (failed_onFail cfg hs.opened json)
    exact ⟨hsent, haccount.trans herase⟩

/-- Where nothing is in hand before and after, only the places matter. -/
theorem Main.account_of_pc {s : Main} (hin : s.inHand = []) {pc : Pc}
    (hpc : ∀ block records, pc ≠ .resend block records) :
    ({ s with pc := pc } : Main).account = s.account := by
  have hpc' : ({ s with pc := pc } : Main).inHand = [] := by
    cases pc with
    | resend block records => exact absurd rfl (hpc block records)
    | _ => rfl
  rw [Main.account, Main.account, hin, hpc']
  rfl

theorem Main.DroppedFull.send {s : Main} {json : Bytes} (h : s.DroppedFull cfg)
    (ho : s.wal.opened = true) (accepted : Bool) : (s.send cfg json accepted).DroppedFull cfg := by
  unfold Main.send
  split_ifs
  · exact h
  · exact h.failed (failed_onFail cfg ho json)

theorem Main.DroppedFull.report {s : Main} {json : Bytes} (h : s.DroppedFull cfg)
    (ho : s.wal.opened = true) (ok : Bool) : (s.report cfg json ok).DroppedFull cfg := by
  unfold Main.report
  split_ifs
  · exact h
  · exact Main.DroppedFull.failed (s := { s with queue := s.queue.erase json }) h
      (failed_onFail cfg (s := { s with queue := s.queue.erase json }) ho json)

/-- **One call moves messages, and loses and doubles none.** -/
theorem Conserved.step {held : Multiset Bytes} {s t : Main} {l : Label}
    (h : Conserved cfg held s) (hl : l ≠ .crash) (hstep : s.step cfg l = some t) :
    Conserved cfg held t := by
  have hsound := h.sound
  have hbalance := h.balance
  suffices hsuff : t.sent + held = t.account ∧ t.DroppedFull cfg from
    ⟨hsound.step hstep, hsuff.1, hsuff.2⟩
  cases Main.moves_of_step hstep with
  | callback tsMs src accepted hpc =>
    have hs := hsound.sent (src.json cfg tsMs ::ₘ s.sent)
    obtain ⟨hsent, haccount⟩ := Main.account_send cfg hs (src.length_json_le cfg tsMs) accepted
    refine ⟨?_, Main.DroppedFull.send (s := { s with sent := src.json cfg tsMs ::ₘ s.sent })
      h.full hsound.opened accepted⟩
    rw [hsent, haccount, Multiset.cons_add, hbalance]
    rfl
  | report json ok hpc hmem =>
    obtain ⟨hsent, haccount⟩ := Main.account_report cfg hsound hmem ok
    exact ⟨by rw [hsent, haccount, hbalance], h.full.report hsound.opened ok⟩
  | read block hpc =>
    have hin : s.inHand = [] := by rw [Main.inHand, hpc]
    exact ⟨hbalance.trans (Main.account_of_pc hin (by simp)).symm, h.full⟩
  | truncate block records hpc =>
    -- the records go from the log to the hand
    refine ⟨hbalance.trans ?_, h.full⟩
    have hreading := hsound.reading block records hpc
    have hin : s.inHand = [] := by rw [Main.inHand, hpc]
    have hlogged : ({ s with wal := s.wal.truncate .both, pc := .resend block records } :
        Main).logged = [] := rfl
    have hin' : ({ s with wal := s.wal.truncate .both, pc := .resend block records } :
        Main).inHand = records := rfl
    rw [Main.account, Main.account, hin, hlogged, hin', hreading]
    simp only [Multiset.coe_nil, add_zero]
    abel
  | resend block json records accepted hpc =>
    have hin : s.inHand = json :: records := by rw [Main.inHand, hpc]
    obtain ⟨hjson, hs⟩ := hsound.next hpc
    obtain ⟨hsent, haccount⟩ := Main.account_send cfg hs hjson accepted
    refine ⟨?_, Main.DroppedFull.send (s := { s with pc := .resend block records })
      h.full hsound.opened accepted⟩
    rw [hsent, haccount]
    refine hbalance.trans ?_
    rw [Main.account, hin, ← Multiset.cons_coe, Multiset.add_cons]
    rfl
  | go _ pc _ hin hread hresend =>
    exact ⟨hbalance.trans (Main.account_of_pc hin hresend).symm, h.full⟩
  | crash => exact absurd rfl hl
  | start hpc =>
    have hin : s.inHand = [] := by rw [Main.inHand, hpc]
    refine ⟨hbalance.trans ?_, h.full⟩
    rw [Main.account, hin]
    rfl

theorem Conserved.initial (cfg : Config) (records : List Record) :
    Conserved cfg (records.map Record.data : List Bytes) (Main.initial records) where
  sound := Main.Sound.initial records
  balance := by
    have hle : ∀ r ∈ records.map Record.data, r.length ≤ maxRecord :=
      List.forall_mem_map.mpr fun r _ => r.length_le
    have hlogged : (Main.initial records).logged = records.map Record.data := by
      rw [Main.logged, ← readAll_encoded hle, List.flatMap_map]
      rfl
    have hin : (Main.initial records).inHand = [] := rfl
    rw [Main.account, hlogged, hin]
    simp [Main.initial]
  full := by simp [Main.DroppedFull, Main.initial]

/-- What is conserved along a run without a crash. -/
theorem Conserved.exec {records : List Record} {labels : List Label} {s : Main}
    (hcrash : Label.crash ∉ labels)
    (hrun : Runs.exec (Main.step cfg) (Main.initial records) labels = some s) :
    Conserved cfg (records.map Record.data : List Bytes) s := by
  refine exec_invariant (P := Conserved cfg (records.map Record.data : List Bytes))
    (fun u v l hl hu hstep => hu.step ?_ hstep) (Conserved.initial cfg records) hrun
  rintro rfl
  exact hcrash hl

/-- Outside the replay blocks nothing is in hand. -/
theorem Main.inHand_eq_nil {s : Main} (h : s.pc.inReplay = false) : s.inHand = [] := by
  unfold Main.inHand
  split
  · rename_i hpc
    simp [hpc, Pc.inReplay] at h
  · rfl

/-- **Conservation.**  In a run without a crash, from a log of complete records,
the messages handed to `send` and the records the log held are, outside the
replay blocks, exactly those acknowledged, those in the producer's queue, those
`read_all` would return, and those dropped --- and a message was dropped only
when the log had reached its limit. -/
theorem conservation (cfg : Config) (records : List Record) (labels : List Label) (s : Main)
    (hcrash : Label.crash ∉ labels)
    (hrun : exec (Main.step cfg) (Main.initial records) labels = some s)
    (hpc : s.pc.inReplay = false) :
    s.sent + (records.map Record.data : List Bytes) =
        s.acked + s.queue + (readAll s.wal.content : List Bytes) + s.dropped.map Prod.fst ∧
      ∀ d ∈ s.dropped, cfg.walMaxBytes ≤ d.2 := by
  have h := Conserved.exec hcrash hrun
  refine ⟨?_, h.full⟩
  rw [h.balance, Main.account, Main.inHand_eq_nil hpc, Multiset.coe_nil, add_zero]
  rfl

/-! ## A run -/

/-- One write on `node-001`. -/
def oneNode : Config := ⟨ascii "node-001", by decide, 1048576⟩

def oneWrite : Source :=
  .single false ⟨⟨[ascii "a.txt", ascii "home"], by decide, by decide +kernel⟩, .mtime⟩

/-- The delivery fails, the retry delivers the record from the log. -/
def failedThenRetried : List Label :=
  [.start, .read, .callback 1710000000000 oneWrite true, .proceed false,
    .report (oneWrite.json oneNode 1710000000000) false, .proceed true, .read, .truncate,
    .resend true, .proceed false, .report (oneWrite.json oneNode 1710000000000) true,
    .proceed false]

theorem conservation_failedThenRetried :
    ∃ s, exec (Main.step oneNode) (Main.initial []) failedThenRetried = some s ∧
      s.sent + ([].map Record.data : List Bytes) =
        s.acked + s.queue + (readAll s.wal.content : List Bytes) + s.dropped.map Prod.fst ∧
      ∀ d ∈ s.dropped, oneNode.walMaxBytes ≤ d.2 := by
  have hrun : ((exec (Main.step oneNode) (Main.initial []) failedThenRetried).map
      fun s => s.pc.inReplay) = some false := by
    decide +kernel
  obtain ⟨s, hs, hpc⟩ := Option.map_eq_some_iff.mp hrun
  exact ⟨s, hs, conservation oneNode [] failedThenRetried s (by simp [failedThenRetried]) hs hpc⟩

end Agent
end FileTracker
