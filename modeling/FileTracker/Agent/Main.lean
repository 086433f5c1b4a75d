import FileTracker.Agent.Common
import FileTracker.Agent.Message
import FileTracker.Agent.Wal
import FileTracker.Library.Runs
import Mathlib.Data.Multiset.AddSub

/-!
# The agent's process

`main` of `src/main.cpp` and the producer of `src/kafka_producer.cpp`, as far as
messages are concerned: what is handed to `send`, what librdkafka has accepted,
what its delivery reports say, and what the log holds.  A step is one call ---
of a callback, of `poll` or `flush` serving one delivery report, of the log ---
and a crash can come between any two.

The callbacks are called by `ring_buffer__poll`, `tick` and `flush_all`, here
with any events at all; which events those are is the business of the event
handler and the debouncer.

A message is in one of a few places: in the producer's queue, acknowledged, in
the log, dropped by the size limit, or *in hand* while a block of `main` sends
the records it has read.  `sent`, `acked`, `dropped` and `written` are ghosts
that remember what the program does not.

The log can be written and looked at here, and the first process finds complete records
in it.  `on_fail` does not look at what `append` returns, so that a message would be lost
for which it fails; `Agent.WalWrites` is about appends that fail, and
`Agent.WalRecovery` about a log that ends in a part of a record.
-/

namespace FileTracker
namespace Agent

/-- What `main` is started with: the host name fits the buffer of
`get_hostname`. -/
structure Config where
  hostname : Bytes
  hostname_le : hostname.length ≤ 255
  walMaxBytes : ℕ

/-- What a callback reports: one event, as a delete or an mtime change, or the two
sides of a rename. -/
inductive Source where
  | single (delete : Bool) (evt : FileEvent)
  | rename (old new : FileEvent)

def Source.emission : Source → Emission
  | .single true evt => .delete (buildPath evt)
  | .single false evt => .mtimeChange (buildPath evt)
  | .rename old new => .rename (buildPath old) (buildPath new)

/-- The message `send_event` or `on_rename` builds. -/
def Source.json (cfg : Config) (tsMs : Int64) (src : Source) : Bytes :=
  src.emission.json tsMs cfg.hostname

/-- The two blocks that replay the log. -/
inductive Block where
  | startup
  | retry
  deriving DecidableEq, Repr

/-- Where `main` stands. -/
inductive Pc where
  /-- `read_all` of a replay block is next. -/
  | read (block : Block)
  | truncate (block : Block) (records : List Bytes)
  /-- These records are still to be sent. -/
  | resend (block : Block) (records : List Bytes)
  /-- The `flush` at the end of a replay block. -/
  | flush (block : Block)
  /-- `ring_buffer__poll` and `tick`. -/
  | events
  /-- `kafka.poll(0)`. -/
  | poll
  /-- `flush_all`. -/
  | drain
  /-- `kafka.flush(15000)`. -/
  | finalFlush
  /-- The destructor of the producer. -/
  | destroy
  | exited

/-- Delivery reports are served here. -/
def Pc.serves : Pc → Bool
  | .flush _ | .poll | .finalFlush | .destroy => true
  | _ => false

/-- Callbacks are called here. -/
def Pc.calls : Pc → Bool
  | .events | .drain => true
  | _ => false

/-- A replay block is running. -/
def Pc.inReplay : Pc → Bool
  | .read _ | .truncate _ _ | .resend _ _ | .flush _ => true
  | _ => false

/-- The process with its log and its producer, and the ghosts. -/
structure Main where
  pc : Pc
  wal : Wal
  queue : Multiset Bytes
  sent : Multiset Bytes
  acked : Multiset Bytes
  dropped : Multiset (Bytes × ℕ)
  written : Multiset Bytes

/-- A call and its outcome. -/
inductive Label where
  /-- A callback, and whether librdkafka accepts its message. -/
  | callback (tsMs : Int64) (src : Source) (accepted : Bool)
  /-- A delivery report. -/
  | report (json : Bytes) (ok : Bool)
  | read
  | truncate
  /-- The next record in hand is sent. -/
  | resend (accepted : Bool)
  /-- On to what follows; behind `poll` the retry interval has passed or not. -/
  | proceed (retry : Bool)
  /-- The loop is left. -/
  | stop
  | crash
  | start

/-- No process runs, and the log holds complete records. -/
def Main.initial (records : List Record) : Main where
  pc := .exited
  wal := ⟨records.flatMap fun r => encodeRecord r.data, true, 0⟩
  queue := 0
  sent := 0
  acked := 0
  dropped := 0
  written := records.map Record.data

section Steps

variable (cfg : Config)

/-- `on_fail`, with a log that can be written and looked at. -/
def Main.onFail (s : Main) (json : Bytes) : Main :=
  if s.wal.fileSize < cfg.walMaxBytes then
    let r := s.wal.append json .ok
    { s with wal := r.2, written := if r.1 then json ::ₘ s.written else s.written }
  else { s with dropped := (json, s.wal.fileSize) ::ₘ s.dropped }

/-- `KafkaProducer::send`. -/
def Main.send (s : Main) (json : Bytes) (accepted : Bool) : Main :=
  if accepted then { s with queue := json ::ₘ s.queue } else s.onFail cfg json

/-- `dr_msg_cb`. -/
def Main.report (s : Main) (json : Bytes) (ok : Bool) : Main :=
  let t := { s with queue := s.queue.erase json }
  if ok then { t with acked := json ::ₘ t.acked } else t.onFail cfg json

/-- One call.  A process leaves the destructor when every message has had its
report. -/
def Main.step (s : Main) : Label → Option Main
  | .callback tsMs src accepted =>
    if s.pc.calls then
      let json := src.json cfg tsMs
      some ({ s with sent := json ::ₘ s.sent }.send cfg json accepted)
    else none
  | .report json ok =>
    if s.pc.serves ∧ json ∈ s.queue then some (s.report cfg json ok) else none
  | .read =>
    match s.pc with
    | .read block =>
      let records := readAll s.wal.content
      if records = [] then some { s with pc := .events }
      else some { s with pc := .truncate block records }
    | _ => none
  | .truncate =>
    match s.pc with
    | .truncate block records =>
      some { s with wal := s.wal.truncate .both, pc := .resend block records }
    | _ => none
  | .resend accepted =>
    match s.pc with
    | .resend block (json :: records) =>
      some ({ s with pc := .resend block records }.send cfg json accepted)
    | _ => none
  | .proceed retry =>
    match s.pc with
    | .resend block [] => some { s with pc := .flush block }
    | .flush _ => some { s with pc := .events }
    | .events => some { s with pc := .poll }
    | .poll =>
      if retry ∧ 0 < s.wal.fileSize then some { s with pc := .read .retry }
      else some { s with pc := .events }
    | .drain => some { s with pc := .finalFlush }
    | .finalFlush => some { s with pc := .destroy }
    | .destroy => if s.queue = 0 then some { s with pc := .exited } else none
    | _ => none
  | .stop =>
    match s.pc with
    | .events => some { s with pc := .drain }
    | _ => none
  | .crash =>
    match s.pc with
    | .exited => none
    | _ => some { s with pc := .exited, queue := 0 }
  | .start =>
    match s.pc with
    | .exited => some { s with pc := .read .startup, wal := ⟨s.wal.content, true, 0⟩ }
    | _ => none

end Steps

/-! ## Messages fit a record -/

theorem Source.pathLength_le (src : Source) : src.emission.pathLength ≤ 2 * maxPath := by
  cases src with
  | single delete evt =>
    have h := length_buildPath_le evt
    cases delete <;> simp only [Source.emission, Emission.pathLength] <;> omega
  | rename old new =>
    have hold := length_buildPath_le old
    have hnew := length_buildPath_le new
    simp only [Source.emission, Emission.pathLength]
    omega

/-- **No message is too long for the log**, however its strings escape. -/
theorem Source.length_json_le (cfg : Config) (tsMs : Int64) (src : Source) :
    (src.json cfg tsMs).length ≤ maxRecord := by
  have hjson := src.emission.length_json_le tsMs cfg.hostname
  have hpath := src.pathLength_le
  have hhost := cfg.hostname_le
  have hmax : 6 * (2 * maxPath + 255) + 128 ≤ maxRecord := by decide
  unfold Source.json
  omega

/-! ## What the calls do to the log -/

/-- The records in the log. -/
def Main.logged (s : Main) : List Bytes := readAll s.wal.content

/-- The records a replay block has read and not sent yet. -/
def Main.inHand (s : Main) : List Bytes :=
  match s.pc with
  | .resend _ records => records
  | _ => []

/-- The log is open and holds complete records, and everything that may come to
it fits. -/
structure Main.Sound (s : Main) : Prop where
  opened : s.wal.opened = true
  content : s.wal.content = s.logged.flatMap encodeRecord
  logged_le : ∀ r ∈ s.logged, r.length ≤ maxRecord
  queue_le : ∀ r ∈ s.queue, r.length ≤ maxRecord
  inHand_le : ∀ r ∈ s.inHand, r.length ≤ maxRecord
  reading : ∀ block records, s.pc = .truncate block records → records = s.logged

theorem Main.Sound.readAll_append {s : Main} (h : s.Sound) {json : Bytes}
    (hjson : json.length ≤ maxRecord) :
    readAll (s.wal.content ++ encodeRecord json) = s.logged ++ [json] := by
  have hone : ∀ r ∈ [json], r.length ≤ maxRecord := by simpa using hjson
  rw [h.content, ← readAll_encoded hone]
  simpa using readAll_flatMap h.logged_le (encodeRecord json)

/-- What `on_fail` does with a message: it is logged, or dropped because the log
has reached its limit. -/
inductive Main.Failed (cfg : Config) (s : Main) (json : Bytes) : Main → Prop where
  | logged (w : Wal) (opened : w.opened = true)
      (content : w.content = s.wal.content ++ encodeRecord json) :
      Failed cfg s json { s with wal := w, written := json ::ₘ s.written }
  | dropped (full : cfg.walMaxBytes ≤ s.wal.fileSize) :
      Failed cfg s json { s with dropped := (json, s.wal.fileSize) ::ₘ s.dropped }

theorem failed_onFail (cfg : Config) {s : Main} (h : s.wal.opened = true) (json : Bytes) :
    s.Failed cfg json (s.onFail cfg json) := by
  unfold Main.onFail
  split_ifs with hlimit
  · simp only [Wal.append, h, if_true]
    exact .logged _ rfl rfl
  · exact .dropped (Nat.not_lt.mp hlimit)

theorem Main.Sound.failed {cfg : Config} {s t : Main} {json : Bytes} (h : s.Sound)
    (hjson : json.length ≤ maxRecord) (hpc : ∀ block records, s.pc ≠ .truncate block records)
    (hf : s.Failed cfg json t) : t.Sound := by
  cases hf with
  | logged w opened content =>
    have hread : readAll w.content = s.logged ++ [json] := by
      rw [content, h.readAll_append hjson]
    refine ⟨opened, ?_, fun r hr => ?_, h.queue_le, h.inHand_le,
      fun b rs heq => absurd heq (hpc b rs)⟩
    · rw [Main.logged, hread, content, List.flatMap_append, ← h.content]
      simp
    · rw [Main.logged, hread] at hr
      rcases List.mem_append.mp hr with hr | hr
      · exact h.logged_le r hr
      · rwa [List.mem_singleton.mp hr]
  | dropped full => exact ⟨h.opened, h.content, h.logged_le, h.queue_le, h.inHand_le, h.reading⟩

theorem Main.Sound.send {cfg : Config} {s : Main} {json : Bytes} (h : s.Sound)
    (hjson : json.length ≤ maxRecord) (hpc : ∀ block records, s.pc ≠ .truncate block records)
    (accepted : Bool) : (s.send cfg json accepted).Sound := by
  unfold Main.send
  split_ifs
  · refine ⟨h.opened, h.content, h.logged_le, fun r hr => ?_, h.inHand_le, h.reading⟩
    rcases Multiset.mem_cons.mp hr with rfl | hr
    · exact hjson
    · exact h.queue_le r hr
  · exact h.failed hjson hpc (failed_onFail cfg h.opened json)

/-- The log holds what the list says. -/
theorem Main.Sound.of_records {records : List Bytes} (h : ∀ r ∈ records, r.length ≤ maxRecord)
    {content : Bytes} (hc : content = records.flatMap encodeRecord) :
    content = (readAll content).flatMap encodeRecord ∧
      ∀ r ∈ readAll content, r.length ≤ maxRecord := by
  rw [hc, readAll_encoded h]
  exact ⟨rfl, h⟩

theorem Main.Sound.initial (records : List Record) : (Main.initial records).Sound := by
  have hle : ∀ r ∈ records.map Record.data, r.length ≤ maxRecord :=
    List.forall_mem_map.mpr fun r _ => r.length_le
  have hflat : (records.flatMap fun r => encodeRecord r.data) =
      (records.map Record.data).flatMap encodeRecord := (List.flatMap_map ..).symm
  obtain ⟨hcontent, hlogged⟩ := Main.Sound.of_records hle hflat
  exact ⟨rfl, hcontent, hlogged, by simp [Main.initial], by simp [Main.initial, Main.inHand],
    by simp [Main.initial]⟩

/-- What a call does.  The calls that only go on are one case: nothing is in hand
before and after, and no records have just been read. -/
inductive Main.Moves (cfg : Config) (s : Main) : Label → Main → Prop where
  | callback (tsMs : Int64) (src : Source) (accepted : Bool) (hpc : s.pc.calls = true) :
      Moves cfg s (.callback tsMs src accepted)
        ({ s with sent := src.json cfg tsMs ::ₘ s.sent }.send cfg (src.json cfg tsMs) accepted)
  | report (json : Bytes) (ok : Bool) (hpc : s.pc.serves = true) (hmem : json ∈ s.queue) :
      Moves cfg s (.report json ok) (s.report cfg json ok)
  | read (block : Block) (hpc : s.pc = .read block) :
      Moves cfg s .read { s with pc := .truncate block s.logged }
  | truncate (block : Block) (records : List Bytes) (hpc : s.pc = .truncate block records) :
      Moves cfg s .truncate { s with wal := s.wal.truncate .both, pc := .resend block records }
  | resend (block : Block) (json : Bytes) (records : List Bytes) (accepted : Bool)
      (hpc : s.pc = .resend block (json :: records)) :
      Moves cfg s (.resend accepted) ({ s with pc := .resend block records }.send cfg json accepted)
  | go (l : Label) (pc : Pc) (hl : l ≠ .truncate) (hin : s.inHand = [])
      (hread : ∀ block records, pc ≠ .truncate block records)
      (hpc : ∀ block records, pc ≠ .resend block records) : Moves cfg s l { s with pc := pc }
  | crash : Moves cfg s .crash { s with pc := .exited, queue := 0 }
  | start (hpc : s.pc = .exited) :
      Moves cfg s .start { s with pc := .read .startup, wal := ⟨s.wal.content, true, 0⟩ }

/-- **The inversion of a step.** -/
theorem Main.moves_of_step {cfg : Config} {s t : Main} {l : Label}
    (h : s.step cfg l = some t) : s.Moves cfg l t := by
  cases l with
  | callback tsMs src accepted =>
    simp only [Main.step] at h
    split_ifs at h with hpc
    exact Option.some.inj h ▸ .callback tsMs src accepted hpc
  | report json ok =>
    simp only [Main.step] at h
    split_ifs at h with hserves
    exact Option.some.inj h ▸ .report json ok hserves.1 hserves.2
  | read =>
    simp only [Main.step] at h
    split at h
    · rename_i block hpc
      split_ifs at h
      · exact Option.some.inj h ▸
          .go _ _ (by simp) (by rw [Main.inHand, hpc]) (by simp) (by simp)
      · exact Option.some.inj h ▸ .read block hpc
    · simp at h
  | truncate =>
    simp only [Main.step] at h
    split at h
    · rename_i block records hpc
      exact Option.some.inj h ▸ .truncate block records hpc
    · simp at h
  | resend accepted =>
    simp only [Main.step] at h
    split at h
    · rename_i block json records hpc
      exact Option.some.inj h ▸ .resend block json records accepted hpc
    · simp at h
  | proceed retry =>
    have hin : s.inHand = [] := by
      unfold Main.inHand
      simp only [Main.step] at h
      split at h <;> simp_all
    simp only [Main.step] at h
    split at h <;> try split_ifs at h
    all_goals
      try simp at h
    all_goals
      subst h
      exact .go _ _ (by simp) hin (by simp) (by simp)
  | stop =>
    simp only [Main.step] at h
    split at h
    · rename_i hpc
      exact Option.some.inj h ▸
        .go _ _ (by simp) (by rw [Main.inHand, hpc]) (by simp) (by simp)
    · simp at h
  | crash =>
    simp only [Main.step] at h
    split at h
    · simp at h
    · exact Option.some.inj h ▸ .crash
  | start =>
    simp only [Main.step] at h
    split at h
    · rename_i hpc
      exact Option.some.inj h ▸ .start hpc
    · simp at h

/-- What is in the queue is still sound when a message has left it. -/
theorem Main.Sound.erase {s : Main} (h : s.Sound) (json : Bytes) :
    ({ s with queue := s.queue.erase json } : Main).Sound :=
  ⟨h.opened, h.content, h.logged_le, fun r hr => h.queue_le r (Multiset.mem_of_mem_erase hr),
    h.inHand_le, h.reading⟩

/-- The ghost `sent` is nothing the log or the producer knows. -/
theorem Main.Sound.sent {s : Main} (h : s.Sound) (sent : Multiset Bytes) :
    ({ s with sent := sent } : Main).Sound :=
  ⟨h.opened, h.content, h.logged_le, h.queue_le, h.inHand_le, h.reading⟩

/-- The next record in hand fits, and so do the others. -/
theorem Main.Sound.next {s : Main} (h : s.Sound) {block : Block} {json : Bytes}
    {records : List Bytes} (hpc : s.pc = .resend block (json :: records)) :
    json.length ≤ maxRecord ∧ ({ s with pc := .resend block records } : Main).Sound := by
  have hin := h.inHand_le
  rw [Main.inHand, hpc] at hin
  exact ⟨hin json List.mem_cons_self, h.opened, h.content, h.logged_le, h.queue_le,
    fun r hr => hin r (List.mem_cons_of_mem _ hr), by simp⟩

/-- **Every call keeps the log and the producer sound.** -/
theorem Main.Sound.step {cfg : Config} {s t : Main} {l : Label} (h : s.Sound)
    (hstep : s.step cfg l = some t) : t.Sound := by
  cases Main.moves_of_step hstep with
  | callback tsMs src accepted hpc =>
    refine (h.sent _).send (src.length_json_le cfg tsMs) (fun b rs heq => ?_) accepted
    rw [show s.pc = .truncate b rs from heq] at hpc
    simp [Pc.calls] at hpc
  | report json ok hpc hmem =>
    have herase := h.erase json
    unfold Main.report
    split_ifs
    · exact ⟨h.opened, h.content, h.logged_le, herase.queue_le, h.inHand_le, h.reading⟩
    · refine herase.failed (h.queue_le json hmem) (fun b rs heq => ?_)
        (failed_onFail cfg herase.opened json)
      rw [show s.pc = .truncate b rs from heq] at hpc
      simp [Pc.serves] at hpc
  | read block hpc =>
    refine ⟨h.opened, h.content, h.logged_le, h.queue_le, by simp [Main.inHand], ?_⟩
    rintro b rs heq
    exact (Pc.truncate.inj heq).2.symm
  | truncate block records hpc =>
    have hreading := h.reading block records hpc
    refine ⟨rfl, rfl, by simp [Main.logged, Wal.truncate], h.queue_le, ?_, by simp⟩
    rw [show Main.inHand _ = records from rfl, hreading]
    exact h.logged_le
  | resend block json records accepted hpc =>
    obtain ⟨hjson, hs⟩ := h.next hpc
    exact hs.send hjson (by simp) accepted
  | go _ pc _ hin hread hresend =>
    refine ⟨h.opened, h.content, h.logged_le, h.queue_le, ?_, fun b rs heq => ?_⟩
    · cases pc with
      | resend b rs => exact absurd rfl (hresend b rs)
      | _ => simp [Main.inHand]
    · exact absurd heq (hread b rs)
  | crash => exact ⟨h.opened, h.content, h.logged_le, by simp, by simp [Main.inHand], by simp⟩
  | start hpc => exact ⟨rfl, h.content, h.logged_le, h.queue_le, by simp [Main.inHand], by simp⟩

end Agent
end FileTracker
