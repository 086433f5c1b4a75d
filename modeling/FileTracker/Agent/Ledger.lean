import FileTracker.Agent.Delivery

/-!
# What the statistics say

The counters `kafka_sent`, `kafka_failed` and `wal_replayed` are never reset in the life of
a process, and `main` prints them every minute and at the end.  `ledger_of_run` says what
the numbers mean, at any point of a life without a crash, while the log can be written:
every message handed over and every record replayed has failed, or is acknowledged, or is
in the producer's queue; and every record that the log has gained or lost since the start
is a failure, a replay, or a drop.

The size of the log is the other number they print.  The limit is looked at before a record
is written, so a log that can be looked at may pass it, but by less than one record
(`fileSize_le_of_run`), in any run, crashes included.
-/

namespace FileTracker
namespace Agent

open Runs

variable {cfg : Config}

/-! ## The counts of a message -/

/-- `on_fail` logs the message or drops it, and does nothing else. -/
theorem counts_failed {s t : Main} (h : s.Sound) {json : Bytes} (hjson : json.length ≤ maxRecord)
    (hf : s.Failed cfg json t) :
    t.queue = s.queue ∧ t.acked = s.acked ∧ t.inHand = s.inHand ∧
      t.logged.length + t.dropped.card = s.logged.length + s.dropped.card + 1 := by
  cases hf with
  | logged w opened content =>
    refine ⟨rfl, rfl, rfl, ?_⟩
    have hread : readAll w.content = s.logged ++ [json] := by
      rw [content, h.readAll_append hjson]
    simp only [Main.logged, hread, List.length_append, List.length_singleton]
    omega
  | dropped full =>
    refine ⟨rfl, rfl, rfl, ?_⟩
    simp only [Main.logged, Multiset.card_cons]
    omega

/-- `send` queues the message, or fails. -/
theorem counts_send (cfg : Config) {s : Main} (h : s.Sound) {json : Bytes}
    (hjson : json.length ≤ maxRecord) (accepted : Bool) :
    (s.send cfg json accepted).acked = s.acked ∧ (s.send cfg json accepted).inHand = s.inHand ∧
      (s.send cfg json accepted).queue.card = s.queue.card + (if accepted then 1 else 0) ∧
      (s.send cfg json accepted).logged.length + (s.send cfg json accepted).dropped.card =
        s.logged.length + s.dropped.card + (if accepted then 0 else 1) := by
  unfold Main.send
  split_ifs with haccepted
  · exact ⟨rfl, rfl, Multiset.card_cons _ _, rfl⟩
  · obtain ⟨hqueue, hacked, hin, hlog⟩ := counts_failed h hjson (failed_onFail cfg h.opened json)
    exact ⟨hacked, hin, by rw [hqueue, add_zero], hlog⟩

/-- A delivery report acknowledges the message, or it has failed. -/
theorem counts_report (cfg : Config) {s : Main} (h : s.Sound) {json : Bytes}
    (hmem : json ∈ s.queue) (ok : Bool) :
    (s.report cfg json ok).inHand = s.inHand ∧
      (s.report cfg json ok).queue.card + 1 = s.queue.card ∧
      (s.report cfg json ok).acked.card = s.acked.card + (if ok then 1 else 0) ∧
      (s.report cfg json ok).logged.length + (s.report cfg json ok).dropped.card =
        s.logged.length + s.dropped.card + (if ok then 0 else 1) := by
  have hcard : (s.queue.erase json).card + 1 = s.queue.card := Multiset.card_erase_add_one hmem
  unfold Main.report
  split_ifs with hok
  · exact ⟨rfl, hcard, Multiset.card_cons _ _, rfl⟩
  · have herase := h.erase json
    obtain ⟨hqueue, hacked, hin, hlog⟩ := counts_failed herase (h.queue_le json hmem)
      (failed_onFail cfg herase.opened json)
    exact ⟨hin, by rw [hqueue]; exact hcard, by rw [hacked, add_zero], hlog⟩

/-! ## The counters -/

/-- What the messages handed over and the records replayed exceed the failures, the
acknowledged messages and the queue by. -/
def Process.unsettled (s : Process) : ℤ :=
  s.main.sent.card + s.walReplayed - s.kafkaFailed - s.main.acked.card - s.main.queue.card

/-- What the records in the log and in hand, the drops and the replays exceed the failures
by. -/
def Process.stored (s : Process) : ℤ :=
  s.main.logged.length + s.main.inHand.length + s.main.dropped.card + s.walReplayed -
    s.kafkaFailed

/-- The callbacks whose message was not accepted. -/
def Process.refused (s : Process) : ℤ := s.main.sent.card - s.kafkaSent

/-- What the counters keep from one state to a later one. -/
structure Process.Tallies (s t : Process) : Prop where
  unsettled : t.unsettled = s.unsettled
  stored : t.stored = s.stored
  refused : s.refused ≤ t.refused
  failed : t.refused - t.kafkaFailed ≤ s.refused - s.kafkaFailed

theorem Process.Tallies.refl (s : Process) : s.Tallies s := ⟨rfl, rfl, le_rfl, le_rfl⟩

theorem Process.Tallies.trans {s t u : Process} (h : s.Tallies t) (k : t.Tallies u) :
    s.Tallies u :=
  ⟨k.unsettled.trans h.unsettled, k.stored.trans h.stored, h.refused.trans k.refused,
    k.failed.trans h.failed⟩

/-- A call that only goes on leaves the counters alone. -/
theorem book_counters (cfg : ProcessConfig) (s : Process) {l : Label} (now : ℤ)
    (hstart : l ≠ .start) (hreport : ∀ json ok, l ≠ .report json ok)
    (hresend : ∀ accepted, l ≠ .resend accepted) :
    (s.book cfg now l).kafkaSent = s.kafkaSent ∧ (s.book cfg now l).kafkaFailed = s.kafkaFailed ∧
      (s.book cfg now l).walReplayed = s.walReplayed := by
  unfold Process.book
  cases l with
  | start => exact absurd rfl hstart
  | report json ok => exact absurd rfl (hreport json ok)
  | resend accepted => exact absurd rfl (hresend accepted)
  | read =>
    simp only
    split
    · split_ifs <;> exact ⟨rfl, rfl, rfl⟩
    · exact ⟨rfl, rfl, rfl⟩
  | proceed retry =>
    simp only
    split <;> exact ⟨rfl, rfl, rfl⟩
  | _ => exact ⟨rfl, rfl, rfl⟩

/-- Nothing is counted where only the place of `main` changes. -/
theorem Process.Tallies.of_pc {s t : Process} {pc : Pc} (hin : s.main.inHand = [])
    (hpc : ∀ block records, pc ≠ .resend block records) (hmain : t.main = { s.main with pc := pc })
    (hcounters : t.kafkaSent = s.kafkaSent ∧ t.kafkaFailed = s.kafkaFailed ∧
      t.walReplayed = s.walReplayed) : s.Tallies t := by
  obtain ⟨hsends, hfailed, hreplayed⟩ := hcounters
  have hin' : ({ s.main with pc := pc } : Main).inHand = [] := by
    cases pc with
    | resend block records => exact absurd rfl (hpc block records)
    | _ => rfl
  constructor <;>
    simp only [Process.unsettled, Process.stored, Process.refused, hmain, hin, hin', Main.logged,
      hsends, hfailed, hreplayed, le_refl]

/-- A callback hands a message over. -/
theorem tallies_callback {cfg : ProcessConfig} {s t : Process} {tsMs : Int64} {src : Source}
    {accepted : Bool} (h : s.main.Sound)
    (hstep : s.step cfg (.callback tsMs src accepted) = some t) : s.Tallies t := by
  cases Process.moves_of_step hstep with
  | callback _ _ _ todo main _ hmain =>
    simp only [Main.step] at hmain
    split_ifs at hmain
    obtain rfl := Option.some.inj hmain
    have hsound := h.sent (src.json cfg.toConfig tsMs ::ₘ s.main.sent)
    obtain ⟨hacked, hin, hqueue, hlog⟩ := counts_send cfg.toConfig hsound
      (src.length_json_le cfg.toConfig tsMs) accepted
    have hsent := congrArg Multiset.card (send_pc cfg.toConfig
      { s.main with sent := src.json cfg.toConfig tsMs ::ₘ s.main.sent }
      (src.json cfg.toConfig tsMs) accepted).2
    rw [Multiset.card_cons] at hsent
    have hlog : _ = s.main.logged.length + s.main.dropped.card + _ := hlog
    have hqueue : _ = s.main.queue.card + _ := hqueue
    have hacked : _ = s.main.acked := hacked
    have hin : _ = s.main.inHand := hin
    cases accepted <;> constructor <;>
      simp only [Process.unsettled, Process.stored, Process.refused, hsent, hacked, hin, hqueue,
        if_true, if_false, Bool.false_eq_true] at hlog ⊢ <;> push_cast <;> omega

/-- A delivery report settles a message. -/
theorem tallies_report {cfg : ProcessConfig} {s t : Process} {json : Bytes} {ok : Bool} {now : ℤ}
    (h : s.main.Sound) (hstep : s.step cfg (.call (.report json ok) now) = some t) :
    s.Tallies t := by
  cases Process.moves_of_step hstep with
  | call _ _ main _ _ hmain =>
    simp only [Main.step] at hmain
    split_ifs at hmain with hserves
    obtain rfl := Option.some.inj hmain
    obtain ⟨hin, hqueue, hacked, hlog⟩ := counts_report cfg.toConfig h hserves.2 ok
    have hsent := (report_pc cfg.toConfig s.main json ok).2
    cases ok <;> constructor <;>
      simp only [Process.unsettled, Process.stored, Process.refused, Process.book, hsent, hacked,
        hin, if_true, if_false, Bool.false_eq_true] at hlog ⊢ <;> push_cast <;> omega

/-- A record in hand is replayed. -/
theorem tallies_resend {cfg : ProcessConfig} {s t : Process} {accepted : Bool} {now : ℤ}
    (h : s.main.Sound) (hstep : s.step cfg (.call (.resend accepted) now) = some t) :
    s.Tallies t := by
  cases Process.moves_of_step hstep with
  | call _ _ main _ _ hmain =>
    simp only [Main.step] at hmain
    split at hmain
    · rename_i block json records hpc
      obtain rfl := Option.some.inj hmain
      obtain ⟨hjson, hsound⟩ := h.next hpc
      obtain ⟨hacked, hin, hqueue, hlog⟩ := counts_send cfg.toConfig hsound hjson accepted
      have hsent := (send_pc cfg.toConfig { s.main with pc := .resend block records } json
        accepted).2
      have hhand : s.main.inHand.length = records.length + 1 := by
        rw [Main.inHand, hpc, List.length_cons]
      have hin : _ = records := hin
      have hlog : _ = s.main.logged.length + s.main.dropped.card + _ := hlog
      cases accepted <;> constructor <;>
        simp only [Process.unsettled, Process.stored, Process.refused, Process.book, hsent, hacked,
          hin, hqueue, if_true, if_false, Bool.false_eq_true] at hlog ⊢ <;> push_cast <;> omega
    · cases hmain

/-- The records go from the log to the hand. -/
theorem tallies_truncate {cfg : ProcessConfig} {s t : Process} {now : ℤ} (h : s.main.Sound)
    (hstep : s.step cfg (.call .truncate now) = some t) : s.Tallies t := by
  cases Process.moves_of_step hstep with
  | call _ _ main _ _ hmain =>
    simp only [Main.step] at hmain
    split at hmain
    · rename_i block records hpc
      obtain rfl := Option.some.inj hmain
      obtain rfl : records = s.main.logged := h.reading block records hpc
      have hhand : s.main.inHand = [] := by rw [Main.inHand, hpc]
      have hlogged : Main.logged { s.main with
          wal := s.main.wal.truncate .both, pc := .resend block s.main.logged } = [] := rfl
      have hin : Main.inHand { s.main with
          wal := s.main.wal.truncate .both, pc := .resend block s.main.logged } =
            s.main.logged := rfl
      constructor <;>
        simp only [Process.unsettled, Process.stored, Process.refused, Process.book, hhand, hlogged,
          hin, List.length_nil, le_refl]
      omega
    · cases hmain

/-- **One step** in the life of a process keeps the tallies. -/
theorem Process.Tallies.step {cfg : ProcessConfig} {s t : Process} {l : ProcessLabel}
    (h : s.main.Sound) (hstep : s.step cfg l = some t) (halive : l.alive = true)
    (hgoes : l.goesOn = true) : s.Tallies t := by
  have hplace : ∀ {k : Label} {now : ℤ}, s.step cfg (.call k now) = some t → k ≠ .truncate →
      k ≠ .start → k ≠ .crash → (∀ json ok, k ≠ .report json ok) →
      (∀ accepted, k ≠ .resend accepted) → s.Tallies t := by
    intro k now hst htruncate hstart hcrash hreport hresend
    cases Process.moves_of_step hst with
    | call _ _ main _ hpermits hmain =>
      have hcounters := book_counters cfg s now hstart hreport hresend
      cases Main.moves_of_step hmain with
      | callback tsMs src accepted => simp [Process.permits] at hpermits
      | report json ok => exact absurd rfl (hreport json ok)
      | read block hpc => exact .of_pc (by rw [Main.inHand, hpc]) (by simp) rfl hcounters
      | truncate block records => exact absurd rfl htruncate
      | resend block json records accepted => exact absurd rfl (hresend accepted)
      | go _ pc _ hin _ hpc => exact .of_pc hin hpc rfl hcounters
      | crash => exact absurd rfl hcrash
      | start => exact absurd rfl hstart
  cases l with
  | input i =>
    cases Process.moves_of_step hstep with
    | input _ pipe => exact ⟨rfl, rfl, le_rfl, le_rfl⟩
  | callback tsMs src accepted => exact tallies_callback h hstep
  | call k now =>
    cases k with
    | report json ok => exact tallies_report h hstep
    | resend accepted => exact tallies_resend h hstep
    | truncate => exact tallies_truncate h hstep
    | crash => cases halive
    | start => cases hgoes
    | _ => exact hplace hstep (by simp) (by simp) (by simp) (by simp) (by simp)

theorem sound_step {cfg : ProcessConfig} {s t : Process} {l : ProcessLabel} (h : s.main.Sound)
    (hstep : s.step cfg l = some t) : t.main.Sound := by
  cases Process.moves_of_step hstep with
  | input i pipe => exact h
  | callback tsMs src accepted todo main _ hmain => exact h.step hmain
  | call k now main _ _ hmain => exact h.step hmain

/-- A process that does not run has nothing queued, however it has come to its end. -/
theorem served_of_step {cfg : ProcessConfig} {s t : Process} {l : ProcessLabel}
    (h : s.main.pc = .exited → s.main.queue = 0) (hstep : s.step cfg l = some t) :
    t.main.pc = .exited → t.main.queue = 0 := by
  intro hexited
  cases Process.moves_of_step hstep with
  | input i pipe => exact h hexited
  | callback tsMs src accepted todo main _ hmain =>
    obtain ⟨hcalls, hpc, -⟩ := callback_pc hmain
    rw [← hpc, show main.pc = .exited from hexited] at hcalls
    cases hcalls
  | call k now main _ _ hmain =>
    by_cases hcrash : k.crashes = true
    · obtain rfl : k = .crash := by cases k <;> simp [Label.crashes] at hcrash ⊢
      simp only [Main.step] at hmain
      split at hmain
      · cases hmain
      · obtain rfl := Option.some.inj hmain
        rfl
    · have hover : main.pc.over = true := by
        rw [show main.pc = .exited from hexited]
        rfl
      cases ends_of_over (by simpa using hcrash) hmain hover with
      | drained retry _ _ hpc =>
        rw [show main.pc = .exited from hexited] at hpc
        cases hpc
      | within _ hserved => exact hserved hexited

theorem sound_of_run {cfg : ProcessConfig} {records : List Record} {labels : List ProcessLabel}
    {s : Process} (hrun : exec (Process.step cfg) (.initial cfg records) labels = some s) :
    s.main.Sound ∧ (s.main.pc = .exited → s.main.queue = 0) :=
  exec_invariant (P := fun u => u.main.Sound ∧ (u.main.pc = .exited → u.main.queue = 0))
    (fun _ _ _ _ hu hstep => ⟨sound_step hu.1 hstep, served_of_step hu.2 hstep⟩)
    ⟨.initial records, fun _ => rfl⟩ hrun

theorem Process.Tallies.exec {cfg : ProcessConfig} {s t : Process} {labels : List ProcessLabel}
    (h : s.main.Sound) (hrun : Runs.exec (Process.step cfg) s labels = some t)
    (halive : ∀ l ∈ labels, l.alive = true) (hgoes : ∀ l ∈ labels, l.goesOn = true) :
    s.Tallies t := by
  obtain ⟨-, htallies⟩ := exec_invariant (P := fun u => u.main.Sound ∧ s.Tallies u)
    (fun u v l hl hu hstep => ⟨sound_step hu.1 hstep,
      hu.2.trans (.step hu.1 hstep (halive l hl) (hgoes l hl))⟩) ⟨h, .refl s⟩ hrun
  exact htallies

/-- **The ledger of a life.**  A process has started out of `s` and come to `t` without a
crash.  What it has handed over and replayed has failed, or is acknowledged, or queued; what
has failed is in the log, in hand, dropped or replayed, over and above what the log held; and
a message that `kafka_sent` does not count has failed. -/
theorem ledger_of_run {cfg : ProcessConfig} {records : List Record}
    {before labels : List ProcessLabel} {s t : Process} {now : ℤ}
    (hbefore : exec (Process.step cfg) (.initial cfg records) before = some s)
    (hrun : exec (Process.step cfg) s (.call .start now :: labels) = some t)
    (halive : ∀ l ∈ labels, l.alive = true) (hgoes : ∀ l ∈ labels, l.goesOn = true) :
    t.main.sent.card + t.walReplayed + s.main.acked.card =
        s.main.sent.card + t.kafkaFailed + t.main.acked.card + t.main.queue.card ∧
      s.main.logged.length + s.main.dropped.card + t.kafkaFailed =
        t.main.logged.length + t.main.inHand.length + t.main.dropped.card + t.walReplayed ∧
      s.main.sent.card + t.kafkaSent ≤ t.main.sent.card ∧
      t.main.sent.card ≤ s.main.sent.card + t.kafkaSent + t.kafkaFailed := by
  obtain ⟨hsound, hserved⟩ := sound_of_run hbefore
  rw [exec_cons] at hrun
  obtain ⟨u, hu, hrun⟩ := Option.bind_eq_some_iff.mp hrun
  cases Process.moves_of_step hu with
  | call _ _ main _ _ hmain =>
    have hmain' := hmain
    simp only [Main.step] at hmain
    split at hmain
    · rename_i hpc
      obtain rfl := Option.some.inj hmain
      have hqueue : s.main.queue.card = 0 := by rw [hserved hpc, Multiset.card_zero]
      have htallies := Process.Tallies.exec (hsound.step hmain') hrun halive hgoes
      have hlogged : Main.logged { s.main with
          pc := .read .startup, wal := ⟨s.main.wal.content, true, 0⟩ } = s.main.logged := rfl
      have hin : Main.inHand { s.main with
          pc := .read .startup, wal := ⟨s.main.wal.content, true, 0⟩ } = [] := rfl
      obtain ⟨hunsettled, hstored, hrefused, hfailed⟩ := htallies
      simp only [Process.unsettled, Process.stored, Process.refused, Process.book, hlogged, hin,
        List.length_nil] at hunsettled hstored hrefused hfailed
      omega
    · cases hmain

theorem ledger_of_run_stoppedEarly :
    ∃ t, exec (Process.step oneNodeProcess) (.initial oneNodeProcess [])
        (.call .start 0 :: .call .read 1000000000 ::
          .input (.event oneWriteEvent 1500000000) :: stoppedEarly) = some t ∧
      t.main.sent.card + t.walReplayed =
        t.kafkaFailed + t.main.acked.card + t.main.queue.card := by
  have hrun : (exec (Process.step oneNodeProcess) (.initial oneNodeProcess [])
      (.call .start 0 :: .call .read 1000000000 ::
        .input (.event oneWriteEvent 1500000000) :: stoppedEarly)).isSome := by
    decide +kernel
  obtain ⟨t, ht⟩ := Option.isSome_iff_exists.mp hrun
  have hledger := @ledger_of_run oneNodeProcess [] [] _ _ _ 0 rfl ht (by decide) (by decide)
  have hempty : (Process.initial oneNodeProcess []).main.acked.card = 0 ∧
      (Process.initial oneNodeProcess []).main.sent.card = 0 := ⟨rfl, rfl⟩
  refine ⟨t, ht, ?_⟩
  have hsettled := hledger.1
  rw [hempty.1, hempty.2] at hsettled
  omega

/-! ## The size of the log -/

/-- The longest message an event can make. -/
def longestMessage (cfg : Config) : ℕ := 6 * (2 * maxPath + cfg.hostname.length) + 128

/-- The longest message there can be: one that an event makes, or one in the log at the
start. -/
def longest (cfg : Config) (records : List Record) : ℕ :=
  (records.map fun r => r.data.length).foldr max (longestMessage cfg)

/-- The log is no larger than `size`, and no message that may come to it is longer than
`bound`. -/
structure Main.Within (bound size : ℕ) (s : Main) : Prop where
  sound : s.Sound
  size_le : s.wal.fileSize ≤ size
  logged_le : ∀ r ∈ s.logged, r.length ≤ bound
  queue_le : ∀ r ∈ s.queue, r.length ≤ bound
  inHand_le : ∀ r ∈ s.inHand, r.length ≤ bound

/-- **A record that is written** passes the limit by less than itself. -/
theorem Main.Within.onFail {s : Main} {bound size : ℕ} (h : s.Within bound size)
    (hsize : cfg.walMaxBytes + 7 + bound ≤ size) {json : Bytes} (hjson : json.length ≤ maxRecord)
    (hbound : json.length ≤ bound) (hpc : ∀ block records, s.pc ≠ .truncate block records) :
    (s.onFail cfg json).Within bound size := by
  have hsound := h.sound.failed hjson hpc (failed_onFail cfg h.sound.opened json)
  unfold Main.onFail at hsound ⊢
  split_ifs at hsound ⊢ with hlimit
  · have hwal : (s.wal.append json .ok).2.content = s.wal.content ++ encodeRecord json := by
      simp [Wal.append, h.sound.opened]
    refine ⟨hsound, ?_, fun r hr => ?_, h.queue_le, h.inHand_le⟩
    · simp only [Wal.fileSize] at hlimit ⊢
      rw [hwal, List.length_append, length_encodeRecord hjson]
      omega
    · rw [Main.logged, hwal, h.sound.readAll_append hjson] at hr
      rcases List.mem_append.mp hr with hr | hr
      · exact h.logged_le r hr
      · rwa [List.mem_singleton.mp hr]
  · exact ⟨hsound, h.size_le, h.logged_le, h.queue_le, h.inHand_le⟩

theorem Main.Within.send {s : Main} {bound size : ℕ} (h : s.Within bound size)
    (hsize : cfg.walMaxBytes + 7 + bound ≤ size) {json : Bytes} (hjson : json.length ≤ maxRecord)
    (hbound : json.length ≤ bound) (hpc : ∀ block records, s.pc ≠ .truncate block records)
    (accepted : Bool) : (s.send cfg json accepted).Within bound size := by
  have hsound : (s.send cfg json accepted).Sound := h.sound.send hjson hpc accepted
  unfold Main.send at hsound ⊢
  split_ifs at hsound ⊢
  · refine ⟨hsound, h.size_le, h.logged_le, fun r hr => ?_, h.inHand_le⟩
    rcases Multiset.mem_cons.mp hr with rfl | hr
    · exact hbound
    · exact h.queue_le r hr
  · exact h.onFail hsize hjson hbound hpc

/-- A log that is only read, and no message that is not there already. -/
theorem Main.Within.of_eq {s t : Main} {bound size : ℕ} (h : s.Within bound size)
    (hsound : t.Sound) (hwal : t.wal.content = s.wal.content)
    (hqueue : ∀ r ∈ t.queue, r ∈ s.queue) (hin : ∀ r ∈ t.inHand, r ∈ s.inHand ∨ r ∈ s.logged) :
    t.Within bound size where
  sound := hsound
  size_le := by
    rw [Wal.fileSize, hwal]
    exact h.size_le
  logged_le r hr := by
    rw [Main.logged, hwal] at hr
    exact h.logged_le r hr
  queue_le r hr := h.queue_le r (hqueue r hr)
  inHand_le r hr := (hin r hr).elim (h.inHand_le r) (h.logged_le r)

theorem length_json_le_longestMessage (src : Source) (tsMs : Int64) :
    (src.json cfg tsMs).length ≤ longestMessage cfg := by
  have hjson := src.emission.length_json_le tsMs cfg.hostname
  have hpath := src.pathLength_le
  unfold Source.json longestMessage
  omega

/-- **One step**, a crash included, keeps the log within its size. -/
theorem Main.Within.step {s t : Main} {l : Label} {bound size : ℕ} (h : s.Within bound size)
    (hsize : cfg.walMaxBytes + 7 + bound ≤ size) (hbound : longestMessage cfg ≤ bound)
    (hstep : s.step cfg l = some t) : t.Within bound size := by
  have hsound := h.sound.step hstep
  cases Main.moves_of_step hstep with
  | callback tsMs src accepted hpc =>
    have hsent : ({ s with sent := src.json cfg tsMs ::ₘ s.sent } : Main).Within bound size :=
      ⟨h.sound.sent _, h.size_le, h.logged_le, h.queue_le, h.inHand_le⟩
    refine hsent.send hsize (src.length_json_le cfg tsMs)
      ((length_json_le_longestMessage src tsMs).trans hbound) (fun b rs heq => ?_) accepted
    rw [show s.pc = .truncate b rs from heq] at hpc
    cases hpc
  | report json ok hpc hmem =>
    have herase : ({ s with queue := s.queue.erase json } : Main).Within bound size :=
      h.of_eq (h.sound.erase json) rfl (fun r hr => Multiset.mem_of_mem_erase hr)
        (fun r hr => Or.inl hr)
    unfold Main.report at hsound ⊢
    split_ifs at hsound ⊢
    · exact ⟨hsound, h.size_le, h.logged_le, herase.queue_le, h.inHand_le⟩
    · refine herase.onFail hsize (h.sound.queue_le json hmem) (h.queue_le json hmem)
        fun b rs heq => ?_
      rw [show s.pc = .truncate b rs from heq] at hpc
      cases hpc
  | read block hpc => exact h.of_eq hsound rfl (fun _ hr => hr) fun r hr => by cases hr
  | truncate block records hpc =>
    have hreading := h.sound.reading block records hpc
    refine ⟨hsound, ?_, fun r hr => ?_, h.queue_le, fun r hr => ?_⟩
    · exact Nat.zero_le size
    · have hnil : r ∈ ([] : List Bytes) := hr
      cases hnil
    · exact h.logged_le r (hreading ▸ hr)
  | resend block json records accepted hpc =>
    obtain ⟨hjson, hnext⟩ := h.sound.next hpc
    have hin : ∀ r ∈ json :: records, r.length ≤ bound := by
      have hle := h.inHand_le
      rwa [Main.inHand, hpc] at hle
    have hrest : ({ s with pc := .resend block records } : Main).Within bound size :=
      ⟨hnext, h.size_le, h.logged_le, h.queue_le,
        fun r hr => hin r (List.mem_cons_of_mem _ hr)⟩
    exact hrest.send hsize hjson (hin json List.mem_cons_self) (by simp) accepted
  | go _ pc _ _ _ hpc =>
    refine h.of_eq hsound rfl (fun _ hr => hr) fun r hr => ?_
    unfold Main.inHand at hr
    cases pc with
    | resend b rs => exact absurd rfl (hpc b rs)
    | _ => cases hr
  | crash =>
    exact h.of_eq hsound rfl (fun r hr => absurd hr (Multiset.notMem_zero r)) fun r hr => by cases hr
  | start hpc => exact h.of_eq hsound rfl (fun _ hr => hr) fun r hr => by cases hr

theorem le_longest (cfg : Config) (records : List Record) :
    longestMessage cfg ≤ longest cfg records ∧
      ∀ r ∈ records, r.data.length ≤ longest cfg records := by
  induction records with
  | nil => exact ⟨le_rfl, by simp⟩
  | cons r records ih =>
    have hcons : longest cfg (r :: records) = max r.data.length (longest cfg records) := rfl
    rw [hcons]
    refine ⟨ih.1.trans (le_max_right _ _), fun q hq => ?_⟩
    rcases List.mem_cons.mp hq with rfl | hq
    · exact le_max_left _ _
    · exact (ih.2 q hq).trans (le_max_right _ _)

/-- **The log passes its limit by less than one record.**  In any run, however often the
process dies, fails to deliver and starts again, the log is never larger than it was at
first, or than the limit and one record of the longest message there can be, less one
byte. -/
theorem fileSize_le_of_run (cfg : Config) (records : List Record) (labels : List Label) :
    Always (Main.step cfg)
      (fun s => s.wal.fileSize ≤ max (Main.initial records).wal.fileSize
        (cfg.walMaxBytes + 7 + longest cfg records)) (Main.initial records) labels := by
  obtain ⟨hbound, hrecords⟩ := le_longest cfg records
  have hle : ∀ r ∈ records.map Record.data, r.length ≤ maxRecord :=
    List.forall_mem_map.mpr fun r _ => r.length_le
  have hlogged : (Main.initial records).logged = records.map Record.data := by
    rw [Main.logged, ← readAll_encoded hle, List.flatMap_map]
    rfl
  have hstart : (Main.initial records).Within (longest cfg records)
      (max (Main.initial records).wal.fileSize (cfg.walMaxBytes + 7 + longest cfg records)) := by
    refine ⟨.initial records, le_max_left _ _, ?_, by simp [Main.initial], ?_⟩
    · rw [hlogged]
      exact List.forall_mem_map.mpr hrecords
    · simp [Main.initial, Main.inHand]
  refine (always_of_guarded (G := fun _ _ => True) (fun s l t h hstep _ => ?_) hstart
    (guarded_true _ _)).imp fun s h => h.size_le
  exact h.step (le_max_right _ _) hbound hstep

end Agent
end FileTracker
