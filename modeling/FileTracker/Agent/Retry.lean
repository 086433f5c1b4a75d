import FileTracker.Library.Periodic
import FileTracker.Agent.Process

/-!
# The two timers of the loop, and the retry of the log

At the end of every iteration `main` compares the clock with `last_stats` and with
`last_wal_retry`.  Both are timers in the sense of `Library.Periodic`, so what that says of
the readings at which a timer fires holds of the lines of the statistics that are printed
and of the branch that leads to the log, however the deliveries, the callbacks and a
shutdown come in between (`timers_of_run`).

A retry that is due is a retry of the whole log: unless the process dies, every record that
is in the log at the end of the iteration is sent again, once and in order, before the loop
goes on (`resent_of_due`).
-/

namespace FileTracker
namespace Agent

open Runs Periodic

variable {cfg : ProcessConfig}

/-! ## The readings of a run -/

/-- The end of an iteration, with its reading. -/
def endOfIteration (s : Process) : ProcessLabel → List ℤ
  | .call (.proceed _) now =>
    match s.main.pc with
    | .poll => [now]
    | _ => []
  | _ => []

/-- The branch of the retry is taken. -/
def retryAt (s : Process) : ProcessLabel → List ℤ
  | .call (.proceed true) now =>
    match s.main.pc with
    | .poll => [now]
    | _ => []
  | _ => []

/-- The lines of the statistics that the step prints. -/
def statsAt (cfg : ProcessConfig) (s : Process) (l : ProcessLabel) : List ProcessStats :=
  match s.step cfg l with
  | some t => t.printed.drop s.printed.length
  | none => []

/-- The readings of these lines. -/
def statsReadings (cfg : ProcessConfig) (s : Process) (l : ProcessLabel) : List ℤ :=
  (statsAt cfg s l).map ProcessStats.now

/-- The retries and the statistics of a run are on time: between two retries of the log the
interval passes, and between two lines of the statistics; and when the iterations follow
each other within `δ`, less than the interval and `δ`.  A retry is where the log is read, if
it is not empty. -/
structure OnTime (cfg : ProcessConfig) (s : Process) (labels : List ProcessLabel) : Prop where
  retries : (s.lastWalRetry :: trace (Process.step cfg) retryAt s labels).IsChain
    fun a b => a + walRetryInterval ≤ b
  statistics : (s.lastStats :: trace (Process.step cfg) (statsReadings cfg) s labels).IsChain
    fun a b => a + statsInterval ≤ b
  retries_lt : ∀ δ, ((s.lastWalRetry :: trace (Process.step cfg) endOfIteration s labels).IsChain
      fun a b => b ≤ a + δ) →
    (s.lastWalRetry :: trace (Process.step cfg) retryAt s labels).IsChain
      fun a b => b < a + walRetryInterval + δ
  statistics_lt : ∀ δ, ((s.lastStats :: trace (Process.step cfg) endOfIteration s labels).IsChain
      fun a b => b ≤ a + δ) →
    (s.lastStats :: trace (Process.step cfg) (statsReadings cfg) s labels).IsChain
      fun a b => b < a + statsInterval + δ
  reads : ∀ before l after u v, labels = before ++ l :: after →
    exec (Process.step cfg) s before = some u → u.step cfg l = some v →
      (v.main.pc = .read .retry ↔ retryAt u l ≠ [] ∧ 0 < u.main.wal.fileSize)

/-- The replay at startup. -/
def Pc.startup : Pc → Bool
  | .read block | .truncate block _ | .resend block _ | .flush block => block == .startup
  | _ => false

/-- `main` never comes back to the replay at startup. -/
theorem startup_of_step {s t : Main} {l : Label} (hl : l ≠ .start)
    (h : s.step cfg.toConfig l = some t) (hs : s.pc.startup = false) : t.pc.startup = false := by
  cases l with
  | callback tsMs src accepted => rwa [(callback_pc h).2.1]
  | report json ok =>
    simp only [Main.step] at h
    split_ifs at h
    obtain rfl := Option.some.inj h
    rwa [(report_pc _ _ _ _).1]
  | resend accepted =>
    simp only [Main.step] at h
    split at h
    · rename_i block json records hpc
      obtain rfl := Option.some.inj h
      rw [(send_pc _ _ _ _).1]
      rw [hpc] at hs
      cases block <;> simp_all [Pc.startup]
    · cases h
  | start => exact absurd rfl hl
  | _ =>
    simp only [Main.step] at h
    split at h
    all_goals
      try split_ifs at h
    all_goals
      first
        | (obtain rfl := Option.some.inj h; rename_i hpc; simp_all [Pc.startup])
        | cases h

/-! ## The timers -/

/-- A call that is not the end of an iteration leaves the timers alone and prints nothing. -/
theorem timers_eq (cfg : ProcessConfig) {s : Process} {l : Label} {now : ℤ}
    (hs : s.main.pc.startup = false) (hend : endOfIteration s (.call l now) = []) :
    (s.book cfg now l).lastWalRetry = s.lastWalRetry ∧
      (s.book cfg now l).lastStats = s.lastStats ∧ (s.book cfg now l).printed = s.printed := by
  unfold Process.book
  cases l with
  | report json ok => cases ok <;> exact ⟨rfl, rfl, rfl⟩
  | read =>
    simp only
    split
    · rename_i hpc
      rw [hpc] at hs
      cases hs
    · exact ⟨rfl, rfl, rfl⟩
  | proceed retry =>
    simp only
    split
    · rename_i hpc
      rw [hpc] at hs
      cases hs
    · rename_i hpc
      simp [endOfIteration, hpc] at hend
    · exact ⟨rfl, rfl, rfl⟩
  | _ => exact ⟨rfl, rfl, rfl⟩

/-- A call is the end of an iteration, or it has no reading that counts. -/
theorem endOfIteration_cases (s : Process) (l : Label) (now : ℤ) :
    (∃ retry, l = .proceed retry ∧ s.main.pc = .poll) ∨
      endOfIteration s (.call l now) = [] ∧ retryAt s (.call l now) = [] := by
  by_cases hend : ∃ retry, l = .proceed retry ∧ s.main.pc = .poll
  · exact Or.inl hend
  · refine Or.inr ?_
    unfold endOfIteration retryAt
    cases l with
    | proceed retry =>
      cases hpc : s.main.pc with
      | poll => exact absurd ⟨retry, rfl, hpc⟩ hend
      | _ => cases retry <;> exact ⟨rfl, rfl⟩
    | _ => exact ⟨rfl, rfl⟩

/-- What the two timers do in a step, as `firings` sees it. -/
theorem firings_step {s t : Process} {l : ProcessLabel} (hstep : s.step cfg l = some t)
    (hs : s.main.pc.startup = false) (rest : List ℤ) :
    firings walRetryInterval s.lastWalRetry (endOfIteration s l ++ rest) =
        retryAt s l ++ firings walRetryInterval t.lastWalRetry rest ∧
      firings statsInterval s.lastStats (endOfIteration s l ++ rest) =
        statsReadings cfg s l ++ firings statsInterval t.lastStats rest := by
  have hlines : statsReadings cfg s l =
      (t.printed.drop s.printed.length).map ProcessStats.now := by
    rw [statsReadings, statsAt, hstep]
  rw [hlines]
  cases Process.moves_of_step hstep with
  | input i pipe => simp [endOfIteration, retryAt]
  | callback tsMs src accepted todo main => simp [endOfIteration, retryAt]
  | call l now main _ hpermits =>
    rcases endOfIteration_cases s l now with ⟨retry, rfl, hpc⟩ | ⟨hreading, hretry⟩
    · have hreading : endOfIteration s (.call (.proceed retry) now) = [now] := by
        simp [endOfIteration, hpc]
      have hbook : s.book cfg now (.proceed retry) = { s.lookTimers now with turned := false } := by
        simp [Process.book, hpc]
      rw [hreading, hbook]
      simp only [List.singleton_append, firings, Due, Process.lookTimers, ge_iff_le]
      constructor
      · -- the branch that is taken is the one the timer says
        have hbranch : retry = decide (walRetryInterval ≤ now - s.lastWalRetry) := by
          simpa [Process.permits, hpc] using hpermits
        by_cases hdue : walRetryInterval ≤ now - s.lastWalRetry
        · obtain rfl : retry = true := by simpa [hdue] using hbranch
          simp [retryAt, hpc, hdue]
        · obtain rfl : retry = false := by simpa [hdue] using hbranch
          simp [retryAt, hdue]
      · by_cases hdue : statsInterval ≤ now - s.lastStats <;> simp [hdue, Process.stats]
    · obtain ⟨hlast, hstats, hprinted⟩ := timers_eq cfg hs hreading
      rw [hreading, hretry]
      simp [hlast, hstats, hprinted]

/-- **A run of the loop**: the readings at which the log is retried, and those at which the
statistics are printed, are the firings of a timer that is looked at once in an
iteration. -/
theorem firings_of_run {s t : Process} {labels : List ProcessLabel}
    (hrun : exec (Process.step cfg) s labels = some t) (hs : s.main.pc.startup = false)
    (hgoes : ∀ l ∈ labels, l.goesOn = true) :
    trace (Process.step cfg) retryAt s labels =
        firings walRetryInterval s.lastWalRetry
          (trace (Process.step cfg) endOfIteration s labels) ∧
      trace (Process.step cfg) (statsReadings cfg) s labels =
        firings statsInterval s.lastStats (trace (Process.step cfg) endOfIteration s labels) := by
  induction labels generalizing s with
  | nil => exact ⟨rfl, rfl⟩
  | cons l labels ih =>
    rw [exec_cons] at hrun
    obtain ⟨u, hu, hrun⟩ := Option.bind_eq_some_iff.mp hrun
    have hgo := hgoes l List.mem_cons_self
    have hstart : u.main.pc.startup = false := by
      cases Process.moves_of_step hu with
      | input i pipe => exact hs
      | callback tsMs src accepted todo main _ hmain => exact startup_of_step (by simp) hmain hs
      | call l now main _ _ hmain =>
        refine startup_of_step ?_ hmain hs
        rintro rfl
        cases hgo
    obtain ⟨hretry, hstats⟩ := ih hrun hstart fun k hk => hgoes k (List.mem_cons_of_mem _ hk)
    rw [trace_cons hu, trace_cons hu, trace_cons hu, hretry, hstats]
    obtain ⟨h₁, h₂⟩ := firings_step hu hs (trace (Process.step cfg) endOfIteration u labels)
    exact ⟨h₁.symm, h₂.symm⟩

/-- `main` comes to the log by the branch of the retry, unless it is empty, and in no other
way. -/
theorem pc_eq_readRetry_iff {s t : Main} {l : Label} (h : s.step cfg.toConfig l = some t) :
    t.pc = .read .retry ↔ (l = .proceed true ∧ s.pc = .poll) ∧ 0 < s.wal.fileSize := by
  cases l with
  | callback tsMs src accepted =>
    obtain ⟨hcalls, hpc, -⟩ := callback_pc h
    refine iff_of_false (fun hread => ?_) (by simp)
    rw [← hpc, hread] at hcalls
    cases hcalls
  | report json ok =>
    simp only [Main.step] at h
    split_ifs at h with hready
    obtain rfl := Option.some.inj h
    refine iff_of_false (fun hread => ?_) (by simp)
    rw [← (report_pc cfg.toConfig s json ok).1, hread] at hready
    cases hready.1
  | proceed retry =>
    cases hpc : s.pc with
    | poll =>
      simp only [Main.step, hpc] at h
      split_ifs at h with hread
      · obtain rfl := Option.some.inj h
        simp [hread.1, hread.2]
      · obtain rfl := Option.some.inj h
        refine iff_of_false (by simp) ?_
        rintro ⟨⟨hretry, -⟩, hsize⟩
        exact hread ⟨Label.proceed.inj hretry, hsize⟩
    | resend block records =>
      cases records <;> simp only [Main.step, hpc] at h <;> cases h
      simp
    | destroy =>
      simp only [Main.step, hpc] at h
      split_ifs at h
      cases h
      simp
    | _ =>
      simp only [Main.step, hpc] at h
      cases h <;> simp
  | resend accepted =>
    simp only [Main.step] at h
    split at h
    · obtain rfl := Option.some.inj h
      rw [(send_pc _ _ _ _).1]
      simp
    · cases h
  | _ =>
    simp only [Main.step] at h
    split at h
    all_goals
      try split_ifs at h
    all_goals
      cases h <;> simp

/-- The same, of the process. -/
theorem readRetry_iff {s t : Process} {l : ProcessLabel} (hstep : s.step cfg l = some t) :
    t.main.pc = .read .retry ↔ retryAt s l ≠ [] ∧ 0 < s.main.wal.fileSize := by
  cases Process.moves_of_step hstep with
  | input i pipe htakes =>
    refine iff_of_false (fun hpc => ?_) fun h => h.1 rfl
    have hpc : s.main.pc = .read .retry := hpc
    rw [hpc] at htakes
    cases htakes
  | callback tsMs src accepted todo main _ hmain =>
    exact (pc_eq_readRetry_iff hmain).trans (iff_of_false (by simp) fun h => h.1 rfl)
  | call l now main _ _ hmain =>
    refine (pc_eq_readRetry_iff hmain).trans (and_congr_left fun _ => ?_)
    rcases endOfIteration_cases s l now with ⟨retry, rfl, hpc⟩ | ⟨hreading, hretry⟩
    · cases retry <;> simp [retryAt, hpc]
    · rw [hretry]
      refine iff_of_false ?_ (by simp)
      rintro ⟨rfl, hpc⟩
      simp [endOfIteration, hpc] at hreading

/-- **Retries and statistics on time.**  Behind the replay at startup, between two retries
of the log at least 30 seconds pass, and between two lines of statistics 60; and when the
iterations follow each other within `δ`, less than 30 seconds and `δ`, and less than 60
seconds and `δ`. -/
theorem timers_of_run {s t : Process} {labels : List ProcessLabel}
    (hrun : exec (Process.step cfg) s labels = some t) (hs : s.main.pc.startup = false)
    (hgoes : ∀ l ∈ labels, l.goesOn = true) : OnTime cfg s labels := by
  obtain ⟨hretry, hstats⟩ := firings_of_run hrun hs hgoes
  refine ⟨?_, ?_, fun δ hgap => ?_, fun δ hgap => ?_, ?_⟩
  · rw [hretry]
    exact isChain_firings _ _ _
  · rw [hstats]
    exact isChain_firings _ _ _
  · rw [hretry]
    exact isChain_firings_lt (by decide) hgap
  · rw [hstats]
    exact isChain_firings_lt (by decide) hgap
  · rintro before l after u v - - hstep
    exact readRetry_iff hstep

/-! ## The retry -/

/-- The record that is sent again. -/
def resentAt (s : Process) : ProcessLabel → List Bytes
  | .call (.resend _) _ =>
    match s.main.pc with
    | .resend _ (json :: _) => [json]
    | _ => []
  | _ => []

/-- A replay of the records, of which some have been sent: it has still to read them, or to
empty the log, or to send the rest; or it has sent them all. -/
inductive Replaying (records : List Bytes) (s : Main) : List Bytes → Prop where
  | reading (block : Block) (hpc : s.pc = .read block) (hlogged : s.logged = records) :
      Replaying records s []
  | emptying (block : Block) (hpc : s.pc = .truncate block records) : Replaying records s []
  | sending (block : Block) (sent rest : List Bytes) (hpc : s.pc = .resend block rest)
      (hsplit : records = sent ++ rest) : Replaying records s sent
  | complete (sent : List Bytes) (hsent : records <+: sent) : Replaying records s sent

/-- **One step** of a process that lives takes a replay forward. -/
theorem Replaying.step {records sent : List Bytes} {s t : Process} {l : ProcessLabel}
    (h : Replaying records s.main sent) (hstep : s.step cfg l = some t) (halive : l.alive = true) :
    Replaying records t.main (sent ++ resentAt s l) := by
  cases h with
  | complete sent hsent => exact .complete _ (hsent.trans (List.prefix_append _ _))
  | reading block hpc hlogged =>
    cases Process.moves_of_step hstep with
    | input i pipe htakes => exact .reading block hpc hlogged
    | callback tsMs src accepted todo main _ hmain =>
      have hcalls := (callback_pc hmain).1
      rw [hpc] at hcalls
      cases hcalls
    | call l now main _ _ hmain =>
      cases l with
      | read =>
        simp only [Main.step, hpc] at hmain
        split_ifs at hmain with hnil
        · have hempty : records = [] := hlogged.symm.trans hnil
          exact .complete _ (hempty ▸ List.nil_prefix)
        · obtain rfl := Option.some.inj hmain
          exact .emptying block (by rw [← hlogged]; rfl)
      | crash => cases halive
      | _ => simp [Main.step, hpc, Pc.calls, Pc.serves] at hmain
  | emptying block hpc =>
    cases Process.moves_of_step hstep with
    | input i pipe htakes => exact .emptying block hpc
    | callback tsMs src accepted todo main _ hmain =>
      have hcalls := (callback_pc hmain).1
      rw [hpc] at hcalls
      cases hcalls
    | call l now main _ _ hmain =>
      cases l with
      | truncate =>
        simp only [Main.step, hpc] at hmain
        obtain rfl := Option.some.inj hmain
        exact .sending block [] records rfl rfl
      | crash => cases halive
      | _ => simp [Main.step, hpc, Pc.calls, Pc.serves] at hmain
  | sending block sent rest hpc hsplit =>
    cases Process.moves_of_step hstep with
    | input i pipe htakes =>
      have hnone : sent ++ resentAt s (.input i) = sent := List.append_nil sent
      rw [hnone]
      exact .sending block sent rest hpc hsplit
    | callback tsMs src accepted todo main _ hmain =>
      have hcalls := (callback_pc hmain).1
      rw [hpc] at hcalls
      cases hcalls
    | call l now main _ _ hmain =>
      cases l with
      | resend accepted =>
        cases rest with
        | nil => simp [Main.step, hpc] at hmain
        | cons json rest =>
          simp only [Main.step, hpc] at hmain
          obtain rfl := Option.some.inj hmain
          have hsent : resentAt s (.call (.resend accepted) now) = [json] := by
            simp [resentAt, hpc]
          rw [hsent]
          exact .sending block _ rest (send_pc _ _ _ _).1 (by simp [hsplit])
      | proceed retry =>
        cases rest with
        | nil => exact .complete _ (by rw [hsplit]; simp [resentAt])
        | cons json rest => simp [Main.step, hpc] at hmain
      | crash => cases halive
      | _ => simp [Main.step, hpc, Pc.calls, Pc.serves] at hmain

theorem Replaying.exec {records sent : List Bytes} {s t : Process} {labels : List ProcessLabel}
    (h : Replaying records s.main sent) (hrun : Runs.exec (Process.step cfg) s labels = some t)
    (halive : ∀ l ∈ labels, l.alive = true) :
    Replaying records t.main (sent ++ trace (Process.step cfg) resentAt s labels) := by
  induction labels generalizing s sent with
  | nil =>
    obtain rfl := Option.some.inj hrun
    simpa [trace] using h
  | cons l labels ih =>
    rw [exec_cons] at hrun
    obtain ⟨u, hu, hrun⟩ := Option.bind_eq_some_iff.mp hrun
    have hstep := h.step hu (halive l List.mem_cons_self)
    have hrest := ih hstep hrun fun k hk => halive k (List.mem_cons_of_mem _ hk)
    rwa [List.append_assoc, ← trace_cons hu] at hrest

/-- A replay that has come to its end has sent everything. -/
theorem Replaying.all {records sent : List Bytes} {s : Main} (h : Replaying records s sent)
    (hpc : s.pc.inReplay = false) : records <+: sent := by
  cases h with
  | complete sent hsent => exact hsent
  | reading block hread => simp [hread, Pc.inReplay] at hpc
  | emptying block htruncate => simp [htruncate, Pc.inReplay] at hpc
  | sending block sent rest hresend => simp [hresend, Pc.inReplay] at hpc

/-- **A due retry retries everything.**  When an iteration ends 30 seconds or more after the
last retry, then, unless the process dies, every record of the log is sent again, once and
in order, before the loop goes on. -/
theorem resent_of_due {labels : List ProcessLabel} {s t u : Process} {retry : Bool} {now : ℤ}
    (hpc : s.main.pc = .poll) (hdue : walRetryInterval ≤ now - s.lastWalRetry)
    (hstep : s.step cfg (.call (.proceed retry) now) = some t)
    (hrun : exec (Process.step cfg) t labels = some u) (halive : ∀ l ∈ labels, l.alive = true)
    (hend : u.main.pc.inReplay = false) :
    s.main.logged <+: trace (Process.step cfg) resentAt t labels := by
  have hreplaying : Replaying s.main.logged t.main [] := by
    cases Process.moves_of_step hstep with
    | call _ _ main _ hpermits hmain =>
      have hretry : retry = true := by simpa [Process.permits, hpc, hdue] using hpermits
      simp only [Main.step, hpc] at hmain
      split_ifs at hmain with hsize
      · obtain rfl := Option.some.inj hmain
        exact .reading .retry rfl rfl
      · have hempty : s.main.wal.content = [] := by
          simpa [hretry, Wal.fileSize] using hsize
        have hlogged : s.main.logged = [] := by
          rw [Main.logged, hempty]
          rfl
        exact .complete _ (hlogged ▸ List.nil_prefix)
  exact (hreplaying.exec hrun halive).all hend

/-! ## A run -/

/-- A message is left in the log.  The replay at startup fails to deliver it. -/
def failedStartup : List ProcessLabel :=
  [.call .start 0, .call .read 0, .call .truncate 0, .call (.resend true) 0,
    .call (.proceed false) 0, .call (.report (oneWrite.json oneNode 1710000000000) false) 0,
    .call (.proceed false) 1000000000]

/-- The first iteration takes long, and the log is retried at its end. -/
def longIteration : List ProcessLabel :=
  [.input (.tick 31000000000 []), .call (.proceed false) 0]

/-- The retry. -/
def retriedLog : List ProcessLabel :=
  [.call .read 0, .call .truncate 0, .call (.resend true) 0, .call (.proceed false) 0,
    .call (.report (oneWrite.json oneNode 1710000000000) true) 0, .call (.proceed false) 0]

theorem timers_of_run_longIteration :
    ∃ s t, exec (Process.step oneNodeProcess)
        (.initial oneNodeProcess [⟨oneWrite.json oneNode 1710000000000, by decide +kernel⟩])
        failedStartup = some s ∧
      exec (Process.step oneNodeProcess) s
        (longIteration ++ .call (.proceed true) 31100000000 :: retriedLog) = some t ∧
      OnTime oneNodeProcess s
        (longIteration ++ .call (.proceed true) 31100000000 :: retriedLog) := by
  have hrun : ((exec (Process.step oneNodeProcess)
      (.initial oneNodeProcess [⟨oneWrite.json oneNode 1710000000000, by decide +kernel⟩])
      failedStartup).bind fun s => (exec (Process.step oneNodeProcess) s
        (longIteration ++ .call (.proceed true) 31100000000 :: retriedLog)).map fun _ =>
          s.main.pc.startup) = some false := by
    decide +kernel
  obtain ⟨s, hs, hmap⟩ := Option.bind_eq_some_iff.mp hrun
  obtain ⟨t, ht, hstartup⟩ := Option.map_eq_some_iff.mp hmap
  exact ⟨s, t, hs, ht, timers_of_run ht hstartup (by decide)⟩

theorem resent_of_due_retriedLog :
    ∃ s t u, exec (Process.step oneNodeProcess)
        (.initial oneNodeProcess [⟨oneWrite.json oneNode 1710000000000, by decide +kernel⟩])
        (failedStartup ++ longIteration) = some s ∧
      s.main.logged = [oneWrite.json oneNode 1710000000000] ∧
      s.step oneNodeProcess (.call (.proceed true) 31100000000) = some t ∧
      exec (Process.step oneNodeProcess) t retriedLog = some u ∧
      s.main.logged <+: trace (Process.step oneNodeProcess) resentAt t retriedLog := by
  have hrun : ((exec (Process.step oneNodeProcess)
      (.initial oneNodeProcess [⟨oneWrite.json oneNode 1710000000000, by decide +kernel⟩])
      (failedStartup ++ longIteration)).bind fun s =>
        (s.step oneNodeProcess (.call (.proceed true) 31100000000)).bind fun t =>
          (exec (Process.step oneNodeProcess) t retriedLog).map fun u =>
            (s.main.pc.serves && !s.main.pc.inReplay && !s.main.pc.over,
              decide (walRetryInterval ≤ 31100000000 - s.lastWalRetry), u.main.pc.inReplay,
              decide (s.main.logged = [oneWrite.json oneNode 1710000000000]))) =
        some (true, true, false, true) := by
    decide +kernel
  obtain ⟨s, hs, hbind⟩ := Option.bind_eq_some_iff.mp hrun
  obtain ⟨t, ht, hmap⟩ := Option.bind_eq_some_iff.mp hbind
  obtain ⟨u, hu, hproj⟩ := Option.map_eq_some_iff.mp hmap
  obtain ⟨hserves, hrest⟩ := Prod.mk.inj hproj
  obtain ⟨hdue, hrest⟩ := Prod.mk.inj hrest
  obtain ⟨hend, hlogged⟩ := Prod.mk.inj hrest
  have hpc : s.main.pc = .poll := by
    cases hs : s.main.pc <;> simp [hs, Pc.serves, Pc.inReplay, Pc.over] at hserves ⊢
  have hresent := resent_of_due hpc (of_decide_eq_true hdue) ht hu (by decide) hend
  exact ⟨s, t, u, hs, of_decide_eq_true hlogged, ht, hu, hresent⟩

end Agent
end FileTracker
