import FileTracker.Consumer.MainLoop

/-!
# At least once

The commit protocol of the loop is meant to give at-least-once delivery: the
offset is committed only behind a successful flush, so what Redis has not taken
is read again.  What it commits, though, is the *position*, and the position
moves over everything `poll` returned --- the batch a failed flush has cleared
and the messages polled while Redis was down included.

Every offset below the position is in one of three places: executed, in the
batch, or lost.  That is the invariant `Accounted`, and a commit turns the third
place into a broken promise: `delivered_iff_nothing_lost` says that the promise
is kept throughout a run exactly when no commit succeeds in a process that has
thrown a message away.
-/

namespace FileTracker
namespace Consumer

open Runs

variable (log : ℕ → Option Bytes)

/-- The commands of the message at the offset, if it is well formed, are among
the executed ones. -/
def Done (executed : List (ℕ × Action)) (offset : ℕ) : Prop :=
  ∀ m, wellFormed (log offset) = some m → ∀ a ∈ m.actions, (offset, a) ∈ executed

/-- **At least once**: below the committed offset, everything well formed has
been executed by a successful flush. -/
def Main.Delivered (s : Main) : Prop := ∀ offset < s.committed, Done log s.executed offset

/-- The action is one of the message at its offset, if that is well formed. -/
def Own (x : ℕ × Action) : Prop :=
  ∀ m, wellFormed (log x.1) = some m → x.2 ∈ m.actions

/-- Every offset below `n` is accounted for. -/
structure Accounted (committed : ℕ) (batch : List Action)
    (tagged executed : List (ℕ × Action)) (lost : List ℕ) (n : ℕ) : Prop where
  delivered : ∀ offset < committed, Done log executed offset
  batch_eq : tagged.map Prod.snd = batch
  placed : ∀ offset < n, Done log (executed ++ tagged) offset ∨ offset ∈ lost
  below : ∀ x ∈ tagged, x.1 < n
  own : ∀ x ∈ executed ++ tagged, Own log x
  lost_open : ∀ offset ∈ lost, offset < n ∧ ¬ Done log (executed ++ tagged) offset

def Main.AccountedTo (s : Main) (n : ℕ) : Prop :=
  Accounted log s.committed s.processor.batch s.tagged s.executed s.lost n

/-- How far the process has dealt with the messages it polled. -/
def Main.settled (s : Main) : ℕ :=
  match s.pc with
  | .ping (.message offset) _ => offset
  | .exited => 0
  | _ => s.position

/-- The invariant of the loop. -/
structure Inv (s : Main) : Prop where
  accounted : s.AccountedTo log s.settled
  flushed : ∀ site, s.pc = .commit site → s.tagged = []
  polled : ∀ offset now, s.pc = .ping (.message offset) now → s.position = offset + 1

variable {log}

/-! ## What is done, and what is owed -/

theorem Done.mono {xs ys : List (ℕ × Action)} {offset : ℕ} (h : Done log xs offset)
    (hsub : ∀ x ∈ xs, x ∈ ys) : Done log ys offset :=
  fun m hm a ha => hsub _ (h m hm a ha)

theorem done_of_not_wellFormed {xs : List (ℕ × Action)} {offset : ℕ}
    (h : wellFormed (log offset) = none) : Done log xs offset := by
  intro m hm
  rw [h] at hm
  simp at hm

/-- Entries of other offsets do not help. -/
theorem done_append_iff {xs ys : List (ℕ × Action)} {offset : ℕ} (h : ∀ y ∈ ys, y.1 ≠ offset) :
    Done log (xs ++ ys) offset ↔ Done log xs offset := by
  refine ⟨fun hd m hm a ha => ?_, fun hd => hd.mono fun x hx => List.mem_append_left _ hx⟩
  rcases List.mem_append.mp (hd m hm a ha) with hx | hy
  · exact hx
  · exact absurd rfl (h _ hy)

/-- A message has at most one action. -/
theorem AgentMsg.eq_of_mem_actions {m : AgentMsg} {a b : Action} (ha : a ∈ m.actions)
    (hb : b ∈ m.actions) : a = b := by
  cases m with
  | delete => simp [AgentMsg.actions] at ha
  | mtimeChange path => rw [List.mem_singleton.mp ha, List.mem_singleton.mp hb]
  | rename o n => rw [List.mem_singleton.mp ha, List.mem_singleton.mp hb]

/-- What is owed is exactly what is not done. -/
theorem owed_iff {executed : List (ℕ × Action)} (hown : ∀ x ∈ executed, Own log x)
    (offset : ℕ) : owed log executed offset = true ↔ ¬ Done log executed offset := by
  unfold owed
  cases hm : wellFormed (log offset) with
  | none => simp [done_of_not_wellFormed hm]
  | some m =>
    simp only [Bool.and_eq_true, Bool.not_eq_eq_eq_not, Bool.not_true, List.isEmpty_eq_false_iff,
      List.contains_eq_mem, decide_eq_false_iff_not]
    constructor
    · rintro ⟨hne, hnot⟩ hd
      obtain ⟨a, ha⟩ := List.exists_mem_of_ne_nil _ hne
      exact hnot (List.mem_map_of_mem (hd m hm a ha))
    · intro hd
      refine ⟨fun hnil => hd fun k hk a ha => ?_, fun hmem => hd fun k hk a ha => ?_⟩
      · obtain rfl := Option.some.inj (hm.symm.trans hk)
        rw [hnil] at ha
        simp at ha
      · obtain rfl := Option.some.inj (hm.symm.trans hk)
        obtain ⟨⟨o, b⟩, hx, rfl⟩ := List.mem_map.mp hmem
        rwa [AgentMsg.eq_of_mem_actions ha (hown _ hx m hm)]

/-! ## The operations keep the account -/

theorem Accounted.own_executed {committed n : ℕ} {batch : List Action}
    {tagged executed : List (ℕ × Action)} {lost : List ℕ}
    (h : Accounted log committed batch tagged executed lost n) : ∀ x ∈ executed, Own log x :=
  fun x hx => h.own x (List.mem_append_left _ hx)

/-- Nothing of a process is left when it ends. -/
theorem Accounted.exit {committed n : ℕ} {batch : List Action}
    {tagged executed : List (ℕ × Action)} {lost : List ℕ}
    (h : Accounted log committed batch tagged executed lost n) :
    Accounted log committed [] [] executed [] 0 where
  delivered := h.delivered
  batch_eq := rfl
  placed := by simp
  below := by simp
  own := by simpa using h.own_executed
  lost_open := by simp

/-- A new process has everything below its position behind it. -/
theorem Accounted.start {committed n : ℕ} {batch : List Action}
    {tagged executed : List (ℕ × Action)} {lost : List ℕ}
    (h : Accounted log committed batch tagged executed lost n) :
    Accounted log committed [] [] executed [] committed where
  delivered := h.delivered
  batch_eq := rfl
  placed := fun offset ho => Or.inl (by simpa using h.delivered offset ho)
  below := by simp
  own := by simpa using h.own_executed
  lost_open := by simp

/-- A successful flush moves the batch to the executed actions. -/
theorem Accounted.flushed {committed n : ℕ} {batch : List Action}
    {tagged executed : List (ℕ × Action)} {lost : List ℕ}
    (h : Accounted log committed batch tagged executed lost n) :
    Accounted log committed [] [] (executed ++ tagged) lost n where
  delivered := fun offset ho =>
    (h.delivered offset ho).mono fun x hx => List.mem_append_left _ hx
  batch_eq := rfl
  placed := by simpa using h.placed
  below := by simp
  own := by simpa using h.own
  lost_open := by simpa using h.lost_open

/-- A failed flush moves it to what is lost, as far as it was owed. -/
theorem Accounted.failed {committed n : ℕ} {batch : List Action}
    {tagged executed : List (ℕ × Action)} {lost : List ℕ}
    (h : Accounted log committed batch tagged executed lost n) :
    Accounted log committed [] [] executed
      (lost ++ (tagged.map Prod.fst).filter (owed log executed)) n where
  delivered := h.delivered
  batch_eq := rfl
  placed := by
    intro offset ho
    rw [List.append_nil]
    by_cases hd : Done log executed offset
    · exact Or.inl hd
    · refine Or.inr (List.mem_append.mpr ?_)
      rcases h.placed offset ho with hall | hlost
      · refine Or.inr (List.mem_filter.mpr ⟨?_, (owed_iff h.own_executed offset).mpr hd⟩)
        by_contra hmem
        refine hd ((done_append_iff fun y hy heq => hmem ?_).mp hall)
        exact heq ▸ List.mem_map_of_mem hy
      · exact Or.inl hlost
  below := by simp
  own := by simpa using h.own_executed
  lost_open := by
    intro offset hmem
    rw [List.append_nil]
    rcases List.mem_append.mp hmem with hlost | hnew
    · obtain ⟨hlt, hnot⟩ := h.lost_open offset hlost
      exact ⟨hlt, fun hd => hnot (hd.mono fun x hx => List.mem_append_left _ hx)⟩
    · obtain ⟨htag, howed⟩ := List.mem_filter.mp hnew
      obtain ⟨x, hx, rfl⟩ := List.mem_map.mp htag
      exact ⟨h.below x hx, (owed_iff h.own_executed x.1).mp howed⟩

/-- A message polled while Redis is down goes to what is lost, as far as it was
owed. -/
theorem Accounted.skip {committed offset : ℕ} {batch : List Action}
    {tagged executed : List (ℕ × Action)} {lost : List ℕ}
    (h : Accounted log committed batch tagged executed lost offset) :
    Accounted log committed batch tagged executed
      (lost ++ [offset].filter (owed log executed)) (offset + 1) := by
  have htag : ∀ y ∈ tagged, y.1 ≠ offset := fun y hy => (h.below y hy).ne
  refine ⟨h.delivered, h.batch_eq, ?_, ?_, h.own, ?_⟩
  · intro o ho
    rcases Nat.lt_succ_iff_lt_or_eq.mp ho with hlt | rfl
    · exact (h.placed o hlt).imp_right fun hl => List.mem_append_left _ hl
    · by_cases hd : Done log executed o
      · exact Or.inl ((done_append_iff htag).mpr hd)
      · refine Or.inr (List.mem_append_right _ (List.mem_filter.mpr ?_))
        exact ⟨List.mem_singleton_self o, (owed_iff h.own_executed o).mpr hd⟩
  · exact fun x hx => Nat.lt_succ_of_lt (h.below x hx)
  · intro o hmem
    rcases List.mem_append.mp hmem with hlost | hnew
    · exact ⟨Nat.lt_succ_of_lt (h.lost_open o hlost).1, (h.lost_open o hlost).2⟩
    · obtain ⟨ho, howed⟩ := List.mem_filter.mp hnew
      obtain rfl := List.mem_singleton.mp ho
      refine ⟨Nat.lt_succ_self o, fun hd => ?_⟩
      exact (owed_iff h.own_executed o).mp howed ((done_append_iff htag).mp hd)

/-- Reading the next message: its actions, if it is well formed, are tagged with
its offset. -/
theorem Accounted.parsed {committed offset : ℕ} {batch new : List Action}
    {tagged executed : List (ℕ × Action)} {lost : List ℕ}
    (h : Accounted log committed batch tagged executed lost offset)
    (hnew : ∀ m, wellFormed (log offset) = some m → new = m.actions) :
    Accounted log committed (batch ++ new) (tagged ++ new.map fun a => (offset, a)) executed lost
      (offset + 1) := by
  have hkeep : ∀ {o : ℕ}, o ≠ offset →
      (Done log (executed ++ (tagged ++ new.map fun a => (offset, a))) o ↔
        Done log (executed ++ tagged) o) := by
    intro o ho
    rw [← List.append_assoc]
    refine done_append_iff fun y hy => ?_
    obtain ⟨a, -, rfl⟩ := List.mem_map.mp hy
    exact ho.symm
  refine ⟨h.delivered, ?_, ?_, ?_, ?_, ?_⟩
  · rw [List.map_append, h.batch_eq, List.map_map]
    simp
  · intro o ho
    rcases Nat.lt_succ_iff_lt_or_eq.mp ho with hlt | rfl
    · rw [hkeep hlt.ne]
      exact h.placed o hlt
    · refine Or.inl fun m hm a ha => ?_
      rw [hnew m hm]
      simp [ha]
  · intro x hx
    rcases List.mem_append.mp hx with hx | hx
    · exact Nat.lt_succ_of_lt (h.below x hx)
    · obtain ⟨a, -, rfl⟩ := List.mem_map.mp hx
      exact Nat.lt_succ_self offset
  · intro x hx
    rw [← List.append_assoc] at hx
    rcases List.mem_append.mp hx with hx | hx
    · exact h.own x hx
    · obtain ⟨a, ha, rfl⟩ := List.mem_map.mp hx
      exact fun m hm => hnew m hm ▸ ha
  · intro o ho
    obtain ⟨hlt, hnot⟩ := h.lost_open o ho
    exact ⟨Nat.lt_succ_of_lt hlt, by rwa [hkeep hlt.ne]⟩

/-- A message `parse_event` raises on is not well formed. -/
theorem Accounted.raised {committed offset : ℕ} {batch : List Action}
    {tagged executed : List (ℕ × Action)} {lost : List ℕ}
    (h : Accounted log committed batch tagged executed lost offset)
    (hbad : wellFormed (log offset) = none) :
    Accounted log committed batch tagged executed lost (offset + 1) := by
  have hnew : ∀ m, wellFormed (log offset) = some m → [] = m.actions := by simp [hbad]
  simpa using h.parsed hnew

/-- Committing the position when nothing is batched and nothing lost. -/
theorem Accounted.commit {committed n : ℕ} {batch : List Action}
    {executed : List (ℕ × Action)} (h : Accounted log committed batch [] executed [] n) :
    Accounted log n batch [] executed [] n where
  delivered := fun offset ho => by simpa using h.placed offset ho
  batch_eq := h.batch_eq
  placed := h.placed
  below := h.below
  own := h.own
  lost_open := h.lost_open

/-! ## The steps keep the invariant -/

/-- Where a call stands whose messages are all dealt with. -/
theorem Inv.of_position {s : Main} (h : s.AccountedTo log s.position)
    (hpc : s.pc = .poll ∨ s.pc = .progress ∨ ∃ site, s.pc = .flush site) : Inv log s := by
  rcases hpc with hpc | hpc | ⟨site, hpc⟩ <;>
    exact ⟨by simpa only [Main.settled, hpc] using h, by simp [hpc], by simp [hpc]⟩

theorem Inv.exit {s : Main} {n : ℕ} (h : s.AccountedTo log n) : Inv log s.exit :=
  ⟨Accounted.exit h, by simp [Main.exit], by simp [Main.exit]⟩

theorem Inv.leave {s : Main} (h : s.AccountedTo log s.position) : Inv log s.leave := by
  unfold Main.leave
  split_ifs
  · exact Inv.of_position (s := { s with pc := .flush .final }) h (Or.inr (Or.inr ⟨_, rfl⟩))
  · exact Inv.exit h

theorem Inv.progress {s : Main} (h : s.AccountedTo log s.position) : Inv log s.progress := by
  unfold Main.progress
  split_ifs
  · exact Inv.of_position (s := { s with lastLogCount := _, pc := .progress }) h
      (Or.inr (Or.inl rfl))
  · exact Inv.of_position (s := { s with pc := .poll }) h (Or.inl rfl)

/-- `parse_event` only ever appends to the batch, and appends the actions of a
well-formed message. -/
theorem parseEvent_batch {p q : EventProcessor} {v : Option Bytes} (h : p.parseEvent v = .ok q) :
    q.batch = p.batch ++ q.batch.drop p.batch.length ∧
      ∀ m, wellFormed v = some m → q.batch.drop p.batch.length = m.actions := by
  obtain ⟨q', hq', hbatch⟩ := parseEvent_of_parseable p (parseable_of_parseEvent h)
  obtain rfl := Except.ok.inj (h.symm.trans hq')
  rw [hbatch, List.drop_left]
  exact ⟨rfl, fun m hm => (valueActions_wellFormed hm).2⟩

theorem not_wellFormed_of_raised {p : EventProcessor} {v : Option Bytes} {e : PyError}
    (h : p.parseEvent v = .error e) : wellFormed v = none := by
  cases hm : wellFormed v with
  | none => rfl
  | some m =>
    obtain ⟨q, hq, -⟩ := parseEvent_of_parseable p (valueActions_wellFormed hm).1
    rw [hq] at h
    cases h

/-- What the dispatch needs: everything below a polled message is accounted for, and the
position is behind it. -/
def Main.Dispatchable (log : ℕ → Option Bytes) (s : Main) : Polled → Prop
  | .message offset => s.position = offset + 1 ∧ s.AccountedTo log offset
  | _ => s.AccountedTo log s.position

theorem Inv.dispatch {s : Main} {msg : Polled} (now : ℤ) (h : s.Dispatchable log msg) :
    Inv log (s.dispatch log now msg) := by
  cases msg with
  | none =>
    unfold Main.dispatch
    simp only
    split_ifs
    · exact Inv.of_position (s := { s with pc := .flush (.timeout now) }) h
        (Or.inr (Or.inr ⟨_, rfl⟩))
    · exact Inv.of_position (s := { s with pc := .poll }) h (Or.inl rfl)
  | error => exact Inv.of_position (s := { s with pc := .poll }) h (Or.inl rfl)
  | message offset =>
    obtain ⟨hpos, hacc⟩ := h
    unfold Main.dispatch
    simp only
    cases hparse : s.processor.parseEvent (log offset) with
    | error e =>
      refine Inv.leave ?_
      rw [hpos]
      exact Accounted.raised hacc (not_wellFormed_of_raised hparse)
    | ok q =>
      obtain ⟨hb, hnew⟩ := parseEvent_batch hparse
      have hq : (s.parsed offset q).AccountedTo log (s.parsed offset q).position := by
        have hparsed := Accounted.parsed hacc hnew
        rw [← hb, ← hpos] at hparsed
        exact hparsed
      simp only
      split_ifs
      · exact Inv.of_position (s := { s.parsed offset q with pc := .flush .size }) hq
          (Or.inr (Or.inr ⟨_, rfl⟩))
      · exact Inv.progress hq

theorem flushBatch_batch {floatRepr : Text → Text} {p : EventProcessor} {reply : Reply}
    {pending : Hash} {b : Bool} (h : (p.flushBatch floatRepr reply pending).outcome = .ok b) :
    (p.flushBatch floatRepr reply pending).processor.batch = [] := by
  unfold EventProcessor.flushBatch at h ⊢
  split_ifs at h ⊢ with hnil
  · exact hnil
  · simp only at h ⊢
    split <;> rename_i henc <;> simp only [henc] at h ⊢
    split_ifs at h ⊢
    rfl

theorem Inv.flush {floatRepr : Text → Text} {s : Main} (h : s.AccountedTo log s.position)
    (site : Site) (reply : Reply) : Inv log (s.flush floatRepr log site reply) := by
  unfold Main.flush
  simp only
  cases hout : (s.processor.flushBatch floatRepr reply s.pending).outcome with
  | error e => cases site <;> first | exact Inv.exit h | exact Inv.leave h
  | ok b =>
    have hb := flushBatch_batch hout
    cases b with
    | true =>
      refine ⟨?_, fun _ _ => rfl, by simp⟩
      have hacc := Accounted.flushed h
      rw [← hb] at hacc
      exact hacc
    | false =>
      have hacc : (s.failed log (s.processor.flushBatch floatRepr reply s.pending)).AccountedTo
          log s.position := by
        have hacc := Accounted.failed h
        rw [← hb] at hacc
        exact hacc
      cases site with
      | timeout now =>
        exact Inv.of_position (s := { s.failed log _ with pc := .poll }) hacc (Or.inl rfl)
      | size => exact Inv.progress hacc
      | final => exact Inv.exit hacc

theorem Inv.commit {s : Main} {site : Site} (h : Inv log s) (hpc : s.pc = .commit site)
    (ok : Bool) (now : ℤ) (hlost : ok = true → s.lost = []) :
    Inv log (s.commit site ok now) := by
  have hsettled : s.AccountedTo log s.position := by
    have hacc := h.accounted
    rwa [Main.settled, hpc] at hacc
  have htag := h.flushed site hpc
  obtain ⟨t, ht, hpos, hacc⟩ : ∃ t, (if ok then { s with committed := s.position } else s) = t ∧
      t.position = s.position ∧ t.AccountedTo log s.position := by
    cases ok with
    | false => exact ⟨s, rfl, rfl, hsettled⟩
    | true =>
      refine ⟨{ s with committed := s.position }, rfl, rfl, ?_⟩
      unfold Main.AccountedTo at hsettled ⊢
      rw [htag, hlost rfl] at hsettled ⊢
      exact hsettled.commit
  rw [← hpos] at hacc
  unfold Main.commit
  simp only [ht]
  cases site with
  | timeout n =>
    exact Inv.of_position (s := { t with batchStartTime := n, pc := .poll }) hacc (Or.inl rfl)
  | size => exact Inv.progress (s := { t with batchStartTime := now }) hacc
  | final => exact Inv.exit hacc

theorem Inv.start {s : Main} (h : Inv log s) (metricsTime batchStartTime : ℤ) :
    Inv log (s.start metricsTime batchStartTime) :=
  Inv.of_position (s := s.start metricsTime batchStartTime) (Accounted.start h.accounted)
    (Or.inl rfl)

/-- A value that has just been polled can be dispatched. -/
theorem Inv.ready {s : Main} {msg : Polled} (h : Inv log s) (hpc : s.pc = .poll)
    (hfits : msg.fits s.position = true) (now : ℤ) : (s.polled msg now).Dispatchable log msg := by
  have hacc := h.accounted
  rw [Main.settled, hpc] at hacc
  cases msg with
  | message offset =>
    obtain rfl : offset = s.position := by simpa [Polled.fits] using hfits
    exact ⟨rfl, hacc⟩
  | none => exact hacc
  | error => exact hacc

/-- While Redis is down it waits for a ping. -/
theorem Inv.down {s : Main} {msg : Polled} (h : Inv log s) (hpc : s.pc = .poll)
    (hfits : msg.fits s.position = true) (now : ℤ) :
    Inv log { s.polled msg now with pc := .ping msg now } := by
  have hready := h.ready hpc hfits now
  refine ⟨?_, by simp, ?_⟩
  · cases msg with
    | message offset => exact hready.2
    | none => exact hready
    | error => exact hready
  · intro offset now' heq
    obtain ⟨rfl, -⟩ := Pc.ping.inj heq
    exact hready.1

/-- The ping does not change that. -/
theorem Inv.pinged {s : Main} {msg : Polled} {now : ℤ} (h : Inv log s)
    (hpc : s.pc = .ping msg now) : s.Dispatchable log msg := by
  have hacc := h.accounted
  rw [Main.settled, hpc] at hacc
  cases msg with
  | message offset => exact ⟨h.polled offset now hpc, hacc⟩
  | none => exact hacc
  | error => exact hacc

theorem Inv.skip {s : Main} {msg : Polled} {now : ℤ} (h : Inv log s) (hpc : s.pc = .ping msg now) :
    Inv log (s.skip log msg) := by
  have hpinged := h.pinged hpc
  refine Inv.of_position ?_ (Or.inl rfl)
  cases msg with
  | message offset =>
    have hskip := Accounted.skip hpinged.2
    rw [← hpinged.1] at hskip
    exact hskip
  | none => exact hpinged
  | error => exact hpinged

/-- Nothing thrown away by the time a commit succeeds. -/
def NothingLost (s : Main) (l : Label) : Prop := ∀ now, l = .commit true now → s.lost = []

/-- **One step**, unless it commits with something lost, keeps the invariant. -/
theorem Inv.step {floatRepr : Text → Text} {s t : Main} {l : Label} (h : Inv log s)
    (hstep : s.step floatRepr log l = some t) (hlost : NothingLost s l) : Inv log t := by
  have hacc := h.accounted
  cases l with
  | poll msg now =>
    simp only [Main.step] at hstep
    split_ifs at hstep with hready hdown
    · obtain ⟨hpc, hfits⟩ := hready
      obtain rfl := Option.some.inj hstep
      exact h.down hpc hfits now
    · obtain ⟨hpc, hfits⟩ := hready
      obtain rfl := Option.some.inj hstep
      exact Inv.dispatch now (h.ready hpc hfits now)
  | stop =>
    simp only [Main.step] at hstep
    split_ifs at hstep with hpc
    rw [Main.settled, hpc] at hacc
    obtain rfl := Option.some.inj hstep
    exact Inv.leave hacc
  | ping ok =>
    simp only [Main.step] at hstep
    split at hstep
    · rename_i msg now hpc
      split_ifs at hstep with hok
      · obtain rfl := Option.some.inj hstep
        exact Inv.dispatch (s := { s with redisDown := false }) now (h.pinged hpc)
      · obtain rfl := Option.some.inj hstep
        exact h.skip hpc
    · simp at hstep
  | flush reply =>
    simp only [Main.step] at hstep
    split at hstep
    · rename_i site hpc
      rw [Main.settled, hpc] at hacc
      obtain rfl := Option.some.inj hstep
      exact Inv.flush hacc site reply
    · simp at hstep
  | commit ok now =>
    simp only [Main.step] at hstep
    split at hstep
    · rename_i site hpc
      obtain rfl := Option.some.inj hstep
      refine h.commit hpc ok now fun hok => hlost now ?_
      rw [hok]
    · simp at hstep
  | hlen ok now =>
    simp only [Main.step] at hstep
    split_ifs at hstep with hpc hraise
    · rw [Main.settled, hpc] at hacc
      obtain rfl := Option.some.inj hstep
      exact Inv.leave (s := { s with lastMetricsTime := now }) hacc
    · rw [Main.settled, hpc] at hacc
      obtain rfl := Option.some.inj hstep
      exact Inv.of_position (s := { s with lastMetricsTime := now, pc := .poll }) hacc (Or.inl rfl)
  | kill =>
    simp only [Main.step] at hstep
    split_ifs at hstep
    obtain rfl := Option.some.inj hstep
    exact Inv.exit hacc
  | start metricsTime batchStartTime =>
    simp only [Main.step] at hstep
    split_ifs at hstep
    obtain rfl := Option.some.inj hstep
    exact h.start metricsTime batchStartTime

@[simp] theorem commit_committed (s : Main) (site : Site) (now : ℤ) :
    (s.commit site true now).committed = s.position := by
  cases site with
  | size =>
    simp only [Main.commit, Main.progress]
    split_ifs <;> rfl
  | _ => rfl

@[simp] theorem commit_executed (s : Main) (site : Site) (ok : Bool) (now : ℤ) :
    (s.commit site ok now).executed = s.executed := by
  cases site with
  | size =>
    simp only [Main.commit, Main.progress]
    split_ifs <;> rfl
  | _ => cases ok <;> rfl

/-- A commit with something lost breaks the promise at once. -/
theorem nothingLost_of_delivered {floatRepr : Text → Text} {s t : Main} {l : Label}
    (h : Inv log s) (hstep : s.step floatRepr log l = some t) (hdel : t.Delivered log) :
    NothingLost s l := by
  rintro now rfl
  simp only [Main.step] at hstep
  split at hstep
  · rename_i site hpc
    obtain rfl := Option.some.inj hstep
    refine List.eq_nil_iff_forall_not_mem.mpr fun offset hmem => ?_
    have hacc := h.accounted
    rw [Main.settled, hpc] at hacc
    obtain ⟨hlt, hopen⟩ := hacc.lost_open offset hmem
    rw [h.flushed site hpc, List.append_nil] at hopen
    have hdone := hdel offset (by rwa [commit_committed])
    rw [commit_executed] at hdone
    exact hopen hdone
  · simp at hstep

theorem Inv.initial (pending : Hash) : Inv log (Main.initial pending) :=
  ⟨⟨by simp [Main.initial], rfl, by simp [Main.settled, Main.initial], by simp [Main.initial],
    by simp [Main.initial], by simp [Main.initial]⟩, by simp [Main.initial], by simp [Main.initial]⟩

/-- **At least once, exactly.**  Over any log and any run, everything below the
committed offset has been executed throughout exactly when no commit succeeds in
a process that has thrown a message away before. -/
theorem delivered_iff_nothing_lost (floatRepr : Text → Text) (log : ℕ → Option Bytes)
    (pending : Hash) (labels : List Label) :
    Always (Main.step floatRepr log) (Main.Delivered log) (Main.initial pending) labels ↔
      Guarded (Main.step floatRepr log) NothingLost (Main.initial pending) labels :=
  always_iff_guarded (I := Inv log) (fun _ h => h.accounted.delivered)
    (fun _ _ _ h hstep hlost => h.step hstep hlost)
    (fun _ _ _ h hstep hdel => nothingLost_of_delivered h hstep hdel) (Inv.initial pending) labels

/-! ## A failed flush, and a later commit -/

/-- Two files change. -/
def twoChanges : ℕ → Option Bytes
  | 0 => some (ascii "\x7b\"ts\":1710000000000,\"event\":\"mtime_change\",\"path\":\"/home/a\",\"hostname\":\"node-001\"\x7d")
  | 1 => some (ascii "\x7b\"ts\":1710000007000,\"event\":\"mtime_change\",\"path\":\"/home/b\",\"hostname\":\"node-001\"\x7d")
  | _ => none

/-- The flush of the first message fails; Redis is back for the second one, whose
flush succeeds and is committed. -/
def failedThenCommitted : List Label :=
  [.start 0 0, .poll (.message 0) 1000000000, .poll .none 6000000000,
    .flush (.redisError false), .poll (.message 1) 7000000000, .ping true,
    .poll .none 8000000000, .flush .ok, .commit true 8000000000]

theorem first_change_skipped :
    ¬ Always (Main.step id twoChanges) (Main.Delivered twoChanges) (Main.initial ∅)
      failedThenCommitted := by
  obtain ⟨t, ht, hcommitted, hexecuted⟩ :
      ∃ t, exec (Main.step id twoChanges) (Main.initial ∅) failedThenCommitted = some t ∧
        t.committed = 2 ∧ t.executed.map Prod.fst = [1] := by
    have hrun : ((exec (Main.step id twoChanges) (Main.initial ∅) failedThenCommitted).map
        fun t => (t.committed, t.executed.map Prod.fst)) = some (2, [1]) := by
      decide +kernel
    obtain ⟨t, ht, hproj⟩ := Option.map_eq_some_iff.mp hrun
    exact ⟨t, ht, congrArg Prod.fst hproj, congrArg Prod.snd hproj⟩
  refine not_always_of_exec ht fun hdel => ?_
  have hwell : wellFormed (twoChanges 0) = some (.mtimeChange (text "/home/a")) := by
    decide +kernel
  have hmem := hdel 0 (by omega) _ hwell _ (List.mem_singleton_self _)
  have h0 : (0 : ℕ) ∈ t.executed.map Prod.fst := List.mem_map_of_mem hmem
  simp [hexecuted] at h0

end Consumer
end FileTracker
