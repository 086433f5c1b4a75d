import FileTracker.Consumer.AtLeastOnce
import Mathlib.Logic.Function.Basic

/-!
# A consumer group

Any number of processes of `consumer/main.py` with the same `group.id`, over any
partitions and one Redis.  The loop of a process is the one of `Consumer.MainLoop`; its
log is what it is handed, out of all partitions, in the order in which it is handed it.
Partitions come and go: `subscribe` is called without callbacks, so a process that loses a
partition keeps what it has batched of it, and one that is given a partition polls from
the committed offset.  `commit` without arguments commits the positions of the partitions
the process has.

Nothing below depends on a partition being with one process at a time.  What the promise
depends on is what `Consumer.AtLeastOnce` says of one process, with two differences.  A
message thrown away does no harm when its partition has gone to another process, which
reads it again, or when somebody has executed it in the meantime.
`delivered_iff_commitSafe` is exact about that.
-/

namespace FileTracker
namespace Consumer

open Runs LastWriter

/-! ## The group -/

/-- The processes, the partitions each has, with the position the client has come to, and
what is in the server and in Redis. -/
structure Group (ι P : Type) where
  member : ι → Main
  started : ι → Bool
  position : ι → P → Option ℕ
  committed : P → ℕ
  pending : Hash

/-- A process starts; it is given a partition, or loses one; it makes a call. -/
inductive GroupLabel (ι P : Type) where
  | start (i : ι) (metricsTime batchStartTime : ℤ)
  | assign (i : ι) (p : P)
  | revoke (i : ι) (p : P)
  | call (i : ι) (l : Label)

/-- No process has run yet. -/
def Group.initial {ι P : Type} (pending : Hash) : Group ι P where
  member _ := .initial pending
  started _ := false
  position _ _ := none
  committed _ := 0
  pending := pending

section Steps

variable {ι P : Type} [DecidableEq ι] [DecidableEq P]

/-- The partition is with the process, whose client stands at the position, or is not. -/
def Group.place (s : Group ι P) (i : ι) (p : P) (position : Option ℕ) : Group ι P :=
  { s with
    position := Function.update s.position i (Function.update (s.position i) p position) }

variable (floatRepr : Text → Text) (logs : P → ℕ → Option Bytes) (feed : ι → ℕ → P × ℕ)

/-- What the process is handed: the message of a partition at an offset. -/
def mergedLog (i : ι) (n : ℕ) : Option Bytes :=
  logs (feed i n).1 (feed i n).2

/-- What a call does in the client and the server.  `poll` hands out the message at the
position of a partition the process has; `commit` commits the positions. -/
def Group.serve (s : Group ι P) (i : ι) : Label → Option (Group ι P)
  | .poll (.message n) _ =>
    if s.position i (feed i n).1 = some (feed i n).2 then
      some (s.place i (feed i n).1 (some ((feed i n).2 + 1)))
    else none
  | .commit true _ =>
    some { s with committed := fun p => (s.position i p).getD (s.committed p) }
  | .start _ _ => none
  | _ => some s

/-- The process has come to `t`.  When it ends, its partitions go.  It has committed
nothing of its own: the committed offsets are the group's. -/
def Group.settle (s : Group ι P) (i : ι) (t : Main) : Group ι P :=
  { s with
    member := Function.update s.member i { t with committed := 0 }
    position :=
      if t.pc = .exited then Function.update s.position i fun _ => none else s.position
    pending := t.pending }

def Group.step (s : Group ι P) : GroupLabel ι P → Option (Group ι P)
  | .start i metricsTime batchStartTime =>
    if s.started i then none
    else
      some { s with
        started := Function.update s.started i true
        member := Function.update s.member i
          ((s.member i).start metricsTime batchStartTime) }
  | .assign i p =>
    if (s.member i).pc = .exited then none else some (s.place i p (some (s.committed p)))
  | .revoke i p => some (s.place i p none)
  | .call i l =>
    (s.serve feed i l).bind fun u =>
      (({ u.member i with pending := u.pending } : Main).step floatRepr (mergedLog logs feed i) l).map
        fun t => u.settle i t

end Steps

/-! ## One process of the group -/

section Member

variable {floatRepr : Text → Text} {log : ℕ → Option Bytes}

/-- The commands of the batch that the server executes. -/
def EventProcessor.sent (floatRepr : Text → Text) (p : EventProcessor) (reply : Reply) :
    List HashCmd :=
  match encodePipeline floatRepr (p.batch.flatMap Action.commands), reply with
  | .ok cmds, .ok => cmds
  | .ok cmds, .redisError true => cmds
  | _, _ => []

theorem flushBatch_pending (p : EventProcessor) (reply : Reply) (pending : Hash) :
    (p.flushBatch floatRepr reply pending).pending = run pending (p.sent floatRepr reply) := by
  unfold EventProcessor.flushBatch EventProcessor.sent
  split_ifs with hnil
  · rw [hnil]
    rcases reply with _ | applied
    · rfl
    · cases applied <;> rfl
  · cases encodePipeline floatRepr (p.batch.flatMap Action.commands) with
    | ok cmds =>
      rcases reply with _ | applied
      · rfl
      · cases applied <;> rfl
    | error e =>
      rcases reply with _ | applied
      · simp only
        split_ifs <;> rfl
      · rfl

/-- A call that raises has sent nothing. -/
theorem sent_of_error {p : EventProcessor} {reply : Reply} {pending : Hash} {e : PyError}
    (h : (p.flushBatch floatRepr reply pending).outcome = .error e) :
    p.sent floatRepr reply = [] := by
  unfold EventProcessor.flushBatch at h
  unfold EventProcessor.sent
  split_ifs at h
  cases henc : encodePipeline floatRepr (p.batch.flatMap Action.commands) with
  | error e => rfl
  | ok cmds =>
    rw [henc] at h
    rcases reply with _ | applied
    · cases h
    · cases applied <;> cases h

/-- The commands on the hash that the server executes in a call. -/
def Main.sent (floatRepr : Text → Text) (s : Main) : Label → List HashCmd
  | .flush reply => s.processor.sent floatRepr reply
  | _ => []

/-- What the others see of a process: its position, what it has executed, and the hash. -/
def Main.outward (s : Main) : ℕ × List (ℕ × Action) × Hash := (s.position, s.executed, s.pending)

/-- What a call makes of that: the position moves on, the hash takes the commands that are
sent, and a flush that succeeds executes the batch. -/
structure Main.Ahead (floatRepr : Text → Text) (s t : Main) (l : Label) : Prop where
  position : s.position ≤ t.position
  pending : t.pending = run s.pending (s.sent floatRepr l)
  executed : t.executed = s.executed ∨ ∃ reply, l = .flush reply ∧
    (s.processor.flushBatch floatRepr reply s.pending).outcome = .ok true ∧
      t.executed = s.executed ++ s.tagged

theorem Main.Ahead.of_outward {s t : Main} {l : Label} (h : t.outward = s.outward)
    (hsent : s.sent floatRepr l = []) : s.Ahead floatRepr t l := by
  obtain ⟨hposition, hrest⟩ := Prod.mk.inj h
  obtain ⟨hexecuted, hpending⟩ := Prod.mk.inj hrest
  exact ⟨hposition.ge, by rw [hsent, hpending, run_nil], Or.inl hexecuted⟩

theorem Main.Ahead.mono {s t : Main} {l : Label} (h : s.Ahead floatRepr t l) :
    ∀ x ∈ s.executed, x ∈ t.executed := by
  intro x hx
  rcases h.executed with heq | ⟨-, -, -, heq⟩
  · exact heq ▸ hx
  · exact heq ▸ List.mem_append_left _ hx

theorem outward_leave (s : Main) : s.leave.outward = s.outward := by
  unfold Main.leave
  split_ifs <;> rfl

theorem outward_progress (s : Main) : s.progress.outward = s.outward := by
  unfold Main.progress
  split_ifs <;> rfl

theorem outward_dispatch (s : Main) (now : ℤ) (msg : Polled) :
    (s.dispatch log now msg).outward = s.outward := by
  cases msg with
  | none =>
    unfold Main.dispatch
    simp only
    split_ifs <;> rfl
  | error => rfl
  | message offset =>
    unfold Main.dispatch
    simp only
    cases s.processor.parseEvent (log offset) with
    | error e => exact outward_leave s
    | ok q =>
      simp only
      split_ifs
      · rfl
      · exact outward_progress (s.parsed offset q)

theorem flush_ahead (s : Main) (site : Site) (reply : Reply) :
    s.Ahead floatRepr (s.flush floatRepr log site reply) (.flush reply) := by
  have hpending : (s.processor.flushBatch floatRepr reply s.pending).pending =
      run s.pending (s.processor.sent floatRepr reply) :=
    flushBatch_pending s.processor reply s.pending
  unfold Main.flush
  simp only
  cases hout : (s.processor.flushBatch floatRepr reply s.pending).outcome with
  | error e =>
    cases site with
    | final => exact .of_outward rfl (sent_of_error hout)
    | _ => exact .of_outward (outward_leave s) (sent_of_error hout)
  | ok b =>
    cases b with
    | true => exact ⟨le_rfl, hpending, Or.inr ⟨reply, rfl, hout, rfl⟩⟩
    | false =>
      cases site with
      | size =>
        obtain ⟨hposition, hrest⟩ := Prod.mk.inj (outward_progress
          (s.failed log (s.processor.flushBatch floatRepr reply s.pending)))
        obtain ⟨hexecuted, hsame⟩ := Prod.mk.inj hrest
        exact ⟨hposition.ge, hsame.trans hpending, Or.inl hexecuted⟩
      | _ => exact ⟨le_rfl, hpending, Or.inl rfl⟩

theorem outward_commit (s : Main) (site : Site) (ok : Bool) (now : ℤ) :
    (s.commit site ok now).outward = s.outward := by
  unfold Main.commit
  cases site with
  | size =>
    refine (outward_progress _).trans ?_
    cases ok <;> rfl
  | _ => cases ok <;> rfl

/-- **One call** takes the process forward. -/
theorem ahead_of_step {s t : Main} {l : Label} (hstart : ∀ m b, l ≠ .start m b)
    (hstep : s.step floatRepr log l = some t) : s.Ahead floatRepr t l := by
  cases l with
  | poll msg now =>
    have hpolled : s.position ≤ (s.polled msg now).position := by
      simp only [Main.step] at hstep
      split_ifs at hstep with hready <;>
      · cases msg with
        | message offset =>
          obtain rfl : offset = s.position := by simpa [Polled.fits] using hready.2
          exact Nat.le_succ _
        | _ => exact le_rfl
    simp only [Main.step] at hstep
    split_ifs at hstep with hready hdown
    · obtain rfl := Option.some.inj hstep
      exact ⟨hpolled, rfl, Or.inl rfl⟩
    · obtain rfl := Option.some.inj hstep
      have hdispatch : ((s.polled msg now).dispatch log now msg).outward =
          (s.polled msg now).outward := outward_dispatch _ now msg
      obtain ⟨hposition, hrest⟩ := Prod.mk.inj hdispatch
      obtain ⟨hexecuted, hpending⟩ := Prod.mk.inj hrest
      exact ⟨hpolled.trans hposition.ge, hpending, Or.inl hexecuted⟩
  | stop =>
    simp only [Main.step] at hstep
    split_ifs at hstep
    obtain rfl := Option.some.inj hstep
    exact .of_outward (outward_leave s) rfl
  | ping ok =>
    simp only [Main.step] at hstep
    split at hstep
    · split_ifs at hstep
      · obtain rfl := Option.some.inj hstep
        exact .of_outward (outward_dispatch _ _ _) rfl
      · obtain rfl := Option.some.inj hstep
        exact .of_outward rfl rfl
    · cases hstep
  | flush reply =>
    simp only [Main.step] at hstep
    split at hstep
    · obtain rfl := Option.some.inj hstep
      exact flush_ahead s _ reply
    · cases hstep
  | commit ok now =>
    simp only [Main.step] at hstep
    split at hstep
    · obtain rfl := Option.some.inj hstep
      exact .of_outward (outward_commit s _ ok now) rfl
    · cases hstep
  | hlen ok now =>
    simp only [Main.step] at hstep
    split_ifs at hstep
    · obtain rfl := Option.some.inj hstep
      exact .of_outward (outward_leave _) rfl
    · obtain rfl := Option.some.inj hstep
      exact .of_outward rfl rfl
  | kill =>
    simp only [Main.step] at hstep
    split_ifs at hstep
    obtain rfl := Option.some.inj hstep
    exact .of_outward rfl rfl
  | start m b => exact absurd rfl (hstart m b)

/-- A process that has ended makes no calls. -/
theorem step_eq_none_of_exited {s : Main} {l : Label} (hpc : s.pc = .exited)
    (hstart : ∀ m b, l ≠ .start m b) : s.step floatRepr log l = none := by
  cases l with
  | start m b => exact absurd rfl (hstart m b)
  | _ => simp [Main.step, hpc]

/-- A polled message is at the position, and the position moves behind it. -/
theorem position_of_polled {s t : Main} {n : ℕ} {now : ℤ}
    (hstep : s.step floatRepr log (.poll (.message n) now) = some t) :
    s.position = n ∧ t.position = n + 1 := by
  simp only [Main.step] at hstep
  split_ifs at hstep with hready hdown
  · obtain rfl : n = s.position := by simpa [Polled.fits] using hready.2
    obtain rfl := Option.some.inj hstep
    exact ⟨rfl, rfl⟩
  · obtain rfl : n = s.position := by simpa [Polled.fits] using hready.2
    obtain rfl := Option.some.inj hstep
    exact ⟨rfl, congrArg Prod.fst
      (outward_dispatch (s.polled (.message s.position) now) now (.message s.position))⟩

/-- The invariant of the loop does not look at the hash, and holds as well of a process
that has committed nothing. -/
theorem Inv.uncommitted {s : Main} (h : Inv log s) (pending : Hash) :
    Inv log { s with pending := pending, committed := 0 } :=
  ⟨{ h.accounted with delivered := by simp }, h.flushed, h.polled⟩

/-- Whether a commit succeeds makes no difference to the process. -/
theorem commit_true_eq (s : Main) (site : Site) (now : ℤ) :
    ({ s.commit site true now with committed := 0 } : Main) =
      { s.commit site false now with committed := 0 } := by
  cases site with
  | size =>
    simp only [Main.commit, Main.progress]
    split_ifs <;> rfl
  | _ => rfl

/-- **One call** keeps the invariant of the loop, with the committed offset left out. -/
theorem Inv.call {s t : Main} {l : Label} (h : Inv log s)
    (hstep : s.step floatRepr log l = some t) : Inv log { t with committed := 0 } := by
  by_cases hcommit : ∃ now, l = .commit true now
  · obtain ⟨now, rfl⟩ := hcommit
    simp only [Main.step] at hstep
    split at hstep
    · rename_i site hpc
      obtain rfl := Option.some.inj hstep
      rw [commit_true_eq]
      exact (h.commit hpc false now (by simp)).uncommitted _
    · cases hstep
  · have ht := h.step hstep (by rintro now rfl; exact absurd ⟨now, rfl⟩ hcommit)
    exact ht.uncommitted t.pending

end Member

/-! ## The promise -/

section Promise

variable {ι P : Type} (logs : P → ℕ → Option Bytes) (feed : ι → ℕ → P × ℕ)

/-- The commands of the message, if it is well formed, are among the executed ones of
some process. -/
def Group.Done (s : Group ι P) (p : P) (offset : ℕ) : Prop :=
  ∀ m, wellFormed (logs p offset) = some m → ∀ a ∈ m.actions,
    ∃ i n, feed i n = (p, offset) ∧ (n, a) ∈ (s.member i).executed

/-- **At least once**: below the committed offset of every partition, everything well
formed has been executed by a successful flush of some process. -/
def Group.Delivered (s : Group ι P) : Prop :=
  ∀ p, ∀ offset < s.committed p, s.Done logs feed p offset

/-- When a commit of a process succeeds, what the process has thrown away is not below a
position it commits, or has been executed by somebody. -/
def CommitSafe (s : Group ι P) (l : GroupLabel ι P) : Prop :=
  ∀ i now, l = .call i (.commit true now) → ∀ n ∈ (s.member i).lost, ∀ position,
    s.position i (feed i n).1 = some position → (feed i n).2 < position →
      s.Done logs feed (feed i n).1 (feed i n).2

/-- The invariant of the group: below the position of a process in a partition,
everything has been executed or has been handed to this process. -/
structure GroupInv (s : Group ι P) : Prop where
  member : ∀ i, Inv (mergedLog logs feed i) (s.member i)
  handed : ∀ i p position, s.position i p = some position → ∀ offset < position,
    s.Done logs feed p offset ∨ ∃ n < (s.member i).position, feed i n = (p, offset)
  delivered : s.Delivered logs feed
  fresh : ∀ i, s.started i = false → (s.member i).pc = .exited
  gone : ∀ i, (s.member i).pc = .exited → ∀ p, s.position i p = none

variable {logs feed}

theorem Group.Done.mono {s t : Group ι P} {p : P} {offset : ℕ} (h : s.Done logs feed p offset)
    (hsub : ∀ i, ∀ x ∈ (s.member i).executed, x ∈ (t.member i).executed) :
    t.Done logs feed p offset := by
  intro m hm a ha
  obtain ⟨i, n, hfeed, hmem⟩ := h m hm a ha
  exact ⟨i, n, hfeed, hsub i _ hmem⟩

theorem executed_start [DecidableEq ι] (s : Group ι P) (i : ι) (metricsTime batchStartTime : ℤ)
    (j : ι) : ∀ x ∈ (s.member j).executed, x ∈ (Function.update s.member i
      ((s.member i).start metricsTime batchStartTime) j).executed := by
  intro x hx
  by_cases hj : j = i
  · subst hj
    simpa [Main.start] using hx
  · simpa [hj] using hx

/-- What one process has done is done. -/
theorem Group.Done.of_member {s : Group ι P} {i : ι} {n : ℕ}
    (h : Consumer.Done (mergedLog logs feed i) (s.member i).executed n) :
    s.Done logs feed (feed i n).1 (feed i n).2 :=
  fun m hm a ha => ⟨i, n, rfl, h m hm a ha⟩

theorem GroupInv.initial (pending : Hash) :
    GroupInv logs feed (Group.initial pending : Group ι P) where
  member _ := .initial pending
  handed _ _ _ h := by simp [Group.initial] at h
  delivered _ _ h := by simp [Group.initial] at h
  fresh _ _ := rfl
  gone _ _ _ := rfl

/-- A commit commits nothing below which something is missing, if it is safe. -/
theorem GroupInv.commit {s : Group ι P} (h : GroupInv logs feed s) {i : ι} {site : Site}
    {now : ℤ} (hpc : (s.member i).pc = .commit site)
    (hsafe : CommitSafe logs feed s (.call i (.commit true now))) {p : P} {position : ℕ}
    (hposition : s.position i p = some position) {offset : ℕ} (hlt : offset < position) :
    s.Done logs feed p offset := by
  rcases h.handed i p position hposition offset hlt with hdone | ⟨n, hn, hfeed⟩
  · exact hdone
  · have hacc := (h.member i).accounted
    rw [Main.settled, hpc] at hacc
    have htag := (h.member i).flushed site hpc
    obtain ⟨rfl, rfl⟩ := Prod.mk.inj hfeed
    rcases hacc.placed n hn with hdone | hlost
    · rw [htag, List.append_nil] at hdone
      exact .of_member hdone
    · exact hsafe i now rfl n hlost position hposition hlt

section Steps

variable [DecidableEq ι] [DecidableEq P]

/-- A partition is given to a process, which polls from the committed offset, or taken from
it. -/
theorem GroupInv.place {s : Group ι P} (h : GroupInv logs feed s) (i : ι) (p : P)
    {position : Option ℕ} (hposition : ∀ x, position = some x → ∀ offset < x,
      s.Done logs feed p offset ∨ ∃ n < (s.member i).position, feed i n = (p, offset))
    (hgone : (s.member i).pc = .exited → position = none) :
    GroupInv logs feed (s.place i p position) where
  member := h.member
  handed j q x hx offset hlt := by
    by_cases hj : j = i
    · subst hj
      by_cases hq : q = p
      · subst hq
        exact hposition x (by simpa [Group.place] using hx) offset hlt
      · exact h.handed j q x (by simpa [Group.place, hq] using hx) offset hlt
    · exact h.handed j q x (by simpa [Group.place, hj] using hx) offset hlt
  delivered := h.delivered
  fresh := h.fresh
  gone j hpc q := by
    have hnone := h.gone j hpc q
    by_cases hj : j = i
    · subst hj
      by_cases hq : q = p
      · subst hq
        simpa [Group.place] using hgone hpc
      · simpa [Group.place, hq] using hnone
    · simpa [Group.place, hj] using hnone

omit [DecidableEq P] in
theorem GroupInv.start {s : Group ι P} (h : GroupInv logs feed s) {i : ι}
    (hfresh : s.started i = false) (metricsTime batchStartTime : ℤ) :
    GroupInv logs feed { s with
      started := Function.update s.started i true
      member := Function.update s.member i
        ((s.member i).start metricsTime batchStartTime) } where
  member j := by
    by_cases hj : j = i
    · subst hj
      simpa using (h.member j).start metricsTime batchStartTime
    · simpa [hj] using h.member j
  handed j p x hx offset hlt := by
    have hji : j ≠ i := by
      rintro rfl
      have hnone := h.gone j (h.fresh j hfresh) p
      simp [hnone] at hx
    simp only [Function.update_of_ne hji]
    exact (h.handed j p x hx offset hlt).imp_left fun hd => hd.mono (executed_start s i _ _)
  delivered p offset hlt := (h.delivered p offset hlt).mono (executed_start s i _ _)
  fresh j hj := by
    by_cases hji : j = i
    · subst hji
      simp at hj
    · simpa [hji] using h.fresh j (by simpa [hji] using hj)
  gone j hpc p := by
    by_cases hji : j = i
    · subst hji
      exact h.gone j (h.fresh j hfresh) p
    · exact h.gone j (by simpa [hji] using hpc) p

/-- What a call does in the client and the server, seen from the processes: nothing. -/
theorem serve_eq {s u : Group ι P} {i : ι} {l : Label} (h : s.serve feed i l = some u) :
    u.member = s.member ∧ u.started = s.started ∧ u.pending = s.pending ∧
      (∀ j, j ≠ i → u.position j = s.position j) ∧ ∀ m b, l ≠ .start m b := by
  unfold Group.serve at h
  split at h
  · split_ifs at h
    obtain rfl := Option.some.inj h
    exact ⟨rfl, rfl, rfl, fun j hj => by simp [Group.place, hj], by simp⟩
  · obtain rfl := Option.some.inj h
    exact ⟨rfl, rfl, rfl, fun _ _ => rfl, by simp⟩
  · cases h
  · rename_i hstart
    obtain rfl := Option.some.inj h
    exact ⟨rfl, rfl, rfl, fun _ _ => rfl, fun m b hl => hstart m b hl⟩

variable {floatRepr : Text → Text}

/-- Behind a call, a process has been handed what is below its positions. -/
theorem GroupInv.handed_serve {s u : Group ι P} (h : GroupInv logs feed s) {i : ι} {l : Label}
    {r t : Main} (hserve : s.serve feed i l = some u) (hr : r.position = (s.member i).position)
    (hstep : r.step floatRepr (mergedLog logs feed i) l = some t) {p : P} {x : ℕ}
    (hx : u.position i p = some x) {offset : ℕ} (hlt : offset < x) :
    s.Done logs feed p offset ∨ ∃ n < t.position, feed i n = (p, offset) := by
  have hahead := ahead_of_step (serve_eq hserve).2.2.2.2 hstep
  have hold : ∀ y, s.position i p = some y → offset < y →
      s.Done logs feed p offset ∨ ∃ n < t.position, feed i n = (p, offset) := by
    intro y hy hlt
    refine (h.handed i p y hy offset hlt).imp_right ?_
    rintro ⟨n, hn, hfeed⟩
    exact ⟨n, (hr ▸ hn).trans_le hahead.position, hfeed⟩
  unfold Group.serve at hserve
  split at hserve
  · rename_i n now
    split_ifs at hserve with hposition
    obtain rfl := Option.some.inj hserve
    by_cases hp : p = (feed i n).1
    · subst hp
      obtain rfl : (feed i n).2 + 1 = x := by simpa [Group.place] using hx
      rcases Nat.lt_succ_iff_lt_or_eq.mp hlt with hlt | rfl
      · exact hold _ hposition hlt
      · exact Or.inr ⟨n, by rw [(position_of_polled hstep).2]; exact n.lt_succ_self, rfl⟩
    · exact hold x (by simpa [Group.place, hp] using hx) hlt
  · obtain rfl := Option.some.inj hserve
    exact hold x hx hlt
  · cases hserve
  · obtain rfl := Option.some.inj hserve
    exact hold x hx hlt

/-- Behind a call, the promise holds of the committed offsets, if the call is safe. -/
theorem GroupInv.delivered_serve {s u : Group ι P} (h : GroupInv logs feed s) {i : ι}
    {l : Label} {r t : Main} (hserve : s.serve feed i l = some u) (hr : r.pc = (s.member i).pc)
    (hstep : r.step floatRepr (mergedLog logs feed i) l = some t)
    (hsafe : CommitSafe logs feed s (.call i l)) {p : P} {offset : ℕ}
    (hlt : offset < u.committed p) : s.Done logs feed p offset := by
  unfold Group.serve at hserve
  split at hserve
  · split_ifs at hserve
    obtain rfl := Option.some.inj hserve
    exact h.delivered p offset hlt
  · obtain rfl := Option.some.inj hserve
    simp only [Main.step] at hstep
    split at hstep
    · rename_i site hpc
      rw [hr] at hpc
      cases hposition : s.position i p with
      | none =>
        simp only [hposition, Option.getD_none] at hlt
        exact h.delivered p offset hlt
      | some position =>
        simp only [hposition, Option.getD_some] at hlt
        exact h.commit hpc hsafe hposition hlt
    · cases hstep
  · cases hserve
  · obtain rfl := Option.some.inj hserve
    exact h.delivered p offset hlt

/-- **One call** of a process, unless it is an unsafe commit, keeps the invariant. -/
theorem GroupInv.call {s u : Group ι P} (h : GroupInv logs feed s) {i : ι} {l : Label} {t : Main}
    (hserve : s.serve feed i l = some u)
    (hstep : ({ u.member i with pending := u.pending } : Main).step floatRepr
      (mergedLog logs feed i) l = some t)
    (hsafe : CommitSafe logs feed s (.call i l)) : GroupInv logs feed (u.settle i t) := by
  obtain ⟨hmember, hstarted, -, hothers, hstart⟩ := serve_eq hserve
  rw [hmember] at hstep
  have hahead := ahead_of_step hstart hstep
  have hmono : ∀ {p offset}, s.Done logs feed p offset →
      (u.settle i t).Done logs feed p offset := by
    refine fun hd => hd.mono fun j x hx => ?_
    by_cases hj : j = i
    · subst hj
      simpa [Group.settle] using hahead.mono x hx
    · simpa [Group.settle, hj, hmember] using hx
  refine ⟨fun j => ?_, fun j p x hx offset hlt => ?_, fun p offset hlt => ?_, fun j hj => ?_,
    fun j hpc p => ?_⟩
  · by_cases hj : j = i
    · subst hj
      have hi : Inv (mergedLog logs feed j) { s.member j with pending := u.pending } :=
        ⟨(h.member j).accounted, (h.member j).flushed, (h.member j).polled⟩
      simpa [Group.settle] using hi.call hstep
    · simpa [Group.settle, hj, hmember] using h.member j
  · by_cases hj : j = i
    · subst hj
      have hu : u.position j p = some x := by
        simp only [Group.settle] at hx
        split_ifs at hx
        · simp at hx
        · exact hx
      have hhanded := h.handed_serve (r := { s.member j with pending := u.pending }) hserve rfl
        hstep hu hlt
      simpa [Group.settle] using hhanded.imp_left hmono
    · have hs : s.position j p = some x := by
        simp only [Group.settle] at hx
        split_ifs at hx
        · rwa [Function.update_of_ne hj, hothers j hj] at hx
        · rwa [hothers j hj] at hx
      simpa [Group.settle, hj, hmember] using (h.handed j p x hs offset hlt).imp_left hmono
  · exact hmono (h.delivered_serve (r := { s.member i with pending := u.pending }) hserve rfl hstep
      hsafe hlt)
  · by_cases hji : j = i
    · subst hji
      have hpc : ({ s.member j with pending := u.pending } : Main).pc = .exited :=
        h.fresh j (by rwa [← hstarted])
      rw [step_eq_none_of_exited hpc hstart] at hstep
      cases hstep
    · simpa [Group.settle, hji, hmember] using h.fresh j (by rwa [← hstarted])
  · by_cases hji : j = i
    · subst hji
      have ht : t.pc = .exited := by simpa [Group.settle] using hpc
      simp [Group.settle, ht]
    · have hs := h.gone j (by simpa [Group.settle, hji, hmember] using hpc) p
      simp only [Group.settle]
      split_ifs
      · rwa [Function.update_of_ne hji, hothers j hji]
      · rwa [hothers j hji]

/-- **One step** of the group, unless it is an unsafe commit, keeps the invariant. -/
theorem GroupInv.step {s t : Group ι P} {l : GroupLabel ι P} (h : GroupInv logs feed s)
    (hstep : s.step floatRepr logs feed l = some t) (hsafe : CommitSafe logs feed s l) :
    GroupInv logs feed t := by
  cases l with
  | start i metricsTime batchStartTime =>
    simp only [Group.step] at hstep
    split_ifs at hstep with hstarted
    obtain rfl := Option.some.inj hstep
    exact h.start (by simpa using hstarted) metricsTime batchStartTime
  | assign i p =>
    simp only [Group.step] at hstep
    split_ifs at hstep with hpc
    obtain rfl := Option.some.inj hstep
    refine h.place i p (fun x hx offset hlt => Or.inl ?_) fun hexited => absurd hexited hpc
    obtain rfl := Option.some.inj hx
    exact h.delivered p offset hlt
  | revoke i p =>
    obtain rfl := Option.some.inj hstep
    exact h.place i p (fun x hx => by cases hx) fun _ => rfl
  | call i l =>
    obtain ⟨u, hserve, hmap⟩ := Option.bind_eq_some_iff.mp hstep
    obtain ⟨t', ht, rfl⟩ := Option.map_eq_some_iff.mp hmap
    exact h.call hserve ht hsafe

/-- A commit that is not safe breaks the promise at once. -/
theorem commitSafe_of_delivered {s t : Group ι P} {l : GroupLabel ι P}
    (hstep : s.step floatRepr logs feed l = some t) (hdel : t.Delivered logs feed) :
    CommitSafe logs feed s l := by
  rintro i now rfl n hn x hx hlt
  rw [Group.step] at hstep
  obtain ⟨u, hserve, hmap⟩ := Option.bind_eq_some_iff.mp hstep
  obtain ⟨r, hr, rfl⟩ := Option.map_eq_some_iff.mp hmap
  obtain rfl := Option.some.inj hserve
  have hdone := hdel (feed i n).1 (feed i n).2 (by simpa [Group.settle, hx] using hlt)
  refine hdone.mono fun j y hy => ?_
  simp only [Main.step] at hr
  split at hr
  · obtain rfl := Option.some.inj hr
    by_cases hj : j = i
    · subst hj
      simpa [Group.settle] using hy
    · simpa [Group.settle, hj] using hy
  · cases hr

end Steps

end Promise

/-! ## Runs of the group -/

/-- Redis has not failed the process: nothing is thrown away, and it waits for no ping. -/
structure Main.Clean (s : Main) : Prop where
  lost : s.lost = []
  up : s.redisDown = false
  pc : ∀ msg now, s.pc ≠ .ping msg now

section Clean

variable {floatRepr : Text → Text} {log : ℕ → Option Bytes}

theorem Main.Clean.leave {s : Main} (h : s.Clean) : s.leave.Clean := by
  unfold Main.leave
  split_ifs
  · exact ⟨h.lost, h.up, by simp⟩
  · exact ⟨rfl, h.up, by simp [Main.exit]⟩

theorem Main.Clean.progress {s : Main} (h : s.Clean) : s.progress.Clean := by
  unfold Main.progress
  split_ifs <;> exact ⟨h.lost, h.up, by simp⟩

theorem Main.Clean.dispatch {s : Main} (h : s.Clean) (now : ℤ) (msg : Polled) :
    (s.dispatch log now msg).Clean := by
  cases msg with
  | none =>
    unfold Main.dispatch
    simp only
    split_ifs <;> exact ⟨h.lost, h.up, by simp⟩
  | error => exact ⟨h.lost, h.up, by simp [Main.dispatch]⟩
  | message offset =>
    unfold Main.dispatch
    simp only
    cases s.processor.parseEvent (log offset) with
    | error e => exact h.leave
    | ok q =>
      simp only
      split_ifs
      · exact ⟨h.lost, h.up, by simp⟩
      · exact Main.Clean.progress (s := s.parsed offset q) ⟨h.lost, h.up, h.pc⟩

/-- **One call** of a process leaves it so, unless `flush_batch` returns `False`. -/
theorem Main.Clean.step {s t : Main} {l : Label} (h : s.Clean)
    (hstep : s.step floatRepr log l = some t)
    (hsucceed : ∀ reply, l = .flush reply →
      (s.processor.flushBatch floatRepr reply s.pending).outcome ≠ .ok false) : t.Clean := by
  cases l with
  | poll msg now =>
    simp only [Main.step] at hstep
    split_ifs at hstep with hready hdown
    · rw [h.up] at hdown
      cases hdown
    · obtain rfl := Option.some.inj hstep
      exact Main.Clean.dispatch (s := s.polled msg now) ⟨h.lost, h.up, h.pc⟩ now msg
  | stop =>
    simp only [Main.step] at hstep
    split_ifs at hstep
    obtain rfl := Option.some.inj hstep
    exact h.leave
  | ping ok =>
    simp only [Main.step] at hstep
    split at hstep
    · rename_i hpc
      exact absurd hpc (h.pc _ _)
    · cases hstep
  | flush reply =>
    simp only [Main.step] at hstep
    split at hstep
    · rename_i site hpc
      obtain rfl := Option.some.inj hstep
      unfold Main.flush
      simp only
      cases hout : (s.processor.flushBatch floatRepr reply s.pending).outcome with
      | error e =>
        cases site with
        | final => exact ⟨rfl, h.up, by simp [Main.exit]⟩
        | _ => exact h.leave
      | ok b =>
        cases b with
        | true => exact ⟨h.lost, h.up, by simp⟩
        | false => exact absurd hout (hsucceed reply rfl)
    · cases hstep
  | commit ok now =>
    simp only [Main.step] at hstep
    split at hstep
    · rename_i site hpc
      obtain rfl := Option.some.inj hstep
      have hcommitted : ∀ u : Main, u = (if ok then { s with committed := s.position } else s) →
          u.lost = [] ∧ u.redisDown = false := by
        rintro u rfl
        cases ok <;> exact ⟨h.lost, h.up⟩
      obtain ⟨hlost, hup⟩ := hcommitted _ rfl
      unfold Main.commit
      cases site with
      | timeout n => exact ⟨hlost, hup, by simp⟩
      | size =>
        refine Main.Clean.progress ⟨hlost, hup, fun msg now' => ?_⟩
        cases ok <;> simp [hpc]
      | final => exact ⟨rfl, hup, by simp [Main.exit]⟩
    · cases hstep
  | hlen ok now =>
    simp only [Main.step] at hstep
    split_ifs at hstep
    · obtain rfl := Option.some.inj hstep
      exact Main.Clean.leave (s := { s with lastMetricsTime := now }) ⟨h.lost, h.up, h.pc⟩
    · obtain rfl := Option.some.inj hstep
      exact ⟨h.lost, h.up, by simp⟩
  | kill =>
    simp only [Main.step] at hstep
    split_ifs at hstep
    obtain rfl := Option.some.inj hstep
    exact ⟨rfl, h.up, by simp [Main.exit]⟩
  | start m b =>
    simp only [Main.step] at hstep
    split_ifs at hstep
    obtain rfl := Option.some.inj hstep
    exact ⟨rfl, rfl, by simp [Main.start]⟩

end Clean

section Runs

variable {ι P : Type} [DecidableEq ι] [DecidableEq P] (floatRepr : Text → Text)
  (logs : P → ℕ → Option Bytes) (feed : ι → ℕ → P × ℕ)

/-- **At least once in a group, exactly.**  Over any partitions, any processes and any
rebalancing, everything below the committed offsets has been executed throughout exactly
when every successful commit is safe: what its process has thrown away has gone to
another process, or has been executed by one. -/
theorem delivered_iff_commitSafe (pending : Hash) (labels : List (GroupLabel ι P)) :
    Always (Group.step floatRepr logs feed) (Group.Delivered logs feed) (.initial pending)
        labels ↔
      Guarded (Group.step floatRepr logs feed) (CommitSafe logs feed) (.initial pending)
        labels :=
  always_iff_guarded (I := GroupInv logs feed) (fun _ h => h.delivered)
    (fun _ _ _ h hstep hsafe => h.step hstep hsafe)
    (fun _ _ _ _ hstep hdel => commitSafe_of_delivered hstep hdel) (.initial pending) labels

variable {floatRepr logs feed}

/-- No call of `flush_batch` returns `False`. -/
def FlushesSucceed (floatRepr : Text → Text) (s : Group ι P) : GroupLabel ι P → Prop
  | .call i (.flush reply) =>
    ((s.member i).processor.flushBatch floatRepr reply s.pending).outcome ≠ .ok false
  | _ => True

instance (s : Group ι P) : DecidablePred (FlushesSucceed floatRepr s)
  | .call i (.flush reply) =>
    inferInstanceAs (Decidable
      (((s.member i).processor.flushBatch floatRepr reply s.pending).outcome ≠ .ok false))
  | .call _ (.poll _ _) | .call _ .stop | .call _ (.ping _) | .call _ (.commit _ _)
  | .call _ (.hlen _ _) | .call _ .kill | .call _ (.start _ _)
  | .start _ _ _ | .assign _ _ | .revoke _ _ => isTrue trivial

theorem clean_of_step {s t : Group ι P} {l : GroupLabel ι P} (h : ∀ i, (s.member i).Clean)
    (hstep : s.step floatRepr logs feed l = some t) (hsucceed : FlushesSucceed floatRepr s l) :
    ∀ i, (t.member i).Clean := by
  have hupdate : ∀ (i : ι) (r : Main), r.Clean → ∀ j, (Function.update s.member i r j).Clean := by
    intro i r hr j
    by_cases hj : j = i
    · subst hj
      simpa using hr
    · simpa [hj] using h j
  cases l with
  | start i metricsTime batchStartTime =>
    simp only [Group.step] at hstep
    split_ifs at hstep
    obtain rfl := Option.some.inj hstep
    exact hupdate i _ ⟨rfl, rfl, by simp [Main.start]⟩
  | assign i p =>
    simp only [Group.step] at hstep
    split_ifs at hstep
    obtain rfl := Option.some.inj hstep
    exact h
  | revoke i p =>
    obtain rfl := Option.some.inj hstep
    exact h
  | call i l =>
    rw [Group.step] at hstep
    obtain ⟨u, hserve, hmap⟩ := Option.bind_eq_some_iff.mp hstep
    obtain ⟨r, hr, rfl⟩ := Option.map_eq_some_iff.mp hmap
    obtain ⟨hmember, -, hpending, -⟩ := serve_eq hserve
    rw [hmember, hpending] at hr
    have hi : ({ s.member i with pending := s.pending } : Main).Clean :=
      ⟨(h i).lost, (h i).up, (h i).pc⟩
    have hclean : r.Clean := hi.step hr (by rintro reply rfl; exact hsucceed)
    simp only [Group.settle, hmember]
    exact hupdate i _ ⟨hclean.lost, hclean.up, hclean.pc⟩

omit [DecidableEq ι] [DecidableEq P] in
/-- A process that has thrown nothing away commits safely. -/
theorem commitSafe_of_clean {s : Group ι P} (h : ∀ i, (s.member i).Clean) (l : GroupLabel ι P) :
    CommitSafe logs feed s l := by
  rintro i now rfl n hn
  rw [(h i).lost] at hn
  cases hn

omit [DecidableEq ι] [DecidableEq P] in
theorem clean_initial (pending : Hash) :
    ∀ i, ((Group.initial pending : Group ι P).member i).Clean :=
  fun _ => ⟨rfl, rfl, by simp [Group.initial, Main.initial]⟩

/-- **While Redis takes every batch**, no partition that comes or goes, no process that is
killed and no commit that fails makes the group commit what it has not executed. -/
theorem delivered_of_flushesSucceed {pending : Hash} {labels : List (GroupLabel ι P)}
    (hflush : Guarded (Group.step floatRepr logs feed) (FlushesSucceed floatRepr)
      (.initial pending) labels) :
    Always (Group.step floatRepr logs feed) (Group.Delivered logs feed) (.initial pending)
      labels := by
  have hsafe : Guarded (Group.step floatRepr logs feed) (CommitSafe logs feed)
      (.initial pending) labels :=
    hflush.imp_of_invariant (I := fun s => ∀ i, (s.member i).Clean)
      (fun _ _ _ h hstep hsucceed => clean_of_step h hstep hsucceed)
      (fun _ l h _ => commitSafe_of_clean h l) (clean_initial pending)
  exact (always_of_guarded (fun _ _ _ h hstep hG => GroupInv.step h hstep hG)
    (.initial pending) hsafe).imp fun s h => h.delivered

/-- A process loses its partition with a message in its batch.  Another one reads the
message again and commits, and the first flushes what it has and commits nothing. -/
def handover : List (GroupLabel ℕ ℕ) :=
  [.start 0 0 0, .assign 0 0, .call 0 (.poll (.message 0) 1000000000), .revoke 0 0,
    .start 1 0 0, .assign 1 0, .call 1 (.poll (.message 0) 2000000000),
    .call 1 (.poll (.message 1) 3000000000), .call 1 (.poll .none 6000000000),
    .call 1 (.flush .ok), .call 1 (.commit true 6000000000),
    .call 0 (.poll .none 7000000000), .call 0 (.flush .ok), .call 0 (.commit true 7000000000)]

theorem delivered_of_flushesSucceed_handover :
    ((exec (Group.step id (fun _ => twoChanges) fun _ n => ((0 : ℕ), n)) (.initial ∅)
        handover).map fun s => (s.committed 0, (s.member 0).executed.length,
          (s.member 1).executed.length)) = some (2, 1, 2) ∧
      Always (Group.step id (fun _ => twoChanges) fun _ n => ((0 : ℕ), n))
        (Group.Delivered (fun _ => twoChanges) fun _ n => (0, n)) (.initial ∅) handover :=
  ⟨by decide +kernel, delivered_of_flushesSucceed (by decide +kernel)⟩

end Runs

end Consumer
end FileTracker
