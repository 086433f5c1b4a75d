import FileTracker.Library.Simulation
import FileTracker.Backup.Lock
import FileTracker.Backup.NoLoss

/-!
# Backup and prune on several nodes

`main` of `backup/prune.py` and `run_backup` of `backup/backup.py` on any number of
nodes, over one Redis: the lock, the two hashes, and in every process what it does
between taking the lock and its `finally` block.  Commands of different processes come
in any order, consumers flush in between, a process may die anywhere.

Nothing stops a process whose lock has expired, and `not_kept_overtaken` shows what
comes of it: its `DELETE` hits a `processing` that another process has just swapped
in.  `InTime` says that a process's commands come while its acquisition has not
expired.  Under it the whole cluster is one backup process that is started again and
again, the machine of `Backup.Run`: the processes' commands take effect in the same
order there, with an abort where a new process takes the lock of one that is still at
work.  What `Backup.NoLoss` says of that machine then holds of the cluster.
-/

namespace FileTracker
namespace Backup

open Runs LastWriter Consumer

/-! ## The processes -/

/-- Where a process is: it does not have the lock; it is between `acquire_lock` and its
`finally` block, where a backup is at a command of `_run_backup_inner`; it has come to
`release_lock`. -/
inductive Stage where
  | outside
  | running (pc : Pc)
  | finished

/-- The command of `_run_backup_inner` the process has come to. -/
def Stage.pc : Stage → Pc
  | .running pc => pc
  | _ => .idle

/-- The stage of a process that has just made a step of `_run_backup_inner`. -/
def Stage.after : Pc → Stage
  | .idle => .finished
  | pc => .running pc

@[simp] theorem Stage.pc_outside : Stage.outside.pc = .idle := rfl

@[simp] theorem Stage.pc_running (pc : Pc) : (Stage.running pc).pc = pc := rfl

@[simp] theorem Stage.pc_finished : Stage.finished.pc = .idle := rfl

@[simp] theorem Stage.pc_after (pc : Pc) : (Stage.after pc).pc = pc := by
  cases pc <;> rfl

/-- The lock and the hashes in Redis, and the processes. -/
structure Cluster (ι : Type) where
  lock : LockState ι
  pending : Hash
  processing : Hash
  lastRun : Option LastRun
  stage : ι → Stage

/-- Time passes; a consumer flushes; a process tries to acquire the lock; a backup
process makes a step of `_run_backup_inner`; `prune_all_repos` returns or raises; a
process executes its `finally` block; a process dies, with the command it has come to
executed on the server or not. -/
inductive ClusterLabel (ι : Type) where
  | tick (ms : ℕ)
  | flush (cmds : List HashCmd)
  | acquire (p : ι)
  | run (p : ι) (l : Label)
  | prune (p : ι)
  | release (p : ι)
  | crash (p : ι) (applied : Bool)

/-- The label is a step of the run, not of a consumer. -/
def Label.own : Label → Bool
  | .flush _ => false
  | _ => true

section Steps

variable {ι : Type}

/-- The hashes as a run at `pc` finds them. -/
def Cluster.view (s : Cluster ι) (pc : Pc) : State :=
  ⟨s.pending, s.processing, s.lastRun, pc⟩

variable [DecidableEq ι] (program : ι → Program) (nodeId : ι → Text)

/-- A process has left the hashes as in `t`. -/
def Cluster.put (s : Cluster ι) (p : ι) (t : State) (stage : Stage) : Cluster ι :=
  { s with
    pending := t.pending
    processing := t.processing
    lastRun := t.lastRun
    stage := Function.update s.stage p stage }

/-- What a process that dies has done to the hashes. -/
def Cluster.die (s : Cluster ι) (p : ι) : Bool → Option (Cluster ι)
  | true =>
    ((s.view (s.stage p).pc).step (.abort true)).map fun t => s.put p t .outside
  | false => some { s with stage := Function.update s.stage p .outside }

def Cluster.step (s : Cluster ι) : ClusterLabel ι → Option (Cluster ι)
  | .tick ms => some { s with lock := { s.lock with now := s.lock.now + ms } }
  | .flush cmds => some { s with pending := LastWriter.run s.pending cmds }
  | .acquire p =>
    (s.lock.step program nodeId (.acquire p)).map fun lock =>
      { s with
        lock := lock
        stage := Function.update s.stage p
          (if lock.proc p = .idle then .outside else .running .idle) }
  | .run p l =>
    match s.stage p with
    | .running pc =>
      if program p = .backup ∧ l.own then
        ((s.view pc).step l).map fun t => s.put p t (.after t.pc)
      else none
    | _ => none
  | .prune p =>
    match s.stage p with
    | .running _ =>
      if program p = .prune then
        some { s with stage := Function.update s.stage p .finished }
      else none
    | _ => none
  | .release p =>
    match s.stage p with
    | .finished =>
      (s.lock.step program nodeId (.release p)).map fun lock =>
        { s with lock := lock, stage := Function.update s.stage p .outside }
    | _ => none
  | .crash p applied =>
    (s.lock.step program nodeId (.crash p)).bind fun lock =>
      (s.die p applied).map fun t => { t with lock := lock }

end Steps

variable {ι : Type}

def Cluster.initial : Cluster ι := ⟨.initial, ∅, ∅, none, fun _ => .outside⟩

/-- Nobody is at work. -/
structure Cluster.AtRest (s : Cluster ι) : Prop where
  honest : s.lock.stolen = false
  idle : ∀ p, s.lock.proc p = .idle
  outside : ∀ p, s.stage p = .outside

/-- What a process does between `acquire_lock` and the end of its `finally` block, it does
while its acquisition has not expired.  A `finally` block that finds no unexpired lock
does no harm either. -/
def InTime (s : Cluster ι) : ClusterLabel ι → Prop
  | .run p _ => s.lock.Holds p
  | .release p => s.lock.Holds p ∨ s.lock.live = none
  | .crash p true => s.lock.Holds p
  | _ => True

instance (s : LockState ι) (p : ι) : Decidable (s.Holds p) :=
  match h : s.proc p with
  | .idle => isFalse fun ⟨since, hp, _⟩ => by simp [h] at hp
  | .critical since => decidable_of_iff (s.now < since + LOCK_TTL) (by simp [LockState.Holds, h])

instance (s : Cluster ι) : DecidablePred (InTime s)
  | .run p _ => inferInstanceAs (Decidable (s.lock.Holds p))
  | .release p => inferInstanceAs (Decidable (s.lock.Holds p ∨ s.lock.live = none))
  | .crash p true => inferInstanceAs (Decidable (s.lock.Holds p))
  | .crash _ false | .tick _ | .flush _ | .acquire _ | .prune _ => isTrue trivial

/-! ## The cluster is one backup process -/

/-- The commands that take effect, with the processes left out. -/
def ClusterLabel.seen : ClusterLabel ι → List Label
  | .flush cmds => [.flush cmds]
  | .run _ (.abort false) => []
  | .run _ l => [l]
  | .crash _ true => [.abort true]
  | _ => []

/-- The same of the single process. -/
def Label.seen : Label → List Label
  | .abort false => []
  | l => [l]

theorem seen_run (p : ι) (l : Label) : (ClusterLabel.run p l).seen = l.seen := by
  rcases l with _ | _ | _ | _ | _ | _ | _ | _ | _ | applied
  case abort => cases applied <;> rfl
  all_goals rfl

/-- The step takes the path out of `pending`, or deletes `processing` after its process
has dealt with the path. -/
def TakesOut (path : Text) (s : Cluster ι) : ClusterLabel ι → Prop
  | .flush cmds => Removes path (s.view .idle) (.flush cmds)
  | .run p l => Removes path (s.view (s.stage p).pc) l ∨ Discards path (s.view (s.stage p).pc) l
  | .crash p true => Discards path (s.view (s.stage p).pc) (.abort true)
  | _ => False

/-- The single process loses sight of the path. -/
def LetsGo (path : Text) (s : State) (l : Label) : Prop :=
  Removes path s l ∨ Discards path s l

/-- How the single process stands for the cluster: the hashes are the same, and the
process that holds the lock is at the same command. -/
structure Agrees (program : ι → Program) (s : Cluster ι) (a : State) : Prop where
  lock : LockInv s.lock
  pending : a.pending = s.pending
  processing : a.processing = s.processing
  lastRun : a.lastRun = s.lastRun
  prune : ∀ p, program p = .prune → (s.stage p).pc = .idle
  pc : ∀ p, s.lock.Holds p → a.pc = (s.stage p).pc

theorem Agrees.initial {program : ι → Program} {s : Cluster ι} (h : s.AtRest) :
    Agrees program s (s.view .idle) where
  lock := ⟨h.honest, by simp [h.idle], by simp [h.idle]⟩
  pending := rfl
  processing := rfl
  lastRun := rfl
  prune p _ := by rw [h.outside, Stage.pc_outside]
  pc p _ := by rw [h.outside, Stage.pc_outside, Cluster.view]

/-- To the process that holds the lock, the single process is itself. -/
theorem Agrees.eq_view {program : ι → Program} {s : Cluster ι} {a : State}
    (h : Agrees program s a) {p : ι} (hp : s.lock.Holds p) : a = s.view (s.stage p).pc := by
  obtain ⟨pending, processing, lastRun, pc⟩ := a
  obtain rfl : pending = s.pending := h.pending
  obtain rfl : processing = s.processing := h.processing
  obtain rfl : lastRun = s.lastRun := h.lastRun
  obtain rfl : pc = (s.stage p).pc := h.pc p hp
  rfl

/-! ### One step of the lock -/

section Lock

variable [DecidableEq ι] {program : ι → Program} {nodeId : ι → Text}

/-- Who acquires the lock is the only one to hold it, and nobody held it before. -/
theorem holds_acquire {s t : LockState ι} {p : ι} (h : LockInv s)
    (hstep : s.step program nodeId (.acquire p) = some t) :
    (t = s ∧ t.proc p = .idle) ∨
      (t.proc p ≠ .idle ∧ (∀ q, ¬ s.Holds q) ∧ ∀ q, t.Holds q → q = p) := by
  simp only [LockState.step] at hstep
  split_ifs at hstep with hidle
  obtain rfl := Option.some.inj hstep
  unfold LockState.acquireLock LockState.setNx
  cases hlive : s.live with
  | some k => exact Or.inl ⟨rfl, hidle⟩
  | none =>
    have hnobody : ∀ q, ¬ s.Holds q := by
      rintro q ⟨since, hq, hlt⟩
      obtain ⟨k, hk, -⟩ := h.recorded q since hq hlt
      rw [hlive] at hk
      cases hk
    refine Or.inr ⟨by simp, hnobody, ?_⟩
    rintro q ⟨since, hq, hlt⟩
    by_contra hne
    refine hnobody q ⟨since, ?_, hlt⟩
    simpa [Function.update_of_ne hne] using hq

/-- Who leaves does not hold the lock any more, and everybody else does as before. -/
theorem holds_leave (s : LockState ι) {t : LockState ι} {p q : ι}
    (hproc : t.proc = Function.update s.proc p .idle) (hnow : t.now = s.now)
    (h : t.Holds q) : q ≠ p ∧ s.Holds q := by
  obtain ⟨since, hq, hlt⟩ := h
  rw [hproc] at hq
  by_cases hqp : q = p
  · rw [hqp, Function.update_self] at hq
    cases hq
  · rw [Function.update_of_ne hqp] at hq
    exact ⟨hqp, since, hq, hnow ▸ hlt⟩

theorem holds_release {s t : LockState ι} {p q : ι}
    (hstep : s.step program nodeId (.release p) = some t) (h : t.Holds q) : q ≠ p ∧ s.Holds q := by
  simp only [LockState.step] at hstep
  split_ifs at hstep
  have hproc := congrArg LockState.proc (Option.some.inj hstep)
  exact holds_leave s hproc.symm (congrArg LockState.now (Option.some.inj hstep)).symm h

theorem holds_crash {s t : LockState ι} {p q : ι}
    (hstep : s.step program nodeId (.crash p) = some t) (h : t.Holds q) : q ≠ p ∧ s.Holds q := by
  simp only [LockState.step] at hstep
  split_ifs at hstep
  have hproc := congrArg LockState.proc (Option.some.inj hstep)
  exact holds_leave s hproc.symm (congrArg LockState.now (Option.some.inj hstep)).symm h

end Lock

/-! ### One step of the cluster -/

section Simulation

variable [DecidableEq ι] {program : ι → Program} {nodeId : ι → Text}

theorem not_letsGo_abort (path : Text) (a : State) : ¬ LetsGo path a (.abort false) := by
  rintro (⟨pre, post, hsent, -⟩ | ⟨hl, -⟩)
  · simp [State.sent] at hsent
  · simp at hl

/-- The pipeline of a run takes nothing out. -/
theorem del_notMem_retry (path : Text) (a : State) : (.del path : HashCmd) ∉ a.retry := by
  unfold State.retry
  split
  · simp [PoolResult.retryCommands]
  · exact List.not_mem_nil

/-- A stage that changes for one process, which comes to the command the single process
is at, or is not the holder. -/
theorem Agrees.update {s : Cluster ι} {a : State} (h : Agrees program s a) {lock : LockState ι}
    (p : ι) (t : State) (stage : Stage) (hlock : LockInv lock)
    (hprune : program p = .prune → stage.pc = .idle)
    (hself : lock.Holds p → t.pc = stage.pc)
    (hothers : ∀ q, q ≠ p → lock.Holds q → t.pc = (s.stage q).pc) :
    Agrees program { s.put p t stage with lock := lock } t where
  lock := hlock
  pending := rfl
  processing := rfl
  lastRun := rfl
  prune q hq := by
    by_cases hqp : q = p
    · subst hqp
      simpa [Cluster.put] using hprune hq
    · simpa [Cluster.put, Function.update_of_ne hqp] using h.prune q hq
  pc q hq := by
    by_cases hqp : q = p
    · subst hqp
      simpa [Cluster.put] using hself hq
    · simpa [Cluster.put, Function.update_of_ne hqp] using hothers q hqp hq

/-- What the single process does when the cluster makes a step in time. -/
def Matched (program : ι → Program) (s t : Cluster ι) (l : ClusterLabel ι) (a : State) : Prop :=
  ∃ ms b, exec State.step a ms = some b ∧ Agrees program t b ∧ ms.flatMap Label.seen = l.seen ∧
    ∀ path, ¬ TakesOut path s l → Guarded State.step (fun a m => ¬ LetsGo path a m) a ms

omit [DecidableEq ι] in
/-- It may do nothing. -/
theorem Matched.stutter {s t : Cluster ι} {l : ClusterLabel ι} {a : State}
    (h : Agrees program t a) (hsee : l.seen = []) : Matched program s t l a :=
  ⟨[], a, rfl, h, hsee.symm, fun _ _ => trivial⟩

omit [DecidableEq ι] in
/-- It may make one step. -/
theorem Matched.single {s t : Cluster ι} {l : ClusterLabel ι} {a b : State} {m : Label}
    (hstep : a.step m = some b) (h : Agrees program t b) (hsee : m.seen = l.seen)
    (hkeep : ∀ path, LetsGo path a m → TakesOut path s l) : Matched program s t l a := by
  refine ⟨[m], b, by rw [exec_cons, hstep]; rfl, h, by simpa using hsee, fun path hout => ?_⟩
  exact fun t _ => ⟨fun hgo => hout (hkeep path hgo), trivial⟩

omit [DecidableEq ι] in
theorem matched_tick {s : Cluster ι} {a : State} (h : Agrees program s a) (ms : ℕ) :
    Matched program s { s with lock := { s.lock with now := s.lock.now + ms } } (.tick ms) a := by
  refine .stutter { h with lock := h.lock.tick ms, pc := ?_ } rfl
  rintro p ⟨since, hp, hlt⟩
  exact h.pc p ⟨since, hp, by simp only at hlt; omega⟩

omit [DecidableEq ι] in
theorem matched_flush {s : Cluster ι} {a : State} (h : Agrees program s a)
    (cmds : List HashCmd) :
    Matched program s { s with pending := LastWriter.run s.pending cmds } (.flush cmds) a := by
  have hstep : a.step (.flush cmds) = some { a with pending := LastWriter.run a.pending cmds } :=
    rfl
  refine .single hstep { h with pending := ?_ } rfl fun path hgo => ?_
  · rw [h.pending]
  · rcases hgo with ⟨pre, post, hsent, hin, hpost⟩ | ⟨hl, -⟩
    · exact ⟨pre, post, hsent, by rwa [h.pending] at hin, hpost⟩
    · simp at hl

/-- A process that takes the lock finds the single process at rest, or at a command of a
process that has lost the lock, and then the single process is aborted. -/
theorem matched_acquire {s : Cluster ι} {a : State} (h : Agrees program s a) {p : ι}
    {lock : LockState ι} (hstep : s.lock.step program nodeId (.acquire p) = some lock) :
    Matched program s { s with
      lock := lock
      stage := Function.update s.stage p
        (if lock.proc p = .idle then .outside else .running .idle) } (.acquire p) a := by
  have hinv : LockInv lock := h.lock.step hstep (by intro q hq; cases hq)
  have hstage : (if lock.proc p = .idle then Stage.outside else .running .idle).pc = .idle := by
    split_ifs <;> rfl
  have hagrees : ∀ b : State, b.pending = a.pending → b.processing = a.processing →
      b.lastRun = a.lastRun → (lock.Holds p → b.pc = .idle) →
      (∀ q, q ≠ p → lock.Holds q → b.pc = (s.stage q).pc) →
      Agrees program { s with
        lock := lock
        stage := Function.update s.stage p
          (if lock.proc p = .idle then .outside else .running .idle) } b := by
    intro b hpending hprocessing hlastRun hself hothers
    have hb := h.update p b _ hinv (fun _ => hstage) (fun hp => by rw [hself hp, hstage]) hothers
    simpa [Cluster.put, hpending, hprocessing, hlastRun, h.pending, h.processing, h.lastRun] using hb
  rcases holds_acquire h.lock hstep with ⟨rfl, hidle⟩ | ⟨hcrit, hnobody, honly⟩
  · refine .stutter (hagrees a rfl rfl rfl ?_ fun q _ hq => h.pc q hq) rfl
    rintro ⟨since, hp, -⟩
    rw [hidle] at hp
    cases hp
  · have hothers : ∀ q (b : State), q ≠ p → lock.Holds q → b.pc = (s.stage q).pc :=
      fun q _ hqp hq => absurd (honly q hq) hqp
    by_cases hpc : a.pc = .idle
    · exact .stutter (hagrees a rfl rfl rfl (fun _ => hpc) fun q => hothers q a) rfl
    · have habort : a.step (.abort false) = some { a with pc := .idle } := by
        unfold State.step
        split <;> simp_all
      refine .single habort (hagrees _ rfl rfl rfl (fun _ => rfl) fun q => hothers q _) rfl ?_
      intro path hgo
      exact absurd hgo (not_letsGo_abort path a)

/-- A step of the process that holds the lock is a step of the single process. -/
theorem matched_run {s t : Cluster ι} {a : State} (h : Agrees program s a) {p : ι} {l : Label}
    (hstep : s.step program nodeId (.run p l) = some t) (hp : s.lock.Holds p) :
    Matched program s t (.run p l) a := by
  have ha := h.eq_view hp
  simp only [Cluster.step] at hstep
  split at hstep
  · rename_i pc hstage
    split_ifs at hstep with hown
    obtain ⟨b, hb, rfl⟩ := Option.map_eq_some_iff.mp hstep
    rw [hstage, Stage.pc_running] at ha
    have hagrees : Agrees program { s.put p b (.after b.pc) with lock := s.lock } b := by
      refine h.update p b _ h.lock (fun hprune => ?_) (fun _ => (Stage.pc_after b.pc).symm) ?_
      · rw [hown.1] at hprune
        cases hprune
      · exact fun q hqp hq => absurd (h.lock.safe.2 q p hq hp) hqp
    refine .single (ha ▸ hb) hagrees (seen_run p l).symm fun path hgo => ?_
    simpa only [TakesOut, LetsGo, ha, hstage, Stage.pc_running] using hgo
  · cases hstep

theorem matched_prune {s t : Cluster ι} {a : State} (h : Agrees program s a) {p : ι}
    (hstep : s.step program nodeId (.prune p) = some t) : Matched program s t (.prune p) a := by
  simp only [Cluster.step] at hstep
  split at hstep
  · split_ifs at hstep with hprune
    obtain rfl := Option.some.inj hstep
    have hb := h.update p a .finished h.lock (fun _ => rfl)
      (fun hp => by rw [h.pc p hp, h.prune p hprune, Stage.pc_finished]) (fun q _ hq => h.pc q hq)
    refine .stutter ?_ rfl
    simpa [Cluster.put, h.pending, h.processing, h.lastRun] using hb
  · cases hstep

theorem matched_release {s t : Cluster ι} {a : State} (h : Agrees program s a) {p : ι}
    (hstep : s.step program nodeId (.release p) = some t)
    (htime : s.lock.Holds p ∨ s.lock.live = none) : Matched program s t (.release p) a := by
  simp only [Cluster.step] at hstep
  split at hstep
  · obtain ⟨lock, hlock, rfl⟩ := Option.map_eq_some_iff.mp hstep
    have hinv : LockInv lock := by
      refine h.lock.step hlock ?_
      rintro q hq
      obtain rfl := LockLabel.release.inj hq
      exact htime
    have hb := h.update p a .outside hinv (fun _ => rfl)
      (fun hp => absurd rfl (holds_release hlock hp).1)
      (fun q _ hq => h.pc q (holds_release hlock hq).2)
    refine .stutter ?_ rfl
    simpa [Cluster.put, h.pending, h.processing, h.lastRun] using hb
  · cases hstep

/-- A process that dies holding the lock takes the single process along, if its command
takes effect. -/
theorem matched_crash {s t : Cluster ι} {a : State} (h : Agrees program s a) {p : ι}
    {applied : Bool} (hstep : s.step program nodeId (.crash p applied) = some t)
    (htime : applied = true → s.lock.Holds p) : Matched program s t (.crash p applied) a := by
  simp only [Cluster.step] at hstep
  obtain ⟨lock, hlock, hdie⟩ := Option.bind_eq_some_iff.mp hstep
  obtain ⟨u, hu, rfl⟩ := Option.map_eq_some_iff.mp hdie
  have hinv : LockInv lock := h.lock.step hlock (by intro q hq; cases hq)
  cases applied with
  | false =>
    obtain rfl := Option.some.inj hu
    have hb := h.update p a .outside hinv (fun _ => rfl)
      (fun hp => absurd rfl (holds_crash hlock hp).1)
      (fun q _ hq => h.pc q (holds_crash hlock hq).2)
    refine .stutter ?_ rfl
    simpa [Cluster.put, h.pending, h.processing, h.lastRun] using hb
  | true =>
    have hp := htime rfl
    obtain ⟨b, hb, rfl⟩ := Option.map_eq_some_iff.mp hu
    have hnobody : ∀ q, ¬ lock.Holds q := by
      intro q hq
      obtain ⟨hqp, hq⟩ := holds_crash hlock hq
      exact hqp (h.lock.safe.2 q p hq hp)
    have hagrees := h.update p b .outside hinv (fun _ => rfl)
      (fun hq => absurd hq (hnobody p)) (fun q _ hq => absurd hq (hnobody q))
    refine .single (h.eq_view hp ▸ hb) hagrees rfl fun path hgo => ?_
    rw [h.eq_view hp] at hgo
    rcases hgo with ⟨pre, post, hsent, -⟩ | hdiscard
    · have hretry : (s.view (s.stage p).pc).retry = pre ++ .del path :: post := hsent
      have hmem : .del path ∈ (s.view (s.stage p).pc).retry := by simp [hretry]
      exact absurd hmem (del_notMem_retry path _)
    · exact hdiscard

theorem matched_of_step {s t : Cluster ι} {l : ClusterLabel ι} {a : State}
    (h : Agrees program s a) (hstep : s.step program nodeId l = some t) (htime : InTime s l) :
    Matched program s t l a := by
  cases l with
  | tick ms => exact Option.some.inj hstep ▸ matched_tick h ms
  | flush cmds => exact Option.some.inj hstep ▸ matched_flush h cmds
  | acquire p =>
    obtain ⟨lock, hlock, rfl⟩ := Option.map_eq_some_iff.mp hstep
    exact matched_acquire h hlock
  | run p l => exact matched_run h hstep htime
  | prune p => exact matched_prune h hstep
  | release p => exact matched_release h hstep htime
  | crash p applied =>
    refine matched_crash h hstep ?_
    rintro rfl
    exact htime

end Simulation

/-! ## Runs of the cluster -/

section Runs

variable [DecidableEq ι] (program : ι → Program) (nodeId : ι → Text)

/-- The cluster in time, as an instance of the simulation rule. -/
theorem simulation : Simulation (Cluster.step program nodeId) State.step InTime
    (fun _ _ => True) (Agrees program) ClusterLabel.seen Label.seen where
  matched s l t a h hstep htime := by
    obtain ⟨ms, b, hms, hagrees, hseen, -⟩ := matched_of_step h hstep htime
    exact ⟨ms, b, hms, guarded_true a ms, hagrees, hseen⟩

/-- The same, followed with an eye on one path. -/
theorem simulation_keeping (path : Text) : Simulation (Cluster.step program nodeId) State.step
    (fun s l => InTime s l ∧ ¬ TakesOut path s l) (fun a m => ¬ LetsGo path a m)
    (Agrees program) ClusterLabel.seen Label.seen where
  matched s l t a h hstep hg := by
    obtain ⟨ms, b, hms, hagrees, hseen, hkeep⟩ := matched_of_step h hstep hg.1
    exact ⟨ms, b, hms, hkeep path hg.2, hagrees, hseen⟩

variable {program nodeId}

/-- **The cluster is serial.**  In a run of any number of processes whose commands come in
time, the commands that take effect do so in an order in which one backup process,
started again and again, executes them, and the hashes end up the same. -/
theorem serial_of_inTime {start t : Cluster ι} {labels : List (ClusterLabel ι)}
    (hstart : start.AtRest)
    (hrun : exec (Cluster.step program nodeId) start labels = some t)
    (htime : Guarded (Cluster.step program nodeId) InTime start labels) :
    ∃ ms a, exec State.step (start.view .idle) ms = some a ∧
      a.pending = t.pending ∧ a.processing = t.processing ∧ a.lastRun = t.lastRun ∧
      ms.flatMap Label.seen = labels.flatMap ClusterLabel.seen := by
  obtain ⟨ms, a, hms, -, hagrees, hseen⟩ :=
    (simulation program nodeId).exec (Agrees.initial hstart) hrun htime
  exact ⟨ms, a, hms, hagrees.pending, hagrees.processing, hagrees.lastRun, hseen⟩

def homeConfig : BackupConfig :=
  ⟨text "/home", 1, ⟨some (text "minio:9000"), some (text "backup"), false⟩⟩

/-- A backup swaps the hashes and is still at work when its lock expires; a second node takes
over and deals with what the first has left in `processing`. -/
def takeover : List (ClusterLabel ℕ) :=
  [.acquire 0, .run 0 (.start homeConfig), .run 0 .exists, .run 0 .rename, .tick 7200000,
    .acquire 1, .run 1 (.start homeConfig), .run 1 .exists, .run 1 (.hscan [text "/home/u/f"] 0)]

theorem serial_of_inTime_takeover :
    ∃ t, exec (Cluster.step (fun _ : ℕ => .backup) fun _ => []) .initial
        (.flush [.set (text "/home/u/f") (text "rename")] :: takeover) = some t ∧
      ∃ ms a, exec State.step ((.initial : Cluster ℕ).view .idle) ms = some a ∧
        a.pending = t.pending ∧ a.processing = t.processing ∧ a.lastRun = t.lastRun ∧
        ms.flatMap Label.seen = (.flush [.set (text "/home/u/f") (text "rename")] ::
          takeover).flatMap ClusterLabel.seen := by
  have hrun : (exec (Cluster.step (fun _ : ℕ => .backup) fun _ => []) .initial
      (.flush [.set (text "/home/u/f") (text "rename")] :: takeover)).isSome := by
    decide +kernel
  obtain ⟨t, ht⟩ := Option.isSome_iff_exists.mp hrun
  exact ⟨t, ht, serial_of_inTime ⟨rfl, fun _ => rfl, fun _ => rfl⟩ ht (by decide +kernel)⟩

/-- What the single process has established at the end of a run in time, the cluster has. -/
theorem runInv_of_inTime {start t : Cluster ι} {labels : List (ClusterLabel ι)}
    (hstart : start.AtRest)
    (hrun : exec (Cluster.step program nodeId) start labels = some t)
    (htime : Guarded (Cluster.step program nodeId) InTime start labels) :
    ∃ a, Agrees program t a ∧ RunInv a :=
  (simulation program nodeId).invariant (fun _ _ _ h hstep _ => h.step hstep)
    (Agrees.initial hstart) trivial hrun htime

/-- How the process that holds the lock comes to the `DELETE` with failed repositories: by its
restore; and while it is there, only flushes take effect. -/
theorem Cluster.step_deleting {s t : Cluster ι} {l : ClusterLabel ι} (hlock : LockInv s.lock)
    (hstep : s.step program nodeId l = some t) (htime : InTime s l) {p : ι} {cfg : BackupConfig}
    {scan : Scan} {res : PoolResult} (hp : t.lock.Holds p)
    (hstage : t.stage p = .running (.deleting cfg scan res)) (hfail : res.failedRepos ≠ []) :
    (l = .run p .restore ∧ s.stage p = .running (.restoring cfg scan res)) ∨
      (s.lock.Holds p ∧ s.stage p = .running (.deleting cfg scan res) ∧
        ∀ m ∈ l.seen, ∃ cmds, m = .flush cmds) := by
  cases l with
  | tick ms =>
    obtain rfl := Option.some.inj hstep
    obtain ⟨since, hsince, hlt⟩ := hp
    exact Or.inr ⟨⟨since, hsince, by simp only at hlt; omega⟩, hstage, nofun⟩
  | flush cmds =>
    obtain rfl := Option.some.inj hstep
    exact Or.inr ⟨hp, hstage, fun m hm => ⟨cmds, List.mem_singleton.mp hm⟩⟩
  | acquire q =>
    obtain ⟨lock, hacquire, rfl⟩ := Option.map_eq_some_iff.mp hstep
    by_cases hpq : p = q
    · subst hpq
      simp only [Function.update_self] at hstage
      split_ifs at hstage
      cases hstage
    · simp only [Function.update_of_ne hpq] at hstage
      rcases holds_acquire hlock hacquire with ⟨rfl, -⟩ | ⟨-, -, honly⟩
      · exact Or.inr ⟨hp, hstage, nofun⟩
      · exact absurd (honly p hp) hpq
  | run q k =>
    simp only [Cluster.step] at hstep
    split at hstep
    · rename_i pc hpc
      split_ifs at hstep with hown
      obtain ⟨b, hb, rfl⟩ := Option.map_eq_some_iff.mp hstep
      obtain rfl : q = p := hlock.safe.2 q p htime hp
      simp only [Cluster.put, Function.update_self] at hstage
      have hbpc : b.pc = .deleting cfg scan res := by
        rw [← Stage.pc_after b.pc, hstage, Stage.pc_running]
      rcases Backup.step_deleting hb hbpc with ⟨-, cmds, rfl⟩ | ⟨hrest, rfl⟩ | ⟨-, hnil⟩
      · cases hown.2
      · obtain rfl : pc = .restoring cfg scan res := hrest
        exact Or.inl ⟨rfl, hpc⟩
      · exact absurd hnil hfail
    · cases hstep
  | prune q =>
    simp only [Cluster.step] at hstep
    split at hstep
    · split_ifs at hstep
      obtain rfl := Option.some.inj hstep
      by_cases hpq : p = q
      · subst hpq
        simp only [Function.update_self] at hstage
        cases hstage
      · simp only [Function.update_of_ne hpq] at hstage
        exact Or.inr ⟨hp, hstage, nofun⟩
    · cases hstep
  | release q =>
    simp only [Cluster.step] at hstep
    split at hstep
    · obtain ⟨lock, hrelease, rfl⟩ := Option.map_eq_some_iff.mp hstep
      obtain ⟨hpq, hbefore⟩ := holds_release hrelease hp
      simp only [Function.update_of_ne hpq] at hstage
      exact Or.inr ⟨hbefore, hstage, nofun⟩
    · cases hstep
  | crash q applied =>
    obtain ⟨lock, hcrash, hdie⟩ := Option.bind_eq_some_iff.mp hstep
    obtain ⟨u, hu, rfl⟩ := Option.map_eq_some_iff.mp hdie
    obtain ⟨hpq, hbefore⟩ := holds_crash hcrash hp
    cases applied with
    | true => exact absurd (hlock.safe.2 p q hbefore htime) hpq
    | false =>
      obtain rfl := Option.some.inj hu
      simp only [Function.update_of_ne hpq] at hstage
      exact Or.inr ⟨hbefore, hstage, nofun⟩

/-- A process that is about to delete `processing` with failed repositories has restored, and
since then only flushes have taken effect. -/
theorem Cluster.restored_of_deleting {start t : Cluster ι} {labels : List (ClusterLabel ι)}
    (hstart : start.AtRest) (hrun : exec (Cluster.step program nodeId) start labels = some t)
    (htime : Guarded (Cluster.step program nodeId) InTime start labels) {p : ι}
    {cfg : BackupConfig} {scan : Scan} {res : PoolResult} (hp : t.lock.Holds p)
    (hstage : t.stage p = .running (.deleting cfg scan res)) (hfail : res.failedRepos ≠ []) :
    ∃ before after u, labels = before ++ .run p .restore :: after ∧
      exec (Cluster.step program nodeId) start before = some u ∧
        u.stage p = .running (.restoring cfg scan res) ∧
          ∀ l ∈ after, ∀ m ∈ l.seen, ∃ cmds, m = .flush cmds := by
  induction labels using List.reverseRecOn generalizing t with
  | nil =>
    rw [← Option.some.inj hrun, hstart.outside] at hstage
    cases hstage
  | append_singleton labels l ih =>
    rw [exec_append] at hrun
    obtain ⟨s, hs, hlast⟩ := Option.bind_eq_some_iff.mp hrun
    rw [exec_cons] at hlast
    obtain ⟨u, hu, hend⟩ := Option.bind_eq_some_iff.mp hlast
    obtain rfl := Option.some.inj hend
    obtain ⟨hbefore, hnow⟩ := (guarded_append _ _ _).mp htime
    obtain ⟨a, ha, -⟩ := runInv_of_inTime hstart hs hbefore
    rcases Cluster.step_deleting ha.lock hu (hnow s hs u hu).1 hp hstage hfail with
      ⟨rfl, hrest⟩ | ⟨hp, hstage, hflush⟩
    · exact ⟨labels, [], s, rfl, hs, hrest, nofun⟩
    · obtain ⟨before, after, v, rfl, hv, hvstage, hafter⟩ := ih hs hbefore hp hstage
      refine ⟨before, after ++ [l], v, by simp, hv, hvstage, fun k hk => ?_⟩
      rcases List.mem_append.mp hk with hk | hk
      · exact hafter k hk
      · exact List.mem_singleton.mp hk ▸ hflush

/-- **The cluster loses no pending path.**  In a run of any number of processes whose
commands come in time, a path in `pending` is in one of the hashes until a consumer takes
it out or a process deletes `processing` having dealt with it; a process that comes to
`RENAME` finds no `processing`; and one that comes to `DELETE` finds there what it has
dealt with, and what its restore has put back, behind which only flushes have taken
effect. -/
theorem no_path_lost_of_inTime {start s t : Cluster ι} {before after : List (ClusterLabel ι)}
    (hstart : start.AtRest)
    (hbefore : exec (Cluster.step program nodeId) start before = some s)
    (hafter : exec (Cluster.step program nodeId) s after = some t)
    (htime : Guarded (Cluster.step program nodeId) InTime start (before ++ after)) :
    (∀ path ∈ s.pending, Guarded (Cluster.step program nodeId)
        (fun s l => ¬ TakesOut path s l) s after → path ∈ t.pending ∨ path ∈ t.processing) ∧
      (∀ p cfg, t.lock.Holds p → t.stage p = .running (.swapping cfg) → t.processing = ∅) ∧
      ∀ p cfg scan res, t.lock.Holds p → t.stage p = .running (.deleting cfg scan res) →
        ∀ path ∈ t.processing, Found cfg scan res path ∨
          (path ∈ res.failedPaths scan.tasks ∧
            ∃ pre post u, before ++ after = pre ++ .run p .restore :: post ∧
              exec (Cluster.step program nodeId) start pre = some u ∧
                Puts path (u.view (u.stage p).pc) .restore ∧
                  ∀ l ∈ post, ∀ m ∈ l.seen, ∃ cmds, m = .flush cmds) := by
  obtain ⟨htime₁, htime₂⟩ := (guarded_append _ _ _).mp htime
  obtain ⟨a, ha, hinv⟩ := runInv_of_inTime hstart hbefore htime₁
  have hrun : exec (Cluster.step program nodeId) start (before ++ after) = some t := by
    rw [exec_append, hbefore]
    exact hafter
  obtain ⟨b, hb, hinvb⟩ := runInv_of_inTime hstart hrun htime
  refine ⟨fun path hpath hkeep => ?_, fun p cfg hp hstage => ?_,
    fun p cfg scan res hp hstage path hpath => ?_⟩
  · have hkept : RunInv a ∧ Kept path a := ⟨hinv, Or.inl (ha.pending ▸ hpath)⟩
    obtain ⟨c, hc, -, hkept⟩ := (simulation_keeping program nodeId path).invariant
      (P := fun a => RunInv a ∧ Kept path a)
      (fun a m b h hstep hgo => ⟨h.1.step hstep,
        h.2.step h.1 hstep (fun hr => hgo (Or.inl hr)) fun hd => hgo (Or.inr hd)⟩)
      ha hkept hafter ((htime₂ s hbefore).and hkeep)
    rw [← hc.pending, ← hc.processing]
    exact hkept.imp_right And.left
  · have hpc := hb.pc p hp
    rw [hstage, Stage.pc_running] at hpc
    rw [← hb.processing]
    simpa only [RunInv, hpc] using hinvb
  · have hpc := hb.pc p hp
    rw [hstage, Stage.pc_running] at hpc
    simp only [RunInv, hpc] at hinvb
    refine (found_or_failed hinvb.1 hinvb.2 (hb.processing ▸ hpath)).imp_right fun hfailed => ?_
    obtain ⟨r, hr, -⟩ := List.mem_flatMap.mp hfailed
    obtain ⟨pre, post, u, hsplit, hu, hrest, hflushes⟩ :=
      Cluster.restored_of_deleting hstart hrun htime hp hstage (List.ne_nil_of_mem hr)
    have hview : (u.view (u.stage p).pc).pc = .restoring cfg scan res := by
      rw [hrest]
      rfl
    exact ⟨hfailed, pre, post, u, hsplit, hu, puts_restore hview hfailed, hflushes⟩

/-- A step that is neither a flush nor a `DELETE` lets go of no path. -/
def ClusterLabel.harmless : ClusterLabel ι → Bool
  | .flush _ | .run _ (.flush _) | .run _ .delete | .run _ (.abort true) | .crash _ true => false
  | _ => true

omit [DecidableEq ι] in
theorem not_takesOut_of_harmless {s : Cluster ι} {l : ClusterLabel ι} (h : l.harmless)
    (path : Text) : ¬ TakesOut path s l := by
  cases l with
  | run p l =>
    rintro (⟨pre, post, hsent, -⟩ | ⟨hl, -⟩)
    · have hretry := del_notMem_retry path (s.view (s.stage p).pc)
      cases l with
      | flush cmds => simp [ClusterLabel.harmless] at h
      | restore =>
        have hsent : (s.view (s.stage p).pc).retry = pre ++ .del path :: post := hsent
        simp [hsent] at hretry
      | abort applied => cases applied <;> simp [State.sent, ClusterLabel.harmless] at hsent h
      | _ => simp [State.sent] at hsent
    · rcases hl with rfl | rfl <;> simp [ClusterLabel.harmless] at h
  | flush cmds => simp [ClusterLabel.harmless] at h
  | crash p applied => cases applied <;> simp [ClusterLabel.harmless, TakesOut] at h ⊢
  | _ => exact id

theorem no_path_lost_of_inTime_takeover :
    ∃ t, exec (Cluster.step (fun _ : ℕ => .backup) fun _ => []) .initial
        ([.flush [.set (text "/home/u/f") (text "rename")]] ++ takeover) = some t ∧
      (text "/home/u/f" ∈ t.pending ∨ text "/home/u/f" ∈ t.processing) := by
  have hrun : (exec (Cluster.step (fun _ : ℕ => .backup) fun _ => []) .initial
      ([.flush [.set (text "/home/u/f") (text "rename")]] ++ takeover)).isSome := by
    decide +kernel
  obtain ⟨t, ht⟩ := Option.isSome_iff_exists.mp hrun
  have hsplit := ht
  rw [exec_append] at hsplit
  obtain ⟨s, hs, hafter⟩ := Option.bind_eq_some_iff.mp hsplit
  have hmem : text "/home/u/f" ∈ s.pending := by
    obtain rfl := Option.some.inj hs
    decide +kernel
  have hquiet : Guarded (Cluster.step (fun _ : ℕ => .backup) fun _ => [])
      (fun _ l => l.harmless = true) s takeover := by
    obtain rfl := Option.some.inj hs
    decide +kernel
  refine ⟨t, ht, (no_path_lost_of_inTime ⟨rfl, fun _ => rfl, fun _ => rfl⟩ hs hafter
    (by decide +kernel)).1 _ hmem (hquiet.imp fun _ _ hl => not_takesOut_of_harmless hl _)⟩

/-- The second node deals with what it finds and is started once more, and the first,
overtaken, comes to its own `DELETE`. -/
def overtaken : List (ClusterLabel ℕ) :=
  .flush [.set (text "/home/u/f") (text "mtime_change")] :: takeover.take 4 ++
    [.run 0 (.hscan [text "/home/u/f"] 0), .tick 7200000, .acquire 1,
      .run 1 (.start homeConfig), .run 1 .exists, .run 1 (.hscan [text "/home/u/f"] 0),
      .run 1 (.pool (fun _ => noRepo) [text "u"]), .run 1 .restore, .run 1 .delete,
      .run 1 .record, .release 1, .flush [.set (text "/home/u/g") (text "mtime_change")],
      .acquire 1, .run 1 (.start homeConfig), .run 1 .exists, .run 1 .rename,
      .run 0 (.pool (fun _ => noRepo) [text "u"]), .run 0 .restore, .run 0 .delete]

/-- **Out of time**, a path that no process has so much as scanned is gone from both
hashes. -/
theorem not_kept_overtaken :
    ∃ t : Cluster ℕ, exec (Cluster.step (fun _ => .backup) fun _ => []) .initial overtaken = some t ∧
      text "/home/u/g" ∉ t.pending ∧ text "/home/u/g" ∉ t.processing := by
  have hrun : ((exec (Cluster.step (fun _ : ℕ => .backup) fun _ => []) .initial overtaken).map
      fun t => (decide (text "/home/u/g" ∈ t.pending),
        decide (text "/home/u/g" ∈ t.processing))) = some (false, false) := by
    decide +kernel
  obtain ⟨t, ht, hmem⟩ := Option.map_eq_some_iff.mp hrun
  obtain ⟨hpending, hprocessing⟩ := Prod.mk.inj hmem
  exact ⟨t, ht, of_decide_eq_false hpending, of_decide_eq_false hprocessing⟩

end Runs

end Backup
end FileTracker
