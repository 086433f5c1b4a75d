import FileTracker.Backup.Run

/-!
# A backup run loses no path

A path that was ever put into `pending` stays in `pending` or in `processing`
until a rename takes it out of `pending`, or a run deletes `processing` after it
has dealt with the path.

Two invariants carry this.  `RunInv` is about the run alone: the scan sorts what
it returns, the pool accounts for every task or reports its repository failed,
and a `RENAME` finds no `processing`.  `Kept` is about one path: it is in
`pending`, or in `processing` and, should the run be about to delete that, dealt
with.  The only step that could break it between the pool and the `DELETE` is the
restore, and there `RunInv` says that what is not dealt with is put back.
-/

namespace FileTracker
namespace Backup

open Runs LastWriter Consumer

/-! ## The tasks and the scan -/

theorem Tasks.paths_append (tasks : Tasks) (repoId path r : Text) :
    (tasks.append repoId path).paths r =
      if repoId = r then tasks.paths r ++ [path] else tasks.paths r := by
  induction tasks with
  | nil => by_cases h : repoId = r <;> simp [Tasks.append, Tasks.paths, h]
  | cons t tasks ih =>
    obtain ⟨q, paths⟩ := t
    unfold Tasks.append
    unfold Tasks.paths at ih ⊢
    by_cases hq : q = repoId
    · subst hq
      by_cases hr : q = r <;> simp [hr]
    · rw [if_neg hq]
      by_cases hr : q = r
      · have hne : repoId ≠ r := fun h => hq (hr.trans h.symm)
        simp [hr, hne]
      · simpa [hr] using ih

/-- A path is listed under keys of the dictionary only. -/
theorem Tasks.mem_keys_of_mem_paths {tasks : Tasks} {repoId path : Text}
    (h : path ∈ tasks.paths repoId) : repoId ∈ tasks.map Prod.fst := by
  unfold Tasks.paths at h
  cases hfind : tasks.find? fun t => t.1 = repoId with
  | none => simp [hfind] at h
  | some t =>
    have hkey : t.1 = repoId := by simpa using List.find?_some hfind
    exact hkey ▸ List.mem_map_of_mem (List.mem_of_find?_eq_some hfind)

theorem returned_item (cfg : BackupConfig) (scan : Scan) (path : Text) :
    (scan.item cfg path).returned = scan.returned ++ [path] := by
  unfold Scan.item
  cases cfg.repoOf path <;> rfl

theorem returned_foldl (cfg : BackupConfig) (items : List Text) (scan : Scan) :
    (items.foldl (Scan.item cfg) scan).returned = scan.returned ++ items := by
  induction items generalizing scan with
  | nil => exact (List.append_nil _).symm
  | cons q items ih =>
    rw [List.foldl_cons, ih, returned_item, List.append_assoc, List.singleton_append]

/-- An item is listed under its repository, where it has one. -/
theorem mem_tasks_item_iff (cfg : BackupConfig) (q : Text) (scan : Scan) {path r : Text} :
    path ∈ (scan.item cfg q).tasks.paths r ↔
      path ∈ scan.tasks.paths r ∨ path = q ∧ cfg.repoOf path = some r := by
  unfold Scan.item
  cases hrepo : cfg.repoOf q with
  | none =>
    refine (or_iff_left ?_).symm
    rintro ⟨rfl, hr⟩
    rw [hrepo] at hr
    cases hr
  | some repoId =>
    simp only [Tasks.paths_append]
    by_cases hr : repoId = r
    · subst hr
      rw [if_pos rfl, List.mem_append, List.mem_singleton]
      refine or_congr_right (iff_self_and.mpr ?_)
      rintro rfl
      exact hrepo
    · rw [if_neg hr]
      refine (or_iff_left ?_).symm
      rintro ⟨rfl, hr'⟩
      exact hr (Option.some.inj (hrepo.symm.trans hr'))

/-- **What the scan lists**: the fields it has returned, each under its repository. -/
theorem mem_tasks_foldl_iff (cfg : BackupConfig) (items : List Text) (scan : Scan)
    {path r : Text} : path ∈ (items.foldl (Scan.item cfg) scan).tasks.paths r ↔
      path ∈ scan.tasks.paths r ∨ path ∈ items ∧ cfg.repoOf path = some r := by
  induction items generalizing scan with
  | nil => simp
  | cons q items ih =>
    rw [List.foldl_cons, ih, mem_tasks_item_iff, List.mem_cons, or_assoc, or_and_right]

/-- Every mapped path that was returned is listed under its repository. -/
def Scan.Sorted (cfg : BackupConfig) (scan : Scan) : Prop :=
  ∀ path ∈ scan.returned, ∀ r, cfg.repoOf path = some r → path ∈ scan.tasks.paths r

theorem Scan.Sorted.page {cfg : BackupConfig} {scan : Scan} (h : scan.Sorted cfg)
    (items : List Text) (cursor : ℕ) : (scan.page cfg items cursor).Sorted cfg := by
  intro path hpath r hr
  have hreturned : path ∈ (items.foldl (Scan.item cfg) scan).returned := hpath
  rw [returned_foldl] at hreturned
  refine (mem_tasks_foldl_iff cfg items scan).mpr ?_
  rcases List.mem_append.mp hreturned with hold | hnew
  · exact Or.inl (h path hold r hr)
  · exact Or.inr ⟨hnew, hr⟩

theorem Scan.Sorted.init (cfg : BackupConfig) : Scan.init.Sorted cfg := by
  intro path hpath
  simp [Scan.init] at hpath

/-! ## The pool -/

/-- The repository of the report goes onto the list of the failed ones. -/
def RepoReport.failed (r : RepoReport) : Bool :=
  match r.outcome with
  | .ok res => 0 < res.errors
  | .error _ => true

/-- The path was found missing, or some `restic backup` of it returned 0 or 3. -/
def PoolResult.Settled (res : PoolResult) (path : Text) : Prop :=
  path ∈ res.missing ∨ ∃ c ∈ res.calls, c.Succeeded ∧ path ∈ c.existing

section Pool

variable (cfg : BackupConfig) (tasks : Tasks) (answers : Text → RepoAnswers)

theorem PoolResult.collect_eq (acc : PoolResult) (repoId : Text) :
    (acc.collect cfg tasks answers repoId).failedRepos =
        acc.failedRepos ++ [repoId].filter (fun r => (future cfg tasks answers r).failed) ∧
      (acc.collect cfg tasks answers repoId).missing =
        acc.missing ++ (future cfg tasks answers repoId).missing ∧
      (acc.collect cfg tasks answers repoId).calls =
        acc.calls ++ (future cfg tasks answers repoId).calls := by
  cases hout : (future cfg tasks answers repoId).outcome with
  | error e => simp [collect, hout, RepoReport.failed, fail]
  | ok res =>
    by_cases herr : 0 < res.errors
    · simp [collect, hout, RepoReport.failed, fail, herr]
    · simp [collect, hout, RepoReport.failed, herr]

/-- **What the pool records**, in whatever order the futures complete. -/
theorem PoolResult.foldl_collect (acc : PoolResult) (order : List Text) :
    (order.foldl (PoolResult.collect cfg tasks answers) acc).failedRepos =
        acc.failedRepos ++ order.filter (fun r => (future cfg tasks answers r).failed) ∧
      (order.foldl (PoolResult.collect cfg tasks answers) acc).missing =
        acc.missing ++ order.flatMap (fun r => (future cfg tasks answers r).missing) ∧
      (order.foldl (PoolResult.collect cfg tasks answers) acc).calls =
        acc.calls ++ order.flatMap (fun r => (future cfg tasks answers r).calls) := by
  induction order generalizing acc with
  | nil => simp
  | cons repoId order ih =>
    obtain ⟨hf, hm, hc⟩ := acc.collect_eq cfg tasks answers repoId
    obtain ⟨ihf, ihm, ihc⟩ := ih (acc.collect cfg tasks answers repoId)
    rw [List.foldl_cons, ihf, ihm, ihc, hf, hm, hc]
    refine ⟨?_, by simp, by simp⟩
    rw [List.append_assoc, ← List.filter_append, List.singleton_append]

/-- A future that does not fail settles every path of its repository. -/
theorem PoolResult.failed_or_settled {order : List Text} {repoId path : Text}
    (hrepo : repoId ∈ order) (hpath : path ∈ tasks.paths repoId) :
    repoId ∈ (order.foldl (PoolResult.collect cfg tasks answers) .init).failedRepos ∨
      (order.foldl (PoolResult.collect cfg tasks answers) .init).Settled path := by
  obtain ⟨hf, hm, hc⟩ := PoolResult.init.foldl_collect cfg tasks answers order
  unfold PoolResult.Settled
  rw [hf, hm, hc]
  cases hfail : (future cfg tasks answers repoId).failed with
  | true => exact Or.inl (List.mem_append_right _ (List.mem_filter.mpr ⟨hrepo, hfail⟩))
  | false =>
    refine Or.inr ?_
    unfold RepoReport.failed at hfail
    cases hout : (future cfg tasks answers repoId).outcome with
    | error e => simp [hout] at hfail
    | ok res =>
      have herr : res.errors = 0 := by simpa [hout] using hfail
      rcases settled_of_noErrors hout herr hpath with hmiss | ⟨c, hcall, hrest⟩
      · exact Or.inl (List.mem_append_right _ (List.mem_flatMap.mpr ⟨repoId, hrepo, hmiss⟩))
      · exact Or.inr
          ⟨c, List.mem_append_right _ (List.mem_flatMap.mpr ⟨repoId, hrepo, hcall⟩), hrest⟩

end Pool

/-! ## What a step does -/

/-- The transitions. -/
inductive Moves (s : State) : Label → State → Prop where
  | flush (cmds : List HashCmd) :
      Moves s (.flush cmds) { s with pending := run s.pending cmds }
  | start (cfg : BackupConfig) (hpc : s.pc = .idle) :
      Moves s (.start cfg) { s with pc := .starting cfg }
  | resume (cfg : BackupConfig) (hpc : s.pc = .starting cfg) :
      Moves s .exists { s with pc := .scanning cfg .init }
  | absent (cfg : BackupConfig) (hpc : s.pc = .starting cfg) (hproc : s.processing = ∅) :
      Moves s .exists { s with pc := .swapping cfg }
  | nothing (cfg : BackupConfig) (hpc : s.pc = .swapping cfg) (hpend : s.pending = ∅) :
      Moves s .rename { s with pc := .idle }
  | swap (cfg : BackupConfig) (hpc : s.pc = .swapping cfg) :
      Moves s .rename
        { s with pending := ∅, processing := s.pending, pc := .scanning cfg .init }
  | page (cfg : BackupConfig) (scan : Scan) (items : List Text) (cursor : ℕ)
      (hpc : s.pc = .scanning cfg scan) :
      Moves s (.hscan items cursor) { s with pc := .scanning cfg (scan.page cfg items cursor) }
  | scanned (cfg : BackupConfig) (scan : Scan) (items : List Text)
      (hpc : s.pc = .scanning cfg scan)
      (hcomplete : ScanComplete s.processing (scan.page cfg items 0)) :
      Moves s (.hscan items 0) { s with pc := .working cfg (scan.page cfg items 0) }
  | settled (cfg : BackupConfig) (scan : Scan) (answers : Text → RepoAnswers)
      (order : List Text) (res : PoolResult) (hpc : s.pc = .working cfg scan)
      (hres : res = order.foldl (PoolResult.collect cfg scan.tasks answers) .init)
      (hperm : order.Perm (scan.tasks.map Prod.fst)) (hfail : res.failedRepos = []) :
      Moves s (.pool answers order) { s with pc := .deleting cfg scan res }
  | failed (cfg : BackupConfig) (scan : Scan) (answers : Text → RepoAnswers)
      (order : List Text) (res : PoolResult) (hpc : s.pc = .working cfg scan)
      (hres : res = order.foldl (PoolResult.collect cfg scan.tasks answers) .init)
      (hperm : order.Perm (scan.tasks.map Prod.fst)) :
      Moves s (.pool answers order) { s with pc := .restoring cfg scan res }
  | restore (cfg : BackupConfig) (scan : Scan) (res : PoolResult)
      (hpc : s.pc = .restoring cfg scan res) :
      Moves s .restore { s with
        pending := run s.pending (res.retryCommands scan.tasks), pc := .deleting cfg scan res }
  | delete (cfg : BackupConfig) (scan : Scan) (res : PoolResult)
      (hpc : s.pc = .deleting cfg scan res) :
      Moves s .delete { s with processing := ∅, pc := .recording scan res }
  | record (scan : Scan) (res : PoolResult) (hpc : s.pc = .recording scan res) :
      Moves s .record { s with lastRun := some ⟨res.total, scan.tasks.length⟩, pc := .idle }
  | crash : Moves s (.abort false) { s with pc := .idle }
  | replyLost : Moves s (.abort true) { s.effect with pc := .idle }

/-- **The inversion of a step.** -/
theorem moves_of_step {s t : State} {l : Label} (h : s.step l = some t) : Moves s l t := by
  cases l with
  | flush cmds => exact Option.some.inj h ▸ .flush cmds
  | start cfg =>
    simp only [State.step] at h
    split at h
    · rename_i hpc
      exact Option.some.inj h ▸ .start cfg hpc
    · simp at h
  | «exists» =>
    simp only [State.step] at h
    split at h
    · rename_i cfg hpc
      by_cases hproc : s.processing = ∅
      · rw [if_pos hproc] at h
        exact Option.some.inj h ▸ .absent cfg hpc hproc
      · rw [if_neg hproc] at h
        exact Option.some.inj h ▸ .resume cfg hpc
    · simp at h
  | rename =>
    simp only [State.step] at h
    split at h
    · rename_i cfg hpc
      simp only [State.effect, hpc] at h
      by_cases hpend : s.pending = ∅
      · rw [if_pos hpend, if_pos hpend] at h
        exact Option.some.inj h ▸ .nothing cfg hpc hpend
      · rw [if_neg hpend, if_neg hpend] at h
        exact Option.some.inj h ▸ .swap cfg hpc
    · simp at h
  | hscan items cursor =>
    simp only [State.step] at h
    split at h
    · rename_i cfg scan hpc
      split_ifs at h with hcomplete hcursor
      · subst hcursor
        exact Option.some.inj h ▸ .scanned cfg scan items hpc hcomplete
      · exact Option.some.inj h ▸ .page cfg scan items cursor hpc
    · simp at h
  | pool answers order =>
    simp only [State.step] at h
    split at h
    · rename_i cfg scan hpc
      split_ifs at h with hperm hfail
      · exact Option.some.inj h ▸ .settled cfg scan answers order _ hpc rfl hperm hfail
      · exact Option.some.inj h ▸ .failed cfg scan answers order _ hpc rfl hperm
    · simp at h
  | restore =>
    simp only [State.step] at h
    split at h
    · rename_i cfg scan res hpc
      simp only [State.effect, hpc] at h
      exact Option.some.inj h ▸ .restore cfg scan res hpc
    · simp at h
  | delete =>
    simp only [State.step] at h
    split at h
    · rename_i cfg scan res hpc
      simp only [State.effect, hpc] at h
      exact Option.some.inj h ▸ .delete cfg scan res hpc
    · simp at h
  | record =>
    simp only [State.step] at h
    split at h
    · rename_i scan res hpc
      simp only [State.effect, hpc] at h
      exact Option.some.inj h ▸ .record scan res hpc
    · simp at h
  | abort applied =>
    simp only [State.step] at h
    split at h
    · simp at h
    · cases applied with
      | false => exact Option.some.inj h ▸ .crash
      | true => exact Option.some.inj h ▸ .replyLost

/-! ## The invariant of the run -/

/-- The scan has returned and sorted all of `processing`. -/
structure Scanned (processing : Hash) (cfg : BackupConfig) (scan : Scan) : Prop where
  sorted : scan.Sorted cfg
  complete : ∀ path ∈ processing, path ∈ scan.returned

/-- The pool accounts for every task, or reports its repository failed. -/
def Pooled (scan : Scan) (res : PoolResult) : Prop :=
  ∀ r, ∀ path ∈ scan.tasks.paths r, r ∈ res.failedRepos ∨ res.Settled path

/-- What the run has established where it stands. -/
def RunInv (s : State) : Prop :=
  match s.pc with
  | .swapping _ => s.processing = ∅
  | .scanning cfg scan => scan.Sorted cfg
  | .working cfg scan => Scanned s.processing cfg scan
  | .restoring cfg scan res => Scanned s.processing cfg scan ∧ Pooled scan res
  | .deleting cfg scan res => Scanned s.processing cfg scan ∧ Pooled scan res
  | _ => True

/-- The run has found the path unmappable, or missing, or has passed it to a `restic
backup` that returned 0 or 3. -/
def Found (cfg : BackupConfig) (scan : Scan) (res : PoolResult) (path : Text) : Prop :=
  (path ∈ scan.returned ∧ cfg.repoOf path = none) ∨ res.Settled path

/-- Of what is in `processing`, the pool has dealt with everything that it does not
put back. -/
theorem found_or_failed {processing : Hash} {scan : Scan} {res : PoolResult}
    (hscan : Scanned processing cfg scan) (hpool : Pooled scan res) {path : Text}
    (hpath : path ∈ processing) :
    Found cfg scan res path ∨ path ∈ res.failedPaths scan.tasks := by
  have hret := hscan.complete path hpath
  cases hrepo : cfg.repoOf path with
  | none => exact Or.inl (Or.inl ⟨hret, hrepo⟩)
  | some r =>
    have htask := hscan.sorted path hret r hrepo
    rcases hpool r path htask with hfail | hset
    · exact Or.inr (List.mem_flatMap.mpr ⟨r, hfail, htask⟩)
    · exact Or.inl (Or.inr hset)

theorem RunInv.step {s t : State} {l : Label} (h : RunInv s) (hstep : s.step l = some t) :
    RunInv t := by
  have hpool : ∀ {cfg scan answers} {order : List Text} {res}, s.pc = .working cfg scan →
      res = order.foldl (PoolResult.collect cfg scan.tasks answers) .init →
      order.Perm (scan.tasks.map Prod.fst) → Scanned s.processing cfg scan ∧ Pooled scan res := by
    rintro cfg scan answers order res hpc rfl hperm
    simp only [RunInv, hpc] at h
    refine ⟨h, fun r path hpath => ?_⟩
    have hr := hperm.mem_iff.mpr (Tasks.mem_keys_of_mem_paths hpath)
    exact PoolResult.failed_or_settled _ _ _ hr hpath
  cases moves_of_step hstep with
  | flush cmds => exact h
  | start cfg hpc => trivial
  | resume cfg hpc => exact .init cfg
  | absent cfg hpc hproc => exact hproc
  | nothing cfg hpc hpend => trivial
  | swap cfg hpc => exact .init cfg
  | page cfg scan items cursor hpc =>
    simp only [RunInv, hpc] at h
    exact h.page items cursor
  | scanned cfg scan items hpc hcomplete =>
    simp only [RunInv, hpc] at h
    exact ⟨h.page items 0, fun path hpath => hcomplete rfl path (Finmap.mem_keys.mpr hpath)⟩
  | settled cfg scan answers order res hpc hres hperm hfail => exact hpool hpc hres hperm
  | failed cfg scan answers order res hpc hres hperm => exact hpool hpc hres hperm
  | restore cfg scan res hpc =>
    simp only [RunInv, hpc] at h
    exact h
  | delete cfg scan res hpc => trivial
  | record scan res hpc => trivial
  | crash => trivial
  | replyLost => trivial

/-! ## The invariant of a path -/

/-- The pipeline the run is about to send. -/
def State.retry (s : State) : List HashCmd :=
  match s.pc with
  | .restoring _ scan res => res.retryCommands scan.tasks
  | _ => []

/-- The commands on the fields of `pending` that a step runs. -/
def State.sent (s : State) : Label → List HashCmd
  | .flush cmds => cmds
  | .restore => s.retry
  | .abort true => s.retry
  | _ => []

/-- The step puts the path into `pending`, and does not take it out again. -/
def Puts (path : Text) (s : State) (l : Label) : Prop :=
  ∃ v pre post, s.sent l = pre ++ .set path v :: post ∧ .del path ∉ post

/-- The step takes the path out of `pending`, and does not put it back. -/
def Removes (path : Text) (s : State) (l : Label) : Prop :=
  ∃ pre post, s.sent l = pre ++ .del path :: post ∧ path ∈ run s.pending pre ∧
    ∀ v, .set path v ∉ post

/-- The step deletes `processing`, and the run has dealt with the path. -/
def Discards (path : Text) (s : State) (l : Label) : Prop :=
  (l = .delete ∨ l = .abort true) ∧
    ∃ cfg scan res, s.pc = .deleting cfg scan res ∧ Found cfg scan res path

/-- The path is in `pending`, or it is in `processing` and, should that be deleted
next, dealt with. -/
def Kept (path : Text) (s : State) : Prop :=
  path ∈ s.pending ∨ (path ∈ s.processing ∧
    ∀ cfg scan res, s.pc = .deleting cfg scan res → Found cfg scan res path)

/-- The three things that can happen to the two hashes. -/
def Hashes (s t : State) (l : Label) : Prop :=
  (t.pending = run s.pending (s.sent l) ∧ t.processing = s.processing) ∨
    (t.pending = ∅ ∧ t.processing = s.pending ∧ ∃ cfg, s.pc = .swapping cfg) ∨
    (t.pending = s.pending ∧ t.processing = ∅ ∧ (l = .delete ∨ l = .abort true) ∧
      ∃ cfg scan res, s.pc = .deleting cfg scan res)

theorem step_hashes {s t : State} {l : Label} (h : s.step l = some t) : Hashes s t l := by
  cases moves_of_step h with
  | flush cmds => exact Or.inl ⟨rfl, rfl⟩
  | swap cfg hpc => exact Or.inr (Or.inl ⟨rfl, rfl, cfg, hpc⟩)
  | restore cfg scan res hpc =>
    exact Or.inl ⟨by simp only [State.sent, State.retry, hpc], rfl⟩
  | delete cfg scan res hpc =>
    exact Or.inr (Or.inr ⟨rfl, rfl, Or.inl rfl, cfg, scan, res, hpc⟩)
  | replyLost =>
    simp only [Hashes, State.sent, State.effect, State.retry]
    cases hpc : s.pc with
    | swapping cfg =>
      by_cases hnil : s.pending = ∅
      · exact Or.inl (by simp [hnil])
      · exact Or.inr (Or.inl (by simp [hnil]))
    | deleting cfg scan res => exact Or.inr (Or.inr (by simp))
    | _ => exact Or.inl ⟨rfl, rfl⟩
  | _ => exact Or.inl ⟨rfl, rfl⟩

/-- How a run comes to the `DELETE`: from the pool where no repository failed, or
from the restore. -/
theorem step_deleting {s t : State} {l : Label} {cfg : BackupConfig} {scan : Scan}
    {res : PoolResult} (h : s.step l = some t) (hpc : t.pc = .deleting cfg scan res) :
    (s.pc = .deleting cfg scan res ∧ ∃ cmds, l = .flush cmds) ∨
      (s.pc = .restoring cfg scan res ∧ l = .restore) ∨
      (s.pc = .working cfg scan ∧ res.failedRepos = []) := by
  cases moves_of_step h with
  | flush cmds => exact Or.inl ⟨hpc, cmds, rfl⟩
  | settled c sc answers order r hwork _ _ hfail =>
    obtain ⟨rfl, rfl, rfl⟩ := Pc.deleting.inj hpc
    exact Or.inr (Or.inr ⟨hwork, hfail⟩)
  | restore c sc r hrest =>
    obtain ⟨rfl, rfl, rfl⟩ := Pc.deleting.inj hpc
    exact Or.inr (Or.inl ⟨hrest, rfl⟩)
  | _ => simp at hpc

/-- The restore puts every path of a failed repository back. -/
theorem puts_restore {s : State} {cfg : BackupConfig} {scan : Scan} {res : PoolResult}
    (hpc : s.pc = .restoring cfg scan res) {path : Text}
    (hpath : path ∈ res.failedPaths scan.tasks) : Puts path s .restore := by
  obtain ⟨pre, post, hsplit⟩ := List.append_of_mem hpath
  refine ⟨text "retry", pre.map (.set · (text "retry")), post.map (.set · (text "retry")), ?_, ?_⟩
  · simp [State.sent, State.retry, hpc, PoolResult.retryCommands, hsplit]
  · simp

theorem mem_pending_of_puts {s : State} {l : Label} {path : Text} (h : Puts path s l) :
    path ∈ run s.pending (s.sent l) := by
  obtain ⟨v, pre, post, hsplit, hpost⟩ := h
  rw [hsplit, mem_run]
  refine Or.inl ⟨pre, _, post, rfl, ⟨v, rfl⟩, fun d hd => ?_⟩
  rintro rfl
  exact hpost hd

/-- A step that puts the path into `pending` leaves it there. -/
theorem mem_pending_of_step {s t : State} {l : Label} {path : Text} (h : s.step l = some t)
    (hputs : Puts path s l) : path ∈ t.pending := by
  have hrestoring : (∃ cmds, l = .flush cmds) ∨
      ∃ cfg scan res, s.pc = .restoring cfg scan res := by
    obtain ⟨v, pre, post, hsplit, -⟩ := hputs
    cases hpc : s.pc with
    | restoring cfg scan res => exact Or.inr ⟨cfg, scan, res, rfl⟩
    | _ =>
      cases l with
      | flush cmds => exact Or.inl ⟨cmds, rfl⟩
      | abort applied => cases applied <;> simp [State.sent, State.retry, hpc] at hsplit
      | _ => simp [State.sent, State.retry, hpc] at hsplit
  rcases step_hashes h with ⟨hpend, -⟩ | ⟨-, -, cfg, hpc⟩ | ⟨-, -, hl, cfg, scan, res, hpc⟩
  · exact hpend ▸ mem_pending_of_puts hputs
  · rcases hrestoring with ⟨cmds, rfl⟩ | ⟨cfg, scan, res, hpc'⟩
    · obtain rfl := Option.some.inj h
      exact mem_pending_of_puts hputs
    · simp [hpc] at hpc'
  · rcases hrestoring with ⟨cmds, rfl⟩ | ⟨cfg, scan, res, hpc'⟩
    · simp at hl
    · simp [hpc] at hpc'

/-- **One step** keeps a path, unless it takes it out of `pending` or deletes
`processing` with the path dealt with. -/
theorem Kept.step {path : Text} {s t : State} {l : Label} (h : Kept path s) (hinv : RunInv s)
    (hstep : s.step l = some t) (hremove : ¬ Removes path s l)
    (hdiscard : ¬ Discards path s l) : Kept path t := by
  have hinv' := hinv.step hstep
  rcases step_hashes hstep with ⟨hpend, hproc⟩ | ⟨-, hproc, cfg, hpc⟩ |
    ⟨hpend, -, hl, cfg, scan, res, hpc⟩
  · by_cases hin : path ∈ t.pending
    · exact Or.inl hin
    · rcases h with hp | ⟨hp, hfound⟩
      · rw [hpend] at hin
        obtain ⟨pre, post, hsplit, hpre, hpost⟩ := exists_del_of_not_mem_run hp hin
        exact absurd ⟨pre, post, hsplit, hpre, hpost⟩ hremove
      · refine Or.inr ⟨hproc ▸ hp, fun cfg scan res hpc => ?_⟩
        simp only [RunInv, hpc] at hinv'
        rcases found_or_failed hinv'.1 hinv'.2 (hproc ▸ hp) with hf | hf
        · exact hf
        · rcases step_deleting hstep hpc with ⟨hdel, -⟩ | ⟨hrest, rfl⟩ | ⟨-, hnil⟩
          · exact hfound cfg scan res hdel
          · exact absurd (mem_pending_of_step hstep (puts_restore hrest hf)) hin
          · simp [PoolResult.failedPaths, hnil] at hf
  · simp only [RunInv, hpc] at hinv
    rcases h with hp | ⟨hp, -⟩
    · refine Or.inr ⟨hproc ▸ hp, fun cfg' scan res hdel => ?_⟩
      rcases step_deleting hstep hdel with ⟨hpc', -⟩ | ⟨hpc', -⟩ | ⟨hpc', -⟩ <;>
        simp [hpc] at hpc'
    · rw [hinv] at hp
      exact absurd hp Finmap.notMem_empty
  · rcases h with hp | ⟨-, hfound⟩
    · exact Or.inl (hpend ▸ hp)
    · exact absurd ⟨hl, cfg, scan, res, hpc, hfound cfg scan res hpc⟩ hdiscard

/-! ## Whole runs -/

/-- Some step of the run has put the path into `pending`, and no later one has taken
it out of there, or deleted `processing` with the path dealt with. -/
def Owed (path : Text) (start : State) (labels : List Label) : Prop :=
  ∃ before l after s t, labels = before ++ l :: after ∧ exec State.step start before = some s ∧
    s.step l = some t ∧ Puts path s l ∧
    Guarded State.step (fun s l => ¬ Removes path s l ∧ ¬ Discards path s l) t after

theorem runInv_of_exec {start s : State} {labels : List Label} (hstart : start.pc = .idle)
    (hrun : exec State.step start labels = some s) : RunInv s :=
  exec_invariant (fun _ _ _ _ h hstep => h.step hstep) (by simp [RunInv, hstart]) hrun

theorem kept_of_owed {path : Text} {start u : State} {labels : List Label}
    (hstart : start.pc = .idle) (howed : Owed path start labels)
    (hrun : exec State.step start labels = some u) : Kept path u := by
  obtain ⟨before, l, after, s, t, rfl, hbefore, hstep, hputs, hguard⟩ := howed
  have hinv : RunInv t := (runInv_of_exec hstart hbefore).step hstep
  rw [exec_append, hbefore, Option.bind_some, exec_cons, hstep, Option.bind_some] at hrun
  have halways := always_of_guarded (P := fun s => RunInv s ∧ Kept path s)
    (fun s l t h hst hg => ⟨h.1.step hst, h.2.step h.1 hst hg.1 hg.2⟩)
    ⟨hinv, Or.inl (mem_pending_of_step hstep hputs)⟩ hguard
  exact ((always_iff_visited t after).mp halways after u List.prefix_rfl hrun).2

/-- A run that is about to delete `processing` with failed repositories has restored,
and since then there were flushes only. -/
theorem restored_of_deleting {start s : State} {labels : List Label} {cfg : BackupConfig}
    {scan : Scan} {res : PoolResult} (hstart : start.pc = .idle)
    (hrun : exec State.step start labels = some s) (hpc : s.pc = .deleting cfg scan res)
    (hfail : res.failedRepos ≠ []) :
    ∃ before after t, labels = before ++ .restore :: after ∧
      exec State.step start before = some t ∧ t.pc = .restoring cfg scan res ∧
      ∀ l ∈ after, ∃ cmds, l = .flush cmds := by
  induction labels using List.reverseRecOn generalizing s with
  | nil =>
    rw [← Option.some.inj hrun, hstart] at hpc
    simp at hpc
  | append_singleton labels l ih =>
    rw [exec_append] at hrun
    obtain ⟨t, ht, hlast⟩ := Option.bind_eq_some_iff.mp hrun
    rw [exec_cons] at hlast
    obtain ⟨u, hu, hend⟩ := Option.bind_eq_some_iff.mp hlast
    obtain rfl := Option.some.inj hend
    rcases step_deleting hu hpc with ⟨hdel, hflush⟩ | ⟨hrest, rfl⟩ | ⟨-, hnil⟩
    · obtain ⟨before, after, v, rfl, hv, hvpc, hafter⟩ := ih ht hdel
      refine ⟨before, after ++ [l], v, by simp, hv, hvpc, fun k hk => ?_⟩
      rcases List.mem_append.mp hk with hk | hk
      · exact hafter k hk
      · exact List.mem_singleton.mp hk ▸ hflush
    · exact ⟨labels, [], t, rfl, ht, hrest, by simp⟩
    · exact absurd hnil hfail

/-- What a consumer's call of `flush_batch` does to `pending` is a flush of the
machine, whatever the batch and however the call ends. -/
theorem flush_of_flushBatch (floatRepr : Text → Text) (p : EventProcessor) (reply : Reply)
    (s : State) :
    ∃ cmds, s.step (.flush cmds) =
      some { s with pending := (p.flushBatch floatRepr reply s.pending).pending } := by
  unfold EventProcessor.flushBatch
  split_ifs
  · exact ⟨[], rfl⟩
  · split
    · rename_i cmds _
      exact ⟨cmds, rfl⟩
    · rename_i cmds _
      exact ⟨cmds, rfl⟩
    · exact ⟨[], rfl⟩
    · split_ifs <;> exact ⟨[], rfl⟩
    · exact ⟨[], rfl⟩

/-- **Backup loses no pending path.**  From any contents of the two hashes and over
any sequence of flushes, runs, answers and aborts: a path put into `pending` is in
one of the hashes until a rename takes it out of `pending` or a run deletes
`processing` having dealt with it; `RENAME` finds no `processing`; and when the run
comes to `DELETE`, every path of a failed repository has been put back. -/
theorem no_pending_path_lost {start s : State} {labels : List Label}
    (hstart : start.pc = .idle) (hrun : exec State.step start labels = some s) :
    (∀ path, Owed path start labels → path ∈ s.pending ∨ path ∈ s.processing) ∧
      (∀ cfg, s.pc = .swapping cfg → s.processing = ∅) ∧
      ∀ cfg scan res, s.pc = .deleting cfg scan res → ∀ path ∈ s.processing,
        ∀ r ∈ res.failedRepos, cfg.repoOf path = some r →
          ∃ before after t, labels = before ++ .restore :: after ∧
            exec State.step start before = some t ∧ Puts path t .restore ∧
            ∀ l ∈ after, ∃ cmds, l = .flush cmds := by
  have hinv := runInv_of_exec hstart hrun
  refine ⟨fun path howed => ?_, fun cfg hpc => ?_, fun cfg scan res hpc path hpath r hr hrepo => ?_⟩
  · exact (kept_of_owed hstart howed hrun).imp_right And.left
  · simpa only [RunInv, hpc] using hinv
  · simp only [RunInv, hpc] at hinv
    obtain ⟨before, after, t, hsplit, ht, htpc, hafter⟩ :=
      restored_of_deleting hstart hrun hpc (List.ne_nil_of_mem hr)
    have htask := hinv.1.sorted path (hinv.1.complete path hpath) r hrepo
    exact ⟨before, after, t, hsplit, ht,
      puts_restore htpc (List.mem_flatMap.mpr ⟨r, hr, htask⟩), hafter⟩

/-- Neither the repository's configuration can be read nor the repository be
initialised. -/
def noRepo : RepoAnswers :=
  ⟨false, .ok ⟨1, []⟩, .ok ⟨1, []⟩, fun _ _ => true, .ok (), fun _ => .ok ⟨0, []⟩, .ok ()⟩

/-- A run whose only repository fails, up to the restore. -/
def failingRun : List Label :=
  [.flush [.set (text "/home/u/f") (text "mtime_change")],
    .start ⟨text "/home", 1, ⟨some (text "minio:9000"), some (text "backup"), false⟩⟩, .exists,
    .rename, .flush [.set (text "/home/u/g") (text "mtime_change")],
    .hscan [text "/home/u/f"] 0, .pool (fun _ => noRepo) [text "u"]]

/-- It crashes between the restore and the `DELETE`. -/
theorem no_pending_path_lost_failingRun :
    ∃ s, exec State.step .initial (failingRun ++ [.restore, .abort false]) = some s ∧
      (text "/home/u/f" ∈ s.pending ∨ text "/home/u/f" ∈ s.processing) := by
  have hrun : (exec State.step .initial (failingRun ++ [.restore, .abort false])).isSome := by
    decide +kernel
  have hsent : ((exec State.step .initial failingRun).map fun s => s.sent .restore) =
      some [.set (text "/home/u/f") (text "retry")] := by
    decide +kernel
  obtain ⟨u, hu⟩ := Option.isSome_iff_exists.mp hrun
  obtain ⟨s, hs, hputs⟩ := Option.map_eq_some_iff.mp hsent
  have hsplit := hu
  rw [exec_append, hs, Option.bind_some, exec_cons] at hsplit
  obtain ⟨t, ht, -⟩ := Option.bind_eq_some_iff.mp hsplit
  refine ⟨u, hu, (no_pending_path_lost rfl hu).1 _
    ⟨failingRun, .restore, [.abort false], s, t, rfl, hs, ht, ⟨_, [], [], hputs, by simp⟩, ?_⟩⟩
  intro v hv
  refine ⟨⟨?_, ?_⟩, trivial⟩
  · rintro ⟨pre, post, hdel, -⟩
    simp [State.sent] at hdel
  · rintro ⟨hl, -⟩
    simp at hl

end Backup
end FileTracker
