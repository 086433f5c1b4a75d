import FileTracker.Library.Runs
import FileTracker.Backup.Repo
import FileTracker.Consumer.EventProcessor

/-!
# The backup run

`_run_backup_inner` of `backup/backup.py` on the two hashes `pending` and
`processing`, one step for each Redis command, with the consumer's flushes in
between.  The worker pool talks to no Redis and is one step, which is handed what
the world answers to each repository and the order in which the futures complete.

A run may end at any point.  `abort` is a crash or a Redis exception, with the
command the run has come to executed on the server or not; the next run finds
what this one left.

The label of an `HSCAN` carries the fields it returns.  All that is assumed of
them is what Redis promises for a hash nobody changes: by the time the cursor is
back at zero, every field has been returned.
-/

namespace FileTracker
namespace Backup

open Runs LastWriter Consumer

/-! ## The tasks -/

/-- The configuration of a run. -/
structure BackupConfig where
  basePath : Text
  repoDepth : ℤ
  minio : MinioConfig

def BackupConfig.repoOf (cfg : BackupConfig) (path : Text) : Option Text :=
  getRepoId path cfg.basePath cfg.repoDepth

/-- The dictionary `tasks`, in insertion order. -/
abbrev Tasks := List (Text × List Text)

/-- `tasks.setdefault(repo_id, []).append(path)`. -/
def Tasks.append : Tasks → Text → Text → Tasks
  | [], repoId, path => [(repoId, [path])]
  | (r, paths) :: tasks, repoId, path =>
    if r = repoId then (r, paths ++ [path]) :: tasks
    else (r, paths) :: Tasks.append tasks repoId path

/-- `tasks[repo_id]`. -/
def Tasks.paths (tasks : Tasks) (repoId : Text) : List Text :=
  ((tasks.find? fun t => t.1 = repoId).map Prod.snd).getD []

/-- The variables of the scan.  `returned` is a ghost: the fields that `total_count`
counts. -/
structure Scan where
  cursor : ℕ
  tasks : Tasks
  skipped : ℕ
  totalCount : ℕ
  returned : List Text

def Scan.init : Scan := ⟨0, [], 0, 0, []⟩

/-- The body of the loop over the items of a page. -/
def Scan.item (cfg : BackupConfig) (scan : Scan) (path : Text) : Scan :=
  let scan := { scan with
    totalCount := scan.totalCount + 1, returned := scan.returned ++ [path] }
  match cfg.repoOf path with
  | none => { scan with skipped := scan.skipped + 1 }
  | some repoId => { scan with tasks := scan.tasks.append repoId path }

/-- A page of the scan. -/
def Scan.page (cfg : BackupConfig) (scan : Scan) (items : List Text) (cursor : ℕ) : Scan :=
  { items.foldl (Scan.item cfg) scan with cursor := cursor }

/-! ## The pool -/

/-- The dictionary `total`. -/
structure Totals where
  backedUp : ℕ
  skipped : ℕ
  errors : ℕ
  deriving DecidableEq

/-- What the pool leaves behind: the totals and the failed repositories, and, out of
the reports, what was found missing and which backups were run. -/
structure PoolResult where
  total : Totals
  failedRepos : List Text
  missing : List Text
  calls : List BackupCall

def PoolResult.init : PoolResult := ⟨⟨0, 0, 0⟩, [], [], []⟩

def PoolResult.fail (acc : PoolResult) (repoId : Text) : PoolResult :=
  { acc with failedRepos := acc.failedRepos ++ [repoId] }

/-- The future of a repository: `pool.submit(backup_repo, repo_id, paths, ..)`. -/
def future (cfg : BackupConfig) (tasks : Tasks) (answers : Text → RepoAnswers)
    (repoId : Text) : RepoReport :=
  backupRepo repoId (tasks.paths repoId) cfg.minio (answers repoId)

/-- The body of the loop over the completed futures. -/
def PoolResult.collect (cfg : BackupConfig) (tasks : Tasks) (answers : Text → RepoAnswers)
    (acc : PoolResult) (repoId : Text) : PoolResult :=
  let report := future cfg tasks answers repoId
  let acc := { acc with
    missing := acc.missing ++ report.missing, calls := acc.calls ++ report.calls }
  match report.outcome with
  | .ok res =>
    let acc := { acc with
      total := ⟨acc.total.backedUp + res.backedUp, acc.total.skipped + res.skipped,
        acc.total.errors + res.errors⟩ }
    if res.errors > 0 then acc.fail repoId else acc
  | .error _ =>
    let acc := { acc with
      total := { acc.total with
        errors := acc.total.errors + (tasks.paths repoId).length } }
    acc.fail repoId

/-- The paths of the failed repositories. -/
def PoolResult.failedPaths (tasks : Tasks) (res : PoolResult) : List Text :=
  res.failedRepos.flatMap tasks.paths

/-- The pipeline that puts them back. -/
def PoolResult.retryCommands (tasks : Tasks) (res : PoolResult) : List HashCmd :=
  (res.failedPaths tasks).map fun path => .set path (text "retry")

/-! ## The machine -/

/-- Where a run is: which Redis command it has come to. -/
inductive Pc where
  | idle
  | starting (cfg : BackupConfig)
  | swapping (cfg : BackupConfig)
  | scanning (cfg : BackupConfig) (scan : Scan)
  | working (cfg : BackupConfig) (scan : Scan)
  | restoring (cfg : BackupConfig) (scan : Scan) (res : PoolResult)
  | deleting (cfg : BackupConfig) (scan : Scan) (res : PoolResult)
  | recording (scan : Scan) (res : PoolResult)

/-- The hash `backup:last_run`, without its times. -/
structure LastRun where
  total : Totals
  repos : ℕ
  deriving DecidableEq

/-- The hashes in Redis, and the run. -/
structure State where
  pending : Hash
  processing : Hash
  lastRun : Option LastRun
  pc : Pc

/-- A consumer's flush; a run begins; the commands of a run, and its pool; a run ends
before its time. -/
inductive Label where
  | flush (cmds : List HashCmd)
  | start (cfg : BackupConfig)
  | exists
  | rename
  | hscan (items : List Text) (cursor : ℕ)
  | pool (answers : Text → RepoAnswers) (order : List Text)
  | restore
  | delete
  | record
  | abort (applied : Bool)

/-- What the command the run has come to does in Redis. -/
def State.effect (s : State) : State :=
  match s.pc with
  | .swapping _ =>
    if s.pending = ∅ then s else { s with pending := ∅, processing := s.pending }
  | .restoring _ scan res =>
    { s with pending := run s.pending (res.retryCommands scan.tasks) }
  | .deleting _ _ _ => { s with processing := ∅ }
  | .recording scan res => { s with lastRun := some ⟨res.total, scan.tasks.length⟩ }
  | _ => s

/-- The scan of a hash that nobody changes has returned every field when the cursor
is back at zero. -/
def ScanComplete (processing : Hash) (scan : Scan) : Prop :=
  scan.cursor = 0 → ∀ path ∈ processing.keys, path ∈ scan.returned

instance (processing : Hash) (scan : Scan) : Decidable (ScanComplete processing scan) :=
  inferInstanceAs (Decidable (_ → _))

def State.step (s : State) : Label → Option State
  | .flush cmds => some { s with pending := run s.pending cmds }
  | .start cfg =>
    match s.pc with
    | .idle => some { s with pc := .starting cfg }
    | _ => none
  | .exists =>
    match s.pc with
    | .starting cfg =>
      some { s with pc := if s.processing = ∅ then .swapping cfg else .scanning cfg .init }
    | _ => none
  | .rename =>
    match s.pc with
    | .swapping cfg =>
      -- swapping a missing key is the `ResponseError` the code returns on
      some { s.effect with pc := if s.pending = ∅ then .idle else .scanning cfg .init }
    | _ => none
  | .hscan items cursor =>
    match s.pc with
    | .scanning cfg scan =>
      let scan := scan.page cfg items cursor
      if ScanComplete s.processing scan then
        some { s with pc := if cursor = 0 then .working cfg scan else .scanning cfg scan }
      else none
    | _ => none
  | .pool answers order =>
    match s.pc with
    | .working cfg scan =>
      if order.Perm (scan.tasks.map Prod.fst) then
        let res := order.foldl (PoolResult.collect cfg scan.tasks answers) .init
        some { s with
          pc := if res.failedRepos = [] then .deleting cfg scan res
            else .restoring cfg scan res }
      else none
    | _ => none
  | .restore =>
    match s.pc with
    | .restoring cfg scan res => some { s.effect with pc := .deleting cfg scan res }
    | _ => none
  | .delete =>
    match s.pc with
    | .deleting _ scan res => some { s.effect with pc := .recording scan res }
    | _ => none
  | .record =>
    match s.pc with
    | .recording _ _ => some { s.effect with pc := .idle }
    | _ => none
  | .abort applied =>
    match s.pc with
    | .idle => none
    | _ => some { (if applied then s.effect else s) with pc := .idle }

/-- Nothing in Redis, no run. -/
def State.initial : State := ⟨∅, ∅, none, .idle⟩

end Backup
end FileTracker
