import FileTracker.Library.PyJson

/-!
# One repository of a backup run

`get_repo_id`, `RepoManager.ensure` and `backup_repo` of `backup/backup.py`.

Everything these functions learn from outside is an argument: how each restic
process ends, which files exist, whether the list file can be written.  A report
carries, next to the value or the exception, what a reader of the run wants to
know and the code throws away: which paths were found not to exist, and which
lists of paths were handed to a `restic backup` that returned what.

`settled_of_noErrors` is what the caller relies on: a report without errors
accounts for every path.
-/

namespace FileTracker
namespace Backup

def slash : CodePoint := ⟨0x2F, by decide⟩

def newline : CodePoint := ⟨0x0A, by decide⟩

/-- Python's `xs[:n]`, where a negative bound counts from the end. -/
def sliceTo {α : Type} (xs : List α) (n : ℤ) : List α :=
  xs.take (if n < 0 then (xs.length + n).toNat else n.toNat)

/-- `get_repo_id`. -/
def getRepoId (path base : Text) (depth : ℤ) : Option Text :=
  if (base ++ [slash]).isPrefixOf path then
    let rel := path.drop (base.length + 1)
    let parts := rel.splitOn slash
    if (parts.length : ℤ) < depth then none
    else some ([slash].intercalate (sliceTo parts depth))
  else none

/-- The section `minio` of the configuration. -/
structure MinioConfig where
  endpoint : Option Text
  bucket : Option Text
  useTls : Bool

/-- The repository's URL, or a `KeyError` where the configuration lacks a part. -/
def repoUrl (cfg : MinioConfig) (repoId : Text) : Except PyError Text :=
  match cfg.endpoint, cfg.bucket with
  | some endpoint, some bucket =>
    let scheme := if cfg.useTls then text "https" else text "http"
    .ok (text "s3:" ++ scheme ++ text "://" ++ endpoint ++ [slash] ++ bucket ++ [slash] ++ repoId)
  | _, _ => .error .keyError

/-- A finished process. -/
structure CompletedProcess where
  returncode : ℤ
  stderr : Bytes

/-- What `subprocess.run` comes to: a finished process, or an exception, among
them `TimeoutExpired`. -/
abbrev ProcessRun := Except PyError CompletedProcess

/-- `stderr.decode()`. -/
def CompletedProcess.message (p : CompletedProcess) : Except PyError Text :=
  match Utf8.decodeStrict p.stderr with
  | some t => .ok t
  | none => .error .unicodeDecodeError

/-- What the world answers to `backup_repo`. -/
structure RepoAnswers where
  /-- the URL is in `_initialized` -/
  initialized : Bool
  catConfig : ProcessRun
  init : ProcessRun
  /-- `os.path.exists`, for the path at a position of the list -/
  pathExists : ℕ → Text → Bool
  /-- writing the list file -/
  writeList : Except PyError Unit
  /-- `restic backup` at an attempt -/
  backup : ℕ → ProcessRun
  /-- `os.unlink` of the list file -/
  unlink : Except PyError Unit

/-- `RepoManager.ensure`. -/
def ensure (a : RepoAnswers) : Except PyError Bool :=
  if a.initialized then .ok true
  else
    match a.catConfig with
    | .error e => .error e
    | .ok result =>
      if result.returncode ≠ 0 then
        match a.init with
        | .error e => .error e
        | .ok result =>
          if result.returncode ≠ 0 then result.message.map fun _ => false else .ok true
      else .ok true

/-- The dictionary `backup_repo` returns. -/
structure RepoResult where
  repoId : Text
  total : ℕ
  backedUp : ℕ
  skipped : ℕ
  errors : ℕ
  deriving DecidableEq

/-- A `restic backup` that returned: the paths its list file was written from, and
its return code. -/
structure BackupCall where
  existing : List Text
  returncode : ℤ
  deriving DecidableEq

/-- The text of the list file. -/
def BackupCall.listFile (c : BackupCall) : Text := [newline].intercalate c.existing

/-- `proc.returncode in (0, 3)`. -/
def BackupCall.Succeeded (c : BackupCall) : Prop := c.returncode = 0 ∨ c.returncode = 3

instance (c : BackupCall) : Decidable c.Succeeded :=
  inferInstanceAs (Decidable (_ ∨ _))

/-- What a call of `backup_repo` comes to. -/
structure RepoReport where
  outcome : Except PyError RepoResult
  missing : List Text
  calls : List BackupCall

def maxRetries : ℕ := 3

/-- The attempts of `backup_repo`, with the calls that returned. -/
def tryBackup (backup : ℕ → ProcessRun) (existing : List Text) (result : RepoResult) :
    List ℕ → List BackupCall × Except PyError RepoResult
  | [] => ([], .ok result)
  | attempt :: attempts =>
    match backup attempt with
    | .error e => ([], .error e)
    | .ok proc =>
      let call : BackupCall := ⟨existing, proc.returncode⟩
      if call.Succeeded then ([call], .ok { result with backedUp := existing.length })
      else
        match proc.message with
        | .error e => ([call], .error e)
        | .ok _ =>
          if attempt < maxRetries then
            let (calls, outcome) := tryBackup backup existing result attempts
            (call :: calls, outcome)
          else ([call], .ok { result with errors := existing.length })

/-- The paths `os.path.exists` answers for with `b`. -/
def RepoAnswers.pathsWith (a : RepoAnswers) (b : Bool) (paths : List Text) : List Text :=
  (paths.zipIdx.filter fun x => a.pathExists x.2 x.1 == b).map Prod.fst

/-- `backup_repo`. -/
def backupRepo (repoId : Text) (paths : List Text) (cfg : MinioConfig) (a : RepoAnswers) :
    RepoReport :=
  match repoUrl cfg repoId with
  | .error e => ⟨.error e, [], []⟩
  | .ok _ =>
    let result : RepoResult := ⟨repoId, paths.length, 0, 0, 0⟩
    match ensure a with
    | .error e => ⟨.error e, [], []⟩
    | .ok false => ⟨.ok { result with errors := paths.length }, [], []⟩
    | .ok true =>
      let existing := a.pathsWith true paths
      let missing := a.pathsWith false paths
      let result := { result with skipped := paths.length - existing.length }
      if existing = [] then ⟨.ok result, missing, []⟩
      else
        match a.writeList with
        | .error e => ⟨.error e, missing, []⟩
        | .ok _ =>
          let (calls, outcome) :=
            tryBackup a.backup existing result (List.range' 1 maxRetries)
          match a.unlink with
          | .error e => ⟨.error e, missing, calls⟩
          | .ok _ => ⟨outcome, missing, calls⟩

/-- The strings `backup_repo` calls `os.path.exists` on. -/
def testedPaths (repoId : Text) (paths : List Text) (cfg : MinioConfig) (a : RepoAnswers) :
    List Text :=
  match repoUrl cfg repoId, ensure a with
  | .ok _, .ok true => paths
  | _, _ => []

/-! ## What a report accounts for -/

/-- The path was found not to exist, or handed to a `restic backup` that returned 0
or 3. -/
def RepoReport.Settled (r : RepoReport) (path : Text) : Prop :=
  path ∈ r.missing ∨ ∃ c ∈ r.calls, c.Succeeded ∧ path ∈ c.existing

theorem mem_pathsWith_or (a : RepoAnswers) {paths : List Text} {path : Text}
    (h : path ∈ paths) : path ∈ a.pathsWith true paths ∨ path ∈ a.pathsWith false paths := by
  obtain ⟨i, hi⟩ := List.mem_iff_getElem?.mp h
  have hmem : (path, i) ∈ paths.zipIdx := List.mem_zipIdx_iff_getElem?.mpr hi
  unfold RepoAnswers.pathsWith
  cases hb : a.pathExists i path with
  | true =>
    exact Or.inl (List.mem_map_of_mem (f := Prod.fst)
      (List.mem_filter.mpr ⟨hmem, by simpa using hb⟩))
  | false =>
    exact Or.inr (List.mem_map_of_mem (f := Prod.fst)
      (List.mem_filter.mpr ⟨hmem, by simpa using hb⟩))

theorem mem_of_mem_pathsWith {a : RepoAnswers} {b : Bool} {paths : List Text} {path : Text}
    (h : path ∈ a.pathsWith b paths) : path ∈ paths := by
  obtain ⟨⟨x, i⟩, hmem, rfl⟩ := List.mem_map.mp h
  have hzip := List.mem_zipIdx_iff_getElem?.mp (List.mem_filter.mp hmem).1
  exact List.mem_of_getElem? hzip

/-- Every attempt is handed the same list. -/
theorem existing_of_mem_tryBackup {backup : ℕ → ProcessRun} {existing : List Text}
    {result : RepoResult} {attempts : List ℕ} {c : BackupCall}
    (h : c ∈ (tryBackup backup existing result attempts).1) : c.existing = existing := by
  induction attempts with
  | nil => exact absurd h List.not_mem_nil
  | cons attempt attempts ih =>
    unfold tryBackup at h
    cases hrun : backup attempt with
    | error e =>
      simp only [hrun] at h
      exact absurd h List.not_mem_nil
    | ok proc =>
      simp only [hrun] at h
      cases hmsg : proc.message with
      | error e =>
        simp only [hmsg, apply_ite Prod.fst, ite_self, List.mem_singleton] at h
        rw [h]
      | ok m =>
        simp only [hmsg] at h
        split_ifs at h
        · rw [List.mem_singleton.mp h]
        · rcases List.mem_cons.mp h with rfl | h
          · rfl
          · exact ih h
        · rw [List.mem_singleton.mp h]

/-- **What restic is handed**: the paths of the repository that exist, of which there
are some. -/
theorem existing_of_mem_calls {repoId : Text} {paths : List Text} {cfg : MinioConfig}
    {a : RepoAnswers} {c : BackupCall} (h : c ∈ (backupRepo repoId paths cfg a).calls) :
    c.existing = a.pathsWith true paths ∧ a.pathsWith true paths ≠ [] := by
  unfold backupRepo at h
  cases hurl : repoUrl cfg repoId with
  | error e =>
    simp only [hurl] at h
    exact absurd h List.not_mem_nil
  | ok url =>
    simp only [hurl] at h
    cases hens : ensure a with
    | error e =>
      simp only [hens] at h
      exact absurd h List.not_mem_nil
    | ok ready =>
      cases ready with
      | false =>
        simp only [hens] at h
        exact absurd h List.not_mem_nil
      | true =>
        simp only [hens] at h
        split_ifs at h with hnil
        · exact absurd h List.not_mem_nil
        · refine ⟨?_, hnil⟩
          cases hwrite : a.writeList with
          | error e =>
            simp only [hwrite] at h
            exact absurd h List.not_mem_nil
          | ok _ =>
            cases hunlink : a.unlink <;> simp only [hwrite, hunlink] at h <;>
              exact existing_of_mem_tryBackup h

/-- Attempts up to the last one that end with a result and no errors ended with a
success, with the list as it was handed over. -/
theorem tryBackup_succeeded {backup : ℕ → ProcessRun} {existing : List Text}
    {result res : RepoResult} (hne : existing ≠ []) {attempts : List ℕ}
    (hlast : attempts.getLast? = some maxRetries)
    (h : (tryBackup backup existing result attempts).2 = .ok res) (herr : res.errors = 0) :
    ∃ c ∈ (tryBackup backup existing result attempts).1, c.Succeeded ∧ c.existing = existing := by
  induction attempts with
  | nil => simp at hlast
  | cons attempt attempts ih =>
    unfold tryBackup at h ⊢
    cases hrun : backup attempt with
    | error e => simp [hrun] at h
    | ok proc =>
      simp only [hrun] at h ⊢
      by_cases hcode : (BackupCall.mk existing proc.returncode).Succeeded
      · rw [if_pos hcode]
        exact ⟨_, List.mem_singleton.mpr rfl, hcode, rfl⟩
      · rw [if_neg hcode] at h ⊢
        cases hmsg : proc.message with
        | error e => simp [hmsg] at h
        | ok m =>
          simp only [hmsg] at h ⊢
          by_cases hlt : attempt < maxRetries
          · rw [if_pos hlt] at h ⊢
            have hrest : attempts ≠ [] := by
              rintro rfl
              obtain rfl := Option.some.inj hlast
              exact lt_irrefl _ hlt
            rw [List.getLast?_cons_of_ne_nil hrest] at hlast
            obtain ⟨c, hc, hrest⟩ := ih hlast h
            exact ⟨c, List.mem_cons_of_mem _ hc, hrest⟩
          · rw [if_neg hlt] at h
            obtain rfl := Except.ok.inj h
            exact absurd herr (List.length_pos_iff.mpr hne).ne'

/-- **A report without errors accounts for every path** of the repository. -/
theorem settled_of_noErrors {repoId : Text} {paths : List Text} {cfg : MinioConfig}
    {a : RepoAnswers} {res : RepoResult}
    (h : (backupRepo repoId paths cfg a).outcome = .ok res) (herr : res.errors = 0)
    {path : Text} (hpath : path ∈ paths) : (backupRepo repoId paths cfg a).Settled path := by
  unfold backupRepo at h ⊢
  cases hurl : repoUrl cfg repoId with
  | error e => simp [hurl] at h
  | ok url =>
    simp only [hurl] at h ⊢
    cases hens : ensure a with
    | error e => simp [hens] at h
    | ok ready =>
      cases ready with
      | false =>
        simp only [hens, Except.ok.injEq] at h
        rw [← h] at herr
        exact absurd herr (List.length_pos_of_mem hpath).ne'
      | true =>
        simp only [hens] at h ⊢
        split_ifs at h ⊢ with hnil
        · rcases mem_pathsWith_or a hpath with hex | hmiss
          · rw [hnil] at hex
            simp at hex
          · exact Or.inl hmiss
        · cases hwrite : a.writeList with
          | error e => simp [hwrite] at h
          | ok _ =>
            cases hunlink : a.unlink with
            | error e => simp [hwrite, hunlink] at h
            | ok _ =>
              simp only [hwrite, hunlink] at h ⊢
              rcases mem_pathsWith_or a hpath with hex | hmiss
              · obtain ⟨c, hc, hsucc, hlist⟩ :=
                  tryBackup_succeeded hnil (by decide) h herr
                exact Or.inr ⟨c, hc, hsucc, hlist ▸ hex⟩
              · exact Or.inl hmiss

end Backup
end FileTracker
