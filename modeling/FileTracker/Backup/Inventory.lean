import FileTracker.Backup.Partition
import Mathlib.Data.Finset.Sort
import Mathlib.Data.List.Lex

/-!
# The repositories in the bucket

`list_repos` of `backup/cli.py` and `prune_all_repos` of `backup/prune.py`.  Nobody keeps
a list of the repositories: both programs look for objects whose name ends in `/config`
and cut that off at the last place where it stands.

In a bucket that restic alone writes to, this finds the repositories that have been
created and nothing else (`listRepos_eq`).  `prune_all_repos` then takes them in their
order.  A `restic forget` that fails is logged and the loop goes on; but the message is
decoded for the log, and one that is not UTF-8 ends the loop, as an exception of the call
does.  `pruned_iff` says which repositories are reached.
-/

namespace FileTracker
namespace Backup

/-! ## The listing -/

/-- What ends the name of a repository's `config`. -/
def configSuffix : Text := text "/config"

/-- What stands in front of the last occurrence of `sep`. -/
def beforeLast (sep : Text) : Text → Option Text
  | [] => none
  | c :: s =>
    match beforeLast sep s with
    | some head => some (c :: head)
    | none => if sep.isPrefixOf (c :: s) then some [] else none

/-- Python's `s.rsplit(sep, 1)[0]`. -/
def rsplitHead (sep s : Text) : Text := (beforeLast sep s).getD s

/-- The body of the loop over the objects. -/
def addRepo (repos : Finset Text) (objectName : Text) : Finset Text :=
  if configSuffix.isSuffixOf objectName then
    let repoPrefix := rsplitHead configSuffix objectName
    if repoPrefix ≠ [] then insert repoPrefix repos else repos
  else repos

/-- `list_repos`, with what the listing of the bucket comes to. -/
def Cli.listRepos (cfg : MinioConfig) (listing : Except PyError (List Text)) :
    Except PyError (List Text) :=
  match cfg.endpoint, cfg.bucket with
  | some _, some _ => listing.map fun objects => (objects.foldl addRepo ∅).sort
  | _, _ => .error .keyError

/-! ## Pruning -/

/-- What `prune_all_repos` raises: the `RuntimeError` of `restic_env`, which names a
variable, or another exception. -/
inductive PruneError where
  | missingVariable (key : Text)
  | raised (e : PyError)
  deriving DecidableEq

/-- The variables that `restic_env` asks for. -/
def requiredVariables : List Text :=
  [text "RESTIC_PASSWORD", text "AWS_ACCESS_KEY_ID", text "AWS_SECRET_ACCESS_KEY"]

/-- `restic_env`. -/
def resticEnv (environ : Text → Option Text) : Except PruneError (Text → Option Text) :=
  match requiredVariables.find? fun key => (environ key).isNone with
  | some key => .error (.missingVariable key)
  | none => .ok environ

/-- What `prune.py` reads of the configuration. -/
structure PruneConfig where
  minio : MinioConfig
  keepDays : Option ℤ
  /-- the section `backup`, and `restic_binary` in it -/
  backup : Option (Option Text)

/-- The command for a repository. -/
def forgetCommand (resticBin : Text) (keepDays : ℤ) (url : Text) : List Text :=
  [resticBin, text "forget", text "--keep-within=" ++ text (toString keepDays) ++ text "d",
    text "--prune", text "-r", url]

/-- The rest of an iteration, when the command has ended. -/
def afterForget (run : ProcessRun) : Except PyError Unit := do
  let result ← run
  if result.returncode ≠ 0 then
    let _ ← result.message
    .ok ()
  else .ok ()

/-- The commands that have been run, and how the function ends. -/
structure PruneReport where
  commands : List (List Text)
  outcome : Except PruneError Unit

/-- The loop over the repositories. -/
def pruneLoop (command : Text → List Text) (restic : List Text → ProcessRun) :
    List Text → PruneReport
  | [] => ⟨[], .ok ()⟩
  | repoPrefix :: rest =>
    match afterForget (restic (command repoPrefix)) with
    | .error e => ⟨[command repoPrefix], .error (.raised e)⟩
    | .ok _ =>
      let report := pruneLoop command restic rest
      { report with commands := command repoPrefix :: report.commands }

/-- `prune_all_repos`. -/
def pruneAllRepos (cfg : PruneConfig) (environ : Text → Option Text)
    (listing : Except PyError (List Text)) (restic : List Text → ProcessRun) : PruneReport :=
  match resticEnv environ with
  | .error e => ⟨[], .error e⟩
  | .ok _ =>
    match cfg.minio.endpoint, cfg.minio.bucket, cfg.backup with
    | some endpoint, some bucket, some resticBinary =>
      match listing with
      | .error e => ⟨[], .error (.raised e)⟩
      | .ok objects =>
        let scheme := if cfg.minio.useTls then text "https" else text "http"
        let url := fun r : Text =>
          text "s3:" ++ scheme ++ text "://" ++ endpoint ++ [slash] ++ bucket ++ [slash] ++ r
        let command := fun r : Text =>
          forgetCommand (resticBinary.getD (text "restic")) (cfg.keepDays.getD 90) (url r)
        pruneLoop command restic (objects.foldl addRepo ∅).sort
    | _, _, _ => ⟨[], .error (.raised .keyError)⟩

/-! ## What is listed -/

theorem beforeLast_eq_none {sep s : Text} (h : s.length < sep.length) :
    beforeLast sep s = none := by
  induction s with
  | nil => rfl
  | cons c s ih =>
    have htail : s.length < sep.length := (Nat.lt_succ_self _).trans h
    have hprefix : ¬ sep <+: c :: s := fun hle => absurd hle.length_le (not_le.mpr h)
    rw [beforeLast, ih htail]
    exact if_neg (mt List.isPrefixOf_iff_prefix.mp hprefix)

/-- What ends in the separator ends in its last occurrence. -/
theorem beforeLast_append {sep : Text} (hsep : sep ≠ []) (p : Text) :
    beforeLast sep (p ++ sep) = some p := by
  induction p with
  | nil =>
    obtain ⟨c, s, rfl⟩ := List.exists_cons_of_ne_nil hsep
    rw [List.nil_append, beforeLast, beforeLast_eq_none (Nat.lt_succ_self _)]
    exact if_pos (List.isPrefixOf_iff_prefix.mpr (List.prefix_refl _))
  | cons c p ih => rw [List.cons_append, beforeLast, ih]

/-- Cutting the suffix off. -/
theorem rsplitHead_append (p : Text) : rsplitHead configSuffix (p ++ configSuffix) = p := by
  rw [rsplitHead, beforeLast_append (by decide), Option.getD_some]

theorem mem_addRepo {repos : Finset Text} {name r : Text} : r ∈ addRepo repos name ↔
    r ∈ repos ∨ r ≠ [] ∧ name = r ++ configSuffix := by
  unfold addRepo
  by_cases hsuffix : configSuffix <:+ name
  · obtain ⟨p, rfl⟩ := hsuffix
    have hin : configSuffix.isSuffixOf (p ++ configSuffix) = true :=
      List.isSuffixOf_iff_suffix.mpr (List.suffix_append _ _)
    rw [if_pos hin, rsplitHead_append, List.append_left_inj]
    by_cases hp : p = []
    · simp only [hp, ne_eq, not_true_eq_false, if_false]
      exact (or_iff_left fun ⟨hr, heq⟩ => hr heq.symm).symm
    · rw [if_pos hp, Finset.mem_insert]
      constructor
      · rintro (rfl | hr)
        · exact Or.inr ⟨hp, rfl⟩
        · exact Or.inl hr
      · rintro (hr | ⟨-, rfl⟩)
        · exact Or.inr hr
        · exact Or.inl rfl
  · rw [if_neg (mt List.isSuffixOf_iff_suffix.mp hsuffix)]
    refine (or_iff_left ?_).symm
    rintro ⟨-, rfl⟩
    exact hsuffix (List.suffix_append _ _)

/-- **What is listed**: every text, if it is not empty, whose `config` is an object. -/
theorem mem_foldl_addRepo {objects : List Text} {repos : Finset Text} {r : Text} :
    r ∈ objects.foldl addRepo repos ↔ r ∈ repos ∨ r ≠ [] ∧ r ++ configSuffix ∈ objects := by
  induction objects generalizing repos with
  | nil => simp
  | cons name objects ih =>
    rw [List.foldl_cons, ih, mem_addRepo, List.mem_cons, or_assoc, eq_comm (a := name)]
    tauto

/-! ## A bucket of restic's -/

/-- The digits in the names of restic's files. -/
def IsHexDigit (c : CodePoint) : Prop := c ∈ text "0123456789abcdef"

instance (c : CodePoint) : Decidable (IsHexDigit c) :=
  inferInstanceAs (Decidable (c ∈ text "0123456789abcdef"))

/-- The objects in a bucket in which restic has created repositories: the `config` of
each, and in the directories next to it files that are named by their hash. -/
structure Bucket where
  repos : Finset Text
  objects : List Text
  created : ∀ r ∈ repos, r ++ configSuffix ∈ objects
  layout : ∀ name ∈ objects, ∃ r ∈ repos, name = r ++ configSuffix ∨
    ∃ dir id, name = r ++ slash :: dir ++ slash :: id ∧ ∀ c ∈ id, IsHexDigit c

/-- No hash is `config`, not even the end of it. -/
theorem not_suffix_of_hex {front id : Text} (hid : ∀ c ∈ id, IsHexDigit c) :
    ¬ configSuffix <:+ front ++ slash :: id := by
  rintro ⟨p, hp⟩
  have hslash : slash ∉ id := fun hin => absurd (hid _ hin) (by decide)
  have hconfig : slash ∉ text "config" := by decide
  have hleft : p ++ configSuffix = p ++ slash :: text "config" := rfl
  have hsplit := congrArg (fun s => (s.splitOn slash).getLast?) hp
  simp only [hleft, List.splitOn_append_cons_self, List.getLast?_append,
    List.splitOn_eq_singleton hslash, List.splitOn_eq_singleton hconfig,
    List.getLast?_singleton, Option.some_or, Option.some.injEq] at hsplit
  have ho : (⟨0x6F, by decide⟩ : CodePoint) ∈ text "config" := by decide
  exact absurd (hid _ (hsplit ▸ ho)) (by decide)

theorem Bucket.mem_objects_iff (b : Bucket) {r : Text} :
    r ++ configSuffix ∈ b.objects ↔ r ∈ b.repos := by
  refine ⟨fun hin => ?_, b.created r⟩
  obtain ⟨s, hs, heq | ⟨dir, id, heq, hid⟩⟩ := b.layout _ hin
  · rwa [List.append_cancel_right heq]
  · exact absurd (heq ▸ List.suffix_append r configSuffix) (not_suffix_of_hex hid)

/-- What the loop over the objects finds. -/
theorem Bucket.foldl_addRepo (b : Bucket) (hne : [] ∉ b.repos) :
    b.objects.foldl addRepo ∅ = b.repos := by
  ext r
  rw [mem_foldl_addRepo, b.mem_objects_iff]
  refine ⟨fun h => ?_, fun hr => Or.inr ⟨fun hnil => hne (hnil ▸ hr), hr⟩⟩
  exact (h.resolve_left (Finset.notMem_empty r)).2

/-- **The listing is the repositories that have been created.** -/
theorem listRepos_eq (b : Bucket) (hne : [] ∉ b.repos) {cfg : MinioConfig}
    {endpoint bucket : Text} (hendpoint : cfg.endpoint = some endpoint)
    (hbucket : cfg.bucket = some bucket) :
    Cli.listRepos cfg (.ok b.objects) = .ok b.repos.sort := by
  rw [Cli.listRepos, hendpoint, hbucket, ← b.foldl_addRepo hne]
  rfl

/-! ## What is pruned -/

section Loop

variable (command : Text → List Text) (restic : List Text → ProcessRun)

/-- The command for the repository ends the loop: it is not run to its end, or it fails with
a message that is not UTF-8. -/
def Stops (r : Text) : Prop :=
  match restic (command r) with
  | .error _ => True
  | .ok result => result.returncode ≠ 0 ∧ Utf8.decodeStrict result.stderr = none

instance : DecidablePred (Stops command restic) := fun r =>
  match h : restic (command r) with
  | .error _ => isTrue (by rw [Stops, h]; trivial)
  | .ok result =>
    decidable_of_iff (result.returncode ≠ 0 ∧ Utf8.decodeStrict result.stderr = none)
      (by rw [Stops, h])

/-- The rest of the iteration raises then, and in no other case. -/
theorem stops_iff {r : Text} :
    Stops command restic r ↔ ∃ e, afterForget (restic (command r)) = .error e := by
  unfold Stops afterForget
  cases hrun : restic (command r) with
  | error e => exact iff_of_true trivial ⟨e, rfl⟩
  | ok result =>
    by_cases hcode : result.returncode = 0
    · simp [hcode, Except.bind, bind]
    · cases hmsg : Utf8.decodeStrict result.stderr <;>
        simp [hcode, CompletedProcess.message, hmsg, Except.bind, bind]

/-- The command for none of the repositories before it ends the loop. -/
def Reached (repos : List Text) (r : Text) : Prop :=
  ∀ s ∈ repos, s < r → ¬ Stops command restic s

instance (repos : List Text) : DecidablePred (Reached command restic repos) := fun r =>
  inferInstanceAs (Decidable (∀ s ∈ repos, s < r → ¬ Stops command restic s))

/-- The loop runs the commands of the repositories that are reached. -/
theorem commands_pruneLoop {repos : List Text} (hsorted : repos.SortedLT) :
    (pruneLoop command restic repos).commands =
      (repos.filter (Reached command restic repos)).map command := by
  induction repos with
  | nil => rfl
  | cons first rest ih =>
    obtain ⟨hfirst, hrest⟩ := List.pairwise_cons.mp hsorted.pairwise
    have hkeep : Reached command restic (first :: rest) first := by
      intro s hs hlt
      rcases List.mem_cons.mp hs with rfl | hs
      · exact absurd hlt (lt_irrefl _)
      · exact absurd hlt (hfirst s hs).asymm
    rw [List.filter_cons, if_pos (decide_eq_true hkeep), List.map_cons]
    cases hrun : afterForget (restic (command first)) with
    | error e =>
      -- everything else comes after the first, which ends the loop
      have hstops : Stops command restic first := (stops_iff command restic).mpr ⟨e, hrun⟩
      have hnone : rest.filter (Reached command restic (first :: rest)) = [] := by
        refine List.filter_eq_nil_iff.mpr fun r hr hall => ?_
        exact of_decide_eq_true hall first List.mem_cons_self (hfirst r hr) hstops
      rw [hnone, List.map_nil]
      simp only [pruneLoop, hrun]
    | ok u =>
      have hgoes : ¬ Stops command restic first := by
        rw [stops_iff, hrun]
        exact fun ⟨e, he⟩ => by cases he
      have hsame : rest.filter (Reached command restic rest) =
          rest.filter (Reached command restic (first :: rest)) := by
        refine List.filter_congr fun r _ => decide_eq_decide.mpr ?_
        exact ⟨fun hall => List.forall_mem_cons.mpr ⟨fun _ => hgoes, hall⟩,
          fun hall => (List.forall_mem_cons.mp hall).2⟩
      simp only [pruneLoop, hrun, ih hrest.sortedLT, hsame]

/-- It comes to an end of its own if no command stops it. -/
theorem outcome_pruneLoop {repos : List Text} :
    (pruneLoop command restic repos).outcome = .ok () ↔ ∀ r ∈ repos, ¬ Stops command restic r := by
  induction repos with
  | nil => simp [pruneLoop]
  | cons first rest ih =>
    rw [List.forall_mem_cons, stops_iff, ← ih]
    cases hrun : afterForget (restic (command first)) <;> simp [pruneLoop, hrun]

end Loop

/-! ## Status, prune and restore -/

/-- The command for a repository with this URL. -/
def PruneConfig.command (cfg : PruneConfig) (resticBinary : Option Text) (url : Text → Text)
    (r : Text) : List Text :=
  forgetCommand (resticBinary.getD (text "restic")) (cfg.keepDays.getD 90) (url r)

/-- What `status` and `prune` make of a bucket: they list the repositories; `prune` runs its
command for those that are reached, in their order; and it ends with an exception if some
command ends the loop. -/
structure Administers (minio : MinioConfig) (b : Bucket) (command : Text → List Text)
    (restic : List Text → ProcessRun) (report : PruneReport) : Prop where
  listed : Cli.listRepos minio (.ok b.objects) = .ok b.repos.sort
  commands : report.commands =
    (b.repos.sort.filter (Reached command restic b.repos.sort)).map command
  outcome : report.outcome = .ok () ↔ ∀ r ∈ b.repos, ¬ Stops command restic r

/-- The mapping makes no empty name. -/
theorem Bucket.nil_notMem {m : RepoMapping} {b : Bucket}
    (hmapped : ∀ r ∈ b.repos, ∃ p, m.repo p = some r) : [] ∉ b.repos := by
  intro hnil
  obtain ⟨p, hp⟩ := hmapped [] hnil
  exact m.ne_nil_of_repo hp rfl

/-- The repositories of a mapping, as they are listed. -/
theorem listRepos_of_mapping {m : RepoMapping} {b : Bucket}
    (hmapped : ∀ r ∈ b.repos, ∃ p, m.repo p = some r) {r url : Text}
    (hurl : repoUrl m.minio r = .ok url) :
    Cli.listRepos m.minio (.ok b.objects) = .ok b.repos.sort := by
  rw [repoUrl] at hurl
  split at hurl
  · rename_i endpoint bucket hendpoint hbucket
    exact listRepos_eq b (Bucket.nil_notMem hmapped) hendpoint hbucket
  · cases hurl

theorem resticEnv_eq {environ : Text → Option Text}
    (henv : ∀ key ∈ requiredVariables, environ key ≠ none) :
    resticEnv environ = .ok environ := by
  have hnone : requiredVariables.find? (fun key => (environ key).isNone) = none := by
    refine List.find?_eq_none.mpr fun key hkey hisNone => ?_
    exact henv key hkey (Option.isNone_iff_eq_none.mp hisNone)
  rw [resticEnv, hnone]

/-- **Status, prune and backup mean the same repositories.**  In a bucket whose repositories
come from the paths of a mapping, under the URLs the backup uses for them. -/
theorem administers_of_mapping (m : RepoMapping) (b : Bucket)
    (hmapped : ∀ r ∈ b.repos, ∃ p, m.repo p = some r) {url : Text → Text}
    (hurl : ∀ r, repoUrl m.minio r = .ok (url r)) {cfg : PruneConfig} (hminio : cfg.minio = m.minio)
    {resticBinary : Option Text} (hbackup : cfg.backup = some resticBinary)
    {environ : Text → Option Text} (henv : ∀ key ∈ requiredVariables, environ key ≠ none)
    (restic : List Text → ProcessRun) :
    Administers m.minio b (cfg.command resticBinary url) restic
      (pruneAllRepos cfg environ (.ok b.objects) restic) := by
  have hmade := hurl []
  rw [repoUrl] at hmade
  split at hmade
  · rename_i endpoint bucket hendpoint hbucket
    have hcommand : cfg.command resticBinary url = fun r =>
        forgetCommand (resticBinary.getD (text "restic")) (cfg.keepDays.getD 90)
          (text "s3:" ++ (if m.minio.useTls then text "https" else text "http") ++ text "://" ++
            endpoint ++ [slash] ++ bucket ++ [slash] ++ r) := by
      funext r
      have hr := hurl r
      rw [repoUrl, hendpoint, hbucket] at hr
      rw [PruneConfig.command, ← Except.ok.inj hr]
    have hprune : pruneAllRepos cfg environ (.ok b.objects) restic =
        pruneLoop (cfg.command resticBinary url) restic b.repos.sort := by
      rw [pruneAllRepos, resticEnv_eq henv, hminio, hendpoint, hbucket, hbackup, hcommand,
        ← b.foldl_addRepo (Bucket.nil_notMem hmapped)]
    refine ⟨listRepos_of_mapping hmapped (hurl []), ?_, ?_⟩
    · rw [hprune]
      exact commands_pruneLoop _ _ b.repos.sortedLT_sort
    · rw [hprune, outcome_pruneLoop]
      exact forall_congr' fun r => imp_congr_left (Finset.mem_sort _)
  · cases hmade

/-! ## A message that is not UTF-8 -/

/-- A repository for each of two users, and a snapshot in one of them. -/
def twoUsers : Bucket where
  repos := {text "stor1/userA", text "stor1/userB"}
  objects := [text "stor1/userB/snapshots/5c0a", text "stor1/userB/config",
    text "stor1/userA/config"]
  created := by decide +kernel
  layout := by
    have hA : text "stor1/userA" ∈ ({text "stor1/userA", text "stor1/userB"} : Finset Text) :=
      Finset.mem_insert_self _ _
    have hB : text "stor1/userB" ∈ ({text "stor1/userA", text "stor1/userB"} : Finset Text) :=
      Finset.mem_insert_of_mem (Finset.mem_singleton_self _)
    intro name hname
    simp only [List.mem_cons, List.not_mem_nil, or_false] at hname
    rcases hname with rfl | rfl | rfl
    · refine ⟨_, hB, Or.inr ⟨text "snapshots", text "5c0a", rfl, ?_⟩⟩
      simp [IsHexDigit, text]
    · exact ⟨_, hB, Or.inl rfl⟩
    · exact ⟨_, hA, Or.inl rfl⟩

/-- Two directories below the base make a repository. -/
def homes : RepoMapping where
  basePath := text "/home"
  repoDepth := 2
  minio := ⟨some (text "minio:9000"), some (text "backup"), false⟩
  resticBinary := none
  absolute := by decide +kernel
  noSlash := by decide +kernel
  depth_pos := by decide

/-- The directory of a user. -/
def homeOf (path : String) (habsolute : (text path).head? = some slash)
    (hne : ∀ c ∈ ((text path).splitOn slash).tail, c ≠ []) : AbsPath :=
  ⟨text path, habsolute, Or.inr hne⟩

theorem twoUsers_mapped : ∀ r ∈ twoUsers.repos, ∃ p, homes.repo p = some r := by
  intro r hr
  rcases Finset.mem_insert.mp hr with rfl | hr
  · exact ⟨homeOf "/home/stor1/userA" (by decide +kernel) (by decide +kernel), by decide +kernel⟩
  · rw [Finset.mem_singleton.mp hr]
    exact ⟨homeOf "/home/stor1/userB" (by decide +kernel) (by decide +kernel), by decide +kernel⟩

/-- The first `restic forget` fails with a message that cannot be decoded, the bytes of a
surrogate; the second repository is not pruned. -/
theorem administers_of_mapping_twoUsers :
    let url := fun r : Text => text "s3:http://minio:9000/backup/" ++ r
    let cfg : PruneConfig := ⟨homes.minio, none, some none⟩
    let restic : List Text → ProcessRun := fun _ => .ok ⟨1, [0xED, 0xA0, 0x80]⟩
    Administers homes.minio twoUsers (cfg.command none url) restic
      (pruneAllRepos cfg (fun _ => some []) (.ok twoUsers.objects) restic) := by
  intro url cfg restic
  exact administers_of_mapping homes twoUsers twoUsers_mapped (fun _ => rfl) rfl rfl
    (fun _ _ => Option.some_ne_none _) _

end Backup
end FileTracker
