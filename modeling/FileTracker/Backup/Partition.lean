import FileTracker.Backup.Run
import FileTracker.Library.Separator

/-!
# The repositories partition the tree

`get_repo_id` tests a string prefix, cuts off a number of characters, splits at the slashes
and joins again; and there are two of it, one in `backup/backup.py` and one in
`backup/cli.py`, where `cmd_restore` asks it which repository a file is in.

All of it can be said in components.  Below the base, a path is mapped to its first `depth`
components, if it has so many (`repoOf_append`), and that gives the partition
(`repos_partition`).  What lies below a mapped path is mapped to the same repository, so
that a directory brings nothing from another one and a restore looks where the backup has
put the file; and two identifiers have the same number of components, so that neither is
the beginning of the other.
-/

namespace FileTracker
namespace Backup

open Separator

/-! ## The command-line tool -/

/-- `get_repo_id` of `cli.py`. -/
def Cli.getRepoId (path base : Text) (depth : ℤ) : Option Text :=
  if (base ++ [slash]).isPrefixOf path then
    let rel := path.drop (base.length + 1)
    let parts := rel.splitOn slash
    if (parts.length : ℤ) < depth then none
    else some ([slash].intercalate (sliceTo parts depth))
  else none

/-- `repo_url` of `cli.py`. -/
def Cli.repoUrl (cfg : MinioConfig) (repoId : Text) : Except PyError Text :=
  match cfg.endpoint, cfg.bucket with
  | some endpoint, some bucket =>
    let scheme := if cfg.useTls then text "https" else text "http"
    .ok (text "s3:" ++ scheme ++ text "://" ++ endpoint ++ [slash] ++ bucket ++ [slash] ++ repoId)
  | _, _ => .error .keyError

/-- The two copies are the same. -/
theorem Cli.getRepoId_eq : Cli.getRepoId = Backup.getRepoId := rfl

theorem Cli.repoUrl_eq : Cli.repoUrl = Backup.repoUrl := rfl

/-- What the tool reads of the configuration. -/
structure CliConfig extends BackupConfig where
  resticBinary : Option Text

/-- `restic_bin`. -/
def CliConfig.resticBin (cfg : CliConfig) : Text := cfg.resticBinary.getD (text "restic")

/-- The arguments of `restore`. -/
structure RestoreArgs where
  path : Text
  snapshot : Option Text
  target : Option Text

/-- Python's `x or default` for an optional string. -/
def orDefault (x : Option Text) (default : Text) : Text :=
  match x with
  | some (c :: s) => c :: s
  | _ => default

/-- How the tool ends: what it has printed, the restic command it has run, and its exit
code. -/
structure CliRun where
  stdout : List Text
  stderr : List Text
  command : Option (List Text)
  exitCode : ℤ

/-- `cmd_restore`, with the return code of restic or the exception that running it
raises. -/
def cmdRestore (cfg : CliConfig) (args : RestoreArgs) (restic : List Text → Except PyError ℤ) :
    Except PyError CliRun :=
  match orDefault (Cli.getRepoId args.path cfg.basePath cfg.repoDepth) [] with
  | [] => .ok ⟨[], [text "Error: cannot determine repo from path: " ++ args.path], none, 1⟩
  | rid@(_ :: _) => do
    let url ← Cli.repoUrl cfg.minio rid
    let target := orDefault args.target (text "/tmp/restore")
    let cmd := [cfg.resticBin, text "restore", orDefault args.snapshot (text "latest"),
      text "--target", target, text "--include", args.path, text "-r", url]
    let printed := [text "Repo: " ++ rid, text "Restoring to: " ++ target]
    let returncode ← restic cmd
    if returncode = 0 then
      .ok ⟨printed ++ [text "Done. Check: " ++ target ++ args.path], [], some cmd, 0⟩
    else .ok ⟨printed, [], some cmd, returncode⟩

/-! ## The partition -/

/-- An absolute path without empty components; the root has none at all. -/
structure AbsPath where
  text : Text
  absolute : text.head? = some slash
  components_ne : text = [slash] ∨ ∀ c ∈ (text.splitOn slash).tail, c ≠ []

/-- A configuration with an absolute base that does not end in a slash, and a depth of at
least one. -/
structure RepoMapping extends CliConfig where
  absolute : basePath.head? = some slash
  noSlash : basePath.getLast? ≠ some slash
  depth_pos : 1 ≤ repoDepth

namespace RepoMapping

variable (m : RepoMapping)

/-- The repository of a path. -/
def repo (p : AbsPath) : Option Text := m.repoOf p.text

/-- The components of a path behind those of the base. -/
def components (p : AbsPath) : List Text :=
  (p.text.splitOn slash).drop (m.basePath.splitOn slash).length

/-- **The repositories partition the tree**, and backup and restore agree on it. -/
structure Partitions : Prop where
  none_iff : ∀ p, m.repo p = none ↔
    ¬ Below slash m.basePath p.text ∨ ((m.components p).length : ℤ) < m.repoDepth
  inside : ∀ p r, m.repo p = some r → ((r.splitOn slash).length : ℤ) = m.repoDepth ∧
    (p.text = m.basePath ++ slash :: r ∨ Below slash (m.basePath ++ slash :: r) p.text)
  closed : ∀ p q r, m.repo p = some r → Below slash p.text q.text → m.repo q = some r
  /-- Whatever restic answers, a restore of what lies below runs it on the repository of the
  backup, and ends as it does. -/
  restored : ∀ (p q : AbsPath) (r : Text) (args : RestoreArgs), m.repo p = some r →
    Below slash p.text q.text → args.path = q.text →
      ∃ front, ∀ restic : List Text → Except PyError ℤ,
        (cmdRestore m.toCliConfig args restic).map (fun run => (run.command, run.exitCode)) = do
          let url ← repoUrl m.minio r
          let cmd := front ++ [text "--include", q.text, text "-r", url]
          let returncode ← restic cmd
          return (some cmd, returncode)
  same_iff : ∀ p q r s, m.repo p = some r → m.repo q = some s →
    (r = s ↔ (m.components p).take m.repoDepth.toNat = (m.components q).take m.repoDepth.toNat)
  apart : ∀ p q r s, m.repo p = some r → m.repo q = some s → ¬ Below slash r s
  /-- The keys below two identifiers are never the same. -/
  keys : ∀ p q r s, m.repo p = some r → m.repo q = some s →
    ∀ k l, r ++ slash :: k = s ++ slash :: l → r = s

/-! ## In components -/

/-- A path that is not below the base is not mapped. -/
theorem repoOf_eq_none {path : Text} (h : ¬ Below slash m.basePath path) :
    m.repoOf path = none := by
  rw [BackupConfig.repoOf, getRepoId, if_neg]
  rw [List.isPrefixOf_iff_prefix]
  rintro ⟨rest, rfl⟩
  exact h (below_iff_exists.mpr ⟨rest, by simp⟩)

/-- **A path below the base**, by its components. -/
theorem repoOf_append (rest : Text) :
    m.repoOf (m.basePath ++ slash :: rest) =
      if ((rest.splitOn slash).length : ℤ) < m.repoDepth then none
      else some ([slash].intercalate ((rest.splitOn slash).take m.repoDepth.toNat)) := by
  have hpos := m.depth_pos
  have hprefix : (m.basePath ++ [slash]).isPrefixOf (m.basePath ++ slash :: rest) = true := by
    rw [List.isPrefixOf_iff_prefix]
    exact ⟨rest, by simp⟩
  have hdrop : (m.basePath ++ slash :: rest).drop (m.basePath.length + 1) = rest := by
    rw [← List.drop_drop, List.drop_left]
    rfl
  rw [BackupConfig.repoOf, getRepoId, if_pos hprefix]
  simp only [hdrop, sliceTo, if_neg (show ¬ m.repoDepth < 0 by omega)]

/-- What is known of a mapped path: what stands behind the base, and that the identifier
has the first `depth` components of it. -/
theorem exists_of_repoOf {path r : Text} (h : m.repoOf path = some r) :
    ∃ rest, path = m.basePath ++ slash :: rest ∧
      m.repoDepth.toNat ≤ (rest.splitOn slash).length ∧
        r.splitOn slash = (rest.splitOn slash).take m.repoDepth.toNat := by
  have hpos := m.depth_pos
  by_cases hbelow : Below slash m.basePath path
  · obtain ⟨rest, rfl⟩ := below_iff_exists.mp hbelow
    rw [repoOf_append] at h
    split_ifs at h with hlen
    obtain rfl := Option.some.inj h
    exact ⟨rest, rfl, by omega, splitOn_intercalate_take (by omega)⟩
  · rw [repoOf_eq_none m hbelow] at h
    cases h

/-- The identifier has `depth` components. -/
theorem length_of_repoOf {path r : Text} (h : m.repoOf path = some r) :
    (r.splitOn slash).length = m.repoDepth.toNat := by
  obtain ⟨rest, -, hlen, hr⟩ := m.exists_of_repoOf h
  rw [hr, List.length_take, Nat.min_eq_left hlen]

/-- The identifier, from the components of the path. -/
theorem splitOn_repo {p : AbsPath} {r : Text} (h : m.repo p = some r) :
    r.splitOn slash = (m.components p).take m.repoDepth.toNat := by
  obtain ⟨rest, hpath, -, hr⟩ := m.exists_of_repoOf h
  rw [hr, components, hpath, drop_splitOn_append]

theorem repo_eq_none_iff (p : AbsPath) : m.repo p = none ↔
    ¬ Below slash m.basePath p.text ∨ ((m.components p).length : ℤ) < m.repoDepth := by
  by_cases hbelow : Below slash m.basePath p.text
  · obtain ⟨rest, hpath⟩ := below_iff_exists.mp hbelow
    rw [repo, components, hpath, repoOf_append, drop_splitOn_append, ← hpath,
      or_iff_right (not_not.mpr hbelow)]
    split_ifs with hlen
    · exact iff_of_true rfl hlen
    · exact iff_of_false nofun hlen
  · exact iff_of_true (m.repoOf_eq_none hbelow) (Or.inl hbelow)

/-- A mapped path is the directory of its repository, or lies below it. -/
theorem eq_or_below {path r : Text} (h : m.repoOf path = some r) :
    path = m.basePath ++ slash :: r ∨ Below slash (m.basePath ++ slash :: r) path := by
  have hpos := m.depth_pos
  obtain ⟨rest, rfl, hlen, hr⟩ := m.exists_of_repoOf h
  have hfirst : r.splitOn slash <+: rest.splitOn slash := hr ▸ List.take_prefix _ _
  by_cases heq : r.splitOn slash = rest.splitOn slash
  · rw [splitOn_injective heq]
    exact Or.inl rfl
  · obtain ⟨deeper, rfl⟩ := below_iff_exists.mp ⟨hfirst, heq⟩
    exact Or.inr (below_iff_exists.mpr ⟨deeper, by simp⟩)

/-- **What lies below a mapped path is in the same repository.** -/
theorem repoOf_of_below {path other r : Text} (h : m.repoOf path = some r)
    (hbelow : Below slash path other) : m.repoOf other = some r := by
  obtain ⟨rest, rfl, hlen, hr⟩ := m.exists_of_repoOf h
  obtain ⟨deeper, rfl⟩ := below_iff_exists.mp hbelow
  have htake : ((rest ++ slash :: deeper).splitOn slash).take m.repoDepth.toNat =
      r.splitOn slash := by
    rw [List.splitOn_append_cons_self, List.take_append_of_le_length hlen, hr]
  have hle : ¬ (((rest ++ slash :: deeper).splitOn slash).length : ℤ) < m.repoDepth := by
    rw [List.splitOn_append_cons_self, List.length_append]
    omega
  rw [List.append_assoc, List.cons_append, repoOf_append, if_neg hle, htake,
    List.intercalate_splitOn]

/-- An identifier is not empty: its components are those of the path. -/
theorem ne_nil_of_repo {p : AbsPath} {r : Text} (h : m.repo p = some r) : r ≠ [] := by
  rintro rfl
  have hfirst : [] ∈ (m.components p).take m.repoDepth.toNat := by
    rw [← m.splitOn_repo h, List.splitOn_nil]
    exact List.mem_singleton.mpr rfl
  have hmem : [] ∈ (p.text.splitOn slash).tail := by
    obtain ⟨k, hk⟩ : ∃ k, (m.basePath.splitOn slash).length = k + 1 :=
      Nat.exists_eq_succ_of_ne_zero (mt List.length_eq_zero_iff.mp (List.splitOn_ne_nil _ _))
    have hin := List.mem_of_mem_take hfirst
    rw [components, hk, ← List.drop_tail] at hin
    exact List.mem_of_mem_drop hin
  rcases p.components_ne with hroot | hne
  · -- the root does not lie below an absolute base
    obtain ⟨rest, hpath, -, -⟩ := m.exists_of_repoOf h
    have hlen := congrArg List.length (hroot.symm.trans hpath)
    simp only [List.length_append, List.length_cons, List.length_nil] at hlen
    have habsolute := m.absolute
    rw [List.length_eq_zero_iff.mp (show m.basePath.length = 0 by omega)] at habsolute
    cases habsolute
  · exact hne [] hmem rfl

/-- `cmd_restore` on a file of a repository: the command ends with its URL. -/
theorem exists_command {p : AbsPath} {r : Text} (h : m.repo p = some r) {args : RestoreArgs}
    (hargs : args.path = p.text) :
    ∃ front, ∀ restic : List Text → Except PyError ℤ,
      (cmdRestore m.toCliConfig args restic).map (fun run => (run.command, run.exitCode)) = do
        let url ← repoUrl m.minio r
        let cmd := front ++ [text "--include", p.text, text "-r", url]
        let returncode ← restic cmd
        return (some cmd, returncode) := by
  obtain ⟨c, s, rfl⟩ := List.exists_cons_of_ne_nil (m.ne_nil_of_repo h)
  have hid : Cli.getRepoId args.path m.basePath m.repoDepth = some (c :: s) := by
    rw [hargs, Cli.getRepoId_eq]
    exact h
  have hrid : orDefault (some (c :: s)) [] = c :: s := rfl
  refine ⟨[m.resticBin, text "restore", orDefault args.snapshot (text "latest"),
    text "--target", orDefault args.target (text "/tmp/restore")], fun restic => ?_⟩
  rw [cmdRestore, hid, hrid, Cli.repoUrl_eq, hargs]
  simp only [bind, Except.bind, pure, Except.pure, List.cons_append, List.nil_append]
  cases repoUrl m.minio (c :: s) with
  | error e => rfl
  | ok url =>
    simp only
    cases restic _ with
    | error e => rfl
    | ok returncode =>
      by_cases hcode : returncode = 0
      · simp [hcode, Except.map]
      · simp [hcode, Except.map]

end RepoMapping

/-- **The repositories partition the tree**, for every base and every depth. -/
theorem repos_partition (m : RepoMapping) : m.Partitions where
  none_iff := m.repo_eq_none_iff
  inside p r h := by
    have hpos := m.depth_pos
    refine ⟨?_, m.eq_or_below h⟩
    rw [m.length_of_repoOf h]
    omega
  closed _ _ _ h hbelow := m.repoOf_of_below h hbelow
  restored _ _ _ _ h hbelow hargs := m.exists_command (m.repoOf_of_below h hbelow) hargs
  same_iff p q r s hr hs := by
    rw [← m.splitOn_repo hr, ← m.splitOn_repo hs]
    exact splitOn_injective.eq_iff.symm
  apart p q r s hr hs :=
    not_below_of_length_eq ((m.length_of_repoOf hr).trans (m.length_of_repoOf hs).symm)
  keys p q r s hr hs _ _ heq :=
    eq_of_append_eq ((m.length_of_repoOf hr).trans (m.length_of_repoOf hs).symm) heq

/- A file of a user, and one below a directory whose name only starts like the base. -/
example : getRepoId (text "/home/stor1/userA/x") (text "/home") 2 = some (text "stor1/userA") ∧
    getRepoId (text "/home2/stor1/userA/x") (text "/home") 2 = none := by
  decide +kernel

end Backup
end FileTracker
