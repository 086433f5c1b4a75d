import FileTracker.Backup.NoLoss
import FileTracker.Library.Separator

/-!
# The list that restic reads

`backup_repo` joins the paths it found with newlines and hands the file to
`restic --files-from`, which takes every line for an entry.  A file name may hold a
newline itself, and nothing escapes it.

Without such a name the list is read back as it was meant, and every entry lies in the
repository it is backed up to; with one it is not (`intended_iff`).  What restic then
reads instead is what the paths split into (`entries_eq_flatMap`), and a piece of a name
may be any string, a path of another repository among them (`not_intended_newline`).
-/

namespace FileTracker
namespace Backup

open Separator

/-! ## The list file of a repository -/

/-- A repository in a run: the fields that the scan returned, and what the world answers
to the repository's worker, who has found something to back up. -/
structure Handover where
  cfg : BackupConfig
  items : List Text
  repoId : Text
  answers : RepoAnswers
  existing_ne_nil : answers.pathsWith true
    ((items.foldl (Scan.item cfg) .init).tasks.paths repoId) ≠ []

namespace Handover

/-- The tasks of the run. -/
def tasks (h : Handover) : Tasks := (h.items.foldl (Scan.item h.cfg) .init).tasks

/-- The list `existing` of the repository. -/
def existing (h : Handover) : List Text := h.answers.pathsWith true (h.tasks.paths h.repoId)

/-- The text of the file that is handed to restic. -/
def listFile (h : Handover) : Text := [newline].intercalate h.existing

/-- The entries that `restic --files-from` finds in a file: its lines. -/
def entries (file : Text) : List Text := file.splitOn newline

/-- The list that restic reads is the one intended, and lies in the repository. -/
structure Intended (h : Handover) : Prop where
  entries_eq : entries h.listFile = h.existing
  inside : ∀ entry ∈ entries h.listFile, h.cfg.repoOf entry = some h.repoId

/-- Every list that a run of `backup_repo` hands to restic is this one. -/
theorem listFile_of_mem_calls {h : Handover} {call : BackupCall} {answers : Text → RepoAnswers}
    (hanswers : answers h.repoId = h.answers)
    (hcall : call ∈ (future h.cfg h.tasks answers h.repoId).calls) :
    call.listFile = h.listFile := by
  rw [future, hanswers] at hcall
  rw [BackupCall.listFile, (existing_of_mem_calls hcall).1]
  rfl

/-- What is listed for a repository belongs to it. -/
theorem repoOf_of_mem_existing {h : Handover} {path : Text} (hpath : path ∈ h.existing) :
    h.cfg.repoOf path = some h.repoId := by
  have hlisted : path ∈ h.tasks.paths h.repoId := mem_of_mem_pathsWith hpath
  rcases (mem_tasks_foldl_iff h.cfg h.items .init).mp hlisted with hinit | ⟨-, hrepo⟩
  · exact absurd hinit List.not_mem_nil
  · exact hrepo

/-- What restic reads, whatever the names hold. -/
theorem entries_eq_flatMap (h : Handover) :
    entries h.listFile = h.existing.flatMap (List.splitOn newline) :=
  splitOn_intercalate_eq_flatMap h.existing_ne_nil

end Handover

/-- **When the list handed to restic is the list intended.**  For every repository of
every run: exactly when no existing path that is grouped under it holds a newline. -/
theorem intended_iff (h : Handover) : h.Intended ↔ ∀ path ∈ h.existing, newline ∉ path := by
  have hlines : Handover.entries h.listFile = h.existing ↔ ∀ path ∈ h.existing, newline ∉ path :=
    splitOn_intercalate_eq_iff h.existing_ne_nil
  rw [← hlines]
  constructor
  · exact fun hintended => hintended.entries_eq
  · intro hentries
    refine ⟨hentries, fun entry hentry => ?_⟩
    rw [hentries] at hentry
    exact Handover.repoOf_of_mem_existing hentry

/-- A file of one user whose name holds a newline and the path of another user's. -/
def newlineName : Text :=
  text "/home/stor1/userA/x" ++ [newline] ++ text "/home/stor1/userB/secret"

/-- That file, alone in its repository. -/
def newlineHandover : Handover where
  cfg := ⟨text "/home", 2, ⟨some (text "minio"), some (text "file-backup"), false⟩⟩
  items := [newlineName]
  repoId := text "stor1/userA"
  answers := ⟨true, .ok ⟨0, []⟩, .ok ⟨0, []⟩, fun _ _ => true, .ok (), fun _ => .ok ⟨0, []⟩, .ok ()⟩
  existing_ne_nil := by decide +kernel

/-- Restic is handed a path of the other user, and not the file. -/
theorem not_intended_newline :
    ¬ newlineHandover.Intended ∧
      text "/home/stor1/userB/secret" ∈ Handover.entries newlineHandover.listFile ∧
      newlineName ∉ Handover.entries newlineHandover.listFile := by
  refine ⟨fun h => ?_, by decide +kernel, by decide +kernel⟩
  exact absurd h.entries_eq (by decide +kernel)

end Backup
end FileTracker
