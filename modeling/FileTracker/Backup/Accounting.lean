import FileTracker.Backup.NoLoss
import Mathlib.Algebra.BigOperators.Group.List.Lemmas

/-!
# What a run counts

A run sorts the fields of `processing` into repositories, hands each repository to a
worker, and adds up what comes back in whatever order it comes.  Its totals are meant to
account for every field once, and to say the same however Redis has cut the hash into
pages and in whatever order the workers finish.

Both rest on what one repository contributes.  Whatever way its worker ends, the three
numbers that are added add up to the number of its paths (`share_sum`), and they depend
on these paths through two numbers only, how many there are and how many exist
(`outcome_congr`).  The sum over the repositories is then a sum over the fields
(`sum_length_filter`), and a permutation of the pages permutes the paths of each
repository and the repositories themselves.
-/

namespace FileTracker
namespace Backup

open Runs LastWriter Consumer

/-! ## The share of a repository -/

/-- What a repository adds to the dictionary `total`. -/
def RepoReport.share (r : RepoReport) (paths : List Text) : Totals :=
  match r.outcome with
  | .ok res => ⟨res.backedUp, res.skipped, res.errors⟩
  | .error _ => ⟨0, 0, paths.length⟩

/-- The three numbers together. -/
def Totals.all (t : Totals) : ℕ := t.backedUp + t.skipped + t.errors

/-- Attempts that end with a result count the list as backed up or as errors. -/
theorem tryBackup_counts {backup : ℕ → ProcessRun} {existing : List Text}
    {result res : RepoResult} (hresult : result.backedUp = 0 ∧ result.errors = 0)
    {attempts : List ℕ} (hlast : attempts.getLast? = some maxRetries)
    (h : (tryBackup backup existing result attempts).2 = .ok res) :
    res.skipped = result.skipped ∧ res.backedUp + res.errors = existing.length := by
  induction attempts with
  | nil => simp at hlast
  | cons attempt attempts ih =>
    unfold tryBackup at h
    cases hrun : backup attempt with
    | error e => simp [hrun] at h
    | ok proc =>
      simp only [hrun] at h
      by_cases hcode : (BackupCall.mk existing proc.returncode).Succeeded
      · rw [if_pos hcode] at h
        obtain rfl := Except.ok.inj h
        exact ⟨rfl, by rw [hresult.2, Nat.add_zero]⟩
      · rw [if_neg hcode] at h
        cases hmsg : proc.message with
        | error e => simp [hmsg] at h
        | ok m =>
          simp only [hmsg] at h
          by_cases hlt : attempt < maxRetries
          · rw [if_pos hlt] at h
            have hrest : attempts ≠ [] := by
              rintro rfl
              obtain rfl := Option.some.inj hlast
              exact lt_irrefl _ hlt
            rw [List.getLast?_cons_of_ne_nil hrest] at hlast
            exact ih hlast h
          · rw [if_neg hlt] at h
            obtain rfl := Except.ok.inj h
            exact ⟨rfl, by rw [hresult.1, Nat.zero_add]⟩

theorem length_pathsWith_le (a : RepoAnswers) (b : Bool) (paths : List Text) :
    (a.pathsWith b paths).length ≤ paths.length := by
  rw [RepoAnswers.pathsWith, List.length_map, ← @List.length_zipIdx _ paths 0]
  exact List.length_filter_le _ _

/-- **A repository counts each of its paths once**, however its worker ends. -/
theorem share_sum (repoId : Text) (paths : List Text) (cfg : MinioConfig) (a : RepoAnswers) :
    ((backupRepo repoId paths cfg a).share paths).all = paths.length := by
  have herror : ∀ {r : RepoReport} {e : PyError}, r.outcome = .error e →
      (r.share paths).all = paths.length := by
    intro r e hr
    rw [RepoReport.share, hr, Totals.all, Nat.zero_add, Nat.zero_add]
  have hok : ∀ {r : RepoReport} {res : RepoResult}, r.outcome = .ok res →
      res.backedUp + res.skipped + res.errors = paths.length →
        (r.share paths).all = paths.length := by
    intro r res hr hsum
    rw [RepoReport.share, hr]
    exact hsum
  unfold backupRepo
  cases hurl : repoUrl cfg repoId with
  | error e => exact herror rfl
  | ok url =>
    cases hens : ensure a with
    | error e => exact herror rfl
    | ok ready =>
      cases ready with
      | false => exact hok rfl (Nat.zero_add _)
      | true =>
        have hle := length_pathsWith_le a true paths
        simp only
        split_ifs with hnil
        · refine hok rfl ?_
          rw [hnil, Nat.zero_add, Nat.add_zero, List.length_nil, Nat.sub_zero]
        · cases hwrite : a.writeList with
          | error e => exact herror rfl
          | ok _ =>
            cases hunlink : a.unlink with
            | error e => exact herror rfl
            | ok _ =>
              cases htry : (tryBackup a.backup (a.pathsWith true paths)
                ⟨repoId, paths.length, 0, paths.length - (a.pathsWith true paths).length, 0⟩
                (List.range' 1 maxRetries)).2 with
              | error e => exact herror rfl
              | ok res =>
                obtain ⟨hskipped, hcount⟩ := tryBackup_counts ⟨rfl, rfl⟩ (by decide) htry
                refine hok rfl ?_
                simp only at hskipped
                omega

/-- The attempts see no more of the list than its length. -/
theorem tryBackup_congr {backup : ℕ → ProcessRun} {xs ys : List Text}
    (hlen : xs.length = ys.length) (result : RepoResult) (attempts : List ℕ) :
    (tryBackup backup xs result attempts).2 = (tryBackup backup ys result attempts).2 := by
  induction attempts with
  | nil => rfl
  | cons attempt attempts ih =>
    unfold tryBackup
    cases hrun : backup attempt with
    | error e => rfl
    | ok proc =>
      have hcode : (BackupCall.mk xs proc.returncode).Succeeded ↔
          (BackupCall.mk ys proc.returncode).Succeeded := Iff.rfl
      simp only [hcode, hlen]
      by_cases hsucc : (BackupCall.mk ys proc.returncode).Succeeded
      · rw [if_pos hsucc, if_pos hsucc]
      · rw [if_neg hsucc, if_neg hsucc]
        cases hmsg : proc.message with
        | error e => rfl
        | ok m =>
          by_cases hlt : attempt < maxRetries
          · simp only [if_pos hlt]
            exact ih
          · simp only [if_neg hlt]

/-- **The outcome depends on two numbers**: how many paths there are, and how many of them
exist. -/
theorem outcome_congr (repoId : Text) {xs ys : List Text} (cfg : MinioConfig) (a : RepoAnswers)
    (hlen : xs.length = ys.length)
    (hexist : (a.pathsWith true xs).length = (a.pathsWith true ys).length) :
    (backupRepo repoId xs cfg a).outcome = (backupRepo repoId ys cfg a).outcome := by
  have hnil : a.pathsWith true xs = [] ↔ a.pathsWith true ys = [] := by
    rw [← List.length_eq_zero_iff, hexist, List.length_eq_zero_iff]
  unfold backupRepo
  cases hurl : repoUrl cfg repoId with
  | error e => rfl
  | ok url =>
    cases hens : ensure a with
    | error e => rfl
    | ok ready =>
      cases ready with
      | false => simp only [hlen]
      | true =>
        simp only [hnil, hlen, hexist]
        split_ifs
        · rfl
        · cases hwrite : a.writeList with
          | error e => rfl
          | ok _ =>
            cases hunlink : a.unlink with
            | error e => rfl
            | ok _ => exact tryBackup_congr hexist _ _

/-! ## The sum over the repositories -/

/-- A key that is there once is counted once. -/
theorem sum_indicator {β : Type} [DecidableEq β] {keys : List β} (hnodup : keys.Nodup) {key : β}
    (hkey : key ∈ keys) : (keys.map fun k => if key = k then 1 else 0).sum = 1 := by
  have hother : ∀ k, k ≠ key → k ∈ keys → (if key = k then 1 else 0) = 0 :=
    fun k hk _ => if_neg hk.symm
  rw [List.sum_map_eq_nsmul_single key _ hother, List.count_eq_one_of_mem hnodup hkey, if_pos rfl]
  rfl

/-- **Items that are sorted by a key**, or left over, are each counted once. -/
theorem sum_length_filter {α β : Type} [DecidableEq β] (f : α → Option β) (items : List α)
    {keys : List β} (hnodup : keys.Nodup) (hkeys : ∀ x ∈ items, ∀ k, f x = some k → k ∈ keys) :
    (keys.map fun k => (items.filter fun x => f x = some k).length).sum +
      (items.filter fun x => f x = none).length = items.length := by
  induction items with
  | nil => simp
  | cons x items ih =>
    have hrest := ih fun y hy => hkeys y (List.mem_cons_of_mem _ hy)
    have hcons : ∀ o : Option β, ((x :: items).filter fun x => f x = o).length =
        (items.filter fun x => f x = o).length + if f x = o then 1 else 0 := by
      intro o
      by_cases ho : f x = o
      · rw [List.filter_cons_of_pos (by simpa using ho), if_pos ho, List.length_cons]
      · rw [List.filter_cons_of_neg (by simpa using ho), if_neg ho, Nat.add_zero]
    simp only [hcons, List.sum_map_add]
    cases hx : f x with
    | none =>
      simp
      omega
    | some k =>
      have hone := sum_indicator hnodup (hkeys x List.mem_cons_self k hx)
      simp only [Option.some.injEq, hone]
      simp
      omega

/-! ## What the scan leaves -/

theorem Tasks.keys_append (tasks : Tasks) (repoId path : Text) :
    (tasks.append repoId path).map Prod.fst =
      if repoId ∈ tasks.map Prod.fst then tasks.map Prod.fst
      else tasks.map Prod.fst ++ [repoId] := by
  induction tasks with
  | nil => simp [Tasks.append]
  | cons t tasks ih =>
    obtain ⟨r, paths⟩ := t
    unfold Tasks.append
    by_cases hr : r = repoId
    · simp [hr]
    · have hmem : repoId ∈ ((r, paths) :: tasks).map Prod.fst ↔ repoId ∈ tasks.map Prod.fst := by
        rw [List.map_cons, List.mem_cons]
        exact or_iff_right (Ne.symm hr)
      rw [if_neg hr, List.map_cons, ih]
      by_cases hin : repoId ∈ tasks.map Prod.fst
      · rw [if_pos hin, if_pos (hmem.mpr hin)]
        rfl
      · rw [if_neg hin, if_neg (fun h => hin (hmem.mp h))]
        rfl

/-- What the scan leaves once it has returned the items, in this order. -/
structure Scan.Holds (cfg : BackupConfig) (scan : Scan) (items : List Text) : Prop where
  returned : scan.returned = items
  totalCount : scan.totalCount = items.length
  skipped : scan.skipped = (items.filter fun x => cfg.repoOf x = none).length
  paths : ∀ r, scan.tasks.paths r = items.filter fun x => cfg.repoOf x = some r
  nodup : (scan.tasks.map Prod.fst).Nodup
  keys : ∀ r, r ∈ scan.tasks.map Prod.fst ↔ ∃ x ∈ items, cfg.repoOf x = some r

theorem Scan.Holds.init (cfg : BackupConfig) : Scan.init.Holds cfg [] :=
  ⟨rfl, rfl, rfl, fun _ => rfl, List.nodup_nil, by simp [Scan.init]⟩

theorem Scan.Holds.item {cfg : BackupConfig} {scan : Scan} {items : List Text}
    (h : scan.Holds cfg items) (path : Text) : (scan.item cfg path).Holds cfg (items ++ [path]) := by
  have hfilter : ∀ o : Option Text, (items ++ [path]).filter (fun x => cfg.repoOf x = o) =
      items.filter (fun x => cfg.repoOf x = o) ++ if cfg.repoOf path = o then [path] else [] := by
    intro o
    rw [List.filter_append, List.filter_singleton]
    simp
  have hexists : ∀ r, (∃ x ∈ items ++ [path], cfg.repoOf x = some r) ↔
      (∃ x ∈ items, cfg.repoOf x = some r) ∨ cfg.repoOf path = some r := by
    intro r
    simp only [List.mem_append, List.mem_singleton, or_and_right, exists_or, exists_eq_left]
  unfold Scan.item
  cases hrepo : cfg.repoOf path with
  | none =>
    refine ⟨?_, ?_, ?_, fun r => ?_, h.nodup, fun r => ?_⟩
    · simp only [h.returned]
    · simp only [h.totalCount, List.length_append, List.length_singleton]
    · simp only [h.skipped, hfilter, hrepo, if_true, List.length_append, List.length_singleton]
    · simp only [h.paths, hfilter, hrepo, reduceCtorEq, if_false, List.append_nil]
    · rw [h.keys, hexists, hrepo]
      simp
  | some repoId =>
    refine ⟨?_, ?_, ?_, fun r => ?_, ?_, fun r => ?_⟩
    · simp only [h.returned]
    · simp only [h.totalCount, List.length_append, List.length_singleton]
    · simp only [h.skipped, hfilter, hrepo, reduceCtorEq, if_false, List.append_nil]
    · simp only [Tasks.paths_append, h.paths, hfilter, hrepo, Option.some.injEq]
      split_ifs
      · rfl
      · exact (List.append_nil _).symm
    · rw [Tasks.keys_append]
      split_ifs with hmem
      · exact h.nodup
      · exact List.nodup_append.mpr ⟨h.nodup, List.nodup_singleton _, by
          intro a ha b hb hab
          rw [List.mem_singleton.mp hb] at hab
          exact hmem (hab ▸ ha)⟩
    · rw [Tasks.keys_append, hexists, hrepo, ← h.keys, Option.some.injEq]
      split_ifs with hmem
      · exact ⟨Or.inl, fun h => h.elim id fun heq => heq ▸ hmem⟩
      · rw [List.mem_append, List.mem_singleton, eq_comm]

theorem Scan.Holds.foldl {cfg : BackupConfig} {scan : Scan} {items : List Text}
    (h : scan.Holds cfg items) (more : List Text) :
    (more.foldl (Scan.item cfg) scan).Holds cfg (items ++ more) := by
  induction more generalizing scan items with
  | nil => rwa [List.append_nil]
  | cons path more ih =>
    have hrest := ih (h.item path)
    rwa [List.append_assoc, List.singleton_append] at hrest

theorem Scan.Holds.page {cfg : BackupConfig} {scan : Scan} {items : List Text}
    (h : scan.Holds cfg items) (more : List Text) (cursor : ℕ) :
    (scan.page cfg more cursor).Holds cfg (items ++ more) := by
  have hfold := h.foldl more
  exact ⟨hfold.returned, hfold.totalCount, hfold.skipped, hfold.paths, hfold.nodup, hfold.keys⟩

/-! ## What the pool adds up -/

section Pool

variable (cfg : BackupConfig) (tasks : Tasks) (answers : Text → RepoAnswers)

/-- The share of a repository of the run. -/
def share (repoId : Text) : Totals :=
  (future cfg tasks answers repoId).share (tasks.paths repoId)

/-- The shares of the repositories, added up. -/
def shares (order : List Text) : Totals :=
  ⟨(order.map fun r => (share cfg tasks answers r).backedUp).sum,
    (order.map fun r => (share cfg tasks answers r).skipped).sum,
    (order.map fun r => (share cfg tasks answers r).errors).sum⟩

def Totals.add (s t : Totals) : Totals :=
  ⟨s.backedUp + t.backedUp, s.skipped + t.skipped, s.errors + t.errors⟩

theorem total_collect (acc : PoolResult) (repoId : Text) :
    (acc.collect cfg tasks answers repoId).total =
      acc.total.add (share cfg tasks answers repoId) := by
  cases hout : (future cfg tasks answers repoId).outcome with
  | error e =>
    simp only [PoolResult.collect, share, RepoReport.share, hout]
    rfl
  | ok res =>
    simp only [PoolResult.collect, share, RepoReport.share, hout]
    split_ifs <;> rfl

/-- **The totals are the sum of the shares.** -/
theorem total_foldl (acc : PoolResult) (order : List Text) :
    (order.foldl (PoolResult.collect cfg tasks answers) acc).total =
      acc.total.add (shares cfg tasks answers order) := by
  induction order generalizing acc with
  | nil => rfl
  | cons repoId order ih =>
    rw [List.foldl_cons, ih, total_collect]
    simp only [Totals.add, shares, List.map_cons, List.sum_cons, Nat.add_assoc]

theorem shares_all (order : List Text) :
    (shares cfg tasks answers order).all = (order.map fun r => (tasks.paths r).length).sum := by
  have hsum : ∀ r, (tasks.paths r).length = (share cfg tasks answers r).backedUp +
      (share cfg tasks answers r).skipped + (share cfg tasks answers r).errors := fun r =>
    (share_sum r (tasks.paths r) cfg.minio (answers r)).symm
  simp only [hsum, List.sum_map_add]
  rfl

theorem shares_perm {xs ys : List Text} (h : xs.Perm ys) :
    shares cfg tasks answers xs = shares cfg tasks answers ys := by
  simp only [shares, (h.map _).sum_eq]

end Pool

/-- Setting paths to one value. -/
theorem lookup_run_set (m : Hash) (paths : List Text) (value path : Text) :
    (run m (paths.map fun p => .set p value)).lookup path =
      if path ∈ paths then some value else m.lookup path := by
  induction paths generalizing m with
  | nil => simp
  | cons p paths ih =>
    rw [List.map_cons, run_cons, ih, lookup_apply]
    by_cases hp : p = path
    · subst hp
      rw [Cmd.key, if_pos rfl, if_pos List.mem_cons_self, Cmd.value, ite_self]
    · have hmem : path ∈ p :: paths ↔ path ∈ paths := by
        rw [List.mem_cons]
        exact or_iff_right (Ne.symm hp)
      rw [Cmd.key, if_neg hp]
      simp only [hmem]

/-! ## Runs -/

/-- What a run starts from: the configuration, the two hashes, and what becomes of each
repository, whatever else happens. -/
structure RunInput where
  cfg : BackupConfig
  pending : Hash
  processing : Hash
  answers : Text → RepoAnswers
  fixed : ∀ repoId i j path,
    (answers repoId).pathExists i path = (answers repoId).pathExists j path

/-- The scan of the pages. -/
def scanPages (cfg : BackupConfig) (pages : List (List Text × ℕ)) : Scan :=
  pages.foldl (fun scan page => scan.page cfg page.1 page.2) .init

/-- How a run goes: the pages of the scan, with the cursors that come with them, and the
order in which the futures complete. -/
structure Course (i : RunInput) where
  pages : List (List Text × ℕ)
  last : List Text
  cursor_ne_zero : ∀ page ∈ pages, page.2 ≠ 0
  returned : ((pages.flatMap Prod.fst ++ last : List Text) : Multiset Text) = i.processing.keys.val
  order : List Text
  completes : order.Perm ((scanPages i.cfg (pages ++ [(last, 0)])).tasks.map Prod.fst)

/-- The run before its first page. -/
def RunInput.start (i : RunInput) : State := ⟨i.pending, i.processing, none, .scanning i.cfg .init⟩

namespace Course

variable {i : RunInput} (c : Course i)

def scan : Scan := scanPages i.cfg (c.pages ++ [(c.last, 0)])

def result : PoolResult := c.order.foldl (PoolResult.collect i.cfg c.scan.tasks i.answers) .init

/-- The commands of the run, from the first page on. -/
def labels : List Label :=
  c.pages.map (fun page => .hscan page.1 page.2) ++ .hscan c.last 0 :: .pool i.answers c.order ::
    ((if c.result.failedRepos = [] then [] else [.restore]) ++ [.delete, .record])

/-- What the run leaves in Redis. -/
def final : State :=
  ⟨run i.pending (c.result.retryCommands c.scan.tasks), ∅,
    some ⟨c.result.total, c.scan.tasks.length⟩, .idle⟩

/-- The fields, as the pages return them. -/
def items : List Text := c.pages.flatMap Prod.fst ++ c.last

theorem holds_scanPages (cfg : BackupConfig) (pages : List (List Text × ℕ)) :
    (scanPages cfg pages).Holds cfg (pages.flatMap Prod.fst) := by
  induction pages using List.reverseRecOn with
  | nil => exact .init cfg
  | append_singleton pages page ih =>
    rw [scanPages, List.foldl_append, List.flatMap_append, List.flatMap_singleton]
    exact ih.page page.1 page.2

theorem holds_scan : c.scan.Holds i.cfg c.items := by
  have hholds := holds_scanPages i.cfg (c.pages ++ [(c.last, 0)])
  rwa [List.flatMap_append, List.flatMap_singleton] at hholds

theorem mem_items_iff (path : Text) : path ∈ c.items ↔ path ∈ i.processing.keys := by
  rw [← Finset.mem_val, ← c.returned, Multiset.mem_coe]
  rfl

/-- The pages before the last one. -/
theorem exec_pages {cfg : BackupConfig} {pending processing : Hash} {lastRun : Option LastRun}
    {pages : List (List Text × ℕ)} (hcursor : ∀ page ∈ pages, page.2 ≠ 0) (scan : Scan) :
    exec State.step ⟨pending, processing, lastRun, .scanning cfg scan⟩
        (pages.map fun page => .hscan page.1 page.2) =
      some ⟨pending, processing, lastRun,
        .scanning cfg (pages.foldl (fun scan page => scan.page cfg page.1 page.2) scan)⟩ := by
  induction pages generalizing scan with
  | nil => rfl
  | cons page pages ih =>
    have hne := hcursor page List.mem_cons_self
    have hcomplete : ScanComplete processing (scan.page cfg page.1 page.2) := fun h => absurd h hne
    have hstep : State.step ⟨pending, processing, lastRun, .scanning cfg scan⟩
        (.hscan page.1 page.2) =
          some ⟨pending, processing, lastRun, .scanning cfg (scan.page cfg page.1 page.2)⟩ := by
      simp only [State.step, if_pos hcomplete, if_neg hne]
    rw [List.map_cons, exec_cons, hstep, Option.bind_some,
      ih fun p hp => hcursor p (List.mem_cons_of_mem _ hp), List.foldl_cons]

/-- **The run goes through**, and leaves what is said. -/
theorem exec_labels : exec State.step i.start c.labels = some c.final := by
  have hlast : (scanPages i.cfg c.pages).page i.cfg c.last 0 = c.scan := by
    rw [scan, scanPages, scanPages, List.foldl_append]
    rfl
  have hcomplete : ScanComplete i.processing c.scan := by
    intro _ path hpath
    rw [c.holds_scan.returned]
    exact (c.mem_items_iff path).mpr hpath
  have hscan : State.step ⟨i.pending, i.processing, none, .scanning i.cfg (scanPages i.cfg c.pages)⟩
      (.hscan c.last 0) = some ⟨i.pending, i.processing, none, .working i.cfg c.scan⟩ := by
    simp only [State.step, hlast, if_pos hcomplete, if_true]
  have hpool : State.step ⟨i.pending, i.processing, none, .working i.cfg c.scan⟩
      (.pool i.answers c.order) = some ⟨i.pending, i.processing, none,
        if c.result.failedRepos = [] then .deleting i.cfg c.scan c.result
        else .restoring i.cfg c.scan c.result⟩ := by
    have hperm : c.order.Perm (c.scan.tasks.map Prod.fst) := c.completes
    simp only [State.step]
    rw [if_pos hperm]
    rfl
  rw [labels, exec_append, RunInput.start, exec_pages c.cursor_ne_zero]
  show (exec State.step ⟨_, _, _, .scanning i.cfg (scanPages i.cfg c.pages)⟩ _) = _
  rw [exec_cons, hscan, Option.bind_some, exec_cons, hpool, Option.bind_some]
  by_cases hfailed : c.result.failedRepos = []
  · have hcommands : c.result.retryCommands c.scan.tasks = [] := by
      rw [PoolResult.retryCommands, PoolResult.failedPaths, hfailed]
      rfl
    rw [if_pos hfailed, if_pos hfailed, final, hcommands]
    rfl
  · rw [if_neg hfailed, if_neg hfailed]
    rfl

/-- The repository reported errors, or its worker raised. -/
def Failed (repoId : Text) : Prop :=
  (future i.cfg c.scan.tasks i.answers repoId).failed = true

/-- What is claimed of one run: it goes through; what it records, with the fields it could
not map, counts every field of `processing` once; and it puts back into `pending` the paths
of the repositories that failed, and no others. -/
structure Accounted : Prop where
  recorded : ∃ t last, exec State.step i.start c.labels = some t ∧ t.lastRun = some last ∧
    last.total.all + c.scan.skipped = c.scan.totalCount
  totalCount : c.scan.totalCount = i.processing.keys.card
  restored : ∃ t, exec State.step i.start c.labels = some t ∧ ∀ path,
    (path ∈ i.processing ∧ (∃ r, i.cfg.repoOf path = some r ∧ c.Failed r) ∧
        t.pending.lookup path = some (text "retry")) ∨
      (¬ (path ∈ i.processing ∧ ∃ r, i.cfg.repoOf path = some r ∧ c.Failed r) ∧
        t.pending.lookup path = i.pending.lookup path)

/-- What a run records and what it leaves in `pending`. -/
def recordedAndPending : Option (Option Totals × Hash) :=
  (exec State.step i.start c.labels).map fun t => (t.lastRun.map LastRun.total, t.pending)

theorem total_result : c.result.total = shares i.cfg c.scan.tasks i.answers c.order := by
  rw [result, total_foldl]
  simp only [Totals.add, PoolResult.init, Nat.zero_add]

/-- **Every field is counted once.** -/
theorem all_total : c.result.total.all + c.scan.skipped = c.scan.totalCount := by
  have hholds := c.holds_scan
  have hnodup : c.order.Nodup := c.completes.nodup_iff.mpr hholds.nodup
  have hkeys : ∀ x ∈ c.items, ∀ r, i.cfg.repoOf x = some r → r ∈ c.order := by
    intro x hx r hr
    exact c.completes.mem_iff.mpr ((hholds.keys r).mpr ⟨x, hx, hr⟩)
  rw [total_result, shares_all, hholds.skipped, hholds.totalCount]
  simp only [hholds.paths]
  exact sum_length_filter i.cfg.repoOf c.items hnodup hkeys

theorem mem_failedPaths_iff (path : Text) :
    path ∈ c.result.failedPaths c.scan.tasks ↔
      path ∈ i.processing ∧ ∃ r, i.cfg.repoOf path = some r ∧ c.Failed r := by
  have hholds := c.holds_scan
  have hfailed := (PoolResult.init.foldl_collect i.cfg c.scan.tasks i.answers c.order).1
  rw [PoolResult.failedPaths, result, hfailed, List.mem_flatMap, ← Finmap.mem_keys,
    ← c.mem_items_iff]
  simp only [PoolResult.init, List.nil_append, List.mem_filter, hholds.paths, decide_eq_true_eq]
  constructor
  · rintro ⟨r, ⟨-, hf⟩, hpath, hr⟩
    exact ⟨hpath, r, hr, hf⟩
  · rintro ⟨hpath, r, hr, hf⟩
    exact ⟨r, ⟨c.completes.mem_iff.mpr ((hholds.keys r).mpr ⟨path, hpath, hr⟩), hf⟩, hpath, hr⟩

/-- **What is put back.** -/
theorem lookup_final (path : Text) : c.final.pending.lookup path =
    if path ∈ c.result.failedPaths c.scan.tasks then some (text "retry")
    else i.pending.lookup path :=
  lookup_run_set i.pending _ (text "retry") path

theorem accounted : c.Accounted := by
  refine ⟨⟨c.final, _, c.exec_labels, rfl, c.all_total⟩, ?_, c.final, c.exec_labels, fun path => ?_⟩
  · rw [c.holds_scan.totalCount, Finset.card_def, ← c.returned, Multiset.coe_card]
    rfl
  · rw [lookup_final, ← c.mem_failedPaths_iff]
    by_cases hpath : path ∈ c.result.failedPaths c.scan.tasks
    · rw [if_pos hpath]
      exact Or.inl ⟨((c.mem_failedPaths_iff path).mp hpath).1,
        ((c.mem_failedPaths_iff path).mp hpath).2, rfl⟩
    · rw [if_neg hpath]
      exact Or.inr ⟨hpath, rfl⟩

/-! ## Two runs of the same input -/

variable (d : Course i)

theorem items_perm : c.items.Perm d.items := by
  rw [← Multiset.coe_eq_coe]
  exact c.returned.trans d.returned.symm

/-- The paths of a repository come in another order. -/
theorem paths_perm (repoId : Text) :
    (c.scan.tasks.paths repoId).Perm (d.scan.tasks.paths repoId) := by
  rw [c.holds_scan.paths, d.holds_scan.paths]
  exact (c.items_perm d).filter _

theorem order_perm : c.order.Perm d.order := by
  have hc := c.holds_scan
  have hd := d.holds_scan
  refine (List.perm_ext_iff_of_nodup (c.completes.nodup_iff.mpr hc.nodup)
    (d.completes.nodup_iff.mpr hd.nodup)).mpr fun r => ?_
  have hkeys : r ∈ c.scan.tasks.map Prod.fst ↔ r ∈ d.scan.tasks.map Prod.fst := by
    rw [hc.keys, hd.keys]
    simp only [(c.items_perm d).mem_iff]
  exact c.completes.mem_iff.trans (hkeys.trans d.completes.mem_iff.symm)

/-- Where existence does not depend on the place in the list, a permutation changes
nothing. -/
theorem length_pathsWith_perm (i : RunInput) (repoId : Text) {xs ys : List Text}
    (h : xs.Perm ys) : ((i.answers repoId).pathsWith true xs).length =
      ((i.answers repoId).pathsWith true ys).length := by
  have hfilter : ∀ zs : List Text, (i.answers repoId).pathsWith true zs =
      zs.filter fun path => (i.answers repoId).pathExists 0 path == true := by
    intro zs
    have hfixed : (fun x : Text × ℕ => (i.answers repoId).pathExists x.2 x.1 == true) =
        (fun path => (i.answers repoId).pathExists 0 path == true) ∘ Prod.fst := by
      funext x
      rw [i.fixed repoId x.2 0 x.1]
      rfl
    rw [RepoAnswers.pathsWith, hfixed, ← List.filter_map, List.zipIdx_map_fst]
  rw [hfilter, hfilter]
  exact (h.filter _).length_eq

/-- **The outcome of a repository** is the same in both runs. -/
theorem outcome_eq (repoId : Text) :
    (future i.cfg c.scan.tasks i.answers repoId).outcome =
      (future i.cfg d.scan.tasks i.answers repoId).outcome :=
  outcome_congr repoId i.cfg.minio (i.answers repoId) (c.paths_perm d repoId).length_eq
    (length_pathsWith_perm i repoId (c.paths_perm d repoId))

theorem share_eq (repoId : Text) :
    share i.cfg c.scan.tasks i.answers repoId = share i.cfg d.scan.tasks i.answers repoId := by
  rw [share, share, RepoReport.share, RepoReport.share, c.outcome_eq d,
    (c.paths_perm d repoId).length_eq]

theorem total_eq : c.result.total = d.result.total := by
  rw [total_result, total_result, shares_perm _ _ _ (c.order_perm d)]
  simp only [shares, c.share_eq d]

theorem pending_eq : c.final.pending = d.final.pending := by
  refine Finmap.ext_lookup fun path => ?_
  have hfailed : ∀ r, c.Failed r ↔ d.Failed r := by
    intro r
    rw [Failed, Failed, RepoReport.failed, RepoReport.failed, c.outcome_eq d]
  have hpaths : path ∈ c.result.failedPaths c.scan.tasks ↔
      path ∈ d.result.failedPaths d.scan.tasks := by
    rw [c.mem_failedPaths_iff, d.mem_failedPaths_iff]
    simp only [hfailed]
  rw [lookup_final, lookup_final]
  simp only [hpaths]

end Course

/-- There is a run of every input: one page with all fields, and the futures in the order
in which they were submitted. -/
theorem nonempty_course (i : RunInput) : Nonempty (Course i) :=
  ⟨⟨[], i.processing.keys.toList, nofun, Finset.coe_toList _, _, List.Perm.refl _⟩⟩

/-- **What a run counts, and that the order does not matter.**  For every `processing`
hash and every outcome of each repository: every run accounts for the fields, whatever the
pages and the order of the futures, and any two runs record the same totals and leave the
same `pending`. -/
theorem accounted_and_independent (i : RunInput) :
    (∀ c : Course i, c.Accounted) ∧
      ∀ c d : Course i, c.recordedAndPending = d.recordedAndPending := by
  refine ⟨fun c => c.accounted, fun c d => ?_⟩
  rw [Course.recordedAndPending, Course.recordedAndPending, c.exec_labels, d.exec_labels,
    Option.map_some, Option.map_some, c.pending_eq d]
  simp only [Course.final, Option.map_some, c.total_eq d]

end Backup
end FileTracker
