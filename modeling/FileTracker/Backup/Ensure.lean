import FileTracker.Library.Runs
import FileTracker.Backup.Repo
import Mathlib.Data.Finset.Basic
import Mathlib.Logic.Function.Basic

/-!
# Threads at one repository

`RepoManager.ensure` of `backup/backup.py`, called by any number of threads with the
same URL.  A call has two sections under the lock and a third one in its `finally`
block; the calls of restic lie between them, and a thread may stop at any of these
places while others go on.

The set `_pending` is written under the lock and read there, but nothing follows from
what is read: the branch that would wait is `pass`.  So a second thread may find the
repository missing while the first one is about to create it.  `once_iff_initsAbsent`
says that this is the only way the protocol fails: `restic init` is invoked at most once
and no call returns false for a repository that is there, exactly in the runs in which
no `restic init` begins after another one has created the repository.

A call that nobody interrupts is the function `ensure` of the sequential model
(`ends_alone`).
-/

namespace FileTracker
namespace Backup

open Runs

/-- The fields of a `RepoManager`.  `_pending` is an attribute that the first call adds. -/
structure RepoManager where
  initialized : Finset Text
  pending : Option (Finset Text)

/-- Where a call is: outside; about to run `restic cat config`; about to run
`restic init`; about to enter the second section; in its `finally` block, with what it
returns or raises. -/
inductive EnsurePc where
  | idle
  | checking
  | missing
  | created
  | leaving (outcome : Except PyError Bool)

/-- A call that has ended: what it returned or raised, and whether the repository
existed then. -/
structure Returned where
  outcome : Except PyError Bool
  existed : Bool

/-- The manager, the repository, the threads.  Two ghosts: how often `restic init` has
been invoked, and the calls that have ended. -/
structure EnsureState (ι : Type) where
  manager : RepoManager
  repoExists : Bool
  pc : ι → EnsurePc
  inits : ℕ
  ended : List Returned

/-- A thread calls `ensure` and passes its first section; its `restic cat config` ends,
or its `restic init`; it passes the second section, or the one in the `finally` block. -/
inductive EnsureLabel (ι : Type) where
  | enter (p : ι)
  | cat (p : ι) (proc : CompletedProcess)
  | init (p : ι) (proc : CompletedProcess)
  | add (p : ι)
  | leave (p : ι)

/-- `restic cat config` succeeds when the repository exists, and only then. -/
def EnsureState.CatEnds {ι : Type} (s : EnsureState ι) (proc : CompletedProcess) : Prop :=
  proc.returncode = 0 ↔ s.repoExists = true

/-- `restic init` succeeds when the repository does not exist, and only then. -/
def EnsureState.InitEnds {ι : Type} (s : EnsureState ι) (proc : CompletedProcess) : Prop :=
  proc.returncode = 0 ↔ s.repoExists = false

instance {ι : Type} (s : EnsureState ι) (proc : CompletedProcess) : Decidable (s.CatEnds proc) :=
  inferInstanceAs (Decidable (_ ↔ _))

instance {ι : Type} (s : EnsureState ι) (proc : CompletedProcess) : Decidable (s.InitEnds proc) :=
  inferInstanceAs (Decidable (_ ↔ _))

section Steps

variable {ι : Type} [DecidableEq ι] (url : Text)

def EnsureState.goto (s : EnsureState ι) (p : ι) (pc : EnsurePc) : EnsureState ι :=
  { s with pc := Function.update s.pc p pc }

@[simp] theorem EnsureState.pc_goto_self (s : EnsureState ι) (p : ι) (pc : EnsurePc) :
    (s.goto p pc).pc p = pc := by
  simp only [EnsureState.goto, Function.update_self]

theorem EnsureState.pc_goto_of_ne (s : EnsureState ι) {p q : ι} (pc : EnsurePc) (h : q ≠ p) :
    (s.goto p pc).pc q = s.pc q := by
  simp only [EnsureState.goto, Function.update_of_ne h]

@[simp] theorem EnsureState.ended_goto (s : EnsureState ι) (p : ι) (pc : EnsurePc) :
    (s.goto p pc).ended = s.ended := rfl

/-- `self._pending.add(repo_url)`, on an attribute that may not be there yet. -/
def RepoManager.addPending (m : RepoManager) : RepoManager :=
  { m with pending := some (insert url (m.pending.getD ∅)) }

/-- `self._initialized.add(repo_url)`. -/
def RepoManager.addInitialized (m : RepoManager) : RepoManager :=
  { m with initialized := insert url m.initialized }

/-- `self._pending.discard(repo_url)`. -/
def RepoManager.discardPending (m : RepoManager) : RepoManager :=
  { m with pending := m.pending.map fun urls : Finset Text => urls.erase url }

/-- The end of a call. -/
def EnsureState.finish (s : EnsureState ι) (outcome : Except PyError Bool) : EnsureState ι :=
  { s with ended := s.ended ++ [⟨outcome, s.repoExists⟩] }

/-- The first section: the early return, or the URL goes into `_pending`, whether it is
there already or not. -/
def EnsureState.enter (s : EnsureState ι) (p : ι) : EnsureState ι :=
  if url ∈ s.manager.initialized then s.finish (.ok true)
  else EnsureState.goto { s with manager := s.manager.addPending url } p .checking

/-- After `restic cat config`. -/
def EnsureState.cat (s : EnsureState ι) (p : ι) (proc : CompletedProcess) : EnsureState ι :=
  s.goto p (if proc.returncode ≠ 0 then .missing else .created)

/-- `restic init` is invoked, and creates the repository if it succeeds. -/
def EnsureState.invoked (s : EnsureState ι) (proc : CompletedProcess) : EnsureState ι :=
  { s with repoExists := s.repoExists || proc.returncode = 0, inits := s.inits + 1 }

/-- After `restic init`. -/
def EnsureState.init (s : EnsureState ι) (p : ι) (proc : CompletedProcess) : EnsureState ι :=
  (s.invoked proc).goto p
    (if proc.returncode ≠ 0 then .leaving (proc.message.map fun _ => false) else .created)

/-- The second section. -/
def EnsureState.add (s : EnsureState ι) (p : ι) : EnsureState ι :=
  EnsureState.goto { s with manager := s.manager.addInitialized url } p (.leaving (.ok true))

/-- The `finally` block. -/
def EnsureState.leave (s : EnsureState ι) (p : ι) (outcome : Except PyError Bool) :
    EnsureState ι :=
  EnsureState.goto (EnsureState.finish { s with manager := s.manager.discardPending url } outcome) p
    .idle

def EnsureState.step (s : EnsureState ι) : EnsureLabel ι → Option (EnsureState ι)
  | .enter p =>
    match s.pc p with
    | .idle => some (s.enter url p)
    | _ => none
  | .cat p proc =>
    match s.pc p with
    | .checking => if s.CatEnds proc then some (s.cat p proc) else none
    | _ => none
  | .init p proc =>
    match s.pc p with
    | .missing => if s.InitEnds proc then some (s.init p proc) else none
    | _ => none
  | .add p =>
    match s.pc p with
    | .created => some (s.add url p)
    | _ => none
  | .leave p =>
    match s.pc p with
    | .leaving outcome => some (s.leave url p outcome)
    | _ => none

end Steps

variable {ι : Type}

/-- No call is under way. -/
def EnsureState.start (manager : RepoManager) (repoExists : Bool) : EnsureState ι :=
  ⟨manager, repoExists, fun _ => .idle, 0, []⟩

/-- `restic init` has been invoked at most once, and no call has returned false when the
repository existed. -/
structure EnsureState.Once (s : EnsureState ι) : Prop where
  inits_le : s.inits ≤ 1
  honest : ∀ r ∈ s.ended, r.outcome = .ok false → r.existed = false

/-- `restic init` is invoked only as long as the repository does not exist. -/
def InitsAbsent (s : EnsureState ι) (l : EnsureLabel ι) : Prop :=
  ∀ p proc, l = .init p proc → s.repoExists = false

/-- The invariant of the runs that do so: an invocation of `restic init` has created the
repository, and nobody is about to return false.  `seen` says why the repository is there
when a thread has found it missing: some `restic init` has been invoked since. -/
structure EnsureInv (s : EnsureState ι) : Prop where
  inits_le : s.inits ≤ 1
  inits_eq : s.repoExists = false → s.inits = 0
  seen : ∀ p, s.pc p = .missing → s.repoExists = true → s.inits = 1
  leaving : ∀ p, s.pc p ≠ .leaving (.ok false)
  honest : ∀ r ∈ s.ended, r.outcome ≠ .ok false

theorem EnsureInv.once {s : EnsureState ι} (h : EnsureInv s) : s.Once :=
  ⟨h.inits_le, fun r hr hfalse => absurd hfalse (h.honest r hr)⟩

theorem EnsureInv.start (manager : RepoManager) (repoExists : Bool) :
    EnsureInv (EnsureState.start manager repoExists : EnsureState ι) :=
  ⟨Nat.zero_le 1, fun _ => rfl, fun _ h => EnsurePc.noConfusion h, fun _ h => EnsurePc.noConfusion h,
    fun _ hr => absurd hr List.not_mem_nil⟩

/-! ## What one step does -/

section Invariant

variable [DecidableEq ι] {url : Text}

/-- The calls that take a step, each from its own place. -/
inductive Acts (url : Text) (s : EnsureState ι) : EnsureLabel ι → EnsureState ι → Prop
  | enter (p : ι) : s.pc p = .idle → Acts url s (.enter p) (s.enter url p)
  | cat (p : ι) (proc : CompletedProcess) : s.pc p = .checking → s.CatEnds proc →
      Acts url s (.cat p proc) (s.cat p proc)
  | init (p : ι) (proc : CompletedProcess) : s.pc p = .missing → s.InitEnds proc →
      Acts url s (.init p proc) (s.init p proc)
  | add (p : ι) : s.pc p = .created → Acts url s (.add p) (s.add url p)
  | leave (p : ι) (outcome : Except PyError Bool) : s.pc p = .leaving outcome →
      Acts url s (.leave p) (s.leave url p outcome)

theorem step_of_acts {s t : EnsureState ι} {l : EnsureLabel ι} (h : Acts url s l t) :
    s.step url l = some t := by
  cases h with
  | enter p hpc => simp only [EnsureState.step, hpc]
  | cat p proc hpc hends => simp only [EnsureState.step, hpc, if_pos hends]
  | init p proc hpc hends => simp only [EnsureState.step, hpc, if_pos hends]
  | add p hpc => simp only [EnsureState.step, hpc]
  | leave p outcome hpc => simp only [EnsureState.step, hpc]

theorem acts_of_step {s t : EnsureState ι} {l : EnsureLabel ι} (h : s.step url l = some t) :
    Acts url s l t := by
  cases l with
  | enter p =>
    cases hpc : s.pc p <;> simp only [EnsureState.step, hpc, reduceCtorEq] at h
    obtain rfl := Option.some.inj h
    exact .enter p hpc
  | cat p proc =>
    cases hpc : s.pc p <;> simp only [EnsureState.step, hpc, reduceCtorEq] at h
    split_ifs at h with hends
    obtain rfl := Option.some.inj h
    exact .cat p proc hpc hends
  | init p proc =>
    cases hpc : s.pc p <;> simp only [EnsureState.step, hpc, reduceCtorEq] at h
    split_ifs at h with hends
    obtain rfl := Option.some.inj h
    exact .init p proc hpc hends
  | add p =>
    cases hpc : s.pc p <;> simp only [EnsureState.step, hpc, reduceCtorEq] at h
    obtain rfl := Option.some.inj h
    exact .add p hpc
  | leave p =>
    cases hpc : s.pc p <;> simp only [EnsureState.step, hpc, reduceCtorEq] at h
    obtain rfl := Option.some.inj h
    exact .leave p _ hpc

/-- A thread goes somewhere; it owes what the invariant says of that place. -/
theorem EnsureInv.goto {s : EnsureState ι} (h : EnsureInv s) (p : ι) {pc : EnsurePc}
    (hmissing : pc = .missing → s.repoExists = true → s.inits = 1)
    (hleaving : pc ≠ .leaving (.ok false)) : EnsureInv (s.goto p pc) := by
  refine ⟨h.inits_le, h.inits_eq, fun q hq => ?_, fun q => ?_, h.honest⟩
  · by_cases hqp : q = p
    · rw [hqp, EnsureState.pc_goto_self] at hq
      exact hmissing hq
    · rw [EnsureState.pc_goto_of_ne _ _ hqp] at hq
      exact h.seen q hq
  · by_cases hqp : q = p
    · rwa [hqp, EnsureState.pc_goto_self]
    · rw [EnsureState.pc_goto_of_ne _ _ hqp]
      exact h.leaving q

omit [DecidableEq ι] in
/-- The manager plays no part. -/
theorem EnsureInv.manager {s : EnsureState ι} (h : EnsureInv s) (m : RepoManager) :
    EnsureInv { s with manager := m } :=
  ⟨h.inits_le, h.inits_eq, h.seen, h.leaving, h.honest⟩

omit [DecidableEq ι] in
theorem EnsureInv.finish {s : EnsureState ι} (h : EnsureInv s) {outcome : Except PyError Bool}
    (hne : outcome ≠ .ok false) : EnsureInv (s.finish outcome) := by
  refine ⟨h.inits_le, h.inits_eq, h.seen, h.leaving, fun r hr => ?_⟩
  rcases List.mem_append.mp hr with hr | hr
  · exact h.honest r hr
  · rw [List.mem_singleton.mp hr]
    exact hne

omit [DecidableEq ι] in
/-- The first invocation creates the repository. -/
theorem EnsureInv.invoked {s : EnsureState ι} (h : EnsureInv s) {proc : CompletedProcess}
    (habsent : s.repoExists = false) (hok : proc.returncode = 0) : EnsureInv (s.invoked proc) := by
  have hone : (s.invoked proc).inits = 1 := by
    rw [EnsureState.invoked, h.inits_eq habsent]
  have hexists : (s.invoked proc).repoExists = true := by
    simp only [EnsureState.invoked, hok, decide_true, Bool.or_true]
  refine ⟨hone.le, fun hno => ?_, fun _ _ _ => hone, h.leaving, h.honest⟩
  rw [hexists] at hno
  exact absurd hno Bool.noConfusion

/-- **One step**, unless it is a `restic init` on a repository that is there, keeps the
invariant. -/
theorem EnsureInv.step {s t : EnsureState ι} {l : EnsureLabel ι} (h : EnsureInv s)
    (hstep : s.step url l = some t) (hG : InitsAbsent s l) : EnsureInv t := by
  cases acts_of_step hstep with
  | enter p hpc =>
    unfold EnsureState.enter
    split_ifs
    · exact h.finish (fun heq => absurd (Except.ok.inj heq) Bool.noConfusion)
    · exact (h.manager _).goto p EnsurePc.noConfusion EnsurePc.noConfusion
  | cat p proc hpc hends =>
    unfold EnsureState.cat
    refine h.goto p (fun hmissing hexists => ?_) ?_
    · rw [if_neg (not_not.mpr (hends.mpr hexists))] at hmissing
      exact EnsurePc.noConfusion hmissing
    · split_ifs <;> exact EnsurePc.noConfusion
  | init p proc hpc hends =>
    have habsent := hG p proc rfl
    have hok : proc.returncode = 0 := hends.mpr habsent
    rw [EnsureState.init, if_neg (not_not.mpr hok)]
    exact (h.invoked habsent hok).goto p EnsurePc.noConfusion EnsurePc.noConfusion
  | add p hpc =>
    refine (h.manager _).goto p EnsurePc.noConfusion fun heq => ?_
    exact absurd (Except.ok.inj (EnsurePc.leaving.inj heq)) Bool.noConfusion
  | leave p outcome hpc =>
    refine ((h.manager _).finish fun heq => h.leaving p ?_).goto p EnsurePc.noConfusion
      EnsurePc.noConfusion
    rw [hpc, heq]

/-- A `restic init` on a repository that is there is the second one. -/
theorem initsAbsent_of_once {s t : EnsureState ι} {l : EnsureLabel ι} (h : EnsureInv s)
    (hstep : s.step url l = some t) (honce : t.Once) : InitsAbsent s l := by
  rintro p proc rfl
  cases acts_of_step hstep with
  | init _ _ hpc hends =>
    by_contra hexists
    rw [Bool.not_eq_false] at hexists
    have hone := h.seen p hpc hexists
    have hle : s.inits + 1 ≤ 1 := honce.inits_le
    omega

/-- **Repo initialisation happens once, exactly.**  For any number of threads on one
manager and any interleaving: exactly when `restic init` is invoked only as long as the
repository does not exist. -/
theorem once_iff_initsAbsent (url : Text) (manager : RepoManager) (repoExists : Bool)
    (labels : List (EnsureLabel ι)) :
    Always (EnsureState.step url) EnsureState.Once (EnsureState.start manager repoExists) labels ↔
      Guarded (EnsureState.step url) InitsAbsent (EnsureState.start manager repoExists) labels :=
  always_iff_guarded (I := EnsureInv) (fun _ h => h.once)
    (fun _ _ _ h hstep hG => h.step hstep hG)
    (fun _ _ _ h hstep honce => initsAbsent_of_once h hstep honce)
    (EnsureInv.start manager repoExists) labels

end Invariant

/-! ## A call that nobody interrupts -/

section Alone

variable [DecidableEq ι] {url : Text}

/-- The steps of a call from its `restic init` on. -/
def stepsFromInit (p : ι) (init : CompletedProcess) : List (EnsureLabel ι) :=
  .init p init :: if init.returncode ≠ 0 then [.leave p] else [.add p, .leave p]

/-- The steps of a call from its `restic cat config` on. -/
def stepsFromCat (p : ι) (cat init : CompletedProcess) : List (EnsureLabel ι) :=
  .cat p cat :: if cat.returncode ≠ 0 then stepsFromInit p init else [.add p, .leave p]

/-- The steps of a call. -/
def EnsureState.call (url : Text) (s : EnsureState ι) (p : ι) (cat init : CompletedProcess) :
    List (EnsureLabel ι) :=
  .enter p :: if url ∈ s.manager.initialized then [] else stepsFromCat p cat init

/-- What the call learns from outside, as the sequential model takes it. -/
def EnsureState.answers (url : Text) (s : EnsureState ι) (cat init : CompletedProcess) :
    RepoAnswers :=
  ⟨url ∈ s.manager.initialized, .ok cat, .ok init, fun _ _ => true, .ok (), fun _ => .ok cat, .ok ()⟩

/-- The steps lead to the end of the call, which returns or raises `outcome`. -/
def Ends (url : Text) (s : EnsureState ι) (p : ι) (labels : List (EnsureLabel ι))
    (outcome : Except PyError Bool) : Prop :=
  ∃ t, exec (EnsureState.step url) s labels = some t ∧ t.pc p = .idle ∧
    t.ended.map Returned.outcome = s.ended.map Returned.outcome ++ [outcome]

theorem ends_cons {s t : EnsureState ι} {p : ι} {l : EnsureLabel ι} {labels : List (EnsureLabel ι)}
    {outcome : Except PyError Bool} (hacts : Acts url s l t) (hended : t.ended = s.ended)
    (h : Ends url t p labels outcome) : Ends url s p (l :: labels) outcome := by
  obtain ⟨u, hu, hidle, hout⟩ := h
  refine ⟨u, ?_, hidle, ?_⟩
  · rw [exec_cons, step_of_acts hacts]
    exact hu
  · rw [hout, hended]

theorem ends_leave {s : EnsureState ι} {p : ι} {outcome : Except PyError Bool}
    (hpc : s.pc p = .leaving outcome) : Ends url s p [.leave p] outcome := by
  refine ⟨s.leave url p outcome, ?_, EnsureState.pc_goto_self _ _ _, ?_⟩
  · rw [exec_cons, step_of_acts (.leave p outcome hpc)]
    rfl
  · rw [EnsureState.leave, EnsureState.ended_goto, EnsureState.finish, List.map_append]
    rfl

theorem ends_add {s : EnsureState ι} {p : ι} (hpc : s.pc p = .created) :
    Ends url s p [.add p, .leave p] (.ok true) :=
  ends_cons (.add p hpc) rfl (ends_leave (EnsureState.pc_goto_self _ _ _))

theorem ends_stepsFromInit {s : EnsureState ι} {p : ι} {init : CompletedProcess}
    (hpc : s.pc p = .missing) (hinit : s.InitEnds init) :
    Ends url s p (stepsFromInit p init)
      (if init.returncode ≠ 0 then init.message.map fun _ => false else .ok true) := by
  refine ends_cons (.init p init hpc hinit) rfl ?_
  have hgoto := (s.invoked init).pc_goto_self p
  by_cases hfailed : init.returncode ≠ 0
  · rw [if_pos hfailed, if_pos hfailed, EnsureState.init, if_pos hfailed]
    exact ends_leave (hgoto _)
  · rw [if_neg hfailed, if_neg hfailed, EnsureState.init, if_neg hfailed]
    exact ends_add (hgoto _)

theorem ends_stepsFromCat {s : EnsureState ι} {p : ι} {cat init : CompletedProcess}
    (hpc : s.pc p = .checking) (hcat : s.CatEnds cat) (hinit : s.InitEnds init) :
    Ends url s p (stepsFromCat p cat init)
      (if cat.returncode ≠ 0 then
        if init.returncode ≠ 0 then init.message.map fun _ => false else .ok true
      else .ok true) := by
  refine ends_cons (.cat p cat hpc hcat) rfl ?_
  have hgoto := s.pc_goto_self p
  by_cases hmissing : cat.returncode ≠ 0
  · rw [if_pos hmissing, if_pos hmissing, EnsureState.cat, if_pos hmissing]
    exact ends_stepsFromInit (hgoto _) hinit
  · rw [if_neg hmissing, if_neg hmissing, EnsureState.cat, if_neg hmissing]
    exact ends_add (hgoto _)

/-- **A call that runs alone is `ensure`**, and leaves the thread where it was. -/
theorem ends_alone {s : EnsureState ι} {p : ι} {cat init : CompletedProcess} (hpc : s.pc p = .idle)
    (hcat : s.CatEnds cat) (hinit : s.InitEnds init) :
    Ends url s p (s.call url p cat init) (ensure (s.answers url cat init)) := by
  have henter : s.step url (.enter p) = some (s.enter url p) := step_of_acts (.enter p hpc)
  by_cases hin : url ∈ s.manager.initialized
  · have hensure : ensure (s.answers url cat init) = .ok true := by
      rw [ensure, EnsureState.answers, decide_eq_true hin, if_pos rfl]
    rw [EnsureState.call, if_pos hin, hensure]
    rw [EnsureState.enter, if_pos hin] at henter
    refine ⟨s.finish (.ok true), ?_, hpc, ?_⟩
    · rw [exec_cons, henter]
      rfl
    · rw [EnsureState.finish, List.map_append]
      rfl
  · have hensure : ensure (s.answers url cat init) =
        if cat.returncode ≠ 0 then
          if init.returncode ≠ 0 then init.message.map fun _ => false else .ok true
        else .ok true := by
      rw [ensure, EnsureState.answers, decide_eq_false hin, if_neg Bool.false_ne_true]
    have hacts : Acts url s (.enter p) (s.enter url p) := .enter p hpc
    rw [EnsureState.enter, if_neg hin] at hacts
    rw [EnsureState.call, if_neg hin, hensure]
    refine ends_cons hacts rfl (ends_stepsFromCat ?_ hcat hinit)
    exact EnsureState.pc_goto_self _ _ _

end Alone

/-! ## Two threads -/

/-- Both threads find the repository missing, and both invoke `restic init`. -/
def twoInits : List (EnsureLabel Bool) :=
  [.enter false, .enter true, .cat false ⟨1, []⟩, .cat true ⟨1, []⟩, .init false ⟨0, []⟩,
    .init true ⟨1, []⟩, .add false, .leave false, .leave true]

/-- `restic init` is invoked twice, and the second call returns false with the
repository there. -/
theorem exec_twoInits (url : Text) :
    ((exec (EnsureState.step url) (EnsureState.start ⟨∅, none⟩ false) twoInits).map fun s =>
      (s.inits, s.ended.map fun r => (r.outcome.toOption, r.existed))) =
        some (2, [(some true, true), (some false, true)]) := by
  rfl

theorem not_once_twoInits :
    ¬ Always (EnsureState.step (text "s3:http://minio/backup/stor1/userA")) EnsureState.Once
      (EnsureState.start ⟨∅, none⟩ false) twoInits := by
  obtain ⟨s, hs, hproj⟩ := Option.map_eq_some_iff.mp (exec_twoInits _)
  refine not_always_of_exec hs fun honce => ?_
  have hle := honce.inits_le
  rw [(Prod.mk.inj hproj).1] at hle
  exact absurd hle (by decide)

end Backup
end FileTracker
