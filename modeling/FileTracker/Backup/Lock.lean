import FileTracker.Library.Runs
import FileTracker.Library.PyJson
import Mathlib.Logic.Function.Basic

/-!
# The distributed lock

`acquire_lock` and `release_lock` of `backup/backup.py`, and the same two calls in
`main` of `backup/prune.py`: the key `backup:lock` is set if it is not there,
with a time to live, and deleted at the end without looking at who holds it.

A process that works longer than the time to live no longer has the lock when it
comes to its `finally` block, and what it deletes there may be its successor's.
`safe_iff_timely` says that this is the only way the lock fails: a run is safe
throughout exactly when every release comes while the process's own acquisition
has not expired, or when no unexpired lock is there to be deleted.
-/

namespace FileTracker
namespace Backup

open Runs

/-- `LOCK_TTL`, and the same number in `prune.py`, in milliseconds as all times
here. -/
def LOCK_TTL : ℕ := 7200 * 1000

/-- The two programs that take the lock. -/
inductive Program where
  | backup
  | prune
  deriving DecidableEq, Repr

/-- The value a program sets the key to on a node. -/
def Program.lockValue (nodeId : Text) : Program → Text
  | .backup => nodeId
  | .prune => nodeId ++ text ":prune"

/-- The key `backup:lock`: its value and when it expires.  `owner` is a ghost: the
process that set it. -/
structure LockKey (ι : Type) where
  value : Text
  expiresAt : ℕ
  owner : ι

/-- A process, with the time of its acquisition while it is at work. -/
inductive Proc where
  | idle
  | critical (since : ℕ)
  deriving DecidableEq, Repr

/-- The clock, the key, the processes.  `stolen` is a ghost: some release has
deleted another process's unexpired lock. -/
structure LockState (ι : Type) where
  now : ℕ
  key : Option (LockKey ι)
  proc : ι → Proc
  stolen : Bool

/-- Time passes; a process tries to acquire the lock; a process comes to its
`finally` block; a process dies without it. -/
inductive LockLabel (ι : Type) where
  | tick (ms : ℕ)
  | acquire (p : ι)
  | release (p : ι)
  | crash (p : ι)

section Steps

variable {ι : Type} [DecidableEq ι] (program : ι → Program) (nodeId : ι → Text)

/-- The key as Redis sees it: gone once its time to live has elapsed. -/
def LockState.live (s : LockState ι) : Option (LockKey ι) :=
  s.key.filter fun k => s.now < k.expiresAt

/-- `r.set(lock_key, value, nx=True, ex=7200)`. -/
def LockState.setNx (s : LockState ι) (p : ι) : Bool × LockState ι :=
  match s.live with
  | some _ => (false, s)
  | none =>
    (true, { s with key := some ⟨(program p).lockValue (nodeId p), s.now + LOCK_TTL, p⟩ })

/-- `acquire_lock`, and what it is followed by: the work, or the end of the
process. -/
def LockState.acquireLock (s : LockState ι) (p : ι) : LockState ι :=
  match s.setNx program nodeId p with
  | (true, t) => { t with proc := Function.update t.proc p (.critical t.now) }
  | (false, t) => t

/-- `release_lock`. -/
def LockState.releaseLock (s : LockState ι) (p : ι) : LockState ι :=
  { s with
    key := none
    proc := Function.update s.proc p .idle
    stolen := s.stolen || s.live.any fun k => k.owner ≠ p }

def LockState.step (s : LockState ι) : LockLabel ι → Option (LockState ι)
  | .tick ms => some { s with now := s.now + ms }
  | .acquire p => if s.proc p = .idle then some (s.acquireLock program nodeId p) else none
  | .release p => if s.proc p = .idle then none else some (s.releaseLock p)
  | .crash p =>
    if s.proc p = .idle then none
    else some { s with proc := Function.update s.proc p .idle }

end Steps

variable {ι : Type}

/-- Nobody is at work and the key is not set. -/
def LockState.initial : LockState ι := ⟨0, none, fun _ => .idle, false⟩

/-- The process is at work, and its own acquisition has not expired. -/
def LockState.Holds (s : LockState ι) (p : ι) : Prop :=
  ∃ since, s.proc p = .critical since ∧ s.now < since + LOCK_TTL

/-- No release has deleted another process's unexpired lock, and at most one
process is at work with an unexpired acquisition of its own. -/
def LockState.Safe (s : LockState ι) : Prop :=
  s.stolen = false ∧ ∀ p q, s.Holds p → s.Holds q → p = q

/-- A release comes while the process's own acquisition has not expired, or when
there is no unexpired lock. -/
def Timely (s : LockState ι) (l : LockLabel ι) : Prop :=
  ∀ p, l = .release p → s.Holds p ∨ s.live = none

/-- The invariant: an unexpired acquisition is the one the key records, and the
key's owner is at work since then or not at work any more. -/
structure LockInv (s : LockState ι) : Prop where
  honest : s.stolen = false
  recorded : ∀ p since, s.proc p = .critical since → s.now < since + LOCK_TTL →
    ∃ k, s.live = some k ∧ k.owner = p
  owned : ∀ k since, s.live = some k → s.proc k.owner = .critical since →
    k.expiresAt = since + LOCK_TTL

theorem LockInv.safe {s : LockState ι} (h : LockInv s) : s.Safe := by
  refine ⟨h.honest, ?_⟩
  rintro p q ⟨tp, hp, hpt⟩ ⟨tq, hq, hqt⟩
  obtain ⟨k, hk, rfl⟩ := h.recorded p tp hp hpt
  obtain ⟨k', hk', rfl⟩ := h.recorded q tq hq hqt
  rw [Option.some.inj (hk.symm.trans hk')]

theorem LockState.live_eq_some_iff {s : LockState ι} {k : LockKey ι} :
    s.live = some k ↔ s.key = some k ∧ s.now < k.expiresAt := by
  simp [LockState.live, Option.filter_eq_some_iff]

/-- As time passes, what is unexpired at the end was so before. -/
theorem LockInv.tick {s : LockState ι} (h : LockInv s) (ms : ℕ) :
    LockInv { s with now := s.now + ms } := by
  refine ⟨h.honest, fun p since hp hlt => ?_, fun k since hk hp => ?_⟩
  · obtain ⟨k, hk, rfl⟩ := h.recorded p since hp (by simp only at hlt; omega)
    have hexp := h.owned k since hk hp
    obtain ⟨hkey, -⟩ := LockState.live_eq_some_iff.mp hk
    exact ⟨k, LockState.live_eq_some_iff.mpr ⟨hkey, by simp only at hlt ⊢; omega⟩, rfl⟩
  · obtain ⟨hkey, hlt⟩ := LockState.live_eq_some_iff.mp hk
    exact h.owned k since (LockState.live_eq_some_iff.mpr ⟨hkey, by simp only at hlt; omega⟩) hp

variable [DecidableEq ι] {program : ι → Program} {nodeId : ι → Text}

/-- Whoever acquires the lock finds no unexpired one, hence nobody at work with
an unexpired acquisition. -/
theorem LockInv.acquire {s : LockState ι} (h : LockInv s) (p : ι) :
    LockInv (s.acquireLock program nodeId p) := by
  unfold LockState.acquireLock LockState.setNx
  cases hlive : s.live with
  | some k => exact h
  | none =>
    have hnone : ∀ q since, s.proc q = .critical since → ¬ s.now < since + LOCK_TTL := by
      intro q since hq hlt
      obtain ⟨k, hk, -⟩ := h.recorded q since hq hlt
      rw [hlive] at hk
      simp at hk
    refine ⟨h.honest, fun q since hq hlt => ?_, fun k since hk hq => ?_⟩
    · by_cases hqp : q = p
      · subst hqp
        refine ⟨_, LockState.live_eq_some_iff.mpr ⟨rfl, ?_⟩, rfl⟩
        simp [LOCK_TTL]
      · simp only [Function.update_of_ne hqp] at hq
        exact absurd hlt (hnone q since hq)
    · obtain ⟨hkey, -⟩ := LockState.live_eq_some_iff.mp hk
      obtain rfl := Option.some.inj hkey
      simp only [Function.update_self, Proc.critical.injEq] at hq
      rw [hq]

/-- When a process leaves, and with it the key if it is the process's own or has
expired. -/
theorem LockInv.leave {s : LockState ι} (h : LockInv s) (p : ι) {key : Option (LockKey ι)}
    (hkey : key = s.key ∨ key = none ∧ ∀ k, s.live = some k → k.owner = p) :
    LockInv { s with key := key, proc := Function.update s.proc p .idle } := by
  have hproc : ∀ {q since}, Function.update s.proc p .idle q = .critical since →
      q ≠ p ∧ s.proc q = .critical since := by
    intro q since hq
    by_cases hqp : q = p
    · rw [hqp, Function.update_self] at hq
      simp at hq
    · exact ⟨hqp, by rwa [Function.update_of_ne hqp] at hq⟩
  refine ⟨h.honest, fun q since hq hlt => ?_, fun k since hk hq => ?_⟩
  · obtain ⟨hqp, hq⟩ := hproc hq
    obtain ⟨k, hk, rfl⟩ := h.recorded q since hq hlt
    rcases hkey with rfl | ⟨-, hown⟩
    · exact ⟨k, hk, rfl⟩
    · exact absurd (hown k hk) hqp
  · rcases hkey with rfl | ⟨rfl, -⟩
    · exact h.owned k since hk (hproc hq).2
    · simp [LockState.live] at hk

/-- **One step**, unless it is an untimely release, keeps the invariant. -/
theorem LockInv.step {s t : LockState ι} {l : LockLabel ι} (h : LockInv s)
    (hstep : s.step program nodeId l = some t) (htimely : Timely s l) : LockInv t := by
  cases l with
  | tick ms =>
    obtain rfl := Option.some.inj hstep
    exact h.tick ms
  | acquire p =>
    simp only [LockState.step] at hstep
    split_ifs at hstep
    obtain rfl := Option.some.inj hstep
    exact h.acquire p
  | release p =>
    simp only [LockState.step] at hstep
    split_ifs at hstep
    obtain rfl := Option.some.inj hstep
    have hown : ∀ k, s.live = some k → k.owner = p := by
      intro k hk
      rcases htimely p rfl with ⟨since, hp, hlt⟩ | hnone
      · obtain ⟨k', hk', rfl⟩ := h.recorded p since hp hlt
        rw [Option.some.inj (hk.symm.trans hk')]
      · rw [hnone] at hk
        simp at hk
    have hany : (s.live.any fun k => k.owner ≠ p) = false := by
      cases hlive : s.live with
      | none => rfl
      | some k => simp [hown k hlive]
    have hgone : none = s.key ∨ (none : Option (LockKey ι)) = none ∧
        ∀ k, s.live = some k → k.owner = p := Or.inr ⟨rfl, hown⟩
    have hleave := h.leave p hgone
    have hstolen : (s.releaseLock p).stolen = false := by
      show (s.stolen || s.live.any fun k => k.owner ≠ p) = false
      rw [h.honest, hany]
      rfl
    exact ⟨hstolen, hleave.recorded, hleave.owned⟩
  | crash p =>
    simp only [LockState.step] at hstep
    split_ifs at hstep
    obtain rfl := Option.some.inj hstep
    exact h.leave p (Or.inl rfl)

/-- An untimely release is a theft. -/
theorem timely_of_safe {s t : LockState ι} {l : LockLabel ι} (h : LockInv s)
    (hstep : s.step program nodeId l = some t) (hsafe : t.Safe) : Timely s l := by
  rintro p rfl
  by_contra hbad
  obtain ⟨hholds, hlive⟩ := not_or.mp hbad
  obtain ⟨k, hk⟩ := Option.ne_none_iff_exists'.mp hlive
  simp only [LockState.step] at hstep
  split_ifs at hstep with hidle
  obtain rfl := Option.some.inj hstep
  have hstolen := hsafe.1
  simp only [LockState.releaseLock, h.honest, Bool.false_or, hk, Option.any_some,
    decide_eq_false_iff_not, ne_eq, not_not] at hstolen
  cases hp : s.proc p with
  | idle => exact hidle hp
  | critical since =>
    have hexp := h.owned k since hk (by rw [hstolen, hp])
    obtain ⟨-, hlt⟩ := LockState.live_eq_some_iff.mp hk
    exact hholds ⟨since, hp, hexp ▸ hlt⟩

omit [DecidableEq ι] in
theorem LockInv.initial : LockInv (LockState.initial : LockState ι) :=
  ⟨rfl, by simp [LockState.initial], by simp [LockState.initial]⟩

/-- **The lock, exactly.**  For any number of backup and prune processes and any
run: safe throughout exactly when every release is timely. -/
theorem safe_iff_timely (program : ι → Program) (nodeId : ι → Text)
    (labels : List (LockLabel ι)) :
    Always (LockState.step program nodeId) LockState.Safe LockState.initial labels ↔
      Guarded (LockState.step program nodeId) Timely LockState.initial labels :=
  always_iff_guarded (I := LockInv) (fun _ h => h.safe)
    (fun _ _ _ h hstep htimely => h.step hstep htimely)
    (fun _ _ _ h hstep hsafe => timely_of_safe h hstep hsafe) LockInv.initial labels

/-- A backup outlives its lock, a prune takes over, and the backup's `finally`
lets a third process in. -/
def lateRelease : List (LockLabel ℕ) :=
  [.acquire 0, .tick 7200000, .acquire 1, .tick 60000, .release 0, .acquire 2]

theorem not_safe_lateRelease :
    ¬ ∀ (program : ℕ → Program) (nodeId : ℕ → Text) (labels : List (LockLabel ℕ)),
      Always (LockState.step program nodeId) LockState.Safe LockState.initial labels := by
  intro hclaim
  have hrun : ((exec (LockState.step (fun p => if p = 1 then .prune else .backup) fun _ => [])
      LockState.initial lateRelease).map fun s => (s.now, s.proc 1, s.proc 2)) =
        some (7260000, .critical 7200000, .critical 7260000) := by
    decide +kernel
  obtain ⟨s, hs, hproj⟩ := Option.map_eq_some_iff.mp hrun
  obtain ⟨hnow, hrest⟩ := Prod.mk.inj hproj
  obtain ⟨hone, htwo⟩ := Prod.mk.inj hrest
  refine not_always_of_exec hs (fun hsafe => ?_) (hclaim _ _ lateRelease)
  have heq := hsafe.2 1 2 ⟨_, hone, by rw [hnow]; decide⟩ ⟨_, htwo, by rw [hnow]; decide⟩
  simp at heq

end Backup
end FileTracker
