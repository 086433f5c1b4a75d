import FileTracker.Agent.EventHandler
import FileTracker.Library.Interleaving
import Mathlib.Tactic.Abel
import Mathlib.Tactic.FinCases
import Mathlib.Data.Fin.VecNotation
import Mathlib.Data.Fintype.Basic

/-!
# Renames of several CPUs in one slot

The probe emits the two events of a rename one after the other, but several CPUs
write into one ring buffer, and the callback has one slot for all of them.  What
the slot does is pair *neighbours*: `on_rename` is called for every
`RENAME_FROM` that a `RENAME_TO` directly follows, whatever CPUs they are from
(`renameCalls_eq`).

So two things can go wrong, and they are both visible in the ring buffer's
content.  A rename is *split* when something stands between its two events, and
two neighbours from different CPUs are *crossed*.  `paired_iff` says that the
right calls are made exactly when the two make up for each other.
-/

namespace FileTracker
namespace Agent

open Interleaving

/-- What a CPU does. -/
inductive CpuOp where
  | mtime (file : NameArray)
  | delete (file : NameArray)
  | rename (old new : NameArray)

/-- The events its probes emit. -/
def CpuOp.events : CpuOp → List FileEvent
  | .mtime file => [⟨file, .mtime⟩]
  | .delete file => [⟨file, .delete⟩]
  | .rename old new => [⟨old, .renameFrom⟩, ⟨new, .renameTo⟩]

/-- A ring-buffer content: an interleaving of what the CPUs emit. -/
structure Ring (ι : Type) [DecidableEq ι] where
  events : List (ι × FileEvent)
  ops : ι → List CpuOp
  interleaved : ∀ c, stream c events = (ops c).flatMap CpuOp.events

/-- Two events as a pair of paths, if one of them is watched. -/
def watched (watchPrefix : Bytes) (p : FileEvent × FileEvent) : Option (Bytes × Bytes) :=
  let old := buildPath p.1
  let new := buildPath p.2
  if matchesPrefix watchPrefix old || matchesPrefix watchPrefix new then some (old, new) else none

/-- The events of the renames a CPU makes. -/
def renamesOf (ops : List CpuOp) : List (FileEvent × FileEvent) :=
  ops.filterMap fun op =>
    match op with
    | .rename old new => some (⟨old, .renameFrom⟩, ⟨new, .renameTo⟩)
    | _ => none

/-- The pairs of paths `on_rename` is called with. -/
def renameCalls (calls : List HandlerCall) : List (Bytes × Bytes) :=
  calls.filterMap fun call =>
    match call with
    | .onRename old new => some (old, new)
    | _ => none

section

variable {ι : Type} [DecidableEq ι]

/-- `on_rename` is called once for every watched rename, with its own paths, and
for nothing else. -/
def Ring.Paired [Fintype ι] (ring : Ring ι) (watchPrefix : Bytes) : Prop :=
  (renameCalls (handleEvents (.init watchPrefix) (ring.events.map Prod.snd)) :
      Multiset (Bytes × Bytes)) =
    ∑ c, ((renamesOf (ring.ops c)).filterMap (watched watchPrefix) : Multiset (Bytes × Bytes))

/-- The event and the one behind it, when that is a rename's second after a
rename's first. -/
def pairAt (e : FileEvent) : List FileEvent → List (FileEvent × FileEvent)
  | t :: _ => if e.eventType = .renameFrom ∧ t.eventType = .renameTo then [(e, t)] else []
  | [] => []

/-- Every `RENAME_FROM` with the `RENAME_TO` directly behind it. -/
def neighbours : List FileEvent → List (FileEvent × FileEvent)
  | [] => []
  | e :: evts => pairAt e evts ++ neighbours evts

/-- Every `RENAME_FROM` with the next event of its own CPU. -/
def ownPairs : List (ι × FileEvent) → List (ι × FileEvent × FileEvent)
  | [] => []
  | (c, e) :: evts =>
    (if e.eventType = .renameFrom then
      (stream c evts).head?.toList.map fun t => (c, e, t) else []) ++ ownPairs evts

/-- The renames with something between their two events. -/
def split : List (ι × FileEvent) → List (FileEvent × FileEvent)
  | [] => []
  | (c, e) :: evts =>
    (if e.eventType = .renameFrom ∧ evts.head?.map Prod.fst ≠ some c then
      (stream c evts).head?.toList.map fun t => (e, t) else []) ++ split evts

/-- The neighbours of different CPUs. -/
def crossed : List (ι × FileEvent) → List (FileEvent × FileEvent)
  | [] => []
  | (c, e) :: evts =>
    (if evts.head?.map Prod.fst ≠ some c then pairAt e (evts.map Prod.snd) else []) ++
      crossed evts

/-- The neighbours of one CPU. -/
def joined : List (ι × FileEvent) → List (FileEvent × FileEvent)
  | [] => []
  | (c, e) :: evts =>
    (if evts.head?.map Prod.fst = some c then pairAt e (evts.map Prod.snd) else []) ++
      joined evts

end

/-! ## The slot pairs neighbours -/

theorem renameCalls_append (xs ys : List HandlerCall) :
    renameCalls (xs ++ ys) = renameCalls xs ++ renameCalls ys :=
  List.filterMap_append

/-- Only a `RENAME_FROM` begins a pair. -/
theorem pairAt_of_ne {e : FileEvent} (he : e.eventType ≠ .renameFrom) (evts : List FileEvent) :
    pairAt e evts = [] := by
  cases evts <;> simp [pairAt, he]

/-- A `RENAME_FROM` is in a pair with a `RENAME_TO` only. -/
theorem pairAt_cons_of_ne (e : FileEvent) {t : FileEvent} (ht : t.eventType ≠ .renameTo)
    (evts : List FileEvent) : pairAt e (t :: evts) = [] := by
  simp [pairAt, ht]

theorem pairAt_cons {e t : FileEvent} (he : e.eventType = .renameFrom)
    (ht : t.eventType = .renameTo) (evts : List FileEvent) : pairAt e (t :: evts) = [(e, t)] := by
  simp [pairAt, he, ht]

theorem neighbours_cons_of_ne {e : FileEvent} (he : e.eventType ≠ .renameFrom)
    (evts : List FileEvent) : neighbours (e :: evts) = neighbours evts := by
  rw [neighbours, pairAt_of_ne he, List.nil_append]

theorem renameCalls_cons (ectx : EventCtx) (x : FileEvent) (evts : List FileEvent) :
    renameCalls (handleEvents ectx (x :: evts)) =
      renameCalls (handleEvent ectx x).2 ++ renameCalls (handleEvents (handleEvent ectx x).1 evts) :=
  renameCalls_append _ _

/-- An event of one file calls no `on_rename` and empties the slot. -/
theorem handleEvent_fileEvent (ectx : EventCtx) {x : FileEvent}
    (hfrom : x.eventType ≠ .renameFrom) (hto : x.eventType ≠ .renameTo) :
    (handleEvent ectx x).1 = { ectx with hasPendingRename := false } ∧
      renameCalls (handleEvent ectx x).2 = [] := by
  unfold handleEvent
  cases hx : x.eventType with
  | renameFrom => exact absurd hx hfrom
  | renameTo => exact absurd hx hto
  | delete =>
    simp only [true_and]
    split_ifs <;> rfl
  | mtime =>
    simp only [true_and]
    split_ifs <;> rfl

/-- The calls from a context whose slot is empty, and from one that holds the
event just handled. -/
theorem renameCalls_handleEvents (watchPrefix : Bytes) (evts : List FileEvent) :
    (∀ from_, renameCalls (handleEvents ⟨watchPrefix, from_, false⟩ evts) =
      (neighbours evts).filterMap (watched watchPrefix)) ∧
    ∀ e : FileEvent, e.eventType = .renameFrom →
      renameCalls (handleEvents ⟨watchPrefix, buildPath e, true⟩ evts) =
        (neighbours (e :: evts)).filterMap (watched watchPrefix) := by
  induction evts with
  | nil => exact ⟨fun _ => rfl, fun _ _ => rfl⟩
  | cons x evts ih =>
    obtain ⟨hempty, hfull⟩ := ih
    by_cases hfrom : x.eventType = .renameFrom
    · -- the slot is overwritten, whatever it holds
      have hevent : ∀ ectx, handleEvent ectx x =
          ({ ectx with pendingRenameFrom := buildPath x, hasPendingRename := true }, []) := by
        intro ectx
        simp [handleEvent, hfrom]
      have hnext : ∀ from_ slot, renameCalls (handleEvents ⟨watchPrefix, from_, slot⟩ (x :: evts)) =
          (neighbours (x :: evts)).filterMap (watched watchPrefix) := by
        intro from_ slot
        rw [renameCalls_cons, hevent, ← hfull x hfrom]
        rfl
      refine ⟨fun from_ => hnext from_ false, fun e _ => ?_⟩
      have hto : x.eventType ≠ .renameTo := by simp [hfrom]
      rw [hnext, neighbours.eq_def (e :: x :: evts)]
      simp only [pairAt_cons_of_ne e hto, List.nil_append]
    by_cases hto : x.eventType = .renameTo
    · -- the slot is emptied, with a call if it was full
      rw [neighbours_cons_of_ne hfrom]
      refine ⟨fun from_ => ?_, fun e he => ?_⟩
      · rw [renameCalls_cons, handleEvent, hto, ← hempty from_]
        rfl
      · rw [renameCalls_cons, handleEvent, hto, neighbours, pairAt_cons he hto,
          neighbours_cons_of_ne hfrom, List.filterMap_append]
        simp only [if_true]
        rw [hempty]
        refine congrArg (· ++ _) ?_
        simp only [watched, List.filterMap_cons, List.filterMap_nil]
        split_ifs <;> rfl
    · -- a file event empties the slot without a call
      have hnext : ∀ from_ slot, renameCalls (handleEvents ⟨watchPrefix, from_, slot⟩ (x :: evts)) =
          (neighbours evts).filterMap (watched watchPrefix) := by
        intro from_ slot
        obtain ⟨hctx, hnone⟩ := handleEvent_fileEvent ⟨watchPrefix, from_, slot⟩ hfrom hto
        rw [renameCalls_cons, hctx, hnone, List.nil_append]
        exact hempty from_
      refine ⟨fun from_ => ?_, fun e _ => ?_⟩
      · rw [hnext, neighbours_cons_of_ne hfrom]
      · rw [hnext, neighbours, pairAt_cons_of_ne e hto, List.nil_append,
          neighbours_cons_of_ne hfrom]

/-- **The slot pairs neighbours**: `on_rename` is called for the watched ones, in
order. -/
theorem renameCalls_eq (watchPrefix : Bytes) (evts : List FileEvent) :
    renameCalls (handleEvents (.init watchPrefix) evts) =
      (neighbours evts).filterMap (watched watchPrefix) :=
  (renameCalls_handleEvents watchPrefix evts).1 []

/-! ## Neighbours, and the pairs that belong together -/

variable {ι : Type} [DecidableEq ι]

/-- Neighbours are of one CPU or of two. -/
theorem neighbours_eq (evts : List (ι × FileEvent)) :
    (neighbours (evts.map Prod.snd) : Multiset (FileEvent × FileEvent)) =
      (joined evts : Multiset (FileEvent × FileEvent)) + crossed evts := by
  induction evts with
  | nil => rfl
  | cons x evts ih =>
    obtain ⟨c, e⟩ := x
    rw [List.map_cons, neighbours, joined, crossed]
    simp only [← Multiset.coe_add, ih]
    by_cases h : evts.head?.map Prod.fst = some c
    · rw [if_pos h, if_neg (not_not.mpr h), Multiset.coe_nil, zero_add, add_assoc]
    · rw [if_neg h, if_pos h, Multiset.coe_nil, zero_add]
      abel

/-- In the stream of one CPU a `RENAME_TO` follows every `RENAME_FROM`. -/
def WellPaired : List FileEvent → Prop
  | [] => True
  | e :: evts =>
    (e.eventType = .renameFrom → ∃ t rest, evts = t :: rest ∧ t.eventType = .renameTo) ∧
      WellPaired evts

/-- The pairs that belong together are neighbours of one CPU, or split. -/
theorem ownPairs_eq {evts : List (ι × FileEvent)} (h : ∀ c, WellPaired (stream c evts)) :
    ((ownPairs evts).map Prod.snd : Multiset (FileEvent × FileEvent)) =
      (joined evts : Multiset (FileEvent × FileEvent)) + split evts := by
  induction evts with
  | nil => rfl
  | cons x evts ih =>
    obtain ⟨c, e⟩ := x
    have hc : WellPaired (e :: stream c evts) := by
      have hc := h c
      rwa [stream_cons_self] at hc
    have hrest := ih fun d => by
      by_cases hd : c = d
      · subst hd
        exact hc.2
      · have hd' := h d
        rwa [stream_cons_of_ne hd] at hd'
    rw [ownPairs, joined, split, List.map_append]
    simp only [← Multiset.coe_add, hrest]
    by_cases he : e.eventType = .renameFrom
    · obtain ⟨t, rest, hstream, ht⟩ := hc.1 he
      rw [if_pos he, hstream]
      by_cases hhead : evts.head?.map Prod.fst = some c
      · -- the next event is of the same CPU, so it is the second one of the rename
        have hpair : pairAt e (evts.map Prod.snd) = [(e, t)] := by
          rcases evts with _ | ⟨⟨d, t'⟩, evts⟩
          · simp at hhead
          · obtain rfl : d = c := by simpa using hhead
            rw [stream_cons_self] at hstream
            obtain rfl := (List.cons.inj hstream).1
            exact pairAt_cons he ht _
        rw [if_pos hhead, if_neg (fun hn => hn.2 hhead), hpair, Multiset.coe_nil, zero_add,
          add_assoc]
        rfl
      · rw [if_neg hhead, if_pos ⟨he, hhead⟩, Multiset.coe_nil, zero_add]
        simp only [List.head?_cons, Option.toList_some, List.map_cons, List.map_nil]
        abel
    · rw [if_neg he, pairAt_of_ne he, ite_self, if_neg (fun hn => he hn.1)]
      simp

/-- The pairs of one stream. -/
def pairsOf : List FileEvent → List (FileEvent × FileEvent)
  | [] => []
  | e :: evts =>
    (if e.eventType = .renameFrom then evts.head?.toList.map fun t => (e, t) else []) ++
      pairsOf evts

theorem stream_ownPairs (c : ι) (evts : List (ι × FileEvent)) :
    stream c (ownPairs evts) = pairsOf (stream c evts) := by
  induction evts with
  | nil => rfl
  | cons x evts ih =>
    obtain ⟨d, e⟩ := x
    rw [ownPairs, stream_append, ih]
    by_cases hd : d = c
    · subst hd
      rw [stream_cons_self, pairsOf]
      split_ifs
      · cases (stream d evts).head? <;> simp
      · simp
    · rw [stream_cons_of_ne hd]
      split_ifs
      · cases (stream d evts).head? <;> simp [hd]
      · simp

theorem pairsOf_events (ops : List CpuOp) :
    pairsOf (ops.flatMap CpuOp.events) = renamesOf ops := by
  induction ops with
  | nil => rfl
  | cons op ops ih =>
    cases op <;> simp [CpuOp.events, pairsOf, renamesOf, ih]

theorem wellPaired_events (ops : List CpuOp) : WellPaired (ops.flatMap CpuOp.events) := by
  induction ops with
  | nil => trivial
  | cons op ops ih =>
    cases op with
    | mtime file => exact ⟨by simp, ih⟩
    | delete file => exact ⟨by simp, ih⟩
    | rename old new => exact ⟨fun _ => ⟨_, _, rfl, rfl⟩, by simp, ih⟩

/-- **When renames are paired.**  For any number of CPUs and any interleaving:
exactly when, among the watched pairs of paths, the neighbours of different CPUs
are the renames with something between their two events --- so in particular
when there are none of either. -/
theorem paired_iff [Fintype ι] (ring : Ring ι) (watchPrefix : Bytes) :
    ring.Paired watchPrefix ↔
      ((crossed ring.events).filterMap (watched watchPrefix) : Multiset (Bytes × Bytes)) =
        (split ring.events).filterMap (watched watchPrefix) := by
  have hpaired : ∀ c, WellPaired (stream c ring.events) := by
    intro c
    rw [ring.interleaved]
    exact wellPaired_events (ring.ops c)
  have hcalls := congrArg (Multiset.filterMap (watched watchPrefix)) (neighbours_eq ring.events)
  have howns := congrArg (Multiset.filterMap (watched watchPrefix)) (ownPairs_eq hpaired)
  have hops : ∑ c, ((renamesOf (ring.ops c)).filterMap (watched watchPrefix) :
      Multiset (Bytes × Bytes)) =
        ((ownPairs ring.events).map Prod.snd).filterMap (watched watchPrefix) := by
    rw [← sum_stream_filterMap]
    refine Finset.sum_congr rfl fun c _ => ?_
    rw [stream_ownPairs, ring.interleaved, pairsOf_events]
  simp only [Multiset.filterMap_add, Multiset.filterMap_coe] at hcalls howns
  rw [Ring.Paired, renameCalls_eq, hops, hcalls, howns]
  exact add_right_inj _

/-! ## Two renames at once -/

/-- The file `/home/<name>`. -/
def homeFile (name : Bytes) (h : name.length < MAX_NAME_LEN) : NameArray :=
  ⟨[name, [0x68, 0x6F, 0x6D, 0x65]], by simp [MAX_DEPTH], by simpa [MAX_NAME_LEN] using h⟩

def fileA : NameArray := homeFile [0x61] (by decide)
def fileB : NameArray := homeFile [0x62] (by decide)
def fileC : NameArray := homeFile [0x63] (by decide)
def fileD : NameArray := homeFile [0x64] (by decide)

/-- One CPU renames `a` to `b`, another one `c` to `d`, at the same time. -/
def twoRenames : Ring (Fin 2) where
  events := [(0, ⟨fileA, .renameFrom⟩), (1, ⟨fileC, .renameFrom⟩), (0, ⟨fileB, .renameTo⟩),
    (1, ⟨fileD, .renameTo⟩)]
  ops := ![[.rename fileA fileB], [.rename fileC fileD]]
  interleaved := by
    intro c
    fin_cases c <;> rfl

/-- `on_rename` is called once, and with the paths of no rename: `c` to `b`. -/
theorem not_paired_twoRenames :
    ¬ ∀ (ring : Ring (Fin 2)) (watchPrefix : Bytes), ring.Paired watchPrefix := by
  intro hclaim
  have hpaired := hclaim twoRenames [0x2F, 0x68, 0x6F, 0x6D, 0x65]
  unfold Ring.Paired at hpaired
  exact absurd hpaired (by decide +kernel)

end Agent
end FileTracker
