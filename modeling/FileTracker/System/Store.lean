import FileTracker.Consumer.Sent
import FileTracker.Backup.Cluster

/-!
# The consumers and the backups on one Redis

A consumer group and any number of nodes that run backup and prune share one hash
`pending`: the flushes of `Consumer.Group` and the commands of `Backup.Cluster` come in
any order.

To the backups a call of a consumer is a flush of some commands (`storeSimulation`), so
what `Backup.Cluster` says of them holds here.  To the consumers the backups are somebody
who changes the hash, which nothing they promise depends on.  Together
(`kept_of_committed`): a path in a message below a committed offset has been put into
`pending` by a flush of that message, and from then on it is in one of the two hashes,
until a later command takes it out or a process deletes `processing` having dealt with
it.
-/

namespace FileTracker
namespace System

open Runs LastWriter Consumer

/-! ## The store -/

/-- The group and the cluster, which share the hash. -/
structure Store (ι κ P : Type) where
  group : Group ι P
  cluster : Backup.Cluster κ
  shared : group.pending = cluster.pending

/-- A step of the consumers, or of the backups. -/
inductive StoreLabel (ι κ P : Type) where
  | consumer (l : GroupLabel ι P)
  | backup (l : Backup.ClusterLabel κ)

/-- What the store is set up with: what `repr` makes of a float, the logs of the
partitions and how they are handed out, and the backup processes. -/
structure Deployment (ι κ P : Type) where
  floatRepr : Text → Text
  logs : P → ℕ → Option Bytes
  feed : ι → ℕ → P × ℕ
  program : κ → Backup.Program
  nodeId : κ → Text

section Steps

variable {ι κ P : Type} [DecidableEq ι] [DecidableEq κ] [DecidableEq P] (d : Deployment ι κ P)

/-- No consumer has run yet. -/
def Store.initial (cluster : Backup.Cluster κ) : Store ι κ P :=
  ⟨.initial cluster.pending, cluster, rfl⟩

def Store.step (s : Store ι κ P) : StoreLabel ι κ P → Option (Store ι κ P)
  | .consumer l =>
    (s.group.step d.floatRepr d.logs d.feed l).map fun group =>
      ⟨group, { s.cluster with pending := group.pending }, rfl⟩
  | .backup l =>
    (s.cluster.step d.program d.nodeId l).map fun cluster =>
      ⟨{ s.group with pending := cluster.pending }, cluster, rfl⟩

/-- The backups are in time, and the consumers' commits are safe. -/
def Orderly (s : Store ι κ P) : StoreLabel ι κ P → Prop
  | .consumer l => CommitSafe d.logs d.feed s.group l
  | .backup l => Backup.InTime s.cluster l

/-- The step takes the path out of `pending`, or deletes `processing` after its process has
dealt with the path. -/
def Clears (path : Text) (s : Store ι κ P) : StoreLabel ι κ P → Prop
  | .consumer l => lastValue (s.group.sent d.floatRepr l) path = some none
  | .backup l => Backup.TakesOut path s.cluster l

/-- To the backups a step of a consumer is a flush. -/
theorem cluster_of_step {d : Deployment ι κ P} {s t : Store ι κ P} {l : StoreLabel ι κ P}
    (hstep : s.step d l = some t) : ∃ m, s.cluster.step d.program d.nodeId m = some t.cluster ∧
      (Orderly d s l → Backup.InTime s.cluster m) ∧
        ∀ path, Backup.TakesOut path s.cluster m → Clears d path s l := by
  cases l with
  | consumer l =>
    obtain ⟨group, hgroup, rfl⟩ := Option.map_eq_some_iff.mp hstep
    refine ⟨.flush (s.group.sent d.floatRepr l), ?_, fun _ => trivial, fun path htakes => ?_⟩
    · have hpending : group.pending = run s.cluster.pending (s.group.sent d.floatRepr l) :=
        s.shared ▸ Group.pending_of_step hgroup
      simp only [Backup.Cluster.step, hpending]
    · obtain ⟨pre, post, hsent, -, hpost⟩ := htakes
      have hcmds : s.group.sent d.floatRepr l = pre ++ .del path :: post := hsent
      rw [Clears, hcmds]
      exact lastValue_of_del hpost
  | backup l =>
    obtain ⟨cluster, hcluster, rfl⟩ := Option.map_eq_some_iff.mp hstep
    exact ⟨l, hcluster, id, fun _ => id⟩

/-- The store as a cluster, in order. -/
theorem clusterSimulation : Simulation (Store.step d)
    (Backup.Cluster.step d.program d.nodeId) (Orderly d) Backup.InTime
    (fun s c => c = s.cluster) (fun _ => ([] : List Backup.Label)) (fun _ => []) where
  matched := by
    rintro s l t _ rfl hstep horderly
    obtain ⟨m, hm, htime, -⟩ := cluster_of_step hstep
    refine ⟨[m], t.cluster, by rw [exec_cons, hm]; rfl, ?_, rfl, rfl⟩
    exact fun _ _ => ⟨htime horderly, trivial⟩

/-- The same, followed with an eye on one path. -/
theorem clusterSimulation_keeping (path : Text) : Simulation (Store.step d)
    (Backup.Cluster.step d.program d.nodeId) (fun s l => Orderly d s l ∧ ¬ Clears d path s l)
    (fun c m => Backup.InTime c m ∧ ¬ Backup.TakesOut path c m)
    (fun s c => c = s.cluster) (fun _ => ([] : List Backup.Label)) (fun _ => []) where
  matched := by
    rintro s l t _ rfl hstep ⟨horderly, hclears⟩
    obtain ⟨m, hm, htime, htakes⟩ := cluster_of_step hstep
    refine ⟨[m], t.cluster, by rw [exec_cons, hm]; rfl, ?_, rfl, rfl⟩
    exact fun _ _ => ⟨⟨htime horderly, fun h => hclears (htakes path h)⟩, trivial⟩

variable {d}

/-- **One step** of the store keeps the invariant of the group. -/
theorem groupInv_of_step {s t : Store ι κ P} {l : StoreLabel ι κ P}
    (h : GroupInv d.logs d.feed s.group) (hstep : s.step d l = some t) (horderly : Orderly d s l) :
    GroupInv d.logs d.feed t.group := by
  cases l with
  | consumer l =>
    obtain ⟨group, hgroup, rfl⟩ := Option.map_eq_some_iff.mp hstep
    exact h.step hgroup horderly
  | backup l =>
    obtain ⟨cluster, hcluster, rfl⟩ := Option.map_eq_some_iff.mp hstep
    exact ⟨h.member, h.handed, h.delivered, h.fresh, h.gone⟩

/-- A path that is in `pending` stays in the hashes until a step clears it. -/
theorem mem_hashes_of_exec {s t : Store ι κ P} {labels : List (StoreLabel ι κ P)} {path : Text}
    {a : Backup.State} (hagrees : Backup.Agrees d.program s.cluster a) (hinv : Backup.RunInv a)
    (hrun : exec (Store.step d) s labels = some t)
    (horderly : Guarded (Store.step d) (Orderly d) s labels)
    (hkeep : Guarded (Store.step d) (fun s l => ¬ Clears d path s l) s labels)
    (hpath : path ∈ s.cluster.pending) :
    path ∈ t.cluster.pending ∨ path ∈ t.cluster.processing := by
  have hkept : Backup.RunInv a ∧ Backup.Kept path a := ⟨hinv, Or.inl (hagrees.pending ▸ hpath)⟩
  obtain ⟨b, ⟨c, rfl, hb⟩, -, hkept⟩ := ((clusterSimulation_keeping d path).trans
    (Backup.simulation_keeping d.program d.nodeId path).blind).invariant
      (P := fun a => Backup.RunInv a ∧ Backup.Kept path a)
      (fun a m b h hstep hgo => ⟨h.1.step hstep,
        h.2.step h.1 hstep (fun hr => hgo (Or.inl hr)) fun hd => hgo (Or.inr hd)⟩)
      ⟨s.cluster, rfl, hagrees⟩ hkept hrun (horderly.and hkeep)
  exact hkept.imp (fun hp => hb.pending ▸ hp) fun hp => hb.processing ▸ hp.1

/-- What the backups have established at the end of an orderly run. -/
theorem runInv_of_orderly {cluster : Backup.Cluster κ} {labels : List (StoreLabel ι κ P)}
    {t : Store ι κ P} (hrest : cluster.AtRest)
    (hrun : exec (Store.step d) (.initial cluster) labels = some t)
    (horderly : Guarded (Store.step d) (Orderly d) (.initial cluster) labels) :
    ∃ a, Backup.Agrees d.program t.cluster a ∧ Backup.RunInv a := by
  obtain ⟨a, ⟨c, rfl, ha⟩, hinv⟩ := ((clusterSimulation d).trans
    (Backup.simulation d.program d.nodeId).blind).invariant (P := Backup.RunInv)
      (fun a m b h hstep _ => h.step hstep) ⟨_, rfl, .initial hrest⟩ trivial hrun horderly
  exact ⟨a, ha, hinv⟩

/-- A flush of the run has sent what the message at the offset sets the path to, and
unless this flush or a later step clears the path, it is in one of the hashes. -/
def KeptSince (d : Deployment ι κ P) (start t : Store ι κ P) (labels : List (StoreLabel ι κ P))
    (p : P) (offset : ℕ) (path v : Text) : Prop :=
  ∃ before i n reply after s,
    labels = before ++ .consumer (.call i (.flush reply)) :: after ∧
    exec (Store.step d) start before = some s ∧
    d.feed i n = (p, offset) ∧ n ∈ (s.group.member i).tagged.map Prod.fst ∧
    .set path v ∈ s.group.sent d.floatRepr (.call i (.flush reply)) ∧
    (Guarded (Store.step d) (fun s l => ¬ Clears d path s l) s
        (.consumer (.call i (.flush reply)) :: after) →
      path ∈ t.cluster.pending ∨ path ∈ t.cluster.processing)

theorem groupInv_of_orderly {cluster : Backup.Cluster κ} {labels : List (StoreLabel ι κ P)}
    {t : Store ι κ P} (hrun : exec (Store.step d) (.initial cluster) labels = some t)
    (horderly : Guarded (Store.step d) (Orderly d) (.initial cluster) labels) :
    GroupInv d.logs d.feed t.group :=
  exec_of_guarded (P := fun s => GroupInv d.logs d.feed s.group)
    (fun _ _ _ h hstep hG => groupInv_of_step h hstep hG) (.initial cluster.pending) horderly hrun

/-- What a message below a committed offset sets, an executed action has set. -/
theorem executed_of_committed {cluster : Backup.Cluster κ} {labels : List (StoreLabel ι κ P)}
    {t : Store ι κ P} (hrun : exec (Store.step d) (.initial cluster) labels = some t)
    (horderly : Guarded (Store.step d) (Orderly d) (.initial cluster) labels) {p : P} {offset : ℕ}
    (hcommitted : offset < t.group.committed p) {m : AgentMsg}
    (hm : wellFormed (d.logs p offset) = some m) {path v : Text} (hset : .set path v ∈ m.commands) :
    ∃ i n a, d.feed i n = (p, offset) ∧ (n, a) ∈ (t.group.member i).executed ∧
      rawCommand (.set path v) ∈ a.commands := by
  obtain ⟨a, ha, hcommand⟩ := exists_action_of_command hset
  obtain ⟨i, n, hfeed, hexecuted⟩ :=
    (groupInv_of_orderly hrun horderly).delivered p offset hcommitted m hm a ha
  exact ⟨i, n, a, hfeed, hexecuted, hcommand⟩

/-- What an executed action has set is kept since. -/
theorem keptSince_of_executed {cluster : Backup.Cluster κ} {labels : List (StoreLabel ι κ P)}
    {t : Store ι κ P} (hrest : cluster.AtRest)
    (hrun : exec (Store.step d) (.initial cluster) labels = some t)
    (horderly : Guarded (Store.step d) (Orderly d) (.initial cluster) labels) {i : ι} {n : ℕ}
    {a : Action} (hexecuted : (n, a) ∈ (t.group.member i).executed) {path v : Text}
    (hcommand : rawCommand (.set path v) ∈ a.commands) :
    KeptSince d (.initial cluster) t labels (d.feed i n).1 (d.feed i n).2 path v := by
  -- the step that has executed the message's action
  obtain ⟨before, l, after, s, u, rfl, hs, hu, hafter, hold, hnew⟩ :=
    exists_turn (P := fun s => (n, a) ∈ (s.group.member i).executed) hrun
      (by simp [Store.initial, Group.initial, Main.initial]) hexecuted
  obtain ⟨hbefore, hbehind⟩ := (guarded_append _ _ _).mp horderly
  have hinv := groupInv_of_orderly hs hbefore
  cases l with
  | backup l =>
    obtain ⟨c, -, rfl⟩ := Option.map_eq_some_iff.mp hu
    exact absurd hnew hold
  | consumer l =>
    have hu' := hu
    obtain ⟨group, hgroup, rfl⟩ := Option.map_eq_some_iff.mp hu
    have htags : s.group.TagsMatch := fun i => (hinv.member i).accounted.batch_eq
    obtain ⟨reply, rfl, htagged, hsends⟩ := Group.flush_of_executed htags hgroup hnew hold
    have hsent := hsends _ hcommand
    refine ⟨before, i, n, reply, after, s, rfl, hs, rfl,
      List.mem_map_of_mem (f := Prod.fst) htagged, hsent, fun hguard => ?_⟩
    obtain ⟨hclears, hguard⟩ := hguard _ hu'
    obtain ⟨hnow, hlater⟩ := hbehind s hs _ hu'
    have hrun' : exec (Store.step d) (.initial cluster)
        (before ++ [.consumer (.call i (.flush reply))]) = some ⟨group,
          { s.cluster with pending := group.pending }, rfl⟩ := by
      rw [exec_append, hs, Option.bind_some, exec_cons, hu']
      rfl
    obtain ⟨b, hb, hrunInv⟩ := runInv_of_orderly hrest hrun' ((guarded_append _ _ _).mpr
      ⟨hbefore, fun w hw v _ => by
        obtain rfl := Option.some.inj (hs.symm.trans hw)
        exact ⟨hnow, trivial⟩⟩)
    refine mem_hashes_of_exec hb hrunInv hafter hlater hguard ?_
    have hpending : path ∈ run s.group.pending (s.group.sent d.floatRepr _) :=
      mem_run_of_set hsent hclears
    rwa [← Group.pending_of_step hgroup] at hpending

/-- **What is committed is kept.**  Consumers and backups are at work on one Redis, in any
order.  When a message below a committed offset sets a path, some flush of the run has sent
that, and unless this flush or a later step clears the path, it is in one of the hashes at
the end. -/
theorem kept_of_committed {cluster : Backup.Cluster κ} {labels : List (StoreLabel ι κ P)}
    {t : Store ι κ P} (hrest : cluster.AtRest)
    (hrun : exec (Store.step d) (.initial cluster) labels = some t)
    (horderly : Guarded (Store.step d) (Orderly d) (.initial cluster) labels) :
    ∀ p, ∀ offset < t.group.committed p, ∀ m, wellFormed (d.logs p offset) = some m →
      ∀ path v, .set path v ∈ m.commands →
        KeptSince d (.initial cluster) t labels p offset path v := by
  intro p offset hcommitted m hm path v hset
  obtain ⟨i, n, a, hfeed, hexecuted, hcommand⟩ :=
    executed_of_committed hrun horderly hcommitted hm hset
  have hkept := keptSince_of_executed hrest hrun horderly hexecuted hcommand
  rwa [hfeed] at hkept

/-! ## An orderly run -/

/-- Redis takes every batch, and the backups are in time. -/
def Prompt (d : Deployment ι κ P) (s : Store ι κ P) : StoreLabel ι κ P → Prop
  | .consumer l => FlushesSucceed d.floatRepr s.group l
  | .backup l => Backup.InTime s.cluster l

instance (s : Store ι κ P) : DecidablePred (Prompt d s)
  | .consumer l => inferInstanceAs (Decidable (FlushesSucceed d.floatRepr s.group l))
  | .backup l => inferInstanceAs (Decidable (Backup.InTime s.cluster l))

theorem orderly_of_prompt {cluster : Backup.Cluster κ} {labels : List (StoreLabel ι κ P)}
    (h : Guarded (Store.step d) (Prompt d) (.initial cluster) labels) :
    Guarded (Store.step d) (Orderly d) (.initial cluster) labels := by
  refine h.imp_of_invariant (I := fun s => ∀ i, (s.group.member i).Clean)
    (fun s l t hclean hstep hprompt => ?_) (fun s l hclean hprompt => ?_)
    (clean_initial cluster.pending)
  · cases l with
    | consumer l =>
      obtain ⟨group, hgroup, rfl⟩ := Option.map_eq_some_iff.mp hstep
      exact clean_of_step hclean hgroup hprompt
    | backup l =>
      obtain ⟨c, -, rfl⟩ := Option.map_eq_some_iff.mp hstep
      exact hclean
  · cases l with
    | consumer l => exact commitSafe_of_clean hclean l
    | backup l => exact hprompt

end Steps

def oneRedis : Deployment ℕ ℕ ℕ :=
  ⟨id, fun _ => twoChanges, fun _ n => (0, n), fun _ => .backup, fun _ => []⟩

/-- A change is flushed, and a backup swaps it out before the consumer has committed; then
the backup process dies. -/
def swappedOut : List (StoreLabel ℕ ℕ ℕ) :=
  [.consumer (.start 0 0 0), .consumer (.assign 0 0),
    .consumer (.call 0 (.poll (.message 0) 1000000000)),
    .consumer (.call 0 (.poll .none 6000000000)), .consumer (.call 0 (.flush .ok)),
    .backup (.acquire 0), .backup (.run 0 (.start Backup.homeConfig)), .backup (.run 0 .exists),
    .backup (.run 0 .rename), .consumer (.call 0 (.commit true 6000000000)),
    .backup (.crash 0 false)]

theorem kept_of_committed_swappedOut :
    ∃ t, exec (Store.step oneRedis) (.initial .initial) swappedOut = some t ∧
      KeptSince oneRedis (.initial .initial) t swappedOut 0 0 (text "/home/a")
        (text "mtime_change") := by
  have hrun : ((exec (Store.step oneRedis) (.initial .initial) swappedOut).map
      fun t => t.group.committed 0) = some 1 := by
    decide +kernel
  obtain ⟨t, ht, hcommitted⟩ := Option.map_eq_some_iff.mp hrun
  have hwell : wellFormed (oneRedis.logs 0 0) = some (.mtimeChange (text "/home/a")) := by
    decide +kernel
  exact ⟨t, ht, kept_of_committed ⟨rfl, fun _ => rfl, fun _ => rfl⟩ ht
    (orderly_of_prompt (by decide +kernel)) 0 0 (by omega) _ hwell _ _
    (List.mem_singleton_self _)⟩

end System
end FileTracker
