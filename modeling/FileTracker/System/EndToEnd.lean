import FileTracker.Agent.Delivery
import FileTracker.System.Messages
import FileTracker.System.Store

/-!
# From the ring buffer to the hashes

An agent's life (`Agent.Process`) and a run of the store (`System.Store`), with Kafka in
between.  Of Kafka all that is used is what an acknowledgement means: the message is in the
log of a partition, at some offset.

`whereabouts_of_event` says where a change is that the agent's callback was called for, once
the agent has ended without a crash, having been able to write its log: its message is in
the agent's log, or was dropped with the log at its limit, or is in Kafka above the
committed offset, or its path is in one of the hashes, unless a later step has cleared it.
-/

namespace FileTracker
namespace System

open Runs Consumer

variable {ι κ P : Type} [DecidableEq ι] [DecidableEq κ] [DecidableEq P]

/-- The consumer's decoder takes the strings of the message, and its paths are not empty. -/
def Legible (hostname : Bytes) (ev : Agent.Emission) : Prop :=
  Readable hostname ∧ ∀ path ∈ paths ev, path ≠ [] ∧ Readable path

/-- Where a report is that an agent has sent, when the agent has come to `v` and the store
to `t`. -/
inductive Whereabouts (cfg : Agent.Config) (v : Agent.Main) (d : Deployment ι κ P)
    (start t : Store ι κ P) (labels : List (StoreLabel ι κ P)) (ev : Agent.Emission)
    (json : Bytes) : Prop where
  | logged (h : json ∈ v.logged)
  | dropped (size : ℕ) (h : (json, size) ∈ v.dropped) (hfull : cfg.walMaxBytes ≤ size)
  | queued (p : P) (offset : ℕ) (h : d.logs p offset = some json)
      (habove : t.group.committed p ≤ offset)
  | kept (p : P) (offset : ℕ) (h : d.logs p offset = some json)
      (hkept : Legible cfg.hostname ev → ∃ m, msg ev = some m ∧ ∀ path v,
        .set path v ∈ m.commands → KeptSince d start t labels p offset path v)

/-- **No change is lost on the way.**  An agent's callback is called for an event, and the
agent ends without a crash; what it has had acknowledged is in Kafka, where the consumers of
an orderly store read it.  For every call that `handle_event` makes for the event, a report is
sent, and the report is in the agent's log, or dropped with the log at its limit, or in Kafka
above the committed offset, or the consumers have flushed what it sets and the store has kept
that since. -/
theorem whereabouts_of_event {cfg : Agent.ProcessConfig} {records : List Agent.Record}
    {before after : List Agent.ProcessLabel} {u v : Agent.Process} {evt : Agent.FileEvent} {now : ℤ}
    (hbefore : exec (Agent.Process.step cfg) (.initial cfg records) before = some u)
    (hafter : exec (Agent.Process.step cfg) u (.input (.event evt now) :: after) = some v)
    (halive : ∀ l ∈ before ++ after, l.alive = true) (hend : v.main.pc = .exited)
    {d : Deployment ι κ P} (hkafka : ∀ json ∈ v.main.acked, ∃ p offset, d.logs p offset = some json)
    {cluster : Backup.Cluster κ} {labels : List (StoreLabel ι κ P)} {t : Store ι κ P}
    (hrest : cluster.AtRest) (hrun : exec (Store.step d) (.initial cluster) labels = some t)
    (horderly : Guarded (Store.step d) (Orderly d) (.initial cluster) labels) :
    ∀ c ∈ u.pipe.calls (.event evt now), ∃ tsMs ev, Agent.Answers c ev ∧
      Whereabouts cfg.toConfig v.main d (.initial cluster) t labels ev
        (ev.json tsMs cfg.hostname) := by
  intro c hc
  obtain ⟨tsMs, src, accepted, -, hanswers, hsent⟩ :=
    Agent.sent_of_event hbefore hafter halive hend hc
  refine ⟨tsMs, src.emission, hanswers, ?_⟩
  rcases Agent.keeps_of_event hbefore hafter halive hend hsent with
    hacked | hlogged | ⟨size, hdropped, hfull⟩
  · obtain ⟨p, offset, hlog⟩ := hkafka _ hacked
    by_cases hcommitted : offset < t.group.committed p
    · refine .kept p offset hlog fun ⟨hhost, hpaths⟩ => ?_
      obtain ⟨m, hm, hwell⟩ := wellFormed_json_of_readable tsMs hhost hpaths
      refine ⟨m, hm, fun path value hset => ?_⟩
      have hwell : wellFormed (d.logs p offset) = some m := hlog ▸ hwell
      obtain ⟨i, n, a, hfeed, hexecuted, hcommand⟩ :=
        executed_of_committed hrun horderly hcommitted hwell hset
      have hkept := keptSince_of_executed hrest hrun horderly hexecuted hcommand
      rwa [hfeed] at hkept
    · exact .queued p offset hlog (not_lt.mp hcommitted)
  · exact .logged hlogged
  · exact .dropped size hdropped hfull

/-- The file of `Agent.stoppedEarly` once more; this time its message arrives. -/
def delivered : List Agent.ProcessLabel :=
  [.input (.tick 2000000000 [ascii "/home/a.txt"]), .call (.proceed false) 0,
    .call (.proceed false) 2100000000, .call .stop 0, .input (.flushAll [ascii "/home/a.txt"]),
    .callback 1710000000000 Agent.oneWrite true, .call (.proceed false) 0,
    .call (.report (Agent.oneWrite.json Agent.oneNode 1710000000000) true) 0,
    .call (.proceed false) 0, .call (.proceed false) 0]

/-- The partition holds the message. -/
def oneMessage : Deployment ℕ ℕ ℕ :=
  { oneRedis with
    logs := fun _ offset =>
      if offset = 0 then some (Agent.oneWrite.json Agent.oneNode 1710000000000) else none }

theorem whereabouts_of_event_delivered :
    ∃ u v t, exec (Agent.Process.step Agent.oneNodeProcess) (.initial Agent.oneNodeProcess [])
        [.call .start 0, .call .read 1000000000] = some u ∧
      exec (Agent.Process.step Agent.oneNodeProcess) u
        (.input (.event Agent.oneWriteEvent 1500000000) :: delivered) = some v ∧
      exec (Store.step oneMessage) (.initial .initial) swappedOut = some t ∧
      u.pipe.calls (.event Agent.oneWriteEvent 1500000000) =
        [.onEvent (ascii "/home/a.txt") .mtime] ∧
      ∀ c ∈ u.pipe.calls (.event Agent.oneWriteEvent 1500000000), ∃ tsMs ev,
        Agent.Answers c ev ∧ Whereabouts Agent.oneNode v.main oneMessage (.initial .initial) t
          swappedOut ev (ev.json tsMs Agent.oneNode.hostname) := by
  have hagent : (((exec (Agent.Process.step Agent.oneNodeProcess)
      (.initial Agent.oneNodeProcess []) [.call .start 0, .call .read 1000000000]).bind fun u =>
        (exec (Agent.Process.step Agent.oneNodeProcess) u
          (.input (.event Agent.oneWriteEvent 1500000000) :: delivered)).map fun v =>
            (decide (u.pipe.calls (.event Agent.oneWriteEvent 1500000000) =
              [.onEvent (ascii "/home/a.txt") .mtime]), v.main.pc.serves, v.main.pc.over,
              decide (v.main.acked = {Agent.oneWrite.json Agent.oneNode 1710000000000})))) =
      some (true, false, true, true) := by
    decide +kernel
  have hstore : (exec (Store.step oneMessage) (.initial .initial) swappedOut).isSome := by
    decide +kernel
  obtain ⟨u, hu, hmap⟩ := Option.bind_eq_some_iff.mp hagent
  obtain ⟨v, hv, hproj⟩ := Option.map_eq_some_iff.mp hmap
  obtain ⟨hcalls, hproj⟩ := Prod.mk.inj hproj
  obtain ⟨hserves, hproj⟩ := Prod.mk.inj hproj
  obtain ⟨hover, hacked⟩ := Prod.mk.inj hproj
  obtain ⟨t, ht⟩ := Option.isSome_iff_exists.mp hstore
  have hend : v.main.pc = .exited := by
    cases hpc : v.main.pc <;> simp [hpc, Agent.Pc.serves, Agent.Pc.over] at hserves hover ⊢
  have hkafka : ∀ json ∈ v.main.acked, ∃ p offset, oneMessage.logs p offset = some json := by
    intro json hjson
    rw [of_decide_eq_true hacked, Multiset.mem_singleton] at hjson
    exact ⟨0, 0, by rw [hjson]; rfl⟩
  exact ⟨u, v, t, hu, hv, ht, of_decide_eq_true hcalls, whereabouts_of_event hu hv (by decide) hend
    hkafka ⟨rfl, fun _ => rfl, fun _ => rfl⟩ ht (orderly_of_prompt (by decide +kernel))⟩

end System
end FileTracker
