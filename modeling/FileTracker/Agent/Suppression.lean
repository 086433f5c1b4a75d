import FileTracker.Agent.Dedup

/-!
# What a suppressed write relies on

`dedup_check` enters the time of a write into its map before `emit_event` has walked the
path and `bpf_ringbuf_output` has been tried, and the entry stays when the record does
not make it into the ring buffer.  A later write of the same inode is then suppressed
although nothing was reported.

`backed_iff_covered` says exactly when every suppression is backed by a record that was
output less than `DEDUP_INTERVAL_NS` before: whenever a write passes the check and its
record is not output, the writes that its entry goes on to suppress find an older record
of the inode that is recent enough, which takes an eviction in between.
-/

namespace FileTracker
namespace Agent

open Runs LastWriter

/-! ## The kernel's side alone -/

/-- A record in the ring buffer, with the inode and the time of the write. -/
structure Output where
  ino : UInt64
  time : UInt64
  record : FileEvent

/-- The entry into a probe: the file, its inode, the time, and whether a
`bpf_ringbuf_output` would succeed. -/
structure Probe where
  file : Dentry
  ino : UInt64
  now : UInt64
  outputOk : Bool

/-- The probes with a check, and an eviction from the map. -/
inductive KernelOp where
  | vfsWrite (p : Probe)
  | doTruncate (p : Probe)
  | evict (ino : UInt64)

def KernelOp.probe : KernelOp → Option Probe
  | .vfsWrite p => some p
  | .doTruncate p => some p
  | .evict _ => none

/-- The map, the clock, and the records output so far. -/
structure Kernel where
  dedup : DedupMap
  clock : UInt64
  outputs : List Output

def Kernel.init (clock : UInt64) : Kernel := ⟨∅, clock, []⟩

/-- What `dedup_check` returns. -/
def Kernel.suppresses (s : Kernel) (p : Probe) : Bool := (dedupCheck s.dedup p.ino p.now).1

/-- The records of a probe, as far as they are output. -/
def Probe.output (p : Probe) (records : List FileEvent) : List Output :=
  if p.outputOk then records.map fun record => ⟨p.ino, p.now, record⟩ else []

/-- A probe that reports `records`. -/
def Kernel.enter (s : Kernel) (p : Probe) (records : List FileEvent) : Option Kernel :=
  if s.clock ≤ p.now then
    some ⟨(dedupCheck s.dedup p.ino p.now).2, p.now, s.outputs ++ p.output records⟩
  else none

def Kernel.step (s : Kernel) : KernelOp → Option Kernel
  | .vfsWrite p => s.enter p (traceVfsWrite (s.suppresses p) p.file)
  | .doTruncate p => s.enter p (traceDoTruncate (s.suppresses p) p.file)
  | .evict ino => some { s with dedup := s.dedup.erase ino }

/-- A run of the probes at nondecreasing times. -/
structure KernelRun where
  clock : UInt64
  ops : List KernelOp
  final : Kernel
  exec_eq : exec Kernel.step (.init clock) ops = some final

/-! ## What is claimed -/

/-- The time is less than `DEDUP_INTERVAL_NS` behind the other one. -/
def Within (time now : UInt64) : Prop := now.toNat < time.toNat + DEDUP_INTERVAL_NS.toNat

/-- An mtime record of the inode was output less than `DEDUP_INTERVAL_NS` before. -/
def Kernel.Recent (s : Kernel) (ino now : UInt64) : Prop :=
  ∃ o ∈ s.outputs, o.ino = ino ∧ o.record.eventType = .mtime ∧ Within o.time now

/-- Every suppression is backed by a record. -/
def KernelRun.Backed (r : KernelRun) : Prop :=
  ∀ before op after p s, r.ops = before ++ op :: after → op.probe = some p →
    exec Kernel.step (.init r.clock) before = some s → s.suppresses p = true →
      s.Recent p.ino p.now

/-- The records that a probe outputs when it passes the check. -/
def Probe.sent (p : Probe) : List Output := p.output (emitEvent p.file .mtime).toList

/-- Where a write passes the check and no record of it is output, a later write of the
inode, with no eviction of its entry in between and less than `DEDUP_INTERVAL_NS` later,
comes soon enough after a record that was output before the first one. -/
def KernelRun.Covered (r : KernelRun) : Prop :=
  ∀ before op mid later after p q s, r.ops = before ++ op :: (mid ++ later :: after) →
    op.probe = some p → later.probe = some q →
    exec Kernel.step (.init r.clock) before = some s → s.suppresses p = false → p.sent = [] →
    q.ino = p.ino → .evict p.ino ∉ mid → Within p.now q.now → s.Recent p.ino q.now

/-! ## One step -/

theorem mem_output_iff {p : Probe} {records : List FileEvent} {o : Output} :
    o ∈ p.output records ↔ p.outputOk = true ∧ ∃ record ∈ records, o = ⟨p.ino, p.now, record⟩ := by
  unfold Probe.output
  split_ifs with hok
  · simp only [List.mem_map, hok, true_and, eq_comm]
  · simp [hok]

/-- What a write sends is an mtime record of its inode and time. -/
theorem of_mem_sent {p : Probe} {o : Output} (h : o ∈ p.sent) :
    o.ino = p.ino ∧ o.time = p.now ∧ o.record.eventType = .mtime := by
  obtain ⟨-, record, hrecord, rfl⟩ := mem_output_iff.mp h
  refine ⟨rfl, rfl, ?_⟩
  simp only [emitEvent] at hrecord
  split_ifs at hrecord
  · cases hrecord
  · obtain rfl := List.mem_singleton.mp hrecord
    rfl

/-- What a step does. -/
inductive KernelMoves (s : Kernel) (op : KernelOp) : Kernel → Prop
  | suppressed (p : Probe) : op.probe = some p → s.clock ≤ p.now → s.suppresses p = true →
      KernelMoves s op { s with clock := p.now }
  | passed (p : Probe) : op.probe = some p → s.clock ≤ p.now → s.suppresses p = false →
      KernelMoves s op ⟨s.dedup.insert p.ino p.now, p.now, s.outputs ++ p.sent⟩
  | evicted (ino : UInt64) : op = .evict ino → KernelMoves s op { s with dedup := s.dedup.erase ino }

/-- The map behind the check. -/
theorem dedupCheck_eq (dedup : DedupMap) (ino now : UInt64) :
    (dedupCheck dedup ino now).2 =
      if (dedupCheck dedup ino now).1 then dedup else dedup.insert ino now := by
  unfold dedupCheck
  split
  · split <;> rfl
  · rfl

theorem kernelMoves_of_enter {s t : Kernel} {op : KernelOp} {p : Probe} {records : List FileEvent}
    (hprobe : op.probe = some p)
    (hrecords : records = if s.suppresses p then [] else (emitEvent p.file .mtime).toList)
    (h : s.enter p records = some t) : KernelMoves s op t := by
  unfold Kernel.enter at h
  split_ifs at h with hclock
  obtain rfl := Option.some.inj h
  rw [dedupCheck_eq, hrecords]
  cases hsup : s.suppresses p with
  | true =>
    have hcheck : (dedupCheck s.dedup p.ino p.now).1 = true := hsup
    have hnone : p.output [] = [] := by simp [Probe.output]
    rw [if_pos hcheck, if_pos rfl, hnone, List.append_nil]
    exact .suppressed p hprobe hclock hsup
  | false =>
    have hcheck : ¬ (dedupCheck s.dedup p.ino p.now).1 = true := by
      rw [show (dedupCheck s.dedup p.ino p.now).1 = false from hsup]
      exact Bool.false_ne_true
    rw [if_neg hcheck, if_neg Bool.false_ne_true]
    exact .passed p hprobe hclock hsup

theorem kernelMoves_of_step {s t : Kernel} {op : KernelOp} (h : s.step op = some t) :
    KernelMoves s op t := by
  cases op with
  | vfsWrite p => exact kernelMoves_of_enter rfl rfl h
  | doTruncate p => exact kernelMoves_of_enter rfl rfl h
  | evict ino =>
    obtain rfl := Option.some.inj h
    exact .evicted ino rfl

/-! ## The check -/

/-- The entries lie in the past. -/
def Kernel.Past (s : Kernel) : Prop :=
  ∀ ino last, s.dedup.lookup ino = some last → last ≤ s.clock

theorem within_iff {last now : UInt64} (h : last ≤ now) :
    Within last now ↔ now - last < DEDUP_INTERVAL_NS := by
  rw [Within, UInt64.lt_iff_toNat_lt, UInt64.toNat_sub_of_le _ _ h]
  have hle := UInt64.le_iff_toNat_le.mp h
  omega

/-- **What the check does**: it suppresses a write within the interval behind its entry. -/
theorem Kernel.Past.suppresses_iff {s : Kernel} (h : s.Past) {p : Probe} (hclock : s.clock ≤ p.now) :
    s.suppresses p = true ↔ ∃ last, s.dedup.lookup p.ino = some last ∧ Within last p.now := by
  unfold Kernel.suppresses dedupCheck
  cases hlast : s.dedup.lookup p.ino with
  | none => simp
  | some last =>
    have hle : last ≤ p.now := UInt64.le_trans (h _ _ hlast) hclock
    simp only [Option.some.injEq, exists_eq_left', within_iff hle]
    split_ifs with hlt <;> simp [hlt]

theorem Kernel.Past.init (clock : UInt64) : (Kernel.init clock).Past := by
  intro ino last h
  rw [Kernel.init, Finmap.lookup_empty] at h
  cases h

theorem Kernel.Past.step {s t : Kernel} {op : KernelOp} (h : s.Past) (hstep : s.step op = some t) :
    t.Past := by
  intro ino last hlast
  cases kernelMoves_of_step hstep with
  | suppressed p hprobe hclock hsup => exact UInt64.le_trans (h ino last hlast) hclock
  | passed p hprobe hclock hsup =>
    by_cases hino : ino = p.ino
    · subst hino
      rw [Finmap.lookup_insert] at hlast
      obtain rfl := Option.some.inj hlast
      exact UInt64.le_refl _
    · rw [Finmap.lookup_insert_of_ne _ hino] at hlast
      exact UInt64.le_trans (h ino last hlast) hclock
  | evicted j hop =>
    by_cases hino : ino = j
    · subst hino
      rw [Finmap.lookup_erase] at hlast
      cases hlast
    · rw [Finmap.lookup_erase_ne hino] at hlast
      exact h ino last hlast

theorem Kernel.Past.exec {s t : Kernel} {ops : List KernelOp} (h : s.Past)
    (hexec : Runs.exec Kernel.step s ops = some t) : t.Past :=
  exec_invariant (fun _ _ _ _ h hstep => h.step hstep) h hexec

/-! ## Where an entry comes from -/

/-- The run holds a write of the inode that passed the check, and no eviction of the inode
behind it. -/
def Entered (start : Kernel) (ops : List KernelOp) (ino last : UInt64) : Prop :=
  ∃ before op mid p s, ops = before ++ op :: mid ∧ op.probe = some p ∧
    exec Kernel.step start before = some s ∧ s.suppresses p = false ∧ p.ino = ino ∧ p.now = last ∧
    .evict ino ∉ mid

theorem Entered.concat {start : Kernel} {ops : List KernelOp} {op : KernelOp} {ino last : UInt64}
    (h : Entered start ops ino last) (hop : op ≠ .evict ino) :
    Entered start (ops ++ [op]) ino last := by
  obtain ⟨before, first, mid, p, s, rfl, hprobe, hs, hpass, hino, hnow, hkept⟩ := h
  refine ⟨before, first, mid ++ [op], p, s, ?_, hprobe, hs, hpass, hino, hnow, fun hmem => ?_⟩
  · rw [List.append_assoc, List.cons_append]
  · rcases List.mem_append.mp hmem with hmem | hmem
    · exact hkept hmem
    · exact hop (List.mem_singleton.mp hmem).symm

/-- **Where an entry comes from**: a write that passed the check, not evicted since. -/
theorem entered_of_lookup {clock ino last : UInt64} {ops : List KernelOp} {t : Kernel}
    (h : exec Kernel.step (.init clock) ops = some t) (hlast : t.dedup.lookup ino = some last) :
    Entered (.init clock) ops ino last := by
  induction ops using List.reverseRecOn generalizing t with
  | nil =>
    obtain rfl := Option.some.inj h
    rw [Kernel.init, Finmap.lookup_empty] at hlast
    cases hlast
  | append_singleton ops op ih =>
    rw [exec_append] at h
    obtain ⟨s, hs, hone⟩ := Option.bind_eq_some_iff.mp h
    rw [exec_cons] at hone
    obtain ⟨u, hstep, hu⟩ := Option.bind_eq_some_iff.mp hone
    obtain rfl := Option.some.inj hu
    cases kernelMoves_of_step hstep with
    | suppressed p hprobe hclock hsup =>
      refine (ih hs hlast).concat ?_
      rintro rfl
      cases hprobe
    | passed p hprobe hclock hsup =>
      by_cases hino : ino = p.ino
      · subst hino
        rw [Finmap.lookup_insert] at hlast
        exact ⟨ops, op, [], p, s, rfl, hprobe, hs, hsup, rfl, Option.some.inj hlast,
          List.not_mem_nil⟩
      · rw [Finmap.lookup_insert_of_ne _ hino] at hlast
        refine (ih hs hlast).concat ?_
        rintro rfl
        cases hprobe
    | evicted j hop =>
      by_cases hino : ino = j
      · subst hino
        rw [Finmap.lookup_erase] at hlast
        cases hlast
      · rw [Finmap.lookup_erase_ne hino] at hlast
        refine (ih hs hlast).concat fun heq => hino ?_
        rw [hop] at heq
        exact (KernelOp.evict.inj heq).symm

/-! ## What an entry suppresses -/

theorem clock_le_of_step {s t : Kernel} {op : KernelOp} (h : s.step op = some t) :
    s.clock ≤ t.clock := by
  cases kernelMoves_of_step h with
  | suppressed p _ hclock _ => exact hclock
  | passed p _ hclock _ => exact hclock
  | evicted j _ => exact UInt64.le_refl _

theorem clock_le_of_exec {s t : Kernel} {ops : List KernelOp}
    (h : exec Kernel.step s ops = some t) : s.clock ≤ t.clock :=
  exec_invariant (P := fun u => s.clock ≤ u.clock)
    (fun _ _ _ _ hle hstep => UInt64.le_trans hle (clock_le_of_step hstep)) (UInt64.le_refl _) h

/-- Outputs are never taken back. -/
theorem mem_outputs_of_exec {s t : Kernel} {ops : List KernelOp} {o : Output}
    (h : exec Kernel.step s ops = some t) (ho : o ∈ s.outputs) : o ∈ t.outputs := by
  refine exec_invariant (P := fun u => o ∈ u.outputs) (fun u v op _ hu hstep => ?_) ho h
  cases kernelMoves_of_step hstep with
  | suppressed p _ _ _ => exact hu
  | passed p _ _ _ => exact List.mem_append_left _ hu
  | evicted j _ => exact hu

theorem Within.of_le {last now time : UInt64} (h : Within last time) (hle : now ≤ time) :
    Within last now :=
  Nat.lt_of_le_of_lt (UInt64.le_iff_toNat_le.mp hle) h

/-- **What an entry does** until it is evicted or the interval is over: it stays, and no
record of its inode is output. -/
theorem held_of_exec {s t : Kernel} {ops : List KernelOp} {ino last : UInt64} (hpast : s.Past)
    (hlast : s.dedup.lookup ino = some last) (hkept : .evict ino ∉ ops)
    (h : exec Kernel.step s ops = some t) (hwithin : Within last t.clock) :
    t.dedup.lookup ino = some last ∧ ∀ o ∈ t.outputs, o.ino = ino → o ∈ s.outputs := by
  induction ops generalizing s with
  | nil =>
    obtain rfl := Option.some.inj h
    exact ⟨hlast, fun o ho _ => ho⟩
  | cons op ops ih =>
    rw [exec_cons] at h
    obtain ⟨u, hstep, hrest⟩ := Option.bind_eq_some_iff.mp h
    have hkept' : .evict ino ∉ ops := fun hmem => hkept (List.mem_cons_of_mem _ hmem)
    have hu : u.dedup.lookup ino = some last ∧ ∀ o ∈ u.outputs, o.ino = ino → o ∈ s.outputs := by
      have hsoon := hwithin.of_le (clock_le_of_exec hrest)
      cases kernelMoves_of_step hstep with
      | suppressed p hprobe hclock hsup => exact ⟨hlast, fun o ho _ => ho⟩
      | passed p hprobe hclock hsup =>
        have hne : ino ≠ p.ino := by
          rintro rfl
          rw [(hpast.suppresses_iff hclock).mpr ⟨last, hlast, hsoon⟩] at hsup
          cases hsup
        refine ⟨by rwa [Finmap.lookup_insert_of_ne _ hne], fun o ho hino => ?_⟩
        rcases List.mem_append.mp ho with ho | ho
        · exact ho
        · exact absurd (hino.symm.trans (of_mem_sent ho).1) hne
      | evicted j hop =>
        have hne : ino ≠ j := by
          rintro rfl
          exact hkept (hop ▸ List.mem_cons_self)
        exact ⟨by rwa [Finmap.lookup_erase_ne hne], fun o ho _ => ho⟩
    obtain ⟨hfinal, houtputs⟩ := ih (hpast.step hstep) hu.1 hkept' hrest
    exact ⟨hfinal, fun o ho hino => hu.2 o (houtputs o ho hino) hino⟩

theorem Kernel.Recent.of_exec {s t : Kernel} {ops : List KernelOp} {ino now : UInt64}
    (h : s.Recent ino now) (hexec : Runs.exec Kernel.step s ops = some t) : t.Recent ino now := by
  obtain ⟨o, ho, hrest⟩ := h
  exact ⟨o, mem_outputs_of_exec hexec ho, hrest⟩

/-- A write comes no earlier than what was before it. -/
theorem clock_le_now {s t : Kernel} {op : KernelOp} {p : Probe} (hprobe : op.probe = some p)
    (h : s.step op = some t) : s.clock ≤ p.now := by
  cases kernelMoves_of_step h with
  | suppressed q hq hclock _ =>
    obtain rfl := Option.some.inj (hprobe.symm.trans hq)
    exact hclock
  | passed q hq hclock _ =>
    obtain rfl := Option.some.inj (hprobe.symm.trans hq)
    exact hclock
  | evicted j hop =>
    rw [hop] at hprobe
    cases hprobe

/-- What is behind a write that passed the check. -/
theorem step_of_passed {s t : Kernel} {op : KernelOp} {p : Probe} (hprobe : op.probe = some p)
    (hpass : s.suppresses p = false) (h : s.step op = some t) :
    t = ⟨s.dedup.insert p.ino p.now, p.now, s.outputs ++ p.sent⟩ := by
  cases kernelMoves_of_step h with
  | suppressed q hq _ hsup =>
    obtain rfl := Option.some.inj (hprobe.symm.trans hq)
    rw [hpass] at hsup
    cases hsup
  | passed q hq _ _ =>
    obtain rfl := Option.some.inj (hprobe.symm.trans hq)
    rfl
  | evicted j hop =>
    rw [hop] at hprobe
    cases hprobe

/-- A suppression is backed when the write whose entry suppresses it is covered. -/
theorem KernelRun.Covered.backed {r : KernelRun} (h : r.Covered) : r.Backed := by
  intro before later after q s hops hlater hs hsup
  have hclock : s.clock ≤ q.now := by
    have hexec := r.exec_eq
    rw [hops, exec_append, hs, Option.bind_some, exec_cons] at hexec
    obtain ⟨u, hstep, -⟩ := Option.bind_eq_some_iff.mp hexec
    exact clock_le_now hlater hstep
  obtain ⟨last, hlast, hwithin⟩ := (((Kernel.Past.init _).exec hs).suppresses_iff hclock).mp hsup
  obtain ⟨first, op, mid, p, u, rfl, hprobe, hu, hpass, hino, hnow, hkept⟩ :=
    entered_of_lookup hs hlast
  have hsplit : r.ops = first ++ op :: (mid ++ later :: after) := by
    rw [hops, List.append_assoc, List.cons_append]
  by_cases hsent : p.sent = []
  · -- the record of that write was not output: an older one must do
    rw [← hnow] at hwithin
    rw [← hino] at hkept ⊢
    have hrecent := h first op mid later after p q u hsplit hprobe hlater hu hpass hsent hino.symm
      hkept hwithin
    rw [exec_append, hu] at hs
    exact hrecent.of_exec hs
  · obtain ⟨o, ho⟩ := List.exists_mem_of_ne_nil _ hsent
    obtain ⟨hoino, hotime, hotype⟩ := of_mem_sent ho
    rw [exec_append, hu, Option.bind_some, exec_cons] at hs
    obtain ⟨v, hstep, hrest⟩ := Option.bind_eq_some_iff.mp hs
    refine ⟨o, mem_outputs_of_exec hrest ?_, hoino.trans hino, hotype, ?_⟩
    · rw [step_of_passed hprobe hpass hstep]
      exact List.mem_append_right _ ho
    · rwa [hotime, hnow]

/-- What an entry without a record suppresses has to be backed by an older one. -/
theorem KernelRun.Backed.covered {r : KernelRun} (h : r.Backed) : r.Covered := by
  intro before op mid later after p q s hops hprobe hlater hs hpass hsent hino hkept hwithin
  have hsplit : r.ops = (before ++ op :: mid) ++ later :: after := by
    rw [hops, List.append_assoc, List.cons_append]
  have hexec := r.exec_eq
  rw [hsplit, exec_append] at hexec
  obtain ⟨t, ht, hrest⟩ := Option.bind_eq_some_iff.mp hexec
  have hmid := ht
  rw [exec_append, hs, Option.bind_some, exec_cons] at hmid
  obtain ⟨v, hstep, hmid⟩ := Option.bind_eq_some_iff.mp hmid
  have hv := step_of_passed hprobe hpass hstep
  have hclock : t.clock ≤ q.now := by
    rw [exec_cons] at hrest
    obtain ⟨w, hlast, -⟩ := Option.bind_eq_some_iff.mp hrest
    exact clock_le_now hlater hlast
  have hpast := (Kernel.Past.init r.clock).exec hs
  have hentry : v.dedup.lookup p.ino = some p.now := by rw [hv, Finmap.lookup_insert]
  obtain ⟨hlast, houtputs⟩ := held_of_exec (hpast.step hstep) hentry hkept hmid
    (hwithin.of_le hclock)
  have hsup : t.suppresses q = true :=
    (((Kernel.Past.init _).exec ht).suppresses_iff hclock).mpr ⟨p.now, hino ▸ hlast, hwithin⟩
  obtain ⟨o, ho, hoino, hotype, hotime⟩ := h _ later after q t hsplit hlater ht hsup
  refine ⟨o, ?_, hoino.trans hino, hotype, hotime⟩
  have hmem := houtputs o ho (hoino.trans hino)
  rwa [hv, hsent, List.append_nil] at hmem

/-- **When every suppression is backed by a record**, for every run of the probes at
nondecreasing times, with any failed outputs and any evictions: exactly when every write
that passes the check without its record being output is covered by an older one. -/
theorem backed_iff_covered (r : KernelRun) : r.Backed ↔ r.Covered :=
  ⟨KernelRun.Backed.covered, KernelRun.Covered.backed⟩

/-- Where every record of a write that passes the check is output, there is nothing to
cover. -/
theorem covered_of_sent {r : KernelRun}
    (h : ∀ op ∈ r.ops, ∀ p, op.probe = some p → p.sent ≠ []) : r.Covered := by
  intro before op mid later after p q s hops hprobe _ _ _ hsent
  refine absurd hsent (h op ?_ p hprobe)
  rw [hops]
  exact List.mem_append_right _ List.mem_cons_self

/-- The ring buffer is full at the first write of a file, and there is room again half a
second later. -/
def fullRing : List KernelOp :=
  [.vfsWrite ⟨srvLog, 7, 1000000000, false⟩, .vfsWrite ⟨srvLog, 7, 1500000000, true⟩]

def fullRingRun : KernelRun where
  clock := 0
  ops := fullRing
  final := (exec Kernel.step (.init 0) fullRing).get (by decide +kernel)
  exec_eq := (Option.some_get _).symm

/-- The second write is suppressed, and no record of the file has been output. -/
theorem not_backed_fullRing : ¬ fullRingRun.Backed := by
  intro h
  obtain ⟨s, hs, hproj⟩ := Option.map_eq_some_iff.mp (show
    ((exec Kernel.step (.init 0) (fullRing.take 1)).map fun s =>
      (s.suppresses ⟨srvLog, 7, 1500000000, true⟩, s.outputs.isEmpty)) = some (true, true) by
        decide +kernel)
  obtain ⟨hsup, hempty⟩ := Prod.mk.inj hproj
  obtain ⟨o, ho, -⟩ := h (fullRing.take 1) (.vfsWrite ⟨srvLog, 7, 1500000000, true⟩) [] _ s rfl rfl
    hs hsup
  rw [List.isEmpty_iff.mp hempty] at ho
  cases ho

end Agent
end FileTracker
