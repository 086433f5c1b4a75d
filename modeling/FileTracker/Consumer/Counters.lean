import FileTracker.Library.Runs
import FileTracker.Consumer.MainLoop

/-!
# What the counters say

The statistics of `EventProcessor` and the counters it exports, over a whole run of
`main` of `consumer/main.py`.  `Books` notes, next to the loop, what has become of each
message that `poll` has returned and of each batch that `flush_batch` has emptied.

`balanced_of_run` is the reconciliation.  A message has been parsed, or thrown away while
Redis was down, or has ended the process, or is in hand; only the parsed ones are counted,
as processed or as errors.  The actions of the parsed messages are, in their order, the
batches that have been flushed and the current one, none of which is longer than
`BATCH_SIZE`; a batch that failed is in `backup_events_redis_errors_total`.
-/

namespace FileTracker
namespace Consumer

open Runs PyJson

/-! ## The books -/

/-- The position the process has started from; the messages taken, parsed, thrown away,
and those that raised; the batches that were emptied, with what `flush_batch` returned;
and the counter `EVENTS_REDIS_ERRORS`. -/
structure Books where
  first : ℕ
  taken : List ℕ
  handled : List ℕ
  dropped : List ℕ
  raised : List ℕ
  batches : List (List Action × Bool)
  redisErrors : ℕ

def Books.blank (first : ℕ) : Books := ⟨first, [], [], [], [], [], 0⟩

/-- The message that `poll` returned. -/
def Polled.offsets : Polled → List ℕ
  | .message offset => [offset]
  | _ => []

section Steps

variable (floatRepr : Text → Text) (log : ℕ → Option Bytes)

/-- The iteration comes to `parse_event`, if there is a message. -/
def Books.parse (b : Books) (p : EventProcessor) : Polled → Books
  | .message offset =>
    match p.parseEvent (log offset) with
    | .ok _ => { b with handled := b.handled ++ [offset] }
    | .error _ => { b with raised := b.raised ++ [offset] }
  | _ => b

/-- `flush_batch` has returned and emptied the batch. -/
def Books.flushed (b : Books) (batch : List Action) (ok : Bool) : Books :=
  if batch = [] then b
  else { b with
    batches := b.batches ++ [(batch, ok)]
    redisErrors := b.redisErrors + if ok then 0 else batch.length }

/-- What a call of the loop adds. -/
def Books.enter (s : Main) (b : Books) : Label → Books
  | .poll msg _ =>
    let b := { b with taken := b.taken ++ msg.offsets }
    if s.redisDown then b else b.parse log s.processor msg
  | .ping ok =>
    match s.pc with
    | .ping msg _ =>
      if ok then b.parse log s.processor msg
      else { b with dropped := b.dropped ++ msg.offsets }
    | _ => b
  | .flush reply =>
    match (s.processor.flushBatch floatRepr reply s.pending).outcome with
    | .ok ok => b.flushed s.processor.batch ok
    | .error _ => b
  | .start _ _ => .blank s.committed
  | _ => b

/-- The loop and its books. -/
structure Audited where
  main : Main
  books : Books

def Audited.step (s : Audited) (l : Label) : Option Audited :=
  (s.main.step floatRepr log l).map fun t => ⟨t, s.books.enter floatRepr log s.main l⟩

end Steps

def Audited.initial (pending : Hash) : Audited := ⟨.initial pending, .blank 0⟩

/-! ## The balance -/

/-- A delete, of which only the number is kept. -/
def isDelete (v : Option Bytes) : Bool := wellFormed v == some .delete

/-- A change without a path, which is counted as processed and puts nothing into the
batch. -/
def isPathless : Option Bytes → Bool
  | none => false
  | some msgValue =>
    match jsonLoads msgValue with
    | .ok (.object ms) =>
      isStr (getOrNone ms (text "event")) (text "mtime_change") &&
        !truthy (getOrNone ms (text "path"))
    | _ => false

/-- What the books say of a processor, with the messages that are in hand. -/
structure Core (log : ℕ → Option Bytes) (position : ℕ) (p : EventProcessor) (b : Books)
    (inHand : List ℕ) : Prop where
  taken : b.taken = List.range' b.first b.taken.length
  position_eq : position = b.first + b.taken.length
  parted : b.taken.Perm (b.handled ++ b.dropped ++ b.raised ++ inHand)
  counted : p.processed + p.errors = b.handled.length
  deletes : p.skippedDelete = b.handled.countP fun offset => isDelete (log offset)
  processed : p.processed = p.skippedDelete +
    (b.handled.countP fun offset => isPathless (log offset)) +
      (b.handled.flatMap fun offset => valueActions (log offset)).length
  actions : (b.handled.flatMap fun offset => valueActions (log offset)) =
    b.batches.flatMap Prod.fst ++ p.batch
  full : ∀ x ∈ b.batches, x.1 ≠ [] ∧ x.1.length ≤ BATCH_SIZE
  redisErrors : b.redisErrors = ((b.batches.filter fun x => !x.2).flatMap Prod.fst).length

/-- The message that waits for the ping. -/
def Main.inHand (s : Main) : List ℕ :=
  match s.pc with
  | .ping msg _ => msg.offsets
  | _ => []

/-- The next progress line is due within a thousand messages. -/
def Main.Paced (s : Main) : Prop := s.processor.processed < s.lastLogCount + 1000

/-- What holds of the batch and of the progress line, call by call. -/
def Main.Placed (s : Main) : Prop :=
  match s.pc with
  | .flush (.timeout _) => s.processor.batch ≠ [] ∧ s.processor.batchSize < BATCH_SIZE ∧ s.Paced
  | .flush .size => s.processor.batchSize = BATCH_SIZE
  | .flush .final => s.processor.batch ≠ [] ∧ s.processor.batchSize ≤ BATCH_SIZE
  | .commit (.timeout _) => s.processor.batch = [] ∧ s.Paced
  | .commit _ => s.processor.batch = []
  | .exited => True
  | _ => s.processor.batchSize < BATCH_SIZE ∧ s.Paced

/-- The process is on its way out. -/
def Main.Leaving (s : Main) : Prop :=
  s.pc = .flush .final ∨ s.pc = .commit .final ∨ s.pc = .exited

/-- The books and the locals of a process. -/
structure Balanced (log : ℕ → Option Bytes) (s : Main) (b : Books) : Prop where
  core : s.pc ≠ .exited → Core log s.position s.processor b s.inHand
  placed : s.Placed
  raised : b.raised = [] ∨ b.raised.length = 1 ∧ s.Leaving

/-! ## One message -/

section Message

variable {floatRepr : Text → Text} {log : ℕ → Option Bytes}

/-- What `parse_event` does to the statistics and to the batch. -/
structure Counts (p q : EventProcessor) (v : Option Bytes) : Prop where
  batch : q.batch = p.batch ++ valueActions v
  one : q.processed + q.errors = p.processed + p.errors + 1
  deletes : q.skippedDelete = p.skippedDelete + (isDelete v).toNat
  processed : q.processed =
    p.processed + (isDelete v).toNat + (isPathless v).toNat + (valueActions v).length
  short : (valueActions v).length ≤ 1

/-- A message is a delete, or has no path, or is an action, or is an error. -/
theorem counts_of (p : EventProcessor) {v : Option Bytes} {delete pathless : Bool}
    {actions : List Action} (errors : ℕ) (hdelete : isDelete v = delete)
    (hpathless : isPathless v = pathless) (hactions : valueActions v = actions)
    (hone : delete.toNat + pathless.toNat + actions.length + errors = 1) :
    Counts p ⟨p.processed + delete.toNat + pathless.toNat + actions.length,
      p.skippedDelete + delete.toNat, p.errors + errors, p.batch ++ actions⟩ v where
  batch := by rw [hactions]
  one := by
    simp only
    omega
  deletes := by rw [hdelete]
  processed := by rw [hdelete, hpathless, hactions]
  short := by
    rw [hactions]
    omega

theorem counts_of_handle {p q : EventProcessor} {b : Bytes} {ms : List (Text × Json)}
    (hload : jsonLoads b = .ok (.object ms)) (h : p.handle (.object ms) = .ok q) :
    Counts p q (some b) := by
  have hne : text "delete" ≠ text "rename" ∧ text "delete" ≠ text "mtime_change" ∧
      text "rename" ≠ text "mtime_change" := by decide +kernel
  have hdelete : isDelete (some b) = isStr (getOrNone ms (text "event")) (text "delete") := by
    unfold isDelete wellFormed
    simp only [hload]
    split_ifs with hdel hren hmt
    · rw [hdel]
      rfl
    · rw [Bool.eq_false_of_not_eq_true hdel]
      split <;> rfl
    · rw [Bool.eq_false_of_not_eq_true hdel]
      cases nonemptyStr (getOrNone ms (text "path")) <;> rfl
    · rw [Bool.eq_false_of_not_eq_true hdel]
      rfl
  have hpathless : isPathless (some b) =
      (isStr (getOrNone ms (text "event")) (text "mtime_change") &&
        !truthy (getOrNone ms (text "path"))) := by
    simp only [isPathless, hload]
  have hactions : valueActions (some b) = eventActions ms := by
    simp only [valueActions, hload]
  unfold EventProcessor.handle at h
  unfold eventActions at hactions
  simp only [map_logWarning] at h hactions
  split_ifs at h with hdel hren hfalsy hdeep hmt hpath hdeep <;> obtain rfl := Except.ok.inj h
  · rw [hdel] at hdelete
    rw [isStr_eq_false hdel hne.2.1] at hpathless
    rw [isStr_eq_false hdel hne.1, isStr_eq_false hdel hne.2.1] at hactions
    simpa using counts_of p 0 hdelete hpathless hactions rfl
  · rw [Bool.eq_false_of_not_eq_true hdel] at hdelete
    rw [isStr_eq_false hren hne.2.2] at hpathless
    rw [← Bool.not_and, Bool.not_eq_true'] at hfalsy
    rw [if_pos hren, hfalsy] at hactions
    simpa [EventProcessor.countError] using counts_of p 1 hdelete hpathless hactions rfl
  · rw [Bool.eq_false_of_not_eq_true hdel] at hdelete
    rw [isStr_eq_false hren hne.2.2] at hpathless
    rw [← Bool.not_and, Bool.not_eq_true, Bool.not_eq_false'] at hfalsy
    rw [if_pos hren, if_pos hfalsy] at hactions
    simpa using counts_of p 0 hdelete hpathless hactions rfl
  · rw [Bool.eq_false_of_not_eq_true hdel] at hdelete
    rw [hmt, hpath] at hpathless
    rw [if_neg hren, if_pos hmt, if_pos hpath] at hactions
    simpa using counts_of p 0 hdelete hpathless hactions rfl
  · rw [Bool.eq_false_of_not_eq_true hdel] at hdelete
    rw [hmt, Bool.eq_false_of_not_eq_true hpath] at hpathless
    rw [if_neg hren, if_pos hmt, if_neg hpath] at hactions
    simpa using counts_of p 0 hdelete hpathless hactions rfl
  · rw [Bool.eq_false_of_not_eq_true hdel] at hdelete
    rw [Bool.eq_false_of_not_eq_true hmt] at hpathless
    rw [if_neg hren, if_neg hmt] at hactions
    simpa [EventProcessor.countError] using counts_of p 1 hdelete hpathless hactions rfl

/-- **Every message that is parsed is counted once.** -/
theorem counts_of_parseEvent {p q : EventProcessor} {v : Option Bytes}
    (h : p.parseEvent v = .ok q) : Counts p q v := by
  cases v with
  | none => cases h
  | some b =>
    have hparseable := parseable_of_parseEvent h
    unfold Parseable at hparseable
    unfold EventProcessor.parseEvent at h
    cases hload : jsonLoads b with
    | ok event =>
      simp only [hload] at h hparseable
      cases event with
      | object ms => exact counts_of_handle hload h
      | _ => exact hparseable.elim
    | error e =>
      simp only [hload] at h hparseable
      cases e with
      | jsonDecodeError =>
        obtain rfl := Except.ok.inj h
        have hdelete : isDelete (some b) = false := by simp [isDelete, wellFormed, hload]
        have hpathless : isPathless (some b) = false := by simp [isPathless, hload]
        have hactions : valueActions (some b) = [] := by simp [valueActions, hload]
        simpa [EventProcessor.countError] using counts_of p 1 hdelete hpathless hactions rfl
      | _ => exact hparseable.elim

end Message

/-! ## What the books say, call by call -/

section Books

variable {floatRepr : Text → Text} {log : ℕ → Option Bytes} {position : ℕ} {p q : EventProcessor}
  {b : Books} {inHand : List ℕ}

theorem Core.blank (position : ℕ) : Core log position .init (.blank position) [] where
  taken := rfl
  position_eq := rfl
  parted := List.Perm.refl []
  counted := rfl
  deletes := rfl
  processed := rfl
  actions := rfl
  full := fun _ hx => absurd hx List.not_mem_nil
  redisErrors := rfl

/-- `poll` hands out the message at the position. -/
theorem Core.take (h : Core log position p b []) {msg : Polled} (hfits : msg.fits position) :
    Core log (position + msg.offsets.length) p { b with taken := b.taken ++ msg.offsets }
      msg.offsets := by
  have hparted : (b.taken ++ msg.offsets).Perm
      (b.handled ++ b.dropped ++ b.raised ++ msg.offsets) := by
    simpa using h.parted.append_right msg.offsets
  refine { h with taken := ?_, position_eq := ?_, parted := hparted }
  · cases msg with
    | message offset =>
      obtain rfl : offset = position := by simpa [Polled.fits] using hfits
      simp only [Polled.offsets, List.length_append, List.length_singleton, List.range'_1_concat]
      rw [← h.taken, ← h.position_eq]
    | _ => simpa [Polled.offsets] using h.taken
  · rw [List.length_append, ← Nat.add_assoc, ← h.position_eq]

theorem Core.drop (h : Core log position p b inHand) :
    Core log position p { b with dropped := b.dropped ++ inHand } [] := by
  refine { h with parted := h.parted.trans (List.perm_iff_count.mpr fun offset => ?_) }
  simp only [List.count_append, List.count_nil]
  omega

/-- `parse_event` raises. -/
theorem Core.fail {offset : ℕ} (h : Core log position p b [offset]) :
    Core log position p { b with raised := b.raised ++ [offset] } [] := by
  refine { h with parted := h.parted.trans (List.perm_iff_count.mpr fun n => ?_) }
  simp only [List.count_append, List.count_nil]
  omega

/-- `parse_event` returns. -/
theorem Core.handle {offset : ℕ} (h : Core log position p b [offset])
    (hcounts : Counts p q (log offset)) :
    Core log position q { b with handled := b.handled ++ [offset] } [] where
  taken := h.taken
  position_eq := h.position_eq
  parted := by
    refine h.parted.trans (List.perm_iff_count.mpr fun n => ?_)
    simp only [List.count_append, List.count_nil]
    omega
  counted := by
    rw [hcounts.one, h.counted, List.length_append, List.length_singleton]
  deletes := by
    rw [hcounts.deletes, h.deletes, List.countP_append, List.countP_singleton]
    cases isDelete (log offset) <;> rfl
  processed := by
    have hpathless : [offset].countP (fun n => isPathless (log n)) =
        (isPathless (log offset)).toNat := by
      rw [List.countP_singleton]
      cases isPathless (log offset) <;> rfl
    have hbefore := h.processed
    have hdeletes := hcounts.deletes
    rw [hcounts.processed, List.countP_append, hpathless, List.flatMap_append, List.length_append,
      List.flatMap_singleton]
    omega
  actions := by
    rw [List.flatMap_append, h.actions, List.flatMap_singleton, hcounts.batch, List.append_assoc]
  full := h.full
  redisErrors := h.redisErrors

/-- `flush_batch` empties the batch. -/
theorem Core.flush (h : Core log position p b inHand) (hlen : p.batchSize ≤ BATCH_SIZE)
    (ok : Bool) : Core log position { p with batch := [] } (b.flushed p.batch ok) inHand := by
  by_cases hnil : p.batch = []
  · rw [Books.flushed, if_pos hnil]
    exact { h with actions := by rw [h.actions, hnil] }
  · rw [Books.flushed, if_neg hnil]
    refine { h with actions := ?_, full := ?_, redisErrors := ?_ }
    · simp only [List.flatMap_append, List.flatMap_singleton, List.append_nil, h.actions]
    · intro x hx
      rcases List.mem_append.mp hx with hx | hx
      · exact h.full x hx
      · rw [List.mem_singleton.mp hx]
        exact ⟨hnil, hlen⟩
    · simp only [List.filter_append, List.flatMap_append, List.length_append, h.redisErrors]
      cases ok <;> simp

/-! ## One step of the loop -/

/-- The way out of the loop. -/
theorem balanced_leave {s : Main} (hcore : Core log s.position s.processor b [])
    (hlen : s.processor.batchSize ≤ BATCH_SIZE) (hraised : b.raised.length ≤ 1) :
    Balanced log s.leave b := by
  have hone : b.raised = [] ∨ b.raised.length = 1 := by
    rcases Nat.le_one_iff_eq_zero_or_eq_one.mp hraised with h | h
    · exact Or.inl (List.length_eq_zero_iff.mp h)
    · exact Or.inr h
  unfold Main.leave
  split_ifs with hbatch
  · refine ⟨fun _ => hcore, ⟨List.length_pos_iff.mp hbatch, hlen⟩, ?_⟩
    exact hone.imp_right fun h => ⟨h, Or.inl rfl⟩
  · exact ⟨fun hpc => absurd rfl hpc, trivial, hone.imp_right fun h => ⟨h, Or.inr (Or.inr rfl)⟩⟩

/-- The end of an iteration. -/
theorem balanced_progress {s : Main} (hcore : Core log s.position s.processor b [])
    (hlen : s.processor.batchSize < BATCH_SIZE) (hraised : b.raised = []) :
    Balanced log s.progress b := by
  unfold Main.progress
  split_ifs with hdue
  · exact ⟨fun _ => hcore, ⟨hlen, Nat.lt_add_of_pos_right (by decide)⟩, Or.inl hraised⟩
  · exact ⟨fun _ => hcore, ⟨hlen, not_le.mp hdue⟩, Or.inl hraised⟩

/-- The iteration behind the `redis_down` block. -/
theorem balanced_dispatch {s : Main} {msg : Polled} (now : ℤ)
    (hcore : Core log s.position s.processor b msg.offsets)
    (hlen : s.processor.batchSize < BATCH_SIZE) (hpaced : s.Paced) (hraised : b.raised = []) :
    Balanced log (s.dispatch log now msg) (b.parse log s.processor msg) := by
  cases msg with
  | error => exact ⟨fun _ => hcore, ⟨hlen, hpaced⟩, Or.inl hraised⟩
  | none =>
    unfold Main.dispatch
    simp only
    split_ifs with hflush
    · exact ⟨fun _ => hcore, ⟨List.length_pos_iff.mp hflush.1, hlen, hpaced⟩, Or.inl hraised⟩
    · exact ⟨fun _ => hcore, ⟨hlen, hpaced⟩, Or.inl hraised⟩
  | message offset =>
    unfold Main.dispatch Books.parse
    simp only
    cases hparse : s.processor.parseEvent (log offset) with
    | error e =>
      refine balanced_leave hcore.fail hlen.le ?_
      simp only [hraised, List.nil_append, List.length_singleton, le_refl]
    | ok q =>
      have hcounts := counts_of_parseEvent hparse
      have hcore := hcore.handle hcounts
      simp only
      split_ifs with hfull
      · refine ⟨fun _ => hcore, ?_, Or.inl hraised⟩
        -- a message adds one action at most
        have hle : q.batchSize ≤ s.processor.batchSize + 1 := by
          unfold EventProcessor.batchSize
          rw [hcounts.batch, List.length_append]
          exact Nat.add_le_add_left hcounts.short _
        exact le_antisymm (hle.trans hlen) hfull
      · exact balanced_progress (s := s.parsed offset q) hcore (not_le.mp hfull) hraised

/-- A call that returns has emptied the batch and left the statistics. -/
theorem flushBatch_processor {reply : Reply} {pending : Hash} {ok : Bool}
    (h : (p.flushBatch floatRepr reply pending).outcome = .ok ok) :
    (p.flushBatch floatRepr reply pending).processor = { p with batch := [] } := by
  unfold EventProcessor.flushBatch at h ⊢
  split_ifs at h ⊢ with hnil
  · exact congrArg (fun batch => { p with batch := batch }) hnil
  · cases henc : encodePipeline floatRepr (p.batch.flatMap Action.commands) with
    | ok cmds =>
      rcases reply with _ | applied
      · rfl
      · cases applied <;> rfl
    | error e =>
      rw [henc] at h
      rcases reply with _ | applied
      · simp only at h ⊢
        split_ifs at h ⊢
        rfl
      · rfl

theorem Balanced.exit {s t : Main} (h : Balanced log s b) (ht : t.pc = .exited) :
    Balanced log t b := by
  refine ⟨fun hpc => absurd ht hpc, ?_, ?_⟩
  · rw [Main.Placed, ht]
    trivial
  · exact h.raised.imp_right fun hone => ⟨hone.1, Or.inr (Or.inr ht)⟩

theorem Balanced.raised_le {s : Main} (h : Balanced log s b) : b.raised.length ≤ 1 := by
  rcases h.raised with hnil | ⟨hone, -⟩
  · rw [hnil]
    exact Nat.zero_le 1
  · exact hone.le

/-- Only a process that is leaving has met a message that raises. -/
theorem Balanced.raised_eq {s : Main} (h : Balanced log s b) (hflush : s.pc ≠ .flush .final)
    (hcommit : s.pc ≠ .commit .final) (hexited : s.pc ≠ .exited) : b.raised = [] := by
  refine h.raised.resolve_right fun hone => ?_
  rcases hone.2 with hpc | hpc | hpc
  · exact hflush hpc
  · exact hcommit hpc
  · exact hexited hpc

theorem flushed_raised (batch : List Action) (ok : Bool) :
    (b.flushed batch ok).raised = b.raised := by
  unfold Books.flushed
  split_ifs <;> rfl

theorem balanced_flush {s : Main} {site : Site} (h : Balanced log s b) (hpc : s.pc = .flush site)
    (reply : Reply) : Balanced log (s.flush floatRepr log site reply)
      (b.enter floatRepr log s (.flush reply)) := by
  have hcore : Core log s.position s.processor b [] := by
    have hcore := h.core (by rw [hpc]; exact Pc.noConfusion)
    rwa [Main.inHand, hpc] at hcore
  have hplaced := h.placed
  rw [Main.Placed, hpc] at hplaced
  have hlen : s.processor.batchSize ≤ BATCH_SIZE := by
    cases site with
    | timeout now => exact hplaced.2.1.le
    | size => exact hplaced.le
    | final => exact hplaced.2
  unfold Main.flush Books.enter
  simp only
  cases hout : (s.processor.flushBatch floatRepr reply s.pending).outcome with
  | error e =>
    cases site with
    | final => exact h.exit rfl
    | _ => exact balanced_leave hcore hlen h.raised_le
  | ok ok =>
    have hprocessor := flushBatch_processor hout
    have hflushed := hcore.flush hlen ok
    rw [← hprocessor] at hflushed
    have hraised := flushed_raised (b := b) s.processor.batch ok
    have hempty : (s.processor.flushBatch floatRepr reply s.pending).processor.batch = [] := by
      rw [hprocessor]
    have hpaced : s.Paced → (s.processor.flushBatch floatRepr reply s.pending).processor.processed <
        s.lastLogCount + 1000 := by
      rw [hprocessor]
      exact id
    have hroom : (s.processor.flushBatch floatRepr reply s.pending).processor.batchSize <
        BATCH_SIZE := by
      rw [EventProcessor.batchSize, hempty]
      decide
    cases ok with
    | true =>
      cases site with
      | timeout now =>
        have hstays := h.raised_eq (by simp [hpc]) (by simp [hpc]) (by simp [hpc])
        exact ⟨fun _ => hflushed, ⟨hempty, hpaced hplaced.2.2⟩, Or.inl (hraised.trans hstays)⟩
      | size =>
        have hstays := h.raised_eq (by simp [hpc]) (by simp [hpc]) (by simp [hpc])
        exact ⟨fun _ => hflushed, hempty, Or.inl (hraised.trans hstays)⟩
      | final =>
        refine ⟨fun _ => hflushed, hempty, ?_⟩
        rw [hraised]
        exact h.raised.imp_right fun hone => ⟨hone.1, Or.inr (Or.inl rfl)⟩
    | false =>
      cases site with
      | timeout now =>
        have hstays := h.raised_eq (by simp [hpc]) (by simp [hpc]) (by simp [hpc])
        exact ⟨fun _ => hflushed, ⟨hroom, hpaced hplaced.2.2⟩, Or.inl (hraised.trans hstays)⟩
      | size =>
        have hstays := h.raised_eq (by simp [hpc]) (by simp [hpc]) (by simp [hpc])
        exact balanced_progress hflushed hroom (hraised.trans hstays)
      | final =>
        refine ⟨fun hpc => absurd rfl hpc, trivial, ?_⟩
        rw [hraised]
        exact h.raised.imp_right fun hone => ⟨hone.1, Or.inr (Or.inr rfl)⟩

theorem balanced_commit {s : Main} {site : Site} (h : Balanced log s b)
    (hpc : s.pc = .commit site) (ok : Bool) (now : ℤ) : Balanced log (s.commit site ok now) b := by
  have hcore : Core log s.position s.processor b [] := by
    have hcore := h.core (by rw [hpc]; exact Pc.noConfusion)
    rwa [Main.inHand, hpc] at hcore
  have hplaced := h.placed
  rw [Main.Placed, hpc] at hplaced
  have hroom : s.processor.batch = [] → s.processor.batchSize < BATCH_SIZE := by
    intro hempty
    rw [EventProcessor.batchSize, hempty]
    decide
  unfold Main.commit
  cases site with
  | timeout n =>
    have hraised := h.raised_eq (by simp [hpc]) (by simp [hpc]) (by simp [hpc])
    cases ok <;> exact ⟨fun _ => hcore, ⟨hroom hplaced.1, hplaced.2⟩, Or.inl hraised⟩
  | size =>
    have hraised := h.raised_eq (by simp [hpc]) (by simp [hpc]) (by simp [hpc])
    cases ok <;> exact balanced_progress hcore (hroom hplaced) hraised
  | final => cases ok <;> exact h.exit rfl

/-- **One step.** -/
theorem balanced_of_step {s t : Audited} {l : Label} (h : Balanced log s.main s.books)
    (hstep : s.step floatRepr log l = some t) : Balanced log t.main t.books := by
  obtain ⟨m, hm, rfl⟩ := Option.map_eq_some_iff.mp hstep
  cases l with
  | poll msg now =>
    simp only [Main.step] at hm
    split_ifs at hm with hready hdown
    all_goals
      obtain ⟨hpc, hfits⟩ := hready
      have hcore := h.core (by rw [hpc]; exact Pc.noConfusion)
      have hplaced := h.placed
      rw [Main.Placed, hpc] at hplaced
      have hraised := h.raised_eq (by simp [hpc]) (by simp [hpc]) (by simp [hpc])
      rw [Main.inHand, hpc] at hcore
      have htaken := hcore.take hfits
      have hposition : (s.main.polled msg now).position =
          s.main.position + msg.offsets.length := by
        cases msg with
        | message offset =>
          obtain rfl : offset = s.main.position := by simpa [Polled.fits] using hfits
          rfl
        | _ => rfl
      rw [← hposition] at htaken
      obtain rfl := Option.some.inj hm
    · simp only [Books.enter, if_pos hdown]
      exact ⟨fun _ => htaken, hplaced, Or.inl hraised⟩
    · simp only [Books.enter, if_neg hdown]
      exact balanced_dispatch now htaken hplaced.1 hplaced.2 hraised
  | stop =>
    simp only [Main.step] at hm
    split_ifs at hm with hpc
    obtain rfl := Option.some.inj hm
    have hcore := h.core (by rw [hpc]; exact Pc.noConfusion)
    have hplaced := h.placed
    rw [Main.Placed, hpc] at hplaced
    rw [Main.inHand, hpc] at hcore
    exact balanced_leave hcore hplaced.1.le h.raised_le
  | ping ok =>
    simp only [Main.step] at hm
    split at hm
    · rename_i msg now hpc
      have hcore := h.core (by rw [hpc]; exact Pc.noConfusion)
      have hplaced := h.placed
      rw [Main.Placed, hpc] at hplaced
      have hraised := h.raised_eq (by simp [hpc]) (by simp [hpc]) (by simp [hpc])
      rw [Main.inHand, hpc] at hcore
      split_ifs at hm with hok
      · obtain rfl := Option.some.inj hm
        simp only [Books.enter, hpc, if_pos hok]
        exact balanced_dispatch now hcore hplaced.1 hplaced.2 hraised
      · obtain rfl := Option.some.inj hm
        simp only [Books.enter, hpc, if_neg hok]
        exact ⟨fun _ => hcore.drop, hplaced, Or.inl hraised⟩
    · cases hm
  | flush reply =>
    simp only [Main.step] at hm
    split at hm
    · rename_i site hpc
      obtain rfl := Option.some.inj hm
      exact balanced_flush h hpc reply
    · cases hm
  | commit ok now =>
    simp only [Main.step] at hm
    split at hm
    · rename_i site hpc
      obtain rfl := Option.some.inj hm
      exact balanced_commit h hpc ok now
    · cases hm
  | hlen ok now =>
    simp only [Main.step] at hm
    split_ifs at hm with hpc hfails
    all_goals
      have hcore := h.core (by rw [hpc]; exact Pc.noConfusion)
      have hplaced := h.placed
      rw [Main.Placed, hpc] at hplaced
      rw [Main.inHand, hpc] at hcore
      obtain rfl := Option.some.inj hm
    · exact balanced_leave hcore hplaced.1.le h.raised_le
    · have hraised := h.raised_eq (by simp [hpc]) (by simp [hpc]) (by simp [hpc])
      exact ⟨fun _ => hcore, hplaced, Or.inl hraised⟩
  | kill =>
    simp only [Main.step] at hm
    split_ifs at hm
    obtain rfl := Option.some.inj hm
    exact h.exit rfl
  | start metricsTime batchStartTime =>
    simp only [Main.step] at hm
    split_ifs at hm
    obtain rfl := Option.some.inj hm
    have hroom : (0 : ℕ) < BATCH_SIZE := by decide
    have hpaced : (0 : ℕ) < 0 + 1000 := by decide
    exact ⟨fun _ => .blank _, ⟨hroom, hpaced⟩, Or.inl rfl⟩

end Books

/-- **The counters add up** in every state of every run, over any log, any answers and any
restarts. -/
theorem balanced_of_run (floatRepr : Text → Text) (log : ℕ → Option Bytes) (pending : Hash)
    (labels : List Label) :
    Always (Audited.step floatRepr log) (fun s => Balanced log s.main s.books)
      (Audited.initial pending) labels := by
  refine always_of_guarded (G := fun _ _ => True)
    (fun s l t h hstep _ => balanced_of_step h hstep) ?_ (guarded_true _ _)
  exact ⟨fun hpc => absurd rfl hpc, trivial, Or.inl rfl⟩

end Consumer
end FileTracker
