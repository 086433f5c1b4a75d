import FileTracker.Consumer.Batching
import FileTracker.Library.Interleaving

/-!
# Many hosts, one hash

Hosts that share a file system report their operations in streams of their own,
and the consumer sees some interleaving of the streams, in which the order is
kept within a host and lost between hosts.  The design drops the timestamps on
the grounds that `pending` only marks what has to be looked at.

A mark can be taken away, though: a rename clears its old path.  So the order
between hosts matters for exactly one thing --- whether, in the order of
*delivery*, a rename away from a path comes after the last message that marks
it.  `covered_iff_marked` says so: the paths whose latest operation is a write
or a rename onto them are all marked at the end exactly when no such rename is
delivered late.
-/

namespace FileTracker
namespace Consumer

open LastWriter Interleaving

/-- A path that an agent's message can carry to Redis. -/
structure Path where
  text : Text
  ne_nil : text ≠ []
  scalar : Utf8.Scalar text

/-- A successful operation on the shared file system. -/
inductive FsOp where
  | write (p : Path)
  | rename (a b : Path)
  | unlink (p : Path)

/-- What the operation is reported as. -/
def FsOp.msg : FsOp → AgentMsg
  | .write p => .mtimeChange p.text
  | .rename a b => .rename a.text b.text
  | .unlink _ => .delete

/-- The operation names the path. -/
def FsOp.Names (p : Path) : FsOp → Prop
  | .write q => q = p
  | .rename a b => a = p ∨ b = p
  | .unlink q => q = p

/-- The operation is a write to the path or a rename onto it. -/
def FsOp.Covers (p : Path) : FsOp → Prop
  | .write q => q = p
  | .rename _ b => b = p
  | .unlink _ => False

/-- The operation renames the path away. -/
def FsOp.MovesAway (p : Path) : FsOp → Prop
  | .rename a b => a = p ∧ b ≠ p
  | _ => False

/-- An operation together with the message value its host produced for it. -/
structure Report where
  op : FsOp
  value : Option Bytes
  carries : wellFormed value = some op.msg

variable {Host : Type} [DecidableEq Host]

/-- The interleavings of the hosts' streams: each host's reports in the order of
the history, and nothing else. -/
def IsDelivery (history delivery : List (Host × Report)) : Prop :=
  ∀ h : Host, stream h delivery = stream h history

omit [DecidableEq Host] in
/-- The latest operation of the history that names the path is a write to it or a
rename onto it. -/
def Covered (history : List (Host × Report)) (p : Path) : Prop :=
  ∃ pre x post, history = pre ++ x :: post ∧ x.2.op.Covers p ∧ ∀ y ∈ post, ¬ y.2.op.Names p

/-- In the order of delivery, the path is written or renamed onto, and no rename
away from it is delivered later. -/
def Marked (delivery : List (Host × Report)) (p : Path) : Prop :=
  ∃ pre x post, delivery = pre ++ x :: post ∧ x.2.op.Covers p ∧
    ∀ y ∈ post, ¬ y.2.op.MovesAway p

theorem Path.text_inj {p q : Path} : p.text = q.text ↔ p = q := by
  cases p; cases q
  simp

theorem FsOp.encodable_msg (op : FsOp) : op.msg.Encodable := by
  cases op with
  | write p => exact p.scalar
  | rename a b => exact ⟨a.scalar, b.scalar⟩
  | unlink p => trivial

theorem FsOp.sets_msg (op : FsOp) (p : Path) : op.msg.Sets p.text ↔ op.Covers p := by
  cases op <;> simp [FsOp.msg, AgentMsg.Sets, FsOp.Covers, Path.text_inj]

theorem FsOp.clears_msg (op : FsOp) (p : Path) : op.msg.Clears p.text ↔ op.MovesAway p := by
  cases op <;> simp [FsOp.msg, AgentMsg.Clears, FsOp.MovesAway, Path.text_inj]

omit [DecidableEq Host] in
theorem carry_delivery (delivery : List (Host × Report)) :
    Carry (delivery.map fun x => x.2.value) (delivery.map fun x => x.2.op.msg) := by
  induction delivery with
  | nil => exact List.Forall₂.nil
  | cons x xs ih => exact List.Forall₂.cons ⟨x.2.carries, x.2.op.encodable_msg⟩ ih

omit [DecidableEq Host] in
/-- A path is in the hash after the delivery when it is marked, or was there and
is never moved away. -/
theorem mem_run_delivery (delivery : List (Host × Report)) (pending : Hash) (p : Path) :
    p.text ∈ run pending (commandsOf (delivery.map fun x => x.2.op.msg)) ↔
      Marked delivery p ∨ (p.text ∈ pending ∧ ∀ y ∈ delivery, ¬ y.2.op.MovesAway p) := by
  rw [mem_run_commandsOf]
  refine or_congr ⟨?_, ?_⟩ (and_congr_right fun _ => ?_)
  · rintro ⟨pre, m, post, hsplit, hsets, hpost⟩
    obtain ⟨pre', rest, rfl, rfl, hrest⟩ := List.map_eq_append_iff.mp hsplit
    obtain ⟨x, post', rfl, rfl, rfl⟩ := List.map_eq_cons_iff.mp hrest
    refine ⟨pre', x, post', rfl, (x.2.op.sets_msg p).mp hsets, fun y hy => ?_⟩
    rw [← y.2.op.clears_msg]
    exact hpost _ (List.mem_map_of_mem hy)
  · rintro ⟨pre, x, post, rfl, hcov, hpost⟩
    refine ⟨pre.map fun x => x.2.op.msg, x.2.op.msg, post.map fun x => x.2.op.msg, by simp,
      (x.2.op.sets_msg p).mpr hcov, ?_⟩
    intro k hk
    obtain ⟨y, hy, rfl⟩ := List.mem_map.mp hk
    rw [y.2.op.clears_msg]
    exact hpost y hy
  · simp only [List.forall_mem_map, FsOp.clears_msg]

/-- A delivered cover with no move away anywhere marks the path. -/
theorem marked_of_no_move {history delivery : List (Host × Report)}
    (h : IsDelivery history delivery) {p : Path} (hc : Covered history p)
    (hno : ∀ y ∈ delivery, ¬ y.2.op.MovesAway p) : Marked delivery p := by
  obtain ⟨pre, x, post, rfl, hcov, -⟩ := hc
  have hx : x ∈ delivery := (mem_iff_of_stream_eq h x).mpr (by simp)
  obtain ⟨pre', post', rfl⟩ := List.append_of_mem hx
  exact ⟨pre', x, post', rfl, hcov, fun y hy => hno y (by simp [hy])⟩

/-- **Coverage, exactly.**  Whatever the batch boundaries, every covered path is
a field of `pending` at the end exactly when, for every covered path, no rename
away from it is delivered after the last report that covers it. -/
theorem covered_iff_marked (floatRepr : Text → Text) {history delivery : List (Host × Report)}
    (h : IsDelivery history delivery) {calls : List Call}
    (hcalls : parsed calls = delivery.map fun x => x.2.value) (pending : Hash) :
    ∃ t, (Session.mk .init pending).runCalls floatRepr (calls ++ [.flush]) = .ok t ∧
      ((∀ p, Covered history p → p.text ∈ t.pending) ↔
        ∀ p, Covered history p → Marked delivery p) := by
  obtain ⟨t, hrun, hpend⟩ := runCalls_flush floatRepr (hcalls ▸ carry_delivery delivery)
    pending
  refine ⟨t, hrun, forall_congr' fun p => forall_congr' fun hc => ?_⟩
  rw [hpend, mem_run_delivery]
  exact or_iff_left_of_imp fun hno => marked_of_no_move h hc hno.2

/-! ## A late rename -/

/-- `/home/a`, renamed to `/home/b` on one node and written again on another. -/
def pathA : Path := ⟨text "/home/a", by decide +kernel, by decide +kernel⟩
def pathB : Path := ⟨text "/home/b", by decide +kernel, by decide +kernel⟩

def renameReport : Report where
  op := .rename pathA pathB
  value := some (ascii "\x7b\"ts\":1710000000000,\"event\":\"rename\",\"old_path\":\"/home/a\",\"new_path\":\"/home/b\",\"hostname\":\"node-001\"\x7d")
  carries := by decide +kernel

def writeReport : Report where
  op := .write pathA
  value := some (ascii "\x7b\"ts\":1710000000007,\"event\":\"mtime_change\",\"path\":\"/home/a\",\"hostname\":\"node-002\"\x7d")
  carries := by decide +kernel

/-- The streams of two nodes with one report each may be delivered either way. -/
theorem isDelivery_swap (x y : Report) : IsDelivery [(1, x), (2, y)] [(2, y), (1, x)] := by
  intro h
  by_cases h1 : 1 = h
  · subst h1
    rfl
  · by_cases h2 : 2 = h <;> simp [stream, h1, h2]

theorem covered_iff_marked_two_nodes :
    ∃ t, (Session.mk .init ∅).runCalls id
        ([.parse writeReport.value, .flush, .parse renameReport.value] ++ [.flush]) = .ok t ∧
      ((∀ p, Covered [(1, renameReport), (2, writeReport)] p → p.text ∈ t.pending) ↔
        ∀ p, Covered [(1, renameReport), (2, writeReport)] p →
          Marked [(2, writeReport), (1, renameReport)] p) :=
  covered_iff_marked id (isDelivery_swap renameReport writeReport) rfl ∅

/-- The write is delivered before the rename that it came after: the rename then
clears the path. -/
theorem rename_delivered_late :
    ¬ ∀ (history delivery : List (ℕ × Report)) (calls : List Call) (pending : Hash)
      (t : Session), IsDelivery history delivery →
      (parsed calls = delivery.map fun x => x.2.value) →
      (Session.mk .init pending).runCalls id (calls ++ [.flush]) = .ok t →
      ∀ p, Covered history p → p.text ∈ t.pending := by
  intro hclaim
  have hdel := isDelivery_swap renameReport writeReport
  have hcarry : Carry (parsed [.parse writeReport.value, .parse renameReport.value]) _ :=
    carry_delivery [(2, writeReport), (1, renameReport)]
  obtain ⟨t, hrun, hpend⟩ := runCalls_flush id hcarry ∅
  have hcov : Covered [(1, renameReport), (2, writeReport)] pathA :=
    ⟨[(1, renameReport)], (2, writeReport), [], rfl, rfl, by simp⟩
  have hmem := hclaim _ _ _ _ t hdel rfl hrun pathA hcov
  rw [hpend] at hmem
  exact absurd hmem (by decide +kernel)

end Consumer
end FileTracker
