import FileTracker.Consumer.Session

/-!
# Batches, and what reaches Redis

Along calls that all succeed --- no exception escapes, and every `flush_batch`
returns `True` --- the actions of the values parsed before the last flush reach
Redis, in order, and the places of the flushes leave no trace (`runTrue_iff`).

With well-formed messages such calls run the commands of the messages in order
(`runCalls_flush`), so the hash is the last-writer-wins map of the messages
(`batching_invisible`), and a delivery that repeats part of the log
after every restart leaves the hash that the log leaves when it is applied once
(`redelivery_harmless`).
-/

namespace FileTracker
namespace Consumer

open LastWriter

/-! ## Calls that succeed -/

section Run

variable (floatRepr : Text → Text)

/-- One call, on a healthy Redis, that raises nothing and does not return `False`. -/
def Session.callTrue (s : Session) : Call → Option Session
  | .parse v =>
    match s.processor.parseEvent v with
    | .ok q => some { s with processor := q }
    | .error _ => none
  | .flush =>
    let r := s.processor.flushBatch floatRepr .ok s.pending
    match r.outcome with
    | .ok true => some ⟨r.processor, r.pending⟩
    | _ => none

/-- The calls in order, where all of them succeed. -/
def Session.runTrue : Session → List Call → Option Session
  | s, [] => some s
  | s, c :: cs => (s.callTrue floatRepr c).bind fun t => t.runTrue cs

end Run

/-- The actions that reach Redis: those in the batch, and those of the values parsed,
up to the last flush. -/
def reaching : List Action → List Call → List Action
  | _, [] => []
  | batch, .parse v :: cs => reaching (batch ++ valueActions v) cs
  | batch, .flush :: cs => batch ++ reaching [] cs

variable (floatRepr : Text → Text)

/-- A flush succeeds exactly when the batch can be encoded. -/
theorem callTrue_flush_iff {s t : Session} : s.callTrue floatRepr .flush = some t ↔
    ∃ cmds, encodePipeline floatRepr (s.processor.batch.flatMap Action.commands) = .ok cmds ∧
      t = ⟨{ s.processor with batch := [] }, run s.pending cmds⟩ := by
  unfold Session.callTrue EventProcessor.flushBatch
  by_cases hnil : s.processor.batch = []
  · have hsame : s = ⟨{ s.processor with batch := [] }, s.pending⟩ := by rw [← hnil]
    rw [if_pos hnil, hnil, List.flatMap_nil]
    simp only [Option.some.injEq, encodePipeline, Except.ok.injEq]
    constructor
    · rintro rfl
      exact ⟨[], rfl, hsame⟩
    · rintro ⟨cmds, rfl, rfl⟩
      exact hsame
  · rw [if_neg hnil]
    cases henc : encodePipeline floatRepr (s.processor.batch.flatMap Action.commands) with
    | ok cmds => simp [eq_comm]
    | error e =>
      simp only [reduceCtorEq, false_and, exists_false, iff_false]
      split_ifs <;> simp

/-- **What calls that succeed do.**  They succeed exactly when every value can be parsed
and everything that reaches Redis can be encoded, and then they have run the commands of
what has reached it. -/
theorem runTrue_iff {cs : List Call} {s : Session} {pending : Hash} :
    (∃ t, s.runTrue floatRepr cs = some t ∧ t.pending = pending) ↔
      (∀ v ∈ parsed cs, Parseable v) ∧
        ∃ cmds, encodePipeline floatRepr
            ((reaching s.processor.batch cs).flatMap Action.commands) = .ok cmds ∧
          pending = run s.pending cmds := by
  induction cs generalizing s with
  | nil =>
    simp only [Session.runTrue, Option.some.injEq, parsed, reaching, List.flatMap_nil,
      encodePipeline, Except.ok.injEq, List.not_mem_nil, false_imp_iff, implies_true, true_and]
    constructor
    · rintro ⟨t, rfl, rfl⟩
      exact ⟨[], rfl, rfl⟩
    · rintro ⟨cmds, rfl, rfl⟩
      exact ⟨s, rfl, rfl⟩
  | cons c cs ih =>
    cases c with
    | parse v =>
      rw [parsed, List.forall_mem_cons, reaching]
      constructor
      · rintro ⟨t, hrun, ht⟩
        obtain ⟨u, hu, hrun⟩ := Option.bind_eq_some_iff.mp hrun
        simp only [Session.callTrue] at hu
        cases hparse : s.processor.parseEvent v with
        | error e => simp [hparse] at hu
        | ok q =>
          obtain rfl : { s with processor := q } = u := by simpa [hparse] using hu
          have hv := parseable_of_parseEvent hparse
          obtain ⟨q', hq', hbatch⟩ := parseEvent_of_parseable s.processor hv
          obtain rfl := Except.ok.inj (hparse.symm.trans hq')
          obtain ⟨hrest, hcmds⟩ := ih.mp ⟨t, hrun, ht⟩
          rw [hbatch] at hcmds
          exact ⟨⟨hv, hrest⟩, hcmds⟩
      · rintro ⟨⟨hv, hrest⟩, hcmds⟩
        obtain ⟨q, hq, hbatch⟩ := parseEvent_of_parseable s.processor hv
        rw [← hbatch] at hcmds
        obtain ⟨t, hrun, ht⟩ := ih (s := { s with processor := q }).mpr ⟨hrest, hcmds⟩
        refine ⟨t, ?_, ht⟩
        rw [Session.runTrue, Session.callTrue, hq]
        exact hrun
    | flush =>
      rw [parsed, reaching, List.flatMap_append]
      constructor
      · rintro ⟨t, hrun, ht⟩
        obtain ⟨u, hu, hrun⟩ := Option.bind_eq_some_iff.mp hrun
        obtain ⟨cmds, henc, rfl⟩ := (callTrue_flush_iff floatRepr).mp hu
        obtain ⟨hrest, more, hmore, rfl⟩ := ih.mp ⟨t, hrun, ht⟩
        exact ⟨hrest, cmds ++ more, encodePipeline_append floatRepr henc hmore,
          (run_append s.pending cmds more).symm⟩
      · rintro ⟨hrest, cmds, henc, rfl⟩
        obtain ⟨first, more, hfirst, hmore, rfl⟩ := exists_of_encodePipeline_append floatRepr henc
        obtain ⟨t, hrun, ht⟩ := ih (s := ⟨{ s.processor with batch := [] }, run s.pending first⟩).mpr
          ⟨hrest, more, hmore, run_append s.pending first more⟩
        refine ⟨t, ?_, ht⟩
        rw [Session.runTrue, (callTrue_flush_iff floatRepr).mpr ⟨first, hfirst, rfl⟩]
        exact hrun

/-! ## Well-formed messages -/

/-- Values that are well-formed messages. -/
def Says (vs : List (Option Bytes)) (ms : List AgentMsg) : Prop :=
  List.Forall₂ (fun v m => wellFormed v = some m) vs ms

variable {floatRepr}

theorem parseable_of_forall₂ {vs : List (Option Bytes)} {ms : List AgentMsg} (h : Says vs ms) :
    ∀ v ∈ vs, Parseable v := by
  induction h with
  | nil => simp
  | cons hv _ ih => exact List.forall_mem_cons.mpr ⟨(valueActions_wellFormed hv).1, ih⟩

/-- Before a last flush everything reaches Redis. -/
theorem reaching_flush (batch : List Action) (cs : List Call) :
    reaching batch (cs ++ [.flush]) = batch ++ (parsed cs).flatMap valueActions := by
  induction cs generalizing batch with
  | nil => rfl
  | cons c cs ih =>
    cases c with
    | parse v =>
      rw [List.cons_append, reaching, ih, parsed, List.flatMap_cons, List.append_assoc]
    | flush => rw [List.cons_append, reaching, ih, parsed, List.nil_append]

theorem parsed_append (cs ds : List Call) : parsed (cs ++ ds) = parsed cs ++ parsed ds := by
  induction cs with
  | nil => rfl
  | cons c cs ih => cases c <;> simp [parsed, ih]

theorem flatMap_valueActions {vs : List (Option Bytes)} {ms : List AgentMsg} (h : Says vs ms) :
    vs.flatMap valueActions = ms.flatMap AgentMsg.actions := by
  induction h with
  | nil => rfl
  | cons hv _ ih =>
    rw [List.flatMap_cons, List.flatMap_cons, (valueActions_wellFormed hv).2, ih]

/-- **Calls with a last flush** run the commands of all the values that are parsed. -/
theorem runTrue_init_flush_iff {cs : List Call} {pending result : Hash} :
    (∃ t, (Session.mk .init pending).runTrue floatRepr (cs ++ [.flush]) = some t ∧
        t.pending = result) ↔
      (∀ v ∈ parsed cs, Parseable v) ∧
        ∃ cmds, encodePipeline floatRepr
            (((parsed cs).flatMap valueActions).flatMap Action.commands) = .ok cmds ∧
          result = run pending cmds := by
  have hparsed : parsed (cs ++ [.flush]) = parsed cs := by
    rw [parsed_append]
    exact List.append_nil _
  have hreach : reaching EventProcessor.init.batch (cs ++ [.flush]) =
      (parsed cs).flatMap valueActions := by
    rw [reaching_flush]
    rfl
  rw [runTrue_iff, hparsed, hreach]

/-- **Well-formed messages that are all flushed** can be encoded, and leave the hash that
their commands leave when they are run in order. -/
theorem runTrue_flush_iff {cs : List Call} {ms : List AgentMsg} (h : Says (parsed cs) ms)
    {pending result : Hash} :
    (∃ t, (Session.mk .init pending).runTrue floatRepr (cs ++ [.flush]) = some t ∧
        t.pending = result) ↔
      (∀ m ∈ ms, m.Encodable) ∧ result = run pending (commandsOf ms) := by
  rw [runTrue_init_flush_iff, flatMap_valueActions h]
  constructor
  · rintro ⟨-, cmds, henc, rfl⟩
    have hall := encodable_of_encodePipeline_messages henc
    rw [encodePipeline_messages floatRepr hall] at henc
    exact ⟨hall, by rw [← Except.ok.inj henc]; rfl⟩
  · rintro ⟨hall, rfl⟩
    exact ⟨parseable_of_forall₂ h, _, encodePipeline_messages floatRepr hall, rfl⟩

/-- Calls that succeed are calls that raise nothing. -/
theorem runCalls_of_runTrue {cs : List Call} {s t : Session}
    (h : s.runTrue floatRepr cs = some t) : s.runCalls floatRepr cs = .ok t := by
  induction cs generalizing s with
  | nil => rw [Session.runCalls, Option.some.inj h]
  | cons c cs ih =>
    obtain ⟨u, hu, hrest⟩ := Option.bind_eq_some_iff.mp h
    have hcall : s.call floatRepr c = .ok u := by
      cases c with
      | parse v =>
        simp only [Session.callTrue] at hu
        split at hu
        · rename_i q hq
          rw [Session.call, hq, ← Option.some.inj hu]
        · cases hu
      | flush =>
        simp only [Session.callTrue] at hu
        split at hu
        · rename_i hok
          rw [Session.call, hok, ← Option.some.inj hu]
        · cases hu
    rw [Session.runCalls, hcall]
    exact ih hrest

/-- **Where the flushes stand does not matter**: after a last one the hash is the one that
the commands of the messages, run in order, leave. -/
theorem runCalls_flush (floatRepr : Text → Text) {cs : List Call} {ms : List AgentMsg}
    (hcarry : Carry (parsed cs) ms) (pending : Hash) :
    ∃ t, (Session.mk .init pending).runCalls floatRepr (cs ++ [.flush]) = .ok t ∧
      t.pending = run pending (commandsOf ms) := by
  have hflip : List.Forall₂ (fun m v => m.Encodable ∧ wellFormed v = some m) ms (parsed cs) :=
    (hcarry.imp fun _ _ => And.symm).flip
  obtain ⟨hencodable, hsays⟩ := (List.forall₂_and_left _ _).mp hflip
  obtain ⟨t, hrun, ht⟩ := (runTrue_flush_iff hsays.flip).mpr ⟨hencodable, rfl⟩
  exact ⟨t, runCalls_of_runTrue hrun, ht⟩

/-! ## The last writer wins -/

/-- What a message leaves in a field, where it touches it. -/
def AgentMsg.writes (field : Text) : AgentMsg → Option (Option Text)
  | .delete => none
  | .mtimeChange path => if path = field then some (some (text "mtime_change")) else none
  | .rename oldPath newPath =>
    if newPath = field then some (some (text "rename"))
    else if oldPath = field then some none
    else none

/-- The entry of a field by the last message that touches it, and the initial one where
none does. -/
def lastWriter (pending : Hash) (ms : List AgentMsg) (field : Text) : Option Text :=
  (ms.filterMap (AgentMsg.writes field)).getLast?.getD (pending.lookup field)

theorem lastValue_commands (m : AgentMsg) (field : Text) :
    lastValue m.commands field = m.writes field := by
  cases m with
  | delete => rfl
  | mtimeChange path =>
    rw [AgentMsg.commands, lastValue_singleton]
    rfl
  | rename oldPath newPath =>
    rw [AgentMsg.commands, ← List.singleton_append, lastValue_append, lastValue_singleton,
      lastValue_singleton, AgentMsg.writes, Cmd.key, Cmd.key, Cmd.value, Cmd.value]
    split_ifs <;> rfl

theorem lastValue_commandsOf (ms : List AgentMsg) (field : Text) :
    lastValue (commandsOf ms) field = (ms.filterMap (AgentMsg.writes field)).getLast? := by
  induction ms using List.reverseRecOn with
  | nil => rfl
  | append_singleton ms m ih =>
    rw [commandsOf, List.flatMap_append, ← commandsOf, lastValue_append, ih, List.filterMap_append,
      List.getLast?_append, List.flatMap_singleton, lastValue_commands]
    cases hw : m.writes field <;> simp [hw]

theorem lookup_run_commandsOf (pending : Hash) (ms : List AgentMsg) (field : Text) :
    (run pending (commandsOf ms)).lookup field = lastWriter pending ms field := by
  rw [lookup_run, lastValue_commandsOf]
  rfl

/-- **Batching is invisible.**  Whatever the hash, the well-formed messages and the
flushes that succeed between and after them: every field ends up as the last message
that touches it leaves it, and so the hash does not depend on where the flushes are. -/
theorem batching_invisible {cs : List Call} {ms : List AgentMsg} (h : Says (parsed cs) ms)
    {pending : Hash} {t : Session}
    (hrun : (Session.mk .init pending).runTrue floatRepr (cs ++ [.flush]) = some t) :
    (∀ field, t.pending.lookup field = lastWriter pending ms field) ∧
      ∀ ds u, parsed ds = parsed cs →
        (Session.mk .init pending).runTrue floatRepr (ds ++ [.flush]) = some u →
          u.pending = t.pending := by
  obtain ⟨-, ht⟩ := (runTrue_flush_iff h).mp ⟨t, hrun, rfl⟩
  refine ⟨fun field => ?_, fun ds u hds hu => ?_⟩
  · rw [ht, lookup_run_commandsOf]
  · obtain ⟨-, hu⟩ := (runTrue_flush_iff (hds ▸ h)).mp ⟨u, hu, rfl⟩
    rw [hu, ht]

/-- A write to `/home/a`, its rename to `/home/b`, and the rename of that to `/home/c`. -/
def chainLog : List (Option Bytes) := [
  some (ascii "\x7b\"ts\":1710000000000,\"event\":\"mtime_change\",\"path\":\"/home/a\",\"hostname\":\"node-001\"\x7d"),
  some (ascii "\x7b\"ts\":1710000000001,\"event\":\"rename\",\"old_path\":\"/home/a\",\"new_path\":\"/home/b\",\"hostname\":\"node-001\"\x7d"),
  some (ascii "\x7b\"ts\":1710000000002,\"event\":\"rename\",\"old_path\":\"/home/b\",\"new_path\":\"/home/c\",\"hostname\":\"node-001\"\x7d")]

def chainMessages : List AgentMsg :=
  [.mtimeChange (text "/home/a"), .rename (text "/home/a") (text "/home/b"),
    .rename (text "/home/b") (text "/home/c")]

theorem says_chain : Says chainLog chainMessages :=
  .cons (by decide +kernel) (.cons (by decide +kernel) (.cons (by decide +kernel) .nil))

theorem encodable_chain : ∀ m ∈ chainMessages, m.Encodable := by
  have hscalar : Utf8.Scalar (text "/home/a") ∧ Utf8.Scalar (text "/home/b") ∧
      Utf8.Scalar (text "/home/c") := by
    decide +kernel
  simp [chainMessages, AgentMsg.Encodable, hscalar]

/-- The chain in one pipeline, and cut behind its first message. -/
theorem batching_invisible_chain :
    ∃ t u, (Session.mk .init ∅).runTrue id (chainLog.map .parse ++ [.flush]) = some t ∧
      (Session.mk .init ∅).runTrue id
        ([.parse chainLog[0], .flush, .parse chainLog[1], .parse chainLog[2]] ++ [.flush]) = some u ∧
      (∀ field, t.pending.lookup field = lastWriter ∅ chainMessages field) ∧
      u.pending = t.pending := by
  have hwhole : Says (parsed (chainLog.map .parse)) chainMessages := says_chain
  have hcut : Says (parsed [.parse chainLog[0], .flush, .parse chainLog[1], .parse chainLog[2]])
      chainMessages :=
    says_chain
  obtain ⟨t, ht, -⟩ := (runTrue_flush_iff hwhole).mpr ⟨encodable_chain, rfl⟩
  obtain ⟨u, hu, -⟩ := (runTrue_flush_iff hcut).mpr ⟨encodable_chain, rfl⟩
  obtain ⟨hlast, hsame⟩ := batching_invisible hwhole ht
  exact ⟨t, u, ht, hu, hlast, hsame _ u (by decide +kernel) hu⟩

/-! ## Redelivery -/

/-- A process lifetime: it polls from the committed offset `first`, and the values it
applies end before the offset `last`. -/
structure Lifetime where
  first : ℕ
  last : ℕ
  calls : List Call

section Deliver

variable (floatRepr : Text → Text)

/-- The lifetimes one after the other, each with an empty batch and successful
flushes. -/
def deliver : Hash → List Lifetime → Option Hash
  | pending, [] => some pending
  | pending, l :: ls =>
    ((Session.mk .init pending).runTrue floatRepr (l.calls ++ [.flush])).bind fun t =>
      deliver t.pending ls

end Deliver

/-- A delivery history of a partition log: every lifetime applies its segment, the first
one starts at the beginning, the committed offset does not go back and does not pass what
has been applied, and the last lifetime reaches the end. -/
structure IsHistory (log : List (Option Bytes)) (history : List Lifetime) : Prop where
  segment : ∀ l ∈ history, l.last ≤ log.length ∧
    parsed l.calls = (log.drop l.first).take (l.last - l.first)
  starts : history.head?.map Lifetime.first = some 0
  commits : history.IsChain fun l next => l.first ≤ next.first ∧ next.first ≤ l.last
  ends : history.getLast?.map Lifetime.last = some log.length

theorem Says.segment {log : List (Option Bytes)} {ms : List AgentMsg} (h : Says log ms)
    (first last : ℕ) :
    Says ((log.drop first).take (last - first)) ((ms.drop first).take (last - first)) :=
  List.forall₂_take _ (List.forall₂_drop _ h)

/-- What a segment applies again, from a later committed offset on, changes nothing. -/
theorem run_segment (pending : Hash) (ms : List AgentMsg) {first next last : ℕ}
    (hnext : first ≤ next) (hlast : next ≤ last) :
    run (run pending (commandsOf ((ms.drop first).take (last - first))))
        (commandsOf (ms.drop next)) = run pending (commandsOf (ms.drop first)) := by
  obtain ⟨before, again, rest, hsegment, hdrop, hwhole⟩ : ∃ before again rest,
      (ms.drop first).take (last - first) = before ++ again ∧ ms.drop next = again ++ rest ∧
        ms.drop first = before ++ again ++ rest := by
    have hskip : ms.drop next = (ms.drop first).drop (next - first) := by
      rw [List.drop_drop, Nat.add_sub_cancel' hnext]
    refine ⟨(ms.drop first).take (next - first), (ms.drop next).take (last - next),
      (ms.drop next).drop (last - next), ?_, (List.take_append_drop _ _).symm, ?_⟩
    · rw [hskip, ← List.take_add]
      congr 1
      omega
    · rw [List.append_assoc, List.take_append_drop, hskip, List.take_append_drop]
  rw [hsegment, hdrop, hwhole, commandsOf, commandsOf, commandsOf, List.flatMap_append,
    List.flatMap_append, run_overlap, List.flatMap_append, List.flatMap_append]

/-- The lifetimes from one whose process finds the hash as the messages before its first
offset left it, as far as the messages behind that offset do not matter. -/
theorem deliver_eq {log : List (Option Bytes)} {ms : List AgentMsg} (hcarry : Says log ms)
    {start result : Hash} {history : List Lifetime} {l : Lifetime} {pending : Hash}
    (hsegment : ∀ k ∈ l :: history, k.last ≤ log.length ∧
      parsed k.calls = (log.drop k.first).take (k.last - k.first))
    (hcommits : (l :: history).IsChain fun k next => k.first ≤ next.first ∧ next.first ≤ k.last)
    (hends : (l :: history).getLast?.map Lifetime.last = some log.length)
    (hpending : run pending (commandsOf (ms.drop l.first)) = run start (commandsOf ms))
    (hencodable : ∀ m ∈ ms.take l.first, m.Encodable)
    (hdeliver : deliver floatRepr pending (l :: history) = some result) :
    result = run start (commandsOf ms) ∧ ∀ m ∈ ms, m.Encodable := by
  obtain ⟨t, ht, hrest⟩ := Option.bind_eq_some_iff.mp hdeliver
  obtain ⟨-, hparsed⟩ := hsegment l List.mem_cons_self
  obtain ⟨hall, hrun⟩ := (runTrue_flush_iff (hparsed ▸ hcarry.segment l.first l.last)).mp
    ⟨t, ht, rfl⟩
  induction history generalizing l pending t with
  | nil =>
    have hlast : l.last = log.length := Option.some.inj hends
    have hend : (ms.drop l.first).take (l.last - l.first) = ms.drop l.first := by
      refine List.take_of_length_le ?_
      rw [List.length_drop, hlast, hcarry.length_eq]
    rw [hend] at hall hrun
    refine ⟨?_, fun m hm => ?_⟩
    · rw [← Option.some.inj hrest, hrun, hpending]
    · rw [← List.take_append_drop l.first ms] at hm
      exact (List.mem_append.mp hm).elim (hencodable m) (hall m)
  | cons next history ih =>
    obtain ⟨⟨hle, hle'⟩, hchain⟩ := List.isChain_cons_cons.mp hcommits
    obtain ⟨u, hu, hafter⟩ := Option.bind_eq_some_iff.mp hrest
    obtain ⟨-, hparsed'⟩ := hsegment next (by simp)
    obtain ⟨hall', hrun'⟩ :=
      (runTrue_flush_iff (hparsed' ▸ hcarry.segment next.first next.last)).mp ⟨u, hu, rfl⟩
    refine ih (fun k hk => hsegment k (List.mem_cons_of_mem _ hk)) hchain
      (by rwa [List.getLast?_cons_cons] at hends) ?_ (fun m hm => ?_) hrest u hu hafter hparsed'
      hall' hrun'
    · rw [hrun, run_segment pending ms hle hle', hpending]
    · have hsub : ms.take next.first ⊆ ms.take l.first ++
          (ms.drop l.first).take (l.last - l.first) := by
        rw [← List.take_add]
        exact List.take_subset_take_left ms (by omega)
      exact (List.mem_append.mp (hsub hm)).elim (hencodable m) (hall m)

/-- **Redelivery is harmless.**  For every log of well-formed messages and every history
of lifetimes that deliver it, with overlaps after every restart: the hash in the end is the
one that applying the log once leaves. -/
theorem redelivery_harmless {log : List (Option Bytes)} {ms : List AgentMsg}
    (hcarry : Says log ms) {history : List Lifetime} (hist : IsHistory log history)
    {pending result : Hash} (hdeliver : deliver floatRepr pending history = some result) :
    ∃ t, (Session.mk .init pending).runTrue floatRepr (log.map .parse ++ [.flush]) = some t ∧
      t.pending = result := by
  have hlog : ∀ vs : List (Option Bytes), parsed (vs.map .parse) = vs := by
    intro vs
    induction vs with
    | nil => rfl
    | cons v vs ih => rw [List.map_cons, parsed, ih]
  rcases history with _ | ⟨l, history⟩
  · cases hist.starts
  · have hfirst : l.first = 0 := Option.some.inj hist.starts
    obtain ⟨hresult, hall⟩ := deliver_eq hcarry hist.segment hist.commits hist.ends
      (by rw [hfirst, List.drop_zero]) (by rw [hfirst, List.take_zero]; simp) hdeliver
    exact (runTrue_flush_iff ((hlog log).symm ▸ hcarry)).mpr ⟨hall, hresult⟩

/-- The first process commits behind the first message and is restarted after it has
applied two. -/
def chainHistory : List Lifetime := [
  ⟨0, 2, [.parse chainLog[0], .flush, .parse chainLog[1]]⟩,
  ⟨1, 3, [.parse chainLog[1], .parse chainLog[2]]⟩]

theorem redelivery_harmless_chain :
    ∃ t, (Session.mk .init ∅).runTrue id (chainLog.map .parse ++ [.flush]) = some t ∧
      deliver id ∅ chainHistory = some t.pending := by
  have hist : IsHistory chainLog chainHistory := by
    refine ⟨fun l hl => ?_, rfl, by simp [chainHistory], rfl⟩
    rcases List.mem_cons.mp hl with rfl | hl
    · exact ⟨by decide, by decide +kernel⟩
    · rw [List.mem_singleton.mp hl]
      exact ⟨by decide, by decide +kernel⟩
  have hsome : (deliver id ∅ chainHistory).isSome = true := by decide +kernel
  obtain ⟨result, hresult⟩ := Option.isSome_iff_exists.mp hsome
  obtain ⟨t, hrun, rfl⟩ := redelivery_harmless says_chain hist hresult
  exact ⟨t, hrun, hresult⟩

end Consumer
end FileTracker
