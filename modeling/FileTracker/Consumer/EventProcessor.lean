import FileTracker.Library.PyJson
import FileTracker.Library.LastWriter

/-!
# The event processor

`EventProcessor` of `consumer/consumer.py`: `parseEvent` turns a Kafka message
value into an action in the batch without touching Redis, and `flushBatch` sends
the whole batch as one Redis pipeline.

The arguments in the batch are the Python values `event.get` returned, whatever
their type.  What Redis makes of them is decided when the pipeline is encoded,
inside `flushBatch`, and an argument the client cannot encode fails the pipeline
there.

The second half states what the code does with *well-formed* messages, those
`wellFormed` reads an `AgentMsg` from: `parseEvent` appends the actions of the
message, and a flush of such actions runs their commands on the `pending` hash.
-/

namespace FileTracker
namespace Consumer

open LastWriter PyJson

/-- A Redis hash: fields and values as the client's strings. -/
abbrev Hash := Map Text Text

/-- A Redis hash command with its arguments encoded. -/
abbrev HashCmd := Cmd Text Text

/-! ## The code -/

/-- An action in the batch, with its arguments. -/
inductive Action where
  | hset (path eventType : Json)
  | rename (oldPath newPath : Json)

/-- `EventProcessor`: its statistics and its batch. -/
structure EventProcessor where
  processed : ℕ
  skippedDelete : ℕ
  errors : ℕ
  batch : List Action

/-- `EventProcessor.__init__`. -/
def EventProcessor.init : EventProcessor := ⟨0, 0, 0, []⟩

/-- `batch_size`. -/
def EventProcessor.batchSize (p : EventProcessor) : ℕ := p.batch.length

/-- The float a lexeme denotes is zero: its digits are all zero, or its magnitude
is at most half the least subnormal number. -/
def floatIsZero (lexeme : Text) : Bool :=
  let mantissa := lexeme.takeWhile fun c => c.val != 0x65 && c.val != 0x45
  let whole := mantissa.filter isDigit
  let decimals := ((mantissa.dropWhile fun c => c.val != 0x2E).filter isDigit).length
  let expPart := lexeme.drop mantissa.length
  let e := ofDecimal (expPart.filter isDigit)
  let negative := expPart.any fun c => c.val == 0x2D
  if whole = [] then false
  else if negative then ofDecimal whole * 2 ^ 1075 ≤ 10 ^ (decimals + e)
  else ofDecimal whole * 2 ^ 1075 * 10 ^ e ≤ 10 ^ decimals

/-- The truth value of a Python object. -/
def truthy : Json → Bool
  | .null => false
  | .bool b => b
  | .int i => i != 0
  | .float lexeme => !floatIsZero lexeme
  | .str s => s != []
  | .array xs => !xs.isEmpty
  | .object ms => !ms.isEmpty

/-- `dict.get` of a key, `None` where it is missing. -/
def getOrNone (ms : List (Text × Json)) (key : Text) : Json := (get ms key).getD .null

/-- Comparison of a Python object with a string literal. -/
def isStr (v : Json) (s : Text) : Bool :=
  match v with
  | .str t => t == s
  | _ => false

def EventProcessor.countError (p : EventProcessor) : EventProcessor :=
  { p with errors := p.errors + 1 }

/-- The part of `parse_event` behind `json.loads`: `event.get` needs a dict, and a warning
prints what it is about before the error is counted. -/
def EventProcessor.handle (p : EventProcessor) : Json → Except PyError EventProcessor
  | .object ms =>
    let eventType := getOrNone ms (text "event")
    if isStr eventType (text "delete") then
      .ok { p with skippedDelete := p.skippedDelete + 1, processed := p.processed + 1 }
    else if isStr eventType (text "rename") then
      let oldPath := getOrNone ms (text "old_path")
      let newPath := getOrNone ms (text "new_path")
      if !truthy oldPath || !truthy newPath then
        (logWarning (.object ms)).map fun _ => p.countError
      else .ok { p with
        batch := p.batch ++ [.rename oldPath newPath], processed := p.processed + 1 }
    else if isStr eventType (text "mtime_change") then
      let path := getOrNone ms (text "path")
      if truthy path then
        .ok { p with
          batch := p.batch ++ [.hset path eventType], processed := p.processed + 1 }
      else .ok { p with processed := p.processed + 1 }
    else (logWarning eventType).map fun _ => p.countError
  | _ => .error .attributeError

/-- `parse_event` on a message value, `none` for a null value.  Only
`JSONDecodeError` is caught. -/
def EventProcessor.parseEvent (p : EventProcessor) :
    Option Bytes → Except PyError EventProcessor
  | none => .error .typeError
  | some msgValue =>
    match jsonLoads msgValue with
    | .ok event => p.handle event
    | .error .jsonDecodeError => .ok p.countError
    | .error e => .error e

/-- A pipeline command with the Python objects it was given. -/
inductive RawCmd where
  | hset (field value : Json)
  | hdel (field : Json)

/-- The commands `flush_batch` puts into the pipeline for an action. -/
def Action.commands : Action → List RawCmd
  | .hset path eventType => [.hset path eventType]
  | .rename oldPath newPath => [.hdel oldPath, .hset newPath (.str (text "rename"))]

section Redis

variable (floatRepr : Text → Text)

/-- `Encoder.encode` of the Redis client: strings strictly as UTF-8, numbers by
their `repr`, anything else is a `DataError`.  `floatRepr` is the `repr` of the
float a lexeme denotes. -/
def encodeArg : Json → Except PyError Text
  | .str s => if Utf8.Scalar s then .ok s else .error .unicodeEncodeError
  | .int i =>
    .ok (Utf8.asciiText ((if i < 0 then [0x2D] else []) ++ ascii (toString i.natAbs)))
  | .float lexeme => .ok (floatRepr lexeme)
  | _ => .error .dataError

def RawCmd.encode : RawCmd → Except PyError HashCmd
  | .hset field value =>
    match encodeArg floatRepr field, encodeArg floatRepr value with
    | .ok f, .ok v => .ok (.set f v)
    | .error e, _ => .error e
    | _, .error e => .error e
  | .hdel field =>
    match encodeArg floatRepr field with
    | .ok f => .ok (.del f)
    | .error e => .error e

/-- All commands of a pipeline are encoded before the first one is sent. -/
def encodePipeline : List RawCmd → Except PyError (List HashCmd)
  | [] => .ok []
  | c :: cs =>
    match c.encode floatRepr, encodePipeline cs with
    | .ok d, .ok ds => .ok (d :: ds)
    | .error e, _ => .error e
    | _, .error e => .error e

/-- What the connection does to a pipeline: it executes it, or it raises a
`RedisError`, with the transaction applied on the server or not. -/
inductive Reply where
  | ok
  | redisError (applied : Bool)
  deriving DecidableEq, Repr

/-- The exceptions of `redis.exceptions.RedisError`. -/
def isRedisError : PyError → Bool
  | .redisError => true
  | .dataError => true
  | _ => false

/-- What a call of `flush_batch` leaves behind: the value it returns or the
exception it raises, the processor, and the `pending` hash. -/
structure FlushResult where
  outcome : Except PyError Bool
  processor : EventProcessor
  pending : Hash

/-- `flush_batch`. -/
def EventProcessor.flushBatch (p : EventProcessor) (reply : Reply) (pending : Hash) :
    FlushResult :=
  if p.batch = [] then ⟨.ok true, p, pending⟩
  else
    let cleared := { p with batch := [] }
    match encodePipeline floatRepr (p.batch.flatMap Action.commands), reply with
    | .ok cmds, .ok => ⟨.ok true, cleared, run pending cmds⟩
    | .ok cmds, .redisError true => ⟨.ok false, cleared, run pending cmds⟩
    | .ok _, .redisError false => ⟨.ok false, cleared, pending⟩
    | .error e, .ok =>
      if isRedisError e then ⟨.ok false, cleared, pending⟩ else ⟨.error e, p, pending⟩
    | .error _, .redisError _ => ⟨.ok false, cleared, pending⟩

end Redis

/-! ## What a value puts into the batch -/

/-- What `parse_event` warns of in an event: a rename without its paths, as a whole, or an
event type that is not known. -/
def warned (ms : List (Text × Json)) : Option Json :=
  let eventType := getOrNone ms (text "event")
  if isStr eventType (text "delete") then none
  else if isStr eventType (text "rename") then
    if truthy (getOrNone ms (text "old_path")) && truthy (getOrNone ms (text "new_path")) then none
    else some (.object ms)
  else if isStr eventType (text "mtime_change") then none
  else some eventType

/-- `json.loads` returns an object, of which nothing has to be printed that is nested too
deeply; or raises the one exception that is caught. -/
def Parseable : Option Bytes → Prop
  | none => False
  | some msgValue =>
    match jsonLoads msgValue with
    | .ok (.object ms) => ∀ v, warned ms = some v → reprDepth v ≤ reprLimit
    | .error .jsonDecodeError => True
    | _ => False

/-- The actions an event asks for, with whatever its path fields hold. -/
def eventActions (ms : List (Text × Json)) : List Action :=
  let eventType := getOrNone ms (text "event")
  if isStr eventType (text "rename") then
    let oldPath := getOrNone ms (text "old_path")
    let newPath := getOrNone ms (text "new_path")
    if truthy oldPath && truthy newPath then [.rename oldPath newPath] else []
  else if isStr eventType (text "mtime_change") then
    let path := getOrNone ms (text "path")
    if truthy path then [.hset path eventType] else []
  else []

/-- The actions of a message value. -/
def valueActions : Option Bytes → List Action
  | none => []
  | some msgValue =>
    match jsonLoads msgValue with
    | .ok (.object ms) => eventActions ms
    | _ => []

/-! ## Well-formed messages -/

/-- What an agent's message says. -/
inductive AgentMsg where
  | delete
  | mtimeChange (path : Text)
  | rename (oldPath newPath : Text)
  deriving DecidableEq

/-- A nonempty string. -/
def nonemptyStr : Json → Option Text
  | .str s => if s = [] then none else some s
  | _ => none

/-- The message a value carries, where it is well formed: a JSON object with an
event of the agent and a nonempty string in every path field the event needs. -/
def wellFormed : Option Bytes → Option AgentMsg
  | none => none
  | some msgValue =>
    match jsonLoads msgValue with
    | .ok (.object ms) =>
      let eventType := getOrNone ms (text "event")
      if isStr eventType (text "delete") then some .delete
      else if isStr eventType (text "rename") then
        match nonemptyStr (getOrNone ms (text "old_path")),
          nonemptyStr (getOrNone ms (text "new_path")) with
        | some o, some n => some (.rename o n)
        | _, _ => none
      else if isStr eventType (text "mtime_change") then
        (nonemptyStr (getOrNone ms (text "path"))).map .mtimeChange
      else none
    | _ => none

/-- The actions a message puts into the batch. -/
def AgentMsg.actions : AgentMsg → List Action
  | .delete => []
  | .mtimeChange path => [.hset (.str path) (.str (text "mtime_change"))]
  | .rename oldPath newPath => [.rename (.str oldPath) (.str newPath)]

/-- The Redis commands of a message. -/
def AgentMsg.commands : AgentMsg → List HashCmd
  | .delete => []
  | .mtimeChange path => [.set path (text "mtime_change")]
  | .rename oldPath newPath => [.del oldPath, .set newPath (text "rename")]

/-- The paths of a message can be sent as strict UTF-8. -/
def AgentMsg.Encodable : AgentMsg → Prop
  | .delete => True
  | .mtimeChange path => Utf8.Scalar path
  | .rename oldPath newPath => Utf8.Scalar oldPath ∧ Utf8.Scalar newPath

theorem nonemptyStr_eq_some {v : Json} {s : Text} (h : nonemptyStr v = some s) :
    v = .str s ∧ truthy v = true := by
  cases v with
  | str t =>
    simp only [nonemptyStr, Option.ite_none_left_eq_some, Option.some.injEq] at h
    obtain ⟨hne, rfl⟩ := h
    exact ⟨rfl, by simpa [truthy] using hne⟩
  | _ => simp [nonemptyStr] at h

theorem isStr_iff {v : Json} {s : Text} : isStr v s = true ↔ v = .str s := by
  cases v <;> simp [isStr]

/-- Two literals are not both the value. -/
theorem isStr_eq_false {v : Json} {s t : Text} (h : isStr v s = true) (hne : s ≠ t) :
    isStr v t = false := by
  rw [isStr_iff.mp h]
  simpa [isStr] using hne

theorem map_logWarning {α : Type} (v : Json) (a : α) : ((logWarning v).map fun _ => a) =
    if reprDepth v ≤ reprLimit then .ok a else .error .recursionError := by
  unfold logWarning
  split_ifs <;> rfl

/-- An object is handled exactly when what is warned of can be printed. -/
theorem handle_object (p : EventProcessor) (ms : List (Text × Json)) :
    (∀ v, warned ms = some v → reprDepth v ≤ reprLimit) ∧
        (∃ q, p.handle (.object ms) = .ok q ∧ q.batch = p.batch ++ eventActions ms) ∨
      ¬ (∀ v, warned ms = some v → reprDepth v ≤ reprLimit) ∧
        p.handle (.object ms) = .error .recursionError := by
  have hne : text "delete" ≠ text "rename" ∧ text "delete" ≠ text "mtime_change" := by
    decide +kernel
  unfold EventProcessor.handle eventActions warned
  simp only [map_logWarning]
  cases hdel : isStr (getOrNone ms (text "event")) (text "delete") with
  | true =>
    rw [isStr_eq_false hdel hne.1, isStr_eq_false hdel hne.2]
    exact Or.inl ⟨nofun, _, rfl, (List.append_nil _).symm⟩
  | false =>
    simp only [Bool.false_eq_true, if_false]
    cases isStr (getOrNone ms (text "event")) (text "rename") with
    | true =>
      simp only [if_true, ← Bool.not_and]
      cases truthy (getOrNone ms (text "old_path")) && truthy (getOrNone ms (text "new_path")) with
      | true => exact Or.inl ⟨nofun, _, rfl, rfl⟩
      | false =>
        by_cases hdepth : reprDepth (.object ms) ≤ reprLimit <;>
          simp [hdepth, EventProcessor.countError]
    | false =>
      simp only [Bool.false_eq_true, if_false]
      cases isStr (getOrNone ms (text "event")) (text "mtime_change") with
      | true =>
        simp only [if_true]
        cases truthy (getOrNone ms (text "path")) <;> simp
      | false =>
        by_cases hdepth : reprDepth (getOrNone ms (text "event")) ≤ reprLimit <;>
          simp [hdepth, EventProcessor.countError]

/-- **What `parse_event` does**: it appends the actions of a value, unless it
raises. -/
theorem parseEvent_of_parseable (p : EventProcessor) {v : Option Bytes} (h : Parseable v) :
    ∃ q, p.parseEvent v = .ok q ∧ q.batch = p.batch ++ valueActions v := by
  cases v with
  | none => exact h.elim
  | some b =>
    unfold Parseable at h
    unfold EventProcessor.parseEvent valueActions
    cases hload : jsonLoads b with
    | error e =>
      cases e with
      | jsonDecodeError =>
        simp only [hload]
        exact ⟨_, rfl, (List.append_nil _).symm⟩
      | _ => simp [hload] at h
    | ok event =>
      cases event with
      | object ms =>
        simp only [hload] at h ⊢
        exact ((handle_object p ms).resolve_right fun hdeep => hdeep.1 h).2
      | _ => simp [hload] at h

theorem parseable_of_parseEvent {p q : EventProcessor} {v : Option Bytes}
    (h : p.parseEvent v = .ok q) : Parseable v := by
  cases v with
  | none => cases h
  | some b =>
    unfold EventProcessor.parseEvent at h
    unfold Parseable
    cases hload : jsonLoads b with
    | error e => cases e <;> simp_all
    | ok event =>
      cases event with
      | object ms =>
        simp only [hload] at h ⊢
        rcases handle_object p ms with hshallow | ⟨-, hdeep⟩
        · exact hshallow.1
        · rw [hdeep] at h
          cases h
      | _ => simp_all [EventProcessor.handle]

/-- A well-formed message can be parsed, and its actions are those of the message. -/
theorem valueActions_wellFormed {v : Option Bytes} {m : AgentMsg} (h : wellFormed v = some m) :
    Parseable v ∧ valueActions v = m.actions := by
  cases v with
  | none => simp [wellFormed] at h
  | some b =>
    unfold wellFormed at h
    unfold Parseable valueActions
    cases hload : jsonLoads b with
    | error e => simp [hload] at h
    | ok event =>
      cases event with
      | object ms =>
        have hne : text "delete" ≠ text "rename" ∧ text "delete" ≠ text "mtime_change" := by
          decide +kernel
        simp only [hload] at h ⊢
        unfold eventActions warned
        simp only
        split_ifs at h with hdel hren hmt
        · obtain rfl := Option.some.inj h
          rw [if_pos hdel, isStr_eq_false hdel hne.1, isStr_eq_false hdel hne.2]
          exact ⟨nofun, rfl⟩
        · rw [if_neg hdel, if_pos hren, if_pos hren]
          cases ho : nonemptyStr (getOrNone ms (text "old_path")) with
          | none => simp [ho] at h
          | some o =>
            cases hn : nonemptyStr (getOrNone ms (text "new_path")) with
            | none => simp [ho, hn] at h
            | some n =>
              obtain rfl : AgentMsg.rename o n = m := by simpa [ho, hn] using h
              obtain ⟨hov, hot⟩ := nonemptyStr_eq_some ho
              obtain ⟨hnv, hnt⟩ := nonemptyStr_eq_some hn
              rw [hot, hnt, hov, hnv]
              exact ⟨nofun, rfl⟩
        · rw [if_neg hdel, if_neg hren, if_pos hmt, if_neg hren, if_pos hmt]
          obtain ⟨path, hpath, rfl⟩ := Option.map_eq_some_iff.mp h
          obtain ⟨hv, ht⟩ := nonemptyStr_eq_some hpath
          rw [if_pos ht, hv, isStr_iff.mp hmt]
          exact ⟨nofun, rfl⟩
      | _ => simp [hload] at h

theorem encodeArg_scalar (floatRepr : Text → Text) {s : Text} (h : Utf8.Scalar s) :
    encodeArg floatRepr (.str s) = .ok s := by
  rw [encodeArg, if_pos h]

theorem scalar_eventValues :
    Utf8.Scalar (text "mtime_change") ∧ Utf8.Scalar (text "rename") := by
  decide +kernel

/-- **What the encoding of a pipeline is**: the commands one by one. -/
theorem encodePipeline_eq_ok_iff (floatRepr : Text → Text) {cs : List RawCmd}
    {ds : List HashCmd} : encodePipeline floatRepr cs = .ok ds ↔
      List.Forall₂ (fun c d => RawCmd.encode floatRepr c = .ok d) cs ds := by
  induction cs generalizing ds with
  | nil =>
    rw [List.forall₂_nil_left_iff, encodePipeline, Except.ok.injEq, eq_comm]
  | cons c cs ih =>
    rw [List.forall₂_cons_left_iff, encodePipeline]
    constructor
    · intro h
      split at h
      · rename_i d es hd hes
        exact ⟨d, es, hd, ih.mp hes, (Except.ok.inj h).symm⟩
      · simp at h
      · simp at h
    · rintro ⟨d, es, hd, hes, rfl⟩
      rw [hd, ih.mpr hes]

theorem encodePipeline_append (floatRepr : Text → Text) {cs₁ cs₂ : List RawCmd}
    {ds₁ ds₂ : List HashCmd} (h₁ : encodePipeline floatRepr cs₁ = .ok ds₁)
    (h₂ : encodePipeline floatRepr cs₂ = .ok ds₂) :
    encodePipeline floatRepr (cs₁ ++ cs₂) = .ok (ds₁ ++ ds₂) := by
  rw [encodePipeline_eq_ok_iff] at h₁ h₂ ⊢
  exact List.rel_append h₁ h₂

theorem exists_of_encodePipeline_append (floatRepr : Text → Text) {cs₁ cs₂ : List RawCmd}
    {ds : List HashCmd} (h : encodePipeline floatRepr (cs₁ ++ cs₂) = .ok ds) :
    ∃ ds₁ ds₂, encodePipeline floatRepr cs₁ = .ok ds₁ ∧
      encodePipeline floatRepr cs₂ = .ok ds₂ ∧ ds = ds₁ ++ ds₂ := by
  rw [encodePipeline_eq_ok_iff] at h
  have h₁ := (List.forall₂_take_append ds cs₁ cs₂ h.flip).flip
  have h₂ := (List.forall₂_drop_append ds cs₁ cs₂ h.flip).flip
  exact ⟨_, _, (encodePipeline_eq_ok_iff floatRepr).mpr h₁,
    (encodePipeline_eq_ok_iff floatRepr).mpr h₂, (List.take_append_drop _ ds).symm⟩

/-- The actions of an encodable message encode to its commands. -/
theorem encodePipeline_actions (floatRepr : Text → Text) {m : AgentMsg} (h : m.Encodable) :
    encodePipeline floatRepr (m.actions.flatMap Action.commands) = .ok m.commands := by
  cases m with
  | delete => rfl
  | mtimeChange path =>
    have hp := encodeArg_scalar floatRepr (s := path) h
    have ht := encodeArg_scalar floatRepr scalar_eventValues.1
    simp [AgentMsg.actions, AgentMsg.commands, Action.commands, encodePipeline, RawCmd.encode,
      hp, ht]
  | rename oldPath newPath =>
    have ho := encodeArg_scalar floatRepr (s := oldPath) h.1
    have hn := encodeArg_scalar floatRepr (s := newPath) h.2
    have ht := encodeArg_scalar floatRepr scalar_eventValues.2
    simp [AgentMsg.actions, AgentMsg.commands, Action.commands, encodePipeline, RawCmd.encode,
      ho, hn, ht]

theorem encodePipeline_messages (floatRepr : Text → Text) {ms : List AgentMsg}
    (h : ∀ m ∈ ms, m.Encodable) :
    encodePipeline floatRepr ((ms.flatMap AgentMsg.actions).flatMap Action.commands) =
      .ok (ms.flatMap AgentMsg.commands) := by
  induction ms with
  | nil => rfl
  | cons m ms ih =>
    rw [List.flatMap_cons, List.flatMap_append, List.flatMap_cons]
    exact encodePipeline_append floatRepr
      (encodePipeline_actions floatRepr (h m List.mem_cons_self))
      (ih fun k hk => h k (List.mem_cons_of_mem _ hk))

/-- An argument that is a string is encoded as it is, or not at all. -/
theorem scalar_of_encodeArg {floatRepr : Text → Text} {s t : Text}
    (h : encodeArg floatRepr (.str s) = .ok t) :
    Utf8.Scalar s := by
  by_contra hs
  rw [encodeArg, if_neg hs] at h
  cases h

theorem scalar_of_encode_hset {floatRepr : Text → Text} {s : Text} {v : Json} {d : HashCmd}
    (h : RawCmd.encode floatRepr (.hset (.str s) v) = .ok d) : Utf8.Scalar s := by
  simp only [RawCmd.encode] at h
  split at h
  · rename_i f _ hf _
    exact scalar_of_encodeArg hf
  · cases h
  · cases h

theorem scalar_of_encode_hdel {floatRepr : Text → Text} {s : Text} {d : HashCmd}
    (h : RawCmd.encode floatRepr (.hdel (.str s)) = .ok d) : Utf8.Scalar s := by
  simp only [RawCmd.encode] at h
  split at h
  · rename_i f hf
    exact scalar_of_encodeArg hf
  · cases h

/-- A message whose actions can be encoded is an encodable one. -/
theorem encodable_of_encodePipeline {floatRepr : Text → Text} {m : AgentMsg}
    {cmds : List HashCmd}
    (h : encodePipeline floatRepr (m.actions.flatMap Action.commands) = .ok cmds) :
    m.Encodable := by
  rw [encodePipeline_eq_ok_iff] at h
  cases m with
  | delete => trivial
  | mtimeChange path =>
    obtain ⟨d, ds, hd, -, -⟩ := List.forall₂_cons_left_iff.mp h
    exact scalar_of_encode_hset hd
  | rename oldPath newPath =>
    obtain ⟨d, ds, hd, hrest, -⟩ := List.forall₂_cons_left_iff.mp h
    obtain ⟨e, es, he, -, -⟩ := List.forall₂_cons_left_iff.mp hrest
    exact ⟨scalar_of_encode_hdel hd, scalar_of_encode_hset he⟩

theorem encodable_of_encodePipeline_messages {floatRepr : Text → Text} {ms : List AgentMsg}
    {cmds : List HashCmd}
    (h : encodePipeline floatRepr ((ms.flatMap AgentMsg.actions).flatMap Action.commands) =
      .ok cmds) : ∀ m ∈ ms, m.Encodable := by
  induction ms generalizing cmds with
  | nil => simp
  | cons m ms ih =>
    rw [List.flatMap_cons, List.flatMap_append] at h
    obtain ⟨first, rest, hfirst, hrest, -⟩ := exists_of_encodePipeline_append floatRepr h
    exact List.forall_mem_cons.mpr ⟨encodable_of_encodePipeline hfirst, ih hrest⟩

end Consumer
end FileTracker
