import FileTracker.Agent.Probe

/-!
# The scratch buffer

`emit_event` builds its record in a buffer that each processor has one of, and which
holds what the last record left there.  The names are C strings in slots of
`MAX_NAME_LEN` bytes; `bpf_probe_read_kernel_str` writes a name and its terminator and
nothing behind them.  User space gets a copy of the whole buffer and reads the first
`depth` names from it.

What is left over in the buffer is never seen: the names that user space reads are those
of `emitEvent`, which has no buffer (`cNames_emitEventInto`).  What is seen is the end of
the loop after `MAX_DEPTH` rounds.  The record of a file that lies deeper spells the last
`MAX_DEPTH` names of its path as if they were all of it, so that the path comes out right
exactly for the files that do not (`carries_iff`).
-/

namespace FileTracker
namespace Agent

/-! ## The buffer -/

/-- One entry of the array `names`. -/
structure Slot where
  bytes : Bytes
  length_eq : bytes.length = MAX_NAME_LEN

/-- The C string at the beginning of a slot. -/
def Slot.cString (s : Slot) : Bytes := s.bytes.takeWhile (· != 0)

theorem length_readKernelStr_lt (name : Bytes) : (readKernelStr name).length < MAX_NAME_LEN :=
  Nat.lt_of_le_of_lt (List.length_take_le _ _) (by decide)

/-- `bpf_probe_read_kernel_str` into a slot: the string, its terminator, and what was
behind them before. -/
def Slot.readKernelStr (s : Slot) (name : Bytes) : Slot where
  bytes := Agent.readKernelStr name ++ 0 :: s.bytes.drop ((Agent.readKernelStr name).length + 1)
  length_eq := by
    have hlt := length_readKernelStr_lt name
    rw [List.length_append, List.length_cons, List.length_drop, s.length_eq]
    omega

/-- `struct file_event`, as it lies in memory. -/
structure RawEvent where
  names : List Slot
  length_eq : names.length = MAX_DEPTH
  depth : ℕ
  eventType : EventType

/-- The names that user space reads. -/
def RawEvent.cNames (evt : RawEvent) : List Bytes := (evt.names.take evt.depth).map Slot.cString

/-- `build_path` on the record as it lies in memory. -/
def RawEvent.buildPath (evt : RawEvent) : Bytes :=
  if joinNames evt.cNames = [] then [slash] else joinNames evt.cNames

/-- A round of the loop of `emit_event`: the name goes into the slot `i`. -/
def RawEvent.put (evt : RawEvent) (i : ℕ) (name : Bytes) : RawEvent where
  names := evt.names.modify i fun slot => slot.readKernelStr name
  length_eq := by rw [List.length_modify, evt.length_eq]
  depth := i + 1
  eventType := evt.eventType

/-- The loop of `emit_event` from the round `i` on, with `n` rounds to go. -/
def RawEvent.fill (evt : RawEvent) : ℕ → ℕ → List Bytes → RawEvent
  | _, 0, _ => evt
  | _, _ + 1, [] => evt
  | i, n + 1, name :: parents =>
    if name.length = 0 then evt else (evt.put i name).fill (i + 1) n parents

/-- `emit_event` with the buffer it finds: the buffer it leaves, and the record. -/
def emitEventInto (scratch : RawEvent) (dentry : Dentry) (eventType : EventType) :
    RawEvent × Option RawEvent :=
  let evt := RawEvent.fill { scratch with eventType := eventType, depth := 0 } 0 MAX_DEPTH
    dentry.names
  (evt, if evt.depth = 0 then none else some evt)

/-- What is claimed of the record of a file: it carries the path of the file, and never a
proper suffix of the path in its place. -/
structure Carries (d : Dentry) (record : Option RawEvent) : Prop where
  path_eq : ∀ evt, record = some evt → evt.buildPath = d.path
  not_suffix : ∀ evt, record = some evt → ¬ (evt.buildPath <:+ d.path ∧ evt.buildPath ≠ d.path)

/-! ## What user space reads -/

/-- The string that was written is read, whatever the slot held. -/
theorem Slot.cString_readKernelStr (s : Slot) (name : Bytes) :
    (s.readKernelStr name).cString = Agent.readKernelStr name := by
  have hall : ∀ b ∈ Agent.readKernelStr name, (b != 0) = true := by
    intro b hb
    exact List.mem_takeWhile_imp (p := (· != 0)) (List.mem_of_mem_take hb)
  rw [Slot.cString, Slot.readKernelStr, List.takeWhile_append_of_pos hall,
    List.takeWhile_cons_of_neg (by decide), List.append_nil]

/-- A round adds its name to those that are read. -/
theorem RawEvent.cNames_put {evt : RawEvent} {i : ℕ} (hi : i < MAX_DEPTH) (hdepth : evt.depth = i)
    (name : Bytes) : (evt.put i name).cNames = evt.cNames ++ [readKernelStr name] := by
  have hlt : i < evt.names.length := by rw [evt.length_eq]; exact hi
  have hmodify : (evt.names.modify i fun slot => slot.readKernelStr name).take (i + 1) =
      evt.names.take i ++ [(evt.names[i]).readKernelStr name] := by
    have hfront : (evt.names.take i).length = i := List.length_take_of_le (Nat.le_of_lt hlt)
    rw [List.modify_eq_take_cons_drop hlt, List.take_append, hfront, Nat.add_sub_cancel_left,
      List.take_of_length_le (by omega)]
    rfl
  show ((evt.names.modify i fun slot => slot.readKernelStr name).take (i + 1)).map Slot.cString =
    (evt.names.take evt.depth).map Slot.cString ++ [readKernelStr name]
  rw [hmodify, hdepth, List.map_append, List.map_cons, List.map_nil, Slot.cString_readKernelStr]

/-- **The loop appends the names it walks over.** -/
theorem RawEvent.cNames_fill {evt : RawEvent} {i n : ℕ} (hbound : i + n = MAX_DEPTH)
    (hdepth : evt.depth = i) (names : List Bytes) :
    (evt.fill i n names).cNames = evt.cNames ++ walk n names := by
  induction n generalizing evt i names with
  | zero => rw [RawEvent.fill, walk, List.append_nil]
  | succ n ih =>
    cases names with
    | nil => rw [RawEvent.fill, walk, List.append_nil]
    | cons name parents =>
      unfold RawEvent.fill walk
      split_ifs
      · rw [List.append_nil]
      · have hput : (evt.put i name).depth = i + 1 := rfl
        have hi : i < MAX_DEPTH := by omega
        rw [ih (by omega) hput parents, cNames_put hi hdepth, List.append_assoc,
          List.singleton_append]

theorem RawEvent.depth_fill {evt : RawEvent} {i n : ℕ} (hdepth : evt.depth = i)
    (names : List Bytes) : (evt.fill i n names).depth = i + (walk n names).length := by
  induction n generalizing evt i names with
  | zero => exact hdepth
  | succ n ih =>
    cases names with
    | nil => exact hdepth
    | cons name parents =>
      unfold RawEvent.fill walk
      split_ifs
      · exact hdepth
      · have hput : (evt.put i name).depth = i + 1 := rfl
        rw [ih hput parents, List.length_cons]
        omega

theorem RawEvent.eventType_fill (evt : RawEvent) (i n : ℕ) (names : List Bytes) :
    (evt.fill i n names).eventType = evt.eventType := by
  induction n generalizing evt i names with
  | zero => rfl
  | succ n ih =>
    cases names with
    | nil => rfl
    | cons name parents =>
      unfold RawEvent.fill
      split_ifs
      · rfl
      · exact ih (evt.put i name) (i + 1) parents

/-- `emitEvent`, written with the names that the walk finds. -/
theorem emitEvent_eq_ite (d : Dentry) (eventType : EventType) : emitEvent d eventType =
    if walk MAX_DEPTH d.names = [] then none else some ⟨recordNames d.names, eventType⟩ := rfl

/-- **The buffer is not seen**: a record comes out when `emitEvent` has one, with the
same names, whatever the buffer held. -/
theorem cNames_emitEventInto (scratch : RawEvent) (d : Dentry) (eventType : EventType) :
    ((emitEventInto scratch d eventType).2.map fun evt => (evt.cNames, evt.eventType)) =
      (emitEvent d eventType).map fun evt => (evt.names, evt.eventType) := by
  set start : RawEvent := { scratch with eventType := eventType, depth := 0 } with hstart
  have hnames : (start.fill 0 MAX_DEPTH d.names).cNames = walk MAX_DEPTH d.names := by
    rw [RawEvent.cNames_fill (Nat.zero_add _) rfl]
    rfl
  have hdepth : (start.fill 0 MAX_DEPTH d.names).depth = (walk MAX_DEPTH d.names).length := by
    rw [RawEvent.depth_fill rfl, Nat.zero_add]
  have htype : (start.fill 0 MAX_DEPTH d.names).eventType = eventType :=
    RawEvent.eventType_fill start 0 MAX_DEPTH d.names
  have hinto : (emitEventInto scratch d eventType).2 = if walk MAX_DEPTH d.names = [] then none
      else some (start.fill 0 MAX_DEPTH d.names) := by
    simp only [emitEventInto, ← hstart, hdepth, List.length_eq_zero_iff]
  rw [hinto, emitEvent_eq_ite]
  split_ifs
  · rfl
  · rw [Option.map_some, Option.map_some, hnames, htype]
    rfl

/-- The walk goes as far as the names do, up to `n` of them. -/
theorem walk_names_eq_take (n : ℕ) (d : Dentry) : walk n d.names = d.names.take n := by
  induction d generalizing n with
  | nil => cases n <;> rfl
  | cons name d ih =>
    cases n with
    | zero => rfl
    | succ n =>
      have hlen : ¬ name.bytes.length = 0 := fun h0 => name.ne_nil (List.length_eq_zero_iff.mp h0)
      show (if name.bytes.length = 0 then [] else readKernelStr name.bytes :: walk n (Dentry.names d)) =
        name.bytes :: (Dentry.names d).take n
      rw [if_neg hlen, readKernelStr_bytes, ih]

/-- What is read from the record of a file, if there is one. -/
theorem cNames_of_emitEventInto {scratch : RawEvent} {d : Dentry} {eventType : EventType}
    {evt : RawEvent} (h : (emitEventInto scratch d eventType).2 = some evt) :
    evt.cNames = d.names.take MAX_DEPTH := by
  have hmap := cNames_emitEventInto scratch d eventType
  rw [h, Option.map_some] at hmap
  obtain ⟨record, hrecord, heq⟩ := Option.map_eq_some_iff.mp hmap.symm
  rw [emitEvent_eq_ite] at hrecord
  split_ifs at hrecord
  obtain rfl := Option.some.inj hrecord
  rw [← (Prod.mk.inj heq).1]
  exact walk_names_eq_take MAX_DEPTH d

/-- There is a record of every file but the root. -/
theorem exists_emitEventInto (scratch : RawEvent) {d : Dentry} (hd : d ≠ []) (eventType : EventType) :
    ∃ evt, (emitEventInto scratch d eventType).2 = some evt := by
  obtain ⟨name, parents, rfl⟩ := List.exists_cons_of_ne_nil hd
  have hwalk : walk MAX_DEPTH (Dentry.names (name :: parents)) ≠ [] := by
    rw [walk_names_eq_take]
    exact List.cons_ne_nil _ _
  have hmap := cNames_emitEventInto scratch (name :: parents) eventType
  rw [emitEvent_eq_ite, if_neg hwalk] at hmap
  obtain ⟨evt, hevt, -⟩ := Option.map_eq_some_iff.mp hmap
  exact ⟨evt, hevt⟩

theorem joinNames_append (names parents : List Bytes) :
    joinNames (names ++ parents) = joinNames parents ++ joinNames names := by
  rw [joinNames, List.reverse_append, List.flatMap_append]
  rfl

theorem joinNames_ne_nil {names : List Bytes} (h : names ≠ []) : joinNames names ≠ [] := by
  obtain ⟨name, parents, rfl⟩ := List.exists_cons_of_ne_nil h
  simp [joinNames]

/-- The path that user space puts together, for any file but the root. -/
theorem buildPath_of_emitEventInto {scratch : RawEvent} {d : Dentry} (hd : d ≠ [])
    {eventType : EventType} {evt : RawEvent}
    (h : (emitEventInto scratch d eventType).2 = some evt) :
    evt.buildPath = joinNames (d.names.take MAX_DEPTH) := by
  have htake : d.names.take MAX_DEPTH ≠ [] := by
    obtain ⟨name, parents, rfl⟩ := List.exists_cons_of_ne_nil hd
    exact List.cons_ne_nil _ _
  rw [RawEvent.buildPath, cNames_of_emitEventInto h, if_neg (joinNames_ne_nil htake)]

/-- There is no record of the root. -/
theorem emitEventInto_root (scratch : RawEvent) (eventType : EventType) :
    (emitEventInto scratch [] eventType).2 = none := rfl

/-- The record of a file that is not too deep carries its path. -/
theorem carries_of_le {scratch : RawEvent} {d : Dentry} {eventType : EventType}
    (hd : d.length ≤ MAX_DEPTH) : Carries d (emitEventInto scratch d eventType).2 := by
  have hpath : ∀ evt, (emitEventInto scratch d eventType).2 = some evt → evt.buildPath = d.path := by
    intro evt hevt
    have hne : d ≠ [] := by
      rintro rfl
      rw [emitEventInto_root] at hevt
      cases hevt
    rw [buildPath_of_emitEventInto hne hevt, List.take_of_length_le]
    · rfl
    · rwa [Dentry.names, List.length_map]
  exact ⟨hpath, fun evt hevt hsuffix => hsuffix.2 (hpath evt hevt)⟩

/-- The record of a file that is too deep carries a proper suffix of its path. -/
theorem suffix_of_lt (scratch : RawEvent) {d : Dentry} (eventType : EventType)
    (hd : MAX_DEPTH < d.length) : ∃ evt, (emitEventInto scratch d eventType).2 = some evt ∧
      evt.buildPath <:+ d.path ∧ evt.buildPath ≠ d.path := by
  have hne : d ≠ [] := List.ne_nil_of_length_pos (by omega)
  obtain ⟨evt, hevt⟩ := exists_emitEventInto scratch hne eventType
  have hsplit : d.path = joinNames (d.names.drop MAX_DEPTH) ++ joinNames (d.names.take MAX_DEPTH) := by
    rw [← joinNames_append, List.take_append_drop, Dentry.path]
  have hmissing : joinNames (d.names.drop MAX_DEPTH) ≠ [] := by
    refine joinNames_ne_nil (List.ne_nil_of_length_pos ?_)
    rw [List.length_drop, Dentry.names, List.length_map]
    omega
  rw [← buildPath_of_emitEventInto hne hevt] at hsplit
  refine ⟨evt, hevt, ⟨_, hsplit.symm⟩, fun heq => hmissing ?_⟩
  rw [← heq] at hsplit
  exact List.self_eq_append_left.mp hsplit

/-- **When the record carries the path of the file**, for every chain and whatever the
buffer held: exactly when the file lies no deeper than `MAX_DEPTH`. -/
theorem carries_iff (scratch : RawEvent) (d : Dentry) (eventType : EventType) :
    Carries d (emitEventInto scratch d eventType).2 ↔ d.length ≤ MAX_DEPTH := by
  constructor
  · intro h
    by_contra hdeep
    obtain ⟨evt, hevt, hsuffix⟩ := suffix_of_lt scratch eventType (Nat.lt_of_not_le hdeep)
    exact h.not_suffix evt hevt hsuffix
  · exact carries_of_le

/-- A file in a directory twenty levels below the root. -/
def deepFile : Dentry := List.replicate 21
  ⟨[0x64, 0x69, 0x72], by decide +kernel, by decide +kernel, by decide +kernel, by decide +kernel⟩

/-- A buffer that nobody has used. -/
def freshScratch : RawEvent :=
  ⟨List.replicate MAX_DEPTH ⟨List.replicate MAX_NAME_LEN 0, List.length_replicate⟩,
    List.length_replicate, 0, .delete⟩

/-- The record says that the file lies a level higher. -/
theorem not_carries_deepFile :
    ¬ Carries deepFile (emitEventInto freshScratch deepFile .mtime).2 := by
  intro h
  obtain ⟨evt, hevt, hsuffix⟩ := suffix_of_lt freshScratch .mtime
    (show MAX_DEPTH < deepFile.length by decide)
  exact h.not_suffix evt hevt hsuffix

end Agent
end FileTracker
