import FileTracker.Agent.Common
import FileTracker.Library.Separator

/-!
# The directory of the log

Before `main` opens the log it makes the directories on the way to it.  The directory is
what stands in front of the last slash of `wal_path`, and the loop calls `mkdir` on the
beginnings of it that end in a slash, and on all of it.

These are the directories on the way, parents first, and the last of them is the one the log
is in (`mem_mkdirFrom_iff`, `pairwise_mkdirFrom`).  Where `wal_path` has no slash, `rfind` finds
nothing and `substr` returns the whole path, so that the one `mkdir` makes a directory of
the log itself (`prepared_iff`).
-/

namespace FileTracker
namespace Agent

open Separator

/-! ## The code -/

/-- `s.rfind(c)`: where the last `c` stands. -/
def rfind (c : UInt8) : Bytes → Option ℕ
  | [] => none
  | d :: rest =>
    match rfind c rest with
    | some i => some (i + 1)
    | none => if d = c then some 0 else none

/-- `cfg.wal_path.substr(0, cfg.wal_path.rfind('/'))`, which is all of the path if there is
no slash. -/
def walDir (walPath : Bytes) : Bytes :=
  match rfind slash walPath with
  | some i => walPath.take i
  | none => walPath

/-- The loop over the rest of `dir`, with what it has read in `acc`: the arguments of the
calls of `mkdir`. -/
def mkdirFrom : Bytes → Bytes → List Bytes
  | _, [] => []
  | acc, c :: rest =>
    if c = slash ∨ rest = [] then (acc ++ [c]) :: mkdirFrom (acc ++ [c]) rest
    else mkdirFrom (acc ++ [c]) rest

/-- The arguments of the calls of `mkdir`, in order. -/
def mkdirCalls (walPath : Bytes) : List Bytes := mkdirFrom [] (walDir walPath)

/-! ## What is asked of it -/

/-- A path of a file: a C string that is not empty and does not end in a slash. -/
structure WalPath where
  bytes : Bytes
  ne_nil : bytes ≠ []
  noSlash : bytes.getLast? ≠ some slash
  noNul : 0 ∉ bytes

/-- The names on a path; slashes in a row count once. -/
def names (path : Bytes) : List Bytes := (path.splitOn slash).filter fun name => name ≠ []

/-- The calls make the directories on the way to `path`. -/
structure Prepared (path : Bytes) (calls : List Bytes) : Prop where
  onTheWay : ∀ dir ∈ calls, dir ≠ [] ∧
    (dir ++ [slash] <+: path ∨ dir <+: path ∧ dir.getLast? = some slash)
  all : ∀ dir, dir ≠ [] → dir ++ [slash] <+: path → dir ∈ calls ∨ dir ++ [slash] ∈ calls
  parentsFirst : calls.Pairwise fun dir sub => dir <+: sub ∧ dir ≠ sub
  last : ∀ dir file, path = dir ++ slash :: file → slash ∉ file → dir ≠ [] →
    calls.getLast? = some dir
  /-- No call names the file itself, so that opening it meets no directory made here. -/
  apart : ∀ dir ∈ calls, names dir ≠ names path

/-! ## The directory -/

theorem rfind_eq_none_iff {c : UInt8} {s : Bytes} : rfind c s = none ↔ c ∉ s := by
  induction s with
  | nil => exact iff_of_true rfl List.not_mem_nil
  | cons d rest ih =>
    rw [rfind, List.mem_cons, not_or, ← ih]
    cases hrest : rfind c rest with
    | some i => simp
    | none => simp [eq_comm]

theorem rfind_eq_some {c : UInt8} {s : Bytes} {i : ℕ} (h : rfind c s = some i) :
    ∃ file, s = s.take i ++ c :: file ∧ c ∉ file := by
  induction s generalizing i with
  | nil => cases h
  | cons d rest ih =>
    rw [rfind] at h
    cases hrest : rfind c rest with
    | some j =>
      rw [hrest] at h
      obtain rfl := Option.some.inj h
      obtain ⟨file, heq, hfile⟩ := ih hrest
      exact ⟨file, congrArg (d :: ·) heq, hfile⟩
    | none =>
      rw [hrest] at h
      simp only [Option.ite_none_right_eq_some, Option.some.injEq] at h
      obtain ⟨rfl, rfl⟩ := h
      exact ⟨rest, rfl, rfind_eq_none_iff.mp hrest⟩

/-- With a slash in the path, the directory is what stands in front of the last one. -/
theorem exists_file {path : Bytes} (h : slash ∈ path) :
    ∃ file, path = walDir path ++ slash :: file ∧ slash ∉ file := by
  cases hfind : rfind slash path with
  | none => exact absurd h (rfind_eq_none_iff.mp hfind)
  | some i =>
    rw [walDir, hfind]
    exact rfind_eq_some hfind

theorem walDir_of_noSlash {path : Bytes} (h : slash ∉ path) : walDir path = path := by
  rw [walDir, rfind_eq_none_iff.mpr h]

/-- No slash stands behind the last one. -/
theorem length_le_of_last {dir file d : Bytes} (hfile : slash ∉ file)
    (hd : d ++ [slash] <+: dir ++ slash :: file) : d.length ≤ dir.length := by
  by_contra hlt
  have hslash : (dir ++ slash :: file)[d.length]? = some slash := by
    obtain ⟨rest, hrest⟩ := hd
    rw [← hrest, List.append_assoc, List.getElem?_append_right le_rfl, Nat.sub_self]
    rfl
  obtain ⟨k, hk⟩ : ∃ k, d.length - dir.length = k + 1 := ⟨d.length - dir.length - 1, by omega⟩
  rw [List.getElem?_append_right (by omega), hk, List.getElem?_cons_succ] at hslash
  exact hfile (List.mem_of_getElem? hslash)

/-! ## The calls -/

theorem mem_mkdirFrom_iff {acc rest dir : Bytes} : dir ∈ mkdirFrom acc rest ↔
    ∃ front back, rest = front ++ back ∧ front ≠ [] ∧ dir = acc ++ front ∧
      (front.getLast? = some slash ∨ back = []) := by
  induction rest generalizing acc with
  | nil =>
    refine iff_of_false List.not_mem_nil ?_
    rintro ⟨front, back, hnil, hne, -, -⟩
    exact hne (List.append_eq_nil_iff.mp hnil.symm).1
  | cons c rest ih =>
    have hhead : dir ∈ mkdirFrom acc (c :: rest) ↔
        ((c = slash ∨ rest = []) ∧ dir = acc ++ [c]) ∨ dir ∈ mkdirFrom (acc ++ [c]) rest := by
      rw [mkdirFrom]
      split_ifs with h
      · rw [List.mem_cons, and_iff_right h]
      · rw [or_iff_right fun hand => h hand.1]
    rw [hhead, ih]
    constructor
    · rintro (⟨hc, rfl⟩ | ⟨front, back, rfl, hne, rfl, hlast⟩)
      · exact ⟨[c], rest, rfl, List.cons_ne_nil _ _, rfl, by simpa using hc⟩
      · refine ⟨c :: front, back, rfl, List.cons_ne_nil _ _, by simp, ?_⟩
        rwa [List.getLast?_cons_of_ne_nil hne]
    · rintro ⟨front, back, heq, hne, rfl, hlast⟩
      obtain ⟨d, front, rfl⟩ := List.exists_cons_of_ne_nil hne
      obtain ⟨rfl, rfl⟩ := List.cons.inj heq
      rcases front with _ | ⟨e, front⟩
      · exact Or.inl ⟨by simpa using hlast, rfl⟩
      · refine Or.inr ⟨e :: front, back, rfl, List.cons_ne_nil _ _, by simp, ?_⟩
        rwa [List.getLast?_cons_of_ne_nil (List.cons_ne_nil _ _)] at hlast

/-- Each call goes on from the one before it. -/
theorem pairwise_mkdirFrom (acc rest : Bytes) :
    (mkdirFrom acc rest).Pairwise fun dir sub => dir <+: sub ∧ dir ≠ sub := by
  induction rest generalizing acc with
  | nil => exact List.Pairwise.nil
  | cons c rest ih =>
    rw [mkdirFrom]
    split_ifs
    · refine List.Pairwise.cons (fun sub hsub => ?_) (ih _)
      obtain ⟨front, back, -, hne, rfl, -⟩ := mem_mkdirFrom_iff.mp hsub
      exact ⟨List.prefix_append _ _, fun heq => hne (List.self_eq_append_right.mp heq)⟩
    · exact ih _

theorem getLast?_mkdirFrom (acc : Bytes) {rest : Bytes} (h : rest ≠ []) :
    (mkdirFrom acc rest).getLast? = some (acc ++ rest) := by
  induction rest generalizing acc with
  | nil => exact absurd rfl h
  | cons c rest ih =>
    rcases rest with _ | ⟨d, rest⟩
    · rw [mkdirFrom, if_pos (Or.inr rfl)]
      rfl
    · have hlast := ih (acc ++ [c]) (List.cons_ne_nil d rest)
      rw [List.append_assoc, List.singleton_append] at hlast
      by_cases hc : c = slash ∨ d :: rest = []
      · rw [mkdirFrom, if_pos hc, List.getLast?_cons, hlast, Option.getD_some]
      · rw [mkdirFrom, if_neg hc]
        exact hlast

/-! ## Names -/

theorem names_append (dir rest : Bytes) :
    names (dir ++ slash :: rest) = names dir ++ names rest := by
  rw [names, List.splitOn_append_cons_self, List.filter_append]
  rfl

/-- A directory on the way has no more names than the last one. -/
theorem length_names_le {front back : Bytes} (h : front.getLast? = some slash ∨ back = []) :
    (names front).length ≤ (names (front ++ back)).length := by
  rcases h with hlast | rfl
  · obtain ⟨dir, rfl⟩ := List.getLast?_eq_some_iff.mp hlast
    rw [List.append_assoc, List.singleton_append, names_append, names_append, List.length_append,
      List.length_append]
    have hnil : names [] = [] := rfl
    rw [hnil, List.length_nil, Nat.add_zero]
    exact Nat.le_add_right _ _
  · rw [List.append_nil]

theorem names_file {file : Bytes} (hne : file ≠ []) (hslash : slash ∉ file) :
    names file = [file] := by
  rw [names, List.splitOn_eq_singleton hslash]
  simp [hne]

/-! ## The directories on the way -/

/-- With a slash in the path, the loop prepares the directory. -/
theorem prepared_of_mem {p : WalPath} (h : slash ∈ p.bytes) :
    Prepared p.bytes (mkdirCalls p.bytes) := by
  obtain ⟨file, hpath, hfile⟩ := exists_file h
  rw [mkdirCalls]
  have hne : file ≠ [] := by
    rintro rfl
    refine p.noSlash ?_
    rw [hpath, List.getLast?_append]
    rfl
  generalize walDir p.bytes = dir at hpath
  rw [hpath]
  refine ⟨fun d hd => ?_, fun d hd hprefix => ?_, pairwise_mkdirFrom _ _,
    fun d other heq hother hd => ?_, fun d hd => ?_⟩
  · obtain ⟨front, back, rfl, hfront, rfl, hlast⟩ := mem_mkdirFrom_iff.mp hd
    refine ⟨hfront, ?_⟩
    rcases hlast with hlast | rfl
    · exact Or.inr ⟨⟨back ++ slash :: file, by simp⟩, hlast⟩
    · exact Or.inl ⟨file, by simp⟩
  · have hle := length_le_of_last hfile hprefix
    have hdir : dir <+: dir ++ slash :: file := List.prefix_append _ _
    rcases Nat.lt_or_eq_of_le hle with hlt | heq
    · obtain ⟨back, hback⟩ := List.prefix_of_prefix_length_le hprefix hdir
        (by rw [List.length_append]; exact hlt)
      exact Or.inr (mem_mkdirFrom_iff.mpr
        ⟨d ++ [slash], back, hback.symm, by simp, rfl, Or.inl (by simp)⟩)
    · have hd' : d <+: dir ++ slash :: file := (List.prefix_append _ _).trans hprefix
      obtain rfl := (List.prefix_of_prefix_length_le hd' hdir hle).eq_of_length heq
      exact Or.inl (mem_mkdirFrom_iff.mpr ⟨d, [], by simp, hd, rfl, Or.inr rfl⟩)
  · have hle : d.length ≤ dir.length := length_le_of_last hfile ⟨other, by rw [heq]; simp⟩
    have hge : dir.length ≤ d.length := length_le_of_last hother ⟨file, by rw [← heq]; simp⟩
    obtain rfl := List.append_inj_left heq (Nat.le_antisymm hge hle)
    rw [getLast?_mkdirFrom _ hd, List.nil_append]
  · obtain ⟨front, back, rfl, -, rfl, hlast⟩ := mem_mkdirFrom_iff.mp hd
    intro heq
    have hle := length_names_le hlast
    have hlen := congrArg List.length heq
    rw [names_append, List.length_append, names_file hne hfile, List.length_singleton] at hlen
    omega

/-- **When `main` prepares the directory of the log**: exactly when the path has a slash. -/
theorem prepared_iff (p : WalPath) :
    Prepared p.bytes (mkdirCalls p.bytes) ↔ slash ∈ p.bytes := by
  refine ⟨fun h => ?_, prepared_of_mem⟩
  by_contra hslash
  have hitself : p.bytes ∈ mkdirCalls p.bytes := by
    rw [mkdirCalls, walDir_of_noSlash hslash]
    exact mem_mkdirFrom_iff.mpr ⟨p.bytes, [], by simp, p.ne_nil, rfl, Or.inr rfl⟩
  exact h.apart _ hitself rfl

/-- A log in the working directory. -/
def walLog : WalPath :=
  ⟨[0x77, 0x61, 0x6C, 0x2E, 0x6C, 0x6F, 0x67], by decide, by decide, by decide⟩

/-- The one call makes a directory of the log. -/
theorem not_prepared_walLog :
    ¬ Prepared walLog.bytes (mkdirCalls walLog.bytes) ∧
      mkdirCalls walLog.bytes = [walLog.bytes] := by
  have hcalls : mkdirCalls walLog.bytes = [walLog.bytes] := by decide
  refine ⟨fun h => ?_, hcalls⟩
  rw [hcalls] at h
  exact h.apart _ List.mem_cons_self rfl

end Agent
end FileTracker
