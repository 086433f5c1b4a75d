import Mathlib.Data.Finmap

/-!
# Finite maps under sets and deletes

What one `set` or `del` leaves in a key is `lookup_apply`, and a run leaves in
every key what its last command on that key says (`lookup_run`).  So runs may be
cut and repeated: a run that is repeated changes nothing (`run_run`).  Which keys
are in the map after a run is `mem_run`.

Mathlib's `Finmap` is the map, so two runs that agree on every lookup give equal
maps.
-/

namespace FileTracker
namespace LastWriter

variable {K V : Type*}

/-- A finite map. -/
abbrev Map (K V : Type*) := Finmap fun _ : K => V

/-- Set a key to a value, or delete it. -/
inductive Cmd (K V : Type*) where
  | set (k : K) (v : V)
  | del (k : K)
  deriving DecidableEq, Repr

/-- The key a command touches. -/
def Cmd.key : Cmd K V → K
  | .set k _ => k
  | .del k => k

/-- What a command leaves in its key. -/
def Cmd.value : Cmd K V → Option V
  | .set _ v => some v
  | .del _ => none

variable [DecidableEq K]

def Cmd.apply (m : Map K V) : Cmd K V → Map K V
  | .set k v => m.insert k v
  | .del k => m.erase k

/-- The commands in order. -/
def run (m : Map K V) (cs : List (Cmd K V)) : Map K V := cs.foldl Cmd.apply m

@[simp] theorem run_nil (m : Map K V) : run m [] = m := rfl

@[simp] theorem run_cons (m : Map K V) (c : Cmd K V) (cs : List (Cmd K V)) :
    run m (c :: cs) = run (c.apply m) cs := rfl

theorem run_append (m : Map K V) (cs ds : List (Cmd K V)) :
    run m (cs ++ ds) = run (run m cs) ds :=
  List.foldl_append ..

theorem lookup_apply (m : Map K V) (c : Cmd K V) (k : K) :
    (c.apply m).lookup k = if c.key = k then c.value else m.lookup k := by
  cases c with
  | set j v =>
    by_cases h : j = k
    · rw [Cmd.key, if_pos h, ← h]
      exact Finmap.lookup_insert m
    · rw [Cmd.key, if_neg h]
      exact Finmap.lookup_insert_of_ne m (Ne.symm h)
  | del j =>
    by_cases h : j = k
    · rw [Cmd.key, if_pos h, ← h]
      exact Finmap.lookup_erase j m
    · rw [Cmd.key, if_neg h]
      exact Finmap.lookup_erase_ne (Ne.symm h)

/-! ## The last writer -/

/-- What the last command on the key leaves in it, if there is one. -/
def lastValue (cs : List (Cmd K V)) (k : K) : Option (Option V) :=
  (cs.filter fun c => c.key = k).getLast?.map Cmd.value

theorem lastValue_append (cs ds : List (Cmd K V)) (k : K) :
    lastValue (cs ++ ds) k = (lastValue ds k).or (lastValue cs k) := by
  rw [lastValue, List.filter_append, List.getLast?_append, Option.map_or]
  rfl

theorem lastValue_singleton (c : Cmd K V) (k : K) :
    lastValue [c] k = if c.key = k then some c.value else none := by
  by_cases h : c.key = k <;> simp [lastValue, h]

/-- **The last writer wins.** -/
theorem lookup_run (m : Map K V) (cs : List (Cmd K V)) (k : K) :
    (run m cs).lookup k = (lastValue cs k).getD (m.lookup k) := by
  induction cs generalizing m with
  | nil => rfl
  | cons c cs ih =>
    rw [run_cons, ih, lookup_apply, ← List.singleton_append, lastValue_append,
      lastValue_singleton]
    cases lastValue cs k with
    | some v => rfl
    | none => split_ifs <;> rfl

/-- A run that is repeated changes nothing. -/
theorem run_run (m : Map K V) (cs : List (Cmd K V)) : run (run m cs) cs = run m cs := by
  refine Finmap.ext_lookup fun k => ?_
  rw [lookup_run, lookup_run]
  cases lastValue cs k <;> rfl

/-- **Runs that overlap** are one run: what the second one repeats of the first one
changes nothing. -/
theorem run_overlap (m : Map K V) (as bs cs : List (Cmd K V)) :
    run (run m (as ++ bs)) (bs ++ cs) = run m (as ++ bs ++ cs) := by
  rw [run_append m as bs, run_append _ bs cs, run_run, ← run_append, ← run_append,
    List.append_assoc]

/-- A run of deletes. -/
theorem lookup_run_del (m : Map K V) (ks : List K) (k : K) :
    (run m (ks.map .del)).lookup k = if k ∈ ks then none else m.lookup k := by
  induction ks generalizing m with
  | nil => rfl
  | cons j ks ih =>
    rw [List.map_cons, run_cons, ih, lookup_apply]
    by_cases hk : k ∈ ks
    · rw [if_pos hk, if_pos (List.mem_cons_of_mem j hk)]
    · by_cases hj : j = k
      · subst hj
        rw [if_neg hk, if_pos List.mem_cons_self, Cmd.key, if_pos rfl, Cmd.value]
      · rw [if_neg hk, Cmd.key, if_neg hj, if_neg (by simp [hk, Ne.symm hj])]

/-! ## Which keys are there -/

theorem mem_apply (m : Map K V) (c : Cmd K V) (k : K) :
    k ∈ c.apply m ↔ (∃ v, c = .set k v) ∨ (k ∈ m ∧ c ≠ .del k) := by
  rw [← Finmap.lookup_isSome, lookup_apply, ← Finmap.lookup_isSome]
  cases c with
  | set j v =>
    by_cases h : j = k
    · simp [Cmd.key, Cmd.value, h]
    · simp [Cmd.key, h]
  | del j =>
    by_cases h : j = k
    · simp [Cmd.key, Cmd.value, h]
    · simp [Cmd.key, h]

/-- **When a key survives a run of steps.**  Each step either puts the key there
(`S`), or takes it away (`C`), or leaves it; so it is there at the end when some
step puts it there and no later one takes it away, or when it was there and none
does. -/
theorem survives_foldl_iff {M E : Type*} {f : M → E → M} (There : M → Prop) {S C : E → Prop}
    (h : ∀ m x, There (f m x) ↔ S x ∨ (There m ∧ ¬ C x)) (m : M) (xs : List E) :
    There (xs.foldl f m) ↔
      (∃ pre x post, xs = pre ++ x :: post ∧ S x ∧ ∀ y ∈ post, ¬ C y) ∨
        (There m ∧ ∀ y ∈ xs, ¬ C y) := by
  induction xs generalizing m with
  | nil => simp
  | cons x xs ih =>
    rw [List.foldl_cons, ih, h]
    constructor
    · rintro (⟨pre, y, post, rfl, hy, hpost⟩ | ⟨hx | ⟨hm, hx⟩, hxs⟩)
      · exact Or.inl ⟨x :: pre, y, post, rfl, hy, hpost⟩
      · exact Or.inl ⟨[], x, xs, rfl, hx, hxs⟩
      · exact Or.inr ⟨hm, List.forall_mem_cons.mpr ⟨hx, hxs⟩⟩
    · rintro (⟨pre, y, post, hsplit, hy, hpost⟩ | ⟨hm, hxs⟩)
      · rcases pre with _ | ⟨p, pre⟩
        · obtain ⟨rfl, rfl⟩ := List.cons.inj hsplit
          exact Or.inr ⟨Or.inl hy, hpost⟩
        · obtain ⟨-, rfl⟩ := List.cons.inj hsplit
          exact Or.inl ⟨pre, y, post, rfl, hy, hpost⟩
      · obtain ⟨hx, hxs⟩ := List.forall_mem_cons.mp hxs
        exact Or.inr ⟨Or.inr ⟨hm, hx⟩, hxs⟩

/-- When a key is in the map after a run: the last command on it is a `set`, or it
was there and no command deletes it. -/
theorem mem_run (m : Map K V) (cs : List (Cmd K V)) (k : K) :
    k ∈ run m cs ↔
      (∃ pre c post, cs = pre ++ c :: post ∧ (∃ v, c = .set k v) ∧ ∀ d ∈ post, ¬ d = .del k) ∨
        (k ∈ m ∧ ∀ d ∈ cs, ¬ d = .del k) :=
  survives_foldl_iff (fun h => k ∈ h) (fun h c => mem_apply h c k) m cs

/-- A run that sets a key leaves it in the map, unless its last command on the key is a
delete. -/
theorem mem_run_of_set {m : Map K V} {cs : List (Cmd K V)} {k : K} {v : V}
    (hset : .set k v ∈ cs) (hlast : lastValue cs k ≠ some none) : k ∈ run m cs := by
  have hmem : Cmd.set k v ∈ cs.filter fun c => c.key = k :=
    List.mem_filter.mpr ⟨hset, by simp [Cmd.key]⟩
  rw [← Finmap.lookup_isSome, lookup_run]
  cases hvalue : lastValue cs k with
  | none =>
    rw [lastValue, Option.map_eq_none_iff, List.getLast?_eq_none_iff] at hvalue
    rw [hvalue] at hmem
    cases hmem
  | some w =>
    cases w with
    | none => exact absurd hvalue hlast
    | some w => rfl

/-- A delete behind which the key is not set again is the last word on it. -/
theorem lastValue_of_del {pre post : List (Cmd K V)} {k : K} (h : ∀ v, Cmd.set k v ∉ post) :
    lastValue (pre ++ .del k :: post) k = some none := by
  have hpost : lastValue post k = none ∨ lastValue post k = some none := by
    cases hlast : (post.filter fun c => c.key = k).getLast? with
    | none => exact Or.inl (by rw [lastValue, hlast, Option.map_none])
    | some c =>
      obtain ⟨hmem, hkey⟩ := List.mem_filter.mp (List.mem_of_getLast? hlast)
      cases c with
      | set j v =>
        obtain rfl : j = k := of_decide_eq_true hkey
        exact absurd hmem (h v)
      | del j => exact Or.inr (by rw [lastValue, hlast]; rfl)
  rw [← List.singleton_append, lastValue_append, lastValue_append, lastValue_singleton]
  rcases hpost with hnone | hdel
  · rw [hnone]
    simp [Cmd.key, Cmd.value]
  · rw [hdel]
    rfl

/-- A key that a run takes out is taken out by one of its deletes, and not put back
by a later command. -/
theorem exists_del_of_not_mem_run {m : Map K V} {cs : List (Cmd K V)} {k : K} (hm : k ∈ m)
    (h : k ∉ run m cs) :
    ∃ pre post, cs = pre ++ .del k :: post ∧ k ∈ run m pre ∧ ∀ v, Cmd.set k v ∉ post := by
  induction cs using List.reverseRecOn with
  | nil => exact absurd hm h
  | append_singleton cs c ih =>
    rw [run_append, run_cons, run_nil, mem_apply] at h
    obtain ⟨hset, hdel⟩ := not_or.mp h
    by_cases hcs : k ∈ run m cs
    · obtain rfl : c = .del k := by
        by_contra hc
        exact hdel ⟨hcs, hc⟩
      exact ⟨cs, [], rfl, hcs, by simp⟩
    · obtain ⟨pre, post, rfl, hpre, hpost⟩ := ih hcs
      refine ⟨pre, post ++ [c], by simp, hpre, fun v hv => ?_⟩
      rcases List.mem_append.mp hv with hv | hv
      · exact hpost v hv
      · exact hset ⟨v, (List.mem_singleton.mp hv).symm⟩

end LastWriter
end FileTracker
