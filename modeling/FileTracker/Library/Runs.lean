import Mathlib.Data.List.Basic

/-!
# Runs of a partial step function

A program that talks to the outside world is a partial step function: the label
is what the outside world answers, and a label that does not fit the current
state is refused.  A run is the list of labels it is fed.

Nothing here knows what the states are.  What a client owes is one lemma about
one step; the rules below turn it into a statement about the states of every
run.

* `always_of_guarded`: an invariant that every step meeting a condition
  preserves holds in every state of every run whose steps all meet it.
* `always_iff_guarded`: when a step out of a good state is good *exactly* when
  it meets the condition, the runs that stay good are exactly the runs whose
  steps all meet it.
* `exec_iff_last`: when some steps decide a property and the others leave it as it
  is, the last one that decides it tells whether it holds at the end.
* `exec_iff_meets`: when some steps bring a property about and all keep it, any of
  them tells.
* `exists_turn`: what holds at the end and not at the start, a step has brought about.
-/

namespace FileTracker
namespace Runs

variable {S L : Type*}

/-- The state a run ends in, or `none` where a label is refused. -/
def exec (step : S → L → Option S) : S → List L → Option S
  | s, [] => some s
  | s, l :: ls =>
    match step s l with
    | some t => exec step t ls
    | none => none

/-- `P` holds in every state the run visits, the first one included. -/
def Always (step : S → L → Option S) (P : S → Prop) : S → List L → Prop
  | s, [] => P s
  | s, l :: ls => P s ∧ ∀ t, step s l = some t → Always step P t ls

/-- Every step the run takes meets the condition `G`, which reads the state
before the step and the label. -/
def Guarded (step : S → L → Option S) (G : S → L → Prop) : S → List L → Prop
  | _, [] => True
  | s, l :: ls => ∀ t, step s l = some t → G s l ∧ Guarded step G t ls

variable {step : S → L → Option S} {P Q : S → Prop} {G : S → L → Prop}

@[simp] theorem exec_nil (s : S) : exec step s [] = some s := rfl

theorem exec_cons (s : S) (l : L) (ls : List L) :
    exec step s (l :: ls) = (step s l).bind fun t => exec step t ls := by
  cases h : step s l <;> simp [exec, h]

theorem exec_append (s : S) (ls ms : List L) :
    exec step s (ls ++ ms) = (exec step s ls).bind fun t => exec step t ms := by
  induction ls generalizing s with
  | nil => rfl
  | cons l ls ih =>
    rw [List.cons_append, exec_cons, exec_cons, Option.bind_assoc]
    exact congrArg _ (funext ih)

theorem Always.head {s : S} {ls : List L} (h : Always step P s ls) : P s := by
  cases ls with
  | nil => exact h
  | cons l ls => exact h.1

/-- `Always` read off the states themselves: it speaks about the state at the
end of every prefix of the run. -/
theorem always_iff_visited (s : S) (ls : List L) :
    Always step P s ls ↔ ∀ ms t, ms <+: ls → exec step s ms = some t → P t := by
  induction ls generalizing s with
  | nil =>
    constructor
    · intro h ms t hms ht
      rw [List.prefix_nil.mp hms, exec_nil] at ht
      rw [← Option.some.inj ht]
      exact h
    · intro h
      exact h [] s List.prefix_rfl rfl
  | cons l ls ih =>
    constructor
    · rintro ⟨hs, hrest⟩ ms t hms ht
      rcases ms with _ | ⟨m, ms⟩
      · rw [← Option.some.inj ht]
        exact hs
      · obtain ⟨rfl, hms'⟩ := List.cons_prefix_cons.mp hms
        rw [exec_cons] at ht
        obtain ⟨u, hu, ht⟩ := Option.bind_eq_some_iff.mp ht
        exact (ih u).mp (hrest u hu) ms t hms' ht
    · intro h
      refine ⟨h [] s List.nil_prefix rfl, fun u hu => (ih u).mpr fun ms t hms ht => ?_⟩
      refine h (l :: ms) t (List.cons_prefix_cons.mpr ⟨rfl, hms⟩) ?_
      rw [exec_cons, hu]
      exact ht

/-- A run that reaches a bad state is not always good. -/
theorem not_always_of_exec {s t : S} {ls : List L} (ht : exec step s ls = some t)
    (hP : ¬ P t) : ¬ Always step P s ls :=
  fun h => hP ((always_iff_visited s ls).mp h ls t List.prefix_rfl ht)

/-- A property that implies another one in every state. -/
theorem Always.imp (hPQ : ∀ s, P s → Q s) {s : S} {ls : List L} (h : Always step P s ls) :
    Always step Q s ls := by
  rw [always_iff_visited] at h ⊢
  intro ms t hms ht
  exact hPQ t (h ms t hms ht)

/-- **The invariant rule.**  An invariant that every step meeting `G` preserves
holds along every run whose steps meet `G`. -/
theorem always_of_guarded (hstep : ∀ s l t, P s → step s l = some t → G s l → P t) {s : S}
    {ls : List L} (hs : P s) (hG : Guarded step G s ls) : Always step P s ls := by
  induction ls generalizing s with
  | nil => exact hs
  | cons l ls ih =>
    exact ⟨hs, fun t ht => ih (hstep s l t hs ht (hG t ht).1) (hG t ht).2⟩

/-- The same, read at the end of the run. -/
theorem exec_of_guarded (hstep : ∀ s l t, P s → step s l = some t → G s l → P t) {s t : S}
    {ls : List L} (hs : P s) (hG : Guarded step G s ls) (ht : exec step s ls = some t) : P t :=
  (always_iff_visited s ls).mp (always_of_guarded hstep hs hG) ls t List.prefix_rfl ht

/-- An invariant that the labels of the run preserve holds at its end. -/
theorem exec_invariant {s t : S} {ls : List L}
    (hstep : ∀ s t, ∀ l ∈ ls, P s → step s l = some t → P t) (hs : P s)
    (ht : exec step s ls = some t) : P t := by
  induction ls generalizing s with
  | nil => rwa [← Option.some.inj ht]
  | cons l ls ih =>
    rw [exec_cons] at ht
    obtain ⟨u, hu, ht⟩ := Option.bind_eq_some_iff.mp ht
    exact ih (fun s t k hk => hstep s t k (List.mem_cons_of_mem _ hk))
      (hstep s u l List.mem_cons_self hs hu) ht

theorem guarded_true (s : S) (ls : List L) : Guarded step (fun _ _ => True) s ls := by
  induction ls generalizing s with
  | nil => trivial
  | cons l ls ih => exact fun t _ => ⟨trivial, ih t⟩

theorem Guarded.and {H : S → L → Prop} {s : S} {ls : List L} (hG : Guarded step G s ls)
    (hH : Guarded step H s ls) : Guarded step (fun s l => G s l ∧ H s l) s ls := by
  induction ls generalizing s with
  | nil => trivial
  | cons l ls ih => exact fun t ht => ⟨⟨(hG t ht).1, (hH t ht).1⟩, ih (hG t ht).2 (hH t ht).2⟩

theorem Guarded.imp {H : S → L → Prop} (himp : ∀ s l, G s l → H s l) {s : S} {ls : List L}
    (hG : Guarded step G s ls) : Guarded step H s ls := by
  induction ls generalizing s with
  | nil => trivial
  | cons l ls ih => exact fun t ht => ⟨himp s l (hG t ht).1, ih (hG t ht).2⟩

/-- What a condition on the steps implies with the help of an invariant, it implies all
along a run. -/
theorem Guarded.imp_of_invariant {I : S → Prop} {H : S → L → Prop}
    (hkeep : ∀ s l t, I s → step s l = some t → G s l → I t)
    (himp : ∀ s l, I s → G s l → H s l) {s : S} {ls : List L} (hs : I s)
    (hG : Guarded step G s ls) : Guarded step H s ls := by
  induction ls generalizing s with
  | nil => trivial
  | cons l ls ih =>
    intro t ht
    obtain ⟨hl, hls⟩ := hG t ht
    exact ⟨himp s l hs hl, ih (hkeep s l t hs ht hl) hls⟩

instance decidableGuarded [∀ s l, Decidable (G s l)] :
    ∀ (s : S) (ls : List L), Decidable (Guarded step G s ls)
  | _, [] => isTrue trivial
  | s, l :: ls =>
    match h : step s l with
    | none => isTrue fun t ht => by simp [h] at ht
    | some t =>
      haveI := decidableGuarded t ls
      decidable_of_iff (G s l ∧ Guarded step G t ls) <| by
        simp only [Guarded, h, Option.some.injEq, forall_eq']

/-- A run meets the condition when its two halves do. -/
theorem guarded_append (s : S) (ls ms : List L) :
    Guarded step G s (ls ++ ms) ↔
      Guarded step G s ls ∧ ∀ t, exec step s ls = some t → Guarded step G t ms := by
  induction ls generalizing s with
  | nil => simp [Guarded]
  | cons l ls ih =>
    simp only [List.cons_append, Guarded, ih]
    constructor
    · intro h
      refine ⟨fun t ht => ⟨(h t ht).1, (h t ht).2.1⟩, fun u hu => ?_⟩
      rw [exec_cons] at hu
      obtain ⟨t, ht, hu⟩ := Option.bind_eq_some_iff.mp hu
      exact (h t ht).2.2 u hu
    · rintro ⟨hls, hms⟩ t ht
      refine ⟨(hls t ht).1, (hls t ht).2, fun u hu => hms u ?_⟩
      rw [exec_cons, ht]
      exact hu

/-- Two conditions on the steps of a run that agree wherever an invariant of the run
holds. -/
theorem guarded_congr {I : S → Prop} {H : S → L → Prop}
    (hkeep : ∀ s l t, I s → step s l = some t → I t)
    (hiff : ∀ s l t, I s → step s l = some t → (G s l ↔ H s l)) {s : S} (hs : I s)
    (ls : List L) : Guarded step G s ls ↔ Guarded step H s ls := by
  induction ls generalizing s with
  | nil => exact Iff.rfl
  | cons l ls ih =>
    refine forall_congr' fun t => forall_congr' fun ht => ?_
    exact and_congr (hiff s l t hs ht) (ih (hkeep s l t hs ht))

/-- **The exactness rule.**  `I` is an invariant of the good steps that implies
the property `P`, and out of a state with `I` a step keeps `P` exactly when it
meets `G`.  Then a run is good throughout exactly when its steps all meet `G`. -/
theorem always_iff_guarded {I : S → Prop} (hIP : ∀ s, I s → P s)
    (hkeep : ∀ s l t, I s → step s l = some t → G s l → I t)
    (hexact : ∀ s l t, I s → step s l = some t → P t → G s l) {s : S} (hs : I s)
    (ls : List L) : Always step P s ls ↔ Guarded step G s ls := by
  induction ls generalizing s with
  | nil => exact ⟨fun _ => trivial, fun _ => hIP s hs⟩
  | cons l ls ih =>
    constructor
    · rintro ⟨-, hrest⟩ t ht
      have hG : G s l := hexact s l t hs ht (hrest t ht).head
      exact ⟨hG, (ih (hkeep s l t hs ht hG)).mp (hrest t ht)⟩
    · intro hG
      refine ⟨hIP s hs, fun t ht => ?_⟩
      exact (ih (hkeep s l t hs ht (hG t ht).1)).mpr (hG t ht).2

/-- **The step that brings it about.**  What holds at the end of a run and not at its start,
some step of the run has brought about. -/
theorem exists_turn {s t : S} {ls : List L} (h : exec step s ls = some t) (hs : ¬ P s)
    (ht : P t) : ∃ before l after u v, ls = before ++ l :: after ∧
      exec step s before = some u ∧ step u l = some v ∧ exec step v after = some t ∧
        ¬ P u ∧ P v := by
  induction ls generalizing s with
  | nil =>
    rw [Option.some.inj h] at hs
    exact absurd ht hs
  | cons l ls ih =>
    rw [exec_cons] at h
    obtain ⟨v, hv, hrest⟩ := Option.bind_eq_some_iff.mp h
    by_cases hPv : P v
    · exact ⟨[], l, ls, s, v, rfl, rfl, hv, hrest, hs, hPv⟩
    · obtain ⟨before, k, after, u, w, rfl, hu, hrun⟩ := ih hrest hPv
      refine ⟨l :: before, k, after, u, w, rfl, ?_, hrun⟩
      rw [exec_cons, hv]
      exact hu

/-- The run comes to the state `u` and takes a step with the label `l` there that meets
`D`, and none of its later steps does. -/
def LastMeets (step : S → L → Option S) (D : S → L → Prop) (s : S) (ls : List L) (u : S)
    (l : L) : Prop :=
  ∃ before after v, ls = before ++ l :: after ∧ exec step s before = some u ∧
    step u l = some v ∧ D u l ∧ Guarded step (fun s l => ¬ D s l) v after

/-- A property that the steps of a run leave as it is. -/
theorem exec_congr (hkeep : ∀ s l t, step s l = some t → G s l → (P t ↔ P s)) {s t : S}
    {ls : List L} (hG : Guarded step G s ls) (h : exec step s ls = some t) : P t ↔ P s := by
  induction ls generalizing s with
  | nil => rw [Option.some.inj h]
  | cons l ls ih =>
    rw [exec_cons] at h
    obtain ⟨u, hu, hrest⟩ := Option.bind_eq_some_iff.mp h
    exact (ih (hG u hu).2 hrest).trans (hkeep s l u hu (hG u hu).1)

/-- **The rule of the last step.**  A step that meets `D` settles by `V` whether `P` holds
behind it, and any other step leaves `P` as it is.  Then `P` holds at the end of a run
when the last step that meets `D` says so, or when there is none and it held before. -/
theorem exec_iff_last {D V : S → L → Prop}
    (hdecide : ∀ s l t, step s l = some t → D s l → (P t ↔ V s l))
    (hkeep : ∀ s l t, step s l = some t → ¬ D s l → (P t ↔ P s)) {s t : S} {ls : List L}
    (h : exec step s ls = some t) :
    P t ↔ (∃ u l, LastMeets step D s ls u l ∧ V u l) ∨
      (P s ∧ Guarded step (fun s l => ¬ D s l) s ls) := by
  constructor
  · intro hP
    induction ls generalizing s with
    | nil =>
      rw [← Option.some.inj h] at hP
      exact Or.inr ⟨hP, trivial⟩
    | cons l ls ih =>
      rw [exec_cons] at h
      obtain ⟨v, hv, hrest⟩ := Option.bind_eq_some_iff.mp h
      rcases ih hrest with ⟨u, k, ⟨before, after, w, rfl, hu, hw, hD, hafter⟩, hV⟩ | ⟨hPv, hnone⟩
      · refine Or.inl ⟨u, k, ⟨l :: before, after, w, rfl, ?_, hw, hD, hafter⟩, hV⟩
        rw [exec_cons, hv]
        exact hu
      · by_cases hD : D s l
        · exact Or.inl ⟨s, l, ⟨[], ls, v, rfl, rfl, hv, hD, hnone⟩, (hdecide s l v hv hD).mp hPv⟩
        · refine Or.inr ⟨(hkeep s l v hv hD).mp hPv, fun w hw => ?_⟩
          obtain rfl := Option.some.inj (hv.symm.trans hw)
          exact ⟨hD, hnone⟩
  · rintro (⟨u, l, ⟨before, after, v, rfl, hu, hv, hD, hafter⟩, hV⟩ | ⟨hPs, hnone⟩)
    · rw [exec_append, hu, Option.bind_some, exec_cons, hv] at h
      exact (exec_congr hkeep hafter h).mpr ((hdecide u l v hv hD).mpr hV)
    · exact (exec_congr hkeep hnone h).mpr hPs

/-- What the steps of the run show, each seen from the state it is taken in. -/
def trace {O : Type*} (step : S → L → Option S) (see : S → L → List O) : S → List L → List O
  | _, [] => []
  | s, l :: ls =>
    match step s l with
    | some t => see s l ++ trace step see t ls
    | none => []

theorem trace_cons {O : Type*} {see : S → L → List O} {s t : S} {l : L}
    (h : step s l = some t) (ls : List L) :
    trace step see s (l :: ls) = see s l ++ trace step see t ls := by
  rw [trace, h]

/-- Some step the run takes meets `D`. -/
def Meets (step : S → L → Option S) (D : S → L → Prop) : S → List L → Prop
  | _, [] => False
  | s, l :: ls => ∃ t, step s l = some t ∧ (D s l ∨ Meets step D t ls)

/-- **The rule of what accumulates.**  A property that a step keeps, and brings about when
it meets `D`, holds at the end of a run when it held before or some step meets `D`. -/
theorem exec_iff_meets {I : S → Prop} {D : S → L → Prop}
    (hkeep : ∀ s l t, I s → step s l = some t → I t)
    (hstep : ∀ s l t, I s → step s l = some t → (P t ↔ P s ∨ D s l)) {s t : S} {ls : List L}
    (hs : I s) (h : exec step s ls = some t) : P t ↔ P s ∨ Meets step D s ls := by
  induction ls generalizing s with
  | nil =>
    rw [Option.some.inj h]
    exact (or_iff_left id).symm
  | cons l ls ih =>
    rw [exec_cons] at h
    obtain ⟨u, hu, hrest⟩ := Option.bind_eq_some_iff.mp h
    rw [ih (hkeep s l u hs hu) hrest, hstep s l u hs hu, or_assoc]
    refine or_congr_right ?_
    constructor
    · intro hmeets
      exact ⟨u, hu, hmeets⟩
    · rintro ⟨v, hv, hmeets⟩
      obtain rfl := Option.some.inj (hu.symm.trans hv)
      exact hmeets

end Runs
end FileTracker
