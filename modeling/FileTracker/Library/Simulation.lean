import FileTracker.Library.Runs

/-!
# A machine that another one runs

Two partial step functions, the concrete one and the abstract one, and a relation
between their states.  A step of the concrete machine is matched by some steps of the
abstract one: by none where the abstract machine does not see it, by several where it
sees it as more than one thing.

A client owes the square of one step.  It may assume a condition `G` on the concrete
step, and it may promise a condition `AG` on the abstract ones, so that a rule about
runs that meet `AG` can be used on the abstract side.

* `Simulation.exec`: every run that meets `G` is matched by a run that meets `AG`, with
  the same observations in the same order.
* `Simulation.invariant`: what the abstract machine keeps along such runs holds of some
  state that the last concrete one is related to.
* `Simulation.trans`: a machine that runs a machine that runs a third one runs the third.
-/

namespace FileTracker
namespace Runs

variable {S L A M O : Type*}

/-- The abstract machine matches every step of the concrete one that meets `G`: by steps
that meet `AG`, into related states, and with the same observations. -/
structure Simulation (step : S → L → Option S) (astep : A → M → Option A)
    (G : S → L → Prop) (AG : A → M → Prop) (R : S → A → Prop) (see : L → List O)
    (asee : M → List O) : Prop where
  matched : ∀ s l t a, R s a → step s l = some t → G s l →
    ∃ ms b, exec astep a ms = some b ∧ Guarded astep AG a ms ∧ R t b ∧
      ms.flatMap asee = see l

variable {step : S → L → Option S} {astep : A → M → Option A} {G : S → L → Prop}
  {AG : A → M → Prop} {R : S → A → Prop} {see : L → List O} {asee : M → List O}

/-- **The simulation rule.**  A run that meets `G` is matched by a run of the abstract
machine that meets `AG` and shows the same. -/
theorem Simulation.exec (h : Simulation step astep G AG R see asee) {s t : S} {a : A}
    {ls : List L} (hR : R s a) (ht : Runs.exec step s ls = some t)
    (hG : Guarded step G s ls) :
    ∃ ms b, Runs.exec astep a ms = some b ∧ Guarded astep AG a ms ∧ R t b ∧
      ms.flatMap asee = ls.flatMap see := by
  induction ls generalizing s a with
  | nil =>
    obtain rfl := Option.some.inj ht
    exact ⟨[], a, rfl, trivial, hR, rfl⟩
  | cons l ls ih =>
    rw [exec_cons] at ht
    obtain ⟨u, hu, hrest⟩ := Option.bind_eq_some_iff.mp ht
    obtain ⟨ms, b, hms, hguard, hRu, hsee⟩ := h.matched s l u a hR hu (hG u hu).1
    obtain ⟨ns, c, hns, hguards, hRt, hsees⟩ := ih hRu hrest (hG u hu).2
    refine ⟨ms ++ ns, c, ?_, (guarded_append a ms ns).mpr ⟨hguard, ?_⟩, hRt, ?_⟩
    · rw [exec_append, hms]
      exact hns
    · intro b' hb'
      obtain rfl := Option.some.inj (hms.symm.trans hb')
      exact hguards
    · rw [List.flatMap_append, hsee, hsees, List.flatMap_cons]

/-- **The invariant, carried over.**  What abstract steps that meet `AG` keep holds of a
state related to the last one of every run that meets `G`. -/
theorem Simulation.invariant (h : Simulation step astep G AG R see asee) {P : A → Prop}
    (hkeep : ∀ a m b, P a → astep a m = some b → AG a m → P b) {s t : S} {a : A}
    {ls : List L} (hR : R s a) (hP : P a) (ht : Runs.exec step s ls = some t)
    (hG : Guarded step G s ls) : ∃ b, R t b ∧ P b := by
  obtain ⟨ms, b, hms, hguard, hRt, -⟩ := h.exec hR ht hG
  exact ⟨b, hRt, exec_of_guarded hkeep hP hguard hms⟩

/-- A simulation, with nothing observed. -/
theorem Simulation.blind (h : Simulation step astep G AG R see asee) :
    Simulation step astep G AG R (fun _ => ([] : List O)) fun _ => [] where
  matched s l t a hR hstep hG := by
    obtain ⟨ms, b, hms, hguard, hRt, -⟩ := h.matched s l t a hR hstep hG
    exact ⟨ms, b, hms, hguard, hRt, by simp⟩

/-- **Simulations compose.** -/
theorem Simulation.trans {B N : Type*} {bstep : B → N → Option B} {BG : B → N → Prop}
    {Q : A → B → Prop} {bsee : N → List O} (h : Simulation step astep G AG R see asee)
    (k : Simulation astep bstep AG BG Q asee bsee) :
    Simulation step bstep G BG (fun s b => ∃ a, R s a ∧ Q a b) see bsee where
  matched := by
    rintro s l t b ⟨a, hR, hQ⟩ hstep hG
    obtain ⟨ms, c, hms, hguard, hRt, hsee⟩ := h.matched s l t a hR hstep hG
    obtain ⟨ns, d, hns, hguards, hQc, hsees⟩ := k.exec hQ hms hguard
    exact ⟨ns, d, hns, hguards, ⟨c, hRt, hQc⟩, hsees.trans hsee⟩

end Runs
end FileTracker
