import Mathlib.Tactic.TypeStar

/-!
# What holds along a run

A system that takes step after step, each with an action that it may refuse, and a property of single
steps that holds of all steps of a run.
-/

set_option autoImplicit false

namespace Run

variable {S A : Type*} (step : S → A → Option S)

/-- `P` holds of every step that the actions make from `s`. -/
def Along (P : S → A → S → Prop) : S → List A → Prop
  | _, [] => True
  | s, a :: as => ∀ s', step s a = some s' → P s a s' ∧ Along P s' as

instance Along.decidable {P : S → A → S → Prop} [∀ s a s', Decidable (P s a s')] :
    ∀ (s : S) (as : List A), Decidable (Along step P s as)
  | _, [] => isTrue trivial
  | s, a :: as =>
    match h : step s a with
    | none => isTrue fun _ hs => by cases h.symm.trans hs
    | some s' =>
      have := Along.decidable (P := P) s' as
      decidable_of_iff (P s a s' ∧ Along step P s' as)
        ⟨fun hp _ hs => by cases h.symm.trans hs; exact hp, fun hp => hp s' h⟩

/-- The next step of a run. -/
theorem Along.cons {step : S → A → Option S} {P : S → A → S → Prop} {s : S} {a : A} {as : List A}
    (s' : S) (hs : step s a = some s') (hP : P s a s') (h : Along step P s' as) :
    Along step P s (a :: as) := by
  intro s₁ hs₁
  cases hs.symm.trans hs₁
  exact ⟨hP, h⟩

/-- **The invariant rule**: under an invariant that `C`-steps keep, a run of `C`-steps is a run of
`P`-steps. -/
theorem Along.of_inv {step : S → A → Option S} {I : S → Prop} {C P : S → A → S → Prop}
    (hstep : ∀ s a s', I s → step s a = some s' → C s a s' → P s a s' ∧ I s') {s : S} {as : List A}
    (hs : I s) (h : Along step C s as) : Along step P s as := by
  induction as generalizing s with
  | nil => trivial
  | cons a as ih =>
    intro s' ha
    obtain ⟨hC, hrest⟩ := h s' ha
    obtain ⟨hP, hI⟩ := hstep s a s' hs ha hC
    exact ⟨hP, ih hI hrest⟩

/-- The invariant rule where every step is good. -/
theorem Along.of_kept {step : S → A → Option S} {I : S → Prop} {P : S → A → S → Prop}
    (hstep : ∀ s a s', I s → step s a = some s' → P s a s' ∧ I s') {s : S} (as : List A) (hs : I s) :
    Along step P s as := by
  induction as generalizing s with
  | nil => trivial
  | cons a as ih =>
    intro s' ha
    obtain ⟨hP, hI⟩ := hstep s a s' hs ha
    exact ⟨hP, ih hI⟩

/-- A property of the actions alone. -/
theorem Along.of_mem {step : S → A → Option S} {P : S → A → S → Prop} {as : List A}
    (h : ∀ a ∈ as, ∀ s s', P s a s') (s : S) : Along step P s as := by
  induction as generalizing s with
  | nil => trivial
  | cons a as ih =>
    intro s' _
    obtain ⟨ha, has⟩ := List.forall_mem_cons.1 h
    exact ⟨ha s s', ih has s'⟩

/-- The step after the run `as` is one of the run's. -/
theorem Along.last {step : S → A → Option S} {P : S → A → S → Prop} {s s' s'' : S} {as : List A}
    {a : A} (h : Along step P s (as ++ [a])) (hrun : as.foldlM step s = some s')
    (ha : step s' a = some s'') : P s' a s'' := by
  induction as generalizing s with
  | nil =>
    cases hrun
    exact (h s'' ha).1
  | cons b as ih =>
    rw [List.foldlM_cons] at hrun
    obtain ⟨s₁, hb, hrest⟩ := Option.bind_eq_some_iff.1 hrun
    exact ih (h s₁ hb).2 hrest

end Run
