import Mathlib.Logic.Relation

/-!
# Simulation with steps in between

A system `next` that takes several steps where another, `step`, takes one. `R c a` says that the state
`c` stands for `a`; a step of `next` is one of `step`, or one in between, which makes the measure `μ`
smaller. So a run of `next` stands for one of `step`, and where the runs of `step` end, those of `next`
do.
-/

set_option autoImplicit false

namespace Simulation

open Relation

variable {C A : Type*} {next : C → C → Prop} {step : A → A → Prop} {R : C → A → Prop} {μ : C → Nat}

def Refines (next : C → C → Prop) (step : A → A → Prop) (R : C → A → Prop) (μ : C → Nat) : Prop :=
  ∀ c a c', R c a → next c c' → (R c' a ∧ μ c' < μ c) ∨ ∃ a', step a a' ∧ R c' a'

theorem Refines.run (h : Refines next step R μ) {c c' : C} {a : A} (hr : R c a)
    (hc : ReflTransGen next c c') : ∃ a', ReflTransGen step a a' ∧ R c' a' := by
  induction hc with
  | refl => exact ⟨a, .refl, hr⟩
  | tail _ hstep ih =>
    obtain ⟨a', ha, hr'⟩ := ih
    obtain ⟨hr'', -⟩ | ⟨a'', hstep', hr''⟩ := h _ _ _ hr' hstep
    · exact ⟨a', ha, hr''⟩
    · exact ⟨a'', ha.tail hstep', hr''⟩

/-- **No run of `next` goes on for ever** from what stands for a state that no run of `step` does. -/
theorem Refines.ends (h : Refines next step R μ) {c : C} {a : A} (hr : R c a)
    (ha : Acc (fun a' a => step a a') a) : Acc (fun c' c => next c c') c := by
  induction ha generalizing c with
  | intro a _ ih =>
    -- the steps in between, by what is left of the measure
    induction hn : μ c using Nat.strongRecOn generalizing c with
    | ind n ihn =>
      refine ⟨c, fun c' hc => ?_⟩
      obtain ⟨hr', hlt⟩ | ⟨a', hstep, hr'⟩ := h c a c' hr hc
      · exact ihn (μ c') (hn ▸ hlt) hr' rfl
      · exact ih a' hstep hr'

/-- A system with one way to go, along a run to a state that has none. -/
theorem ends_of_run {a e : A} (hrun : ReflTransGen step a e) (hend : ∀ x, ¬step e x)
    (hone : ∀ b, ReflTransGen step a b → ∀ x y, step b x → step b y → x = y) :
    Acc (fun a' a => step a a') a := by
  induction hrun using ReflTransGen.head_induction_on with
  | refl => exact ⟨e, fun x hx => absurd hx (hend x)⟩
  | head hstep _ ih =>
    refine ⟨_, fun x hx => ?_⟩
    rw [hone _ .refl x _ hx hstep]
    exact ih fun b hb => hone b (.head hstep hb)

end Simulation
