import Mathlib.Algebra.BigOperators.Group.Finset.Basic
import Mathlib.Data.Fintype.Basic
import Mathlib.Logic.Hydra

/-!
# Taking turns

Parties that share something behind a lock. Whoever has the lock is in a section: what is shared goes on
by steps, until the party can leave. If every section that begins at rest goes on to an end, and does
there what `does` says, then the parties do their sections one after another, whatever the interleaving
(`serial`), none waits for ever (`progress`), and where each party has only finitely many sections, no
run goes on for ever (`ends`).
-/

set_option autoImplicit false

namespace Turns

open Relation

variable {T P C : Type*} [DecidableEq T]

/-- How a party enters a section, what is shared goes on, and the party leaves. -/
structure Sections (P C : Type*) where
  enter : P → C → Option C
  step : C → C → Prop
  leave : P → C → Option (P × C)

structure State (T P C : Type*) where
  parties : T → P
  owner : Option T := none
  shared : C

inductive Next (M : Sections P C) : State T P C → State T P C → Prop
  | enter {s : State T P C} {t : T} {c : C} : s.owner = none →
      M.enter (s.parties t) s.shared = some c → Next M s { s with owner := some t, shared := c }
  | step {s : State T P C} {c : C} : M.step s.shared c → Next M s { s with shared := c }
  | leave {s : State T P C} {t : T} {p : P} {c : C} : s.owner = some t →
      M.leave (s.parties t) s.shared = some (p, c) →
      Next M s { parties := Function.update s.parties t p, shared := c }

/-- One party's section, at once. -/
def Turn (does : P → C → P → C → Prop) (a b : (T → P) × C) : Prop :=
  ∃ t p, does (a.1 t) a.2 p b.2 ∧ b.1 = Function.update a.1 t p

/-- A section that begins at rest ends, and has done what `does` says. -/
structure Sections.Does (M : Sections P C) (ok : P → Prop) (rest : C → Prop)
    (does : P → C → P → C → Prop) : Prop where
  quiet : ∀ c c', rest c → ¬M.step c c'
  ends : ∀ p c c₁, ok p → rest c → M.enter p c = some c₁ → Acc (fun y x => M.step x y) c₁
  goesOn : ∀ p c c₁ x, ok p → rest c → M.enter p c = some c₁ → ReflTransGen M.step c₁ x →
    (∃ y, M.step x y) ∨ ∃ q, M.leave p x = some q
  left : ∀ p c c₁ x p' c', ok p → rest c → M.enter p c = some c₁ → ReflTransGen M.step c₁ x →
    M.leave p x = some (p', c') → does p c p' c' ∧ ok p' ∧ rest c'

/-- `c` is what was shared when nobody had the lock last. -/
def Since (M : Sections P C) (c : C) (s : State T P C) : Prop :=
  (s.owner = none ∧ s.shared = c) ∨
    ∃ t c₁, s.owner = some t ∧ M.enter (s.parties t) c = some c₁ ∧ ReflTransGen M.step c₁ s.shared

variable {M : Sections P C} {ok : P → Prop} {rest : C → Prop} {does : P → C → P → C → Prop}
  {s s' s₀ : State T P C} {c : C}

theorem ok_update {ps : T → P} {t : T} {p : P} (hok : ∀ u, ok (ps u)) (hp : ok p) :
    ∀ u, ok (Function.update ps t p u) :=
  (Function.forall_update_iff ps fun _ q => ok q).2 ⟨hp, fun u _ => hok u⟩

/-- What one step makes of the turns. -/
theorem since_next (h : M.Does ok rest does) (hok : ∀ t, ok (s.parties t)) (hc : rest c)
    (hs : Since M c s) (hn : Next M s s') :
    ∃ c', ReflGen (Turn does) (s.parties, c) (s'.parties, c') ∧ (∀ t, ok (s'.parties t)) ∧ rest c' ∧
      Since M c' s' := by
  cases hn with
  | @enter t c₁ hfree hent =>
    obtain ⟨-, rfl⟩ | ⟨u, -, hu, -⟩ := hs
    · exact ⟨_, .refl, hok, hc, .inr ⟨t, c₁, rfl, hent, .refl⟩⟩
    · exact absurd (hfree.symm.trans hu) (Option.some_ne_none u).symm
  | @step c' hstep =>
    obtain ⟨-, rfl⟩ | ⟨t, c₁, ht, hent, hrun⟩ := hs
    · exact absurd hstep (h.quiet _ _ hc)
    · exact ⟨c, .refl, hok, hc, .inr ⟨t, c₁, ht, hent, hrun.tail hstep⟩⟩
  | @leave t p c' hown hleave =>
    obtain ⟨hfree, -⟩ | ⟨u, c₁, hu, hent, hrun⟩ := hs
    · exact absurd (hfree.symm.trans hown) (Option.some_ne_none t).symm
    · obtain rfl : u = t := Option.some.inj (hu.symm.trans hown)
      obtain ⟨hdoes, hp, hc'⟩ := h.left _ _ _ _ _ _ (hok u) hc hent hrun hleave
      exact ⟨c', .single ⟨u, p, hdoes, rfl⟩, ok_update hok hp, hc', .inl ⟨rfl, rfl⟩⟩

/-- **A run is one of sections one after another**, and a part of a section. -/
theorem serial (h : M.Does ok rest does) (hfree : s₀.owner = none) (hok : ∀ t, ok (s₀.parties t))
    (hrest : rest s₀.shared) (hr : ReflTransGen (Next M) s₀ s) :
    ∃ c, ReflTransGen (Turn does) (s₀.parties, s₀.shared) (s.parties, c) ∧ (∀ t, ok (s.parties t)) ∧
      rest c ∧ Since M c s := by
  induction hr with
  | refl => exact ⟨s₀.shared, .refl, hok, hrest, .inl ⟨hfree, rfl⟩⟩
  | tail _ hn ih =>
    obtain ⟨c, hturns, hok, hc, hs⟩ := ih
    obtain ⟨c', hturn, hok', hc', hs'⟩ := since_next h hok hc hs hn
    exact ⟨c', hturns.trans hturn.to_reflTransGen, hok', hc', hs'⟩

/-- **No deadlock**: some step can be taken, or no party has a section left. -/
theorem progress (h : M.Does ok rest does) (hok : ∀ t, ok (s.parties t)) (hc : rest c)
    (hs : Since M c s) :
    (∃ s', Next M s s') ∨ (s.owner = none ∧ ∀ t, M.enter (s.parties t) s.shared = none) := by
  obtain ⟨hfree, -⟩ | ⟨t, c₁, ht, hent, hrun⟩ := hs
  · by_cases hnone : ∀ t, M.enter (s.parties t) s.shared = none
    · exact .inr ⟨hfree, hnone⟩
    · obtain ⟨t, ht⟩ := not_forall.1 hnone
      obtain ⟨c', hc'⟩ := Option.ne_none_iff_exists'.1 ht
      exact .inl ⟨_, .enter hfree hc'⟩
  · obtain ⟨y, hy⟩ | ⟨q, hq⟩ := h.goesOn _ _ _ _ (hok t) hc hent hrun
    · exact .inl ⟨_, .step hy⟩
    · exact .inl ⟨_, .leave ht hq⟩

section
variable [Fintype T] {after : P → P → Prop}

/-- The parties as a multiset. -/
def parties (ps : T → P) : Multiset P := ∑ t, {ps t}

theorem parties_update (ps : T → P) (t : T) (p : P) :
    parties (Function.update ps t p) + {ps t} = parties ps + {p} := by
  have hupdate : (fun u => ({Function.update ps t p u} : Multiset P)) =
      Function.update (fun u => {ps u}) t {p} := by
    funext u
    exact Function.apply_update (fun _ q => ({q} : Multiset P)) ps t p u
  rw [parties, parties, hupdate, Finset.sum_update_of_mem (Finset.mem_univ t),
    Finset.sum_eq_add_sum_sdiff_singleton_of_mem (Finset.mem_univ t) fun u => {ps u}]
  ac_rfl

/-- Every section makes what its party has left less. -/
theorem ends (h : M.Does ok rest does) (hwf : WellFounded after)
    (hafter : ∀ p c p' c', does p c p' c' → after p' p) (hfree : s.owner = none)
    (hok : ∀ t, ok (s.parties t)) (hrest : rest s.shared) : Acc (fun y x => Next M x y) s := by
  induction hps : parties s.parties using hwf.cutExpand.induction generalizing s with
  | h ps ih =>
  subst hps
  refine ⟨s, fun s₁ hn => ?_⟩
  cases hn with
  | step hstep => exact absurd hstep (h.quiet _ _ hrest)
  | leave hown _ => exact absurd (hfree.symm.trans hown) (Option.some_ne_none _).symm
  | @enter t c₁ _ hent =>
    -- inside the section, by its steps
    have hinside : ∀ x, ReflTransGen M.step c₁ x → Acc (fun y x => M.step x y) x →
        Acc (fun y x => Next M x y) { s with owner := some t, shared := x } := by
      intro x hx hacc
      induction hacc with
      | intro x _ ihx =>
        refine ⟨_, fun s₂ hn => ?_⟩
        cases hn with
        | enter hno _ => exact absurd hno (Option.some_ne_none t)
        | step hstep => exact ihx _ hstep (hx.tail hstep)
        | @leave u p c' hown hleave =>
          obtain rfl : t = u := Option.some.inj hown
          obtain ⟨hdoes, hp, hc'⟩ := h.left _ _ _ _ _ _ (hok t) hrest hent hx hleave
          refine ih _ ?_ rfl (ok_update hok hp) hc' rfl
          exact ⟨{p}, s.parties t, fun q hq => Multiset.mem_singleton.1 hq ▸ hafter _ _ _ _ hdoes,
            parties_update s.parties t p⟩
    exact hinside c₁ .refl (h.ends _ _ _ (hok t) hrest hent)

end

end Turns
