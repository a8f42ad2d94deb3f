import Mathlib.Logic.Relation

/-!
# Walking up a forest

A forest given by the parent `up x` of each node, `none` at a root. `Above` is the ancestor
relation, `Ends n x` says that the chain from `x` has at most `n` nodes, and `reach` is the walk up
cut after a number of steps. A chain that ends before the cut makes the walk exact (`reach_iff`) and
has no cycle (`Ends.not_above_self`); a rank that falls with every step bounds it (`ends_of_rank`).
-/

set_option autoImplicit false

namespace Chain

variable {α : Type} {up : α → Option α}

/-- `y` is the parent of `x`, or above it. -/
def Above (up : α → Option α) : α → α → Prop := Relation.TransGen fun x y => up x = some y

/-- The chain from `x` has at most `n` nodes. -/
def Ends (up : α → Option α) : Nat → α → Prop
  | 0, _ => False
  | n + 1, x => ∀ y, up x = some y → Ends up n y

theorem Ends.mono {n m : Nat} {x : α} (h : Ends up n x) (hnm : n ≤ m) : Ends up m x := by
  induction n generalizing m x with
  | zero => exact h.elim
  | succ n ih =>
    obtain ⟨m, rfl⟩ : ∃ k, m = k + 1 := ⟨m - 1, by omega⟩
    exact fun y hy => ih (h y hy) (by omega)

theorem ends_of_rank {rank : α → Nat} (h : ∀ x y, up x = some y → rank y < rank x) {n : Nat} (x : α)
    (hx : rank x < n) : Ends up n x := by
  induction n generalizing x with
  | zero => exact absurd hx (Nat.not_lt_zero _)
  | succ n ih =>
    intro y hy
    have := h x y hy
    exact ih y (by omega)

/-- The nodes above `x`: its parent and what is above the parent. -/
theorem above_iff {x y : α} : Above up x y ↔ ∃ z, up x = some z ∧ (z = y ∨ Above up z y) := by
  refine ⟨fun h => ?_, fun ⟨z, hz, h⟩ => ?_⟩
  · rcases Relation.TransGen.head'_iff.1 h with ⟨z, hz, hzy⟩
    rcases Relation.reflTransGen_iff_eq_or_transGen.1 hzy with rfl | hzy
    · exact ⟨_, hz, .inl rfl⟩
    · exact ⟨z, hz, .inr hzy⟩
  · rcases h with rfl | h
    · exact .single hz
    · exact .head hz h

theorem Ends.not_above_self {n : Nat} {x : α} (h : Ends up n x) : ¬Above up x x := by
  induction n generalizing x with
  | zero => exact h.elim
  | succ n ih =>
    intro hx
    -- the parent of a node on a cycle is on it too
    obtain ⟨z, hz, hzx⟩ := above_iff.1 hx
    refine ih (h z hz) ?_
    rcases hzx with rfl | hzx
    · exact hx
    · exact .tail hzx hz

/-- What every step keeps is the same at a node and above it. -/
theorem Above.same {β : Type} {f : α → β} (hf : ∀ x y, up x = some y → f x = f y) {x y : α}
    (h : Above up x y) : f x = f y := by
  induction h with
  | single h => exact hf _ _ h
  | tail _ h ih => exact ih.trans (hf _ _ h)

/-- What is above a node of `K`, in a forest that has the same parents there. -/
theorem Above.within {up' : α → Option α} {K : α → Prop} {x y : α}
    (hK : ∀ x y, K x → up x = some y → K y ∧ up' x = some y) (hx : K x) (h : Above up x y) :
    Above up' x y := by
  induction h using Relation.TransGen.head_induction_on with
  | single h => exact .single (hK _ _ hx h).2
  | head h _ ih =>
    obtain ⟨hz, hu⟩ := hK _ _ hx h
    exact .head hu (ih hz)

section reach

variable [DecidableEq α]

/-- Does the walk up meet `o` within `n` nodes? -/
def reach (up : α → Option α) (o : α) : Nat → Option α → Bool
  | 0, _ => false
  | _ + 1, none => false
  | n + 1, some x => if x = o then true else reach up o n (up x)

theorem reach_none (o : α) (n : Nat) : reach up o n none = false := by
  cases n <;> rfl

theorem reach_iff {o : α} {n : Nat} {x : α} (h : Ends up n x) :
    reach up o n (some x) = true ↔ x = o ∨ Above up x o := by
  induction n generalizing x with
  | zero => exact h.elim
  | succ n ih =>
    rw [reach, above_iff]
    by_cases hx : x = o
    · simp [hx]
    · simp only [hx, if_false, false_or]
      cases hu : up x with
      | none => simp [reach_none]
      | some z =>
        rw [ih (h z hu)]
        simp

/-- The cut does not matter once the chain is shorter. -/
theorem reach_mono {o : α} {n m : Nat} {x : α} (h : Ends up n x) (hnm : n ≤ m) :
    reach up o m (some x) = reach up o n (some x) := by
  rw [Bool.eq_iff_iff, reach_iff h, reach_iff (h.mono hnm)]

end reach

end Chain
