import Mathlib.Tactic.TypeStar

/-!
# Transfers in parts

A transfer of `n` items by an operation that moves some of the items it is asked for at a time: ask
it for what is left until nothing is. An operation that moves nothing ends the transfer early.
-/

set_option autoImplicit false

namespace Transfer

variable {σ : Type*} (io : Nat → σ → Nat × σ)

/-- Whether all of `n` moved, and the state after it. -/
def exactly (n : Nat) (s : σ) : Bool × σ :=
  if n = 0 then (true, s)
  else if (io n s).1 = 0 then (false, (io n s).2)
  else exactly (n - (io n s).1) (io n s).2
termination_by n

variable {io}

/-- **The loop rule**: an invariant of what is left and the state holds when all has moved, and held
before the operation that moved nothing. -/
theorem exactly_rule {I : Nat → σ → Prop}
    (hstep : ∀ n s, 0 < n → I n s → (io n s).1 ≠ 0 → I (n - (io n s).1) (io n s).2) {n : Nat} {s : σ}
    (h : I n s) :
    ((exactly io n s).1 = true ∧ I 0 (exactly io n s).2) ∨
      ∃ m s₀, 0 < m ∧ I m s₀ ∧ (io m s₀).1 = 0 ∧ exactly io n s = (false, (io m s₀).2) := by
  induction n, s using exactly.induct io with
  | case1 s =>
    rw [exactly, if_pos rfl]
    exact .inl ⟨rfl, h⟩
  | case2 n s hn hio =>
    rw [exactly, if_neg hn, if_pos hio]
    exact .inr ⟨n, s, by omega, h, hio, rfl⟩
  | case3 n s hn hio ih =>
    rw [exactly, if_neg hn, if_neg hio]
    exact ih (hstep n s (by omega) h hio)

/-- An operation that never moves nothing moves it all. -/
theorem exactly_all {I : Nat → σ → Prop}
    (hstep : ∀ n s, 0 < n → I n s → (io n s).1 ≠ 0 ∧ I (n - (io n s).1) (io n s).2) {n : Nat} {s : σ}
    (h : I n s) : (exactly io n s).1 = true ∧ I 0 (exactly io n s).2 := by
  rcases exactly_rule (fun n s hn hi _ => (hstep n s hn hi).2) h with hall | ⟨m, s₀, hm, hi, hio, -⟩
  · exact hall
  · exact absurd hio (hstep m s₀ hm hi).1

/-- A transfer of more than there is ends early. -/
theorem exactly_short {I : Nat → σ → Prop}
    (hstep : ∀ n s, 0 < n → I n s → (io n s).1 ≠ 0 → I (n - (io n s).1) (io n s).2)
    (hnone : ∀ s, ¬I 0 s) {n : Nat} {s : σ} (h : I n s) : (exactly io n s).1 = false := by
  rcases exactly_rule hstep h with ⟨-, hall⟩ | ⟨m, s₀, -, -, -, he⟩
  · exact absurd hall (hnone _)
  · rw [he]

end Transfer
