import AlpmRpc.Lib.Checked

/-!
# Programs that may give up early

`Falters R m m'`: run from any state, `m` does what `m'` does, or it fails at once in a state of which
`R` holds. So a program whose resource may run out is compared with one whose resource does not, with
`R` for "it ran out". The relation goes through sequences and tests, and a postcondition of `m'` is one
of `m` that allows for `R` (`Falters.wp`).
-/

set_option autoImplicit false

namespace Checked

variable {σ α β : Type}

def Falters (R : σ → Prop) (m m' : Prog σ α) : Prop :=
  ∀ s, m s = m' s ∨ ∃ s', m s = .fail s' ∧ R s'

namespace Falters

variable {R : σ → Prop} {m m' : Prog σ α}

theorem refl (m : Prog σ α) : Falters R m m := fun _ => .inl rfl

theorem bind {f f' : α → Prog σ β} (h : Falters R m m') (hf : ∀ a, Falters R (f a) (f' a)) :
    Falters R (m >>= f) (m' >>= f') := by
  intro s
  obtain heq | ⟨s', heq, hs'⟩ := h s
  · simp only [Bind.bind, heq]
    cases m' s with
    | ok a s₁ => exact hf a s₁
    | fail s₁ => exact .inl rfl
    | fault => exact .inl rfl
  · simp only [Bind.bind, heq]
    exact .inr ⟨s', rfl, hs'⟩

/-- The first step is the same. -/
theorem andThen {f f' : α → Prog σ β} (hf : ∀ a, Falters R (f a) (f' a)) :
    Falters R (m >>= f) (m >>= f') := (refl m).bind hf

theorem ite (c : Prop) [Decidable c] {n n' : Prog σ α} (ht : Falters R m m') (hf : Falters R n n') :
    Falters R (if c then m else n) (if c then m' else n') := by
  split
  · exact ht
  · exact hf

theorem wp {F : Prop} {Q : α → σ → Prop} {E : σ → Prop} {s : σ} (h : Falters R m m')
    (hm : wp F m' Q E s) : wp F m Q (fun s' => E s' ∨ R s') s := by
  unfold Checked.wp at hm ⊢
  obtain heq | ⟨s', heq, hs'⟩ := h s
  · rw [heq]
    cases hr : m' s with
    | ok a s₁ =>
      rw [hr] at hm
      exact hm
    | fail s₁ =>
      rw [hr] at hm
      exact .inl hm
    | fault =>
      rw [hr] at hm
      exact hm
  · rw [heq]
    exact .inr hs'

end Falters

end Checked
