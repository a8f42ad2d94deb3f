import Mathlib.Tactic.TypeStar

/-!
# Programs whose accesses are checked

A program on a state returns, fails with the state it failed in, or does what it must not (`fault`):
an access out of bounds, an arithmetic overflow, a loop without an end. `wp F m Q E s`: run from `s`,
`m` returns in `Q` or fails in `E`, or it does such a thing and `F` holds. With `False` for `F` it does
not; with `True` this is left open, and `wp_and` puts the two together. The rules take a program apart
from the front.
-/

set_option autoImplicit false

namespace Checked

inductive Res (σ α : Type) where
  | ok (a : α) (s : σ)
  | fail (s : σ)
  | fault

def Prog (σ α : Type) : Type := σ → Res σ α

variable {σ α β : Type}

instance : Monad (Prog σ) where
  pure a s := .ok a s
  bind m f s :=
    match m s with
    | .ok a s => f a s
    | .fail s => .fail s
    | .fault => .fault

def get : Prog σ σ := fun s => .ok s s

def modify (f : σ → σ) : Prog σ Unit := fun s => .ok () (f s)

def fail : Prog σ α := fun s => .fail s

def fault : Prog σ α := fun _ => .fault

/-- Go on when `p` holds, which it must. -/
def check (p : Prop) [Decidable p] : Prog σ Unit := if p then pure () else fault

/-- From `s`, `m` returns in `Q` or fails in `E`; a fault is `F`. -/
def wp (F : Prop) (m : Prog σ α) (Q : α → σ → Prop) (E : σ → Prop) (s : σ) : Prop :=
  match m s with
  | .ok a s => Q a s
  | .fail s => E s
  | .fault => F

variable {F : Prop} {m : Prog σ α} {Q Q' : α → σ → Prop} {E E' : σ → Prop} {s : σ}

/-! ## Rules -/

@[simp]
theorem wp_pure (a : α) : wp F (pure a) Q E s ↔ Q a s := Iff.rfl

@[simp]
theorem wp_bind (m : Prog σ α) (f : α → Prog σ β) (Q : β → σ → Prop) :
    wp F (m >>= f) Q E s ↔ wp F m (fun a s => wp F (f a) Q E s) E s := by
  have hbind : (m >>= f) s = match m s with
      | .ok a s => f a s
      | .fail s => .fail s
      | .fault => .fault := rfl
  unfold wp
  rw [hbind]
  cases m s <;> rfl

@[simp]
theorem wp_get {Q : σ → σ → Prop} : wp F get Q E s ↔ Q s s := Iff.rfl

@[simp]
theorem wp_modify {Q : Unit → σ → Prop} (f : σ → σ) : wp F (modify f) Q E s ↔ Q () (f s) := Iff.rfl

@[simp]
theorem wp_fail : wp F (fail : Prog σ α) Q E s ↔ E s := Iff.rfl

/-- What must hold does. -/
@[simp]
theorem wp_check {Q : Unit → σ → Prop} (p : Prop) [Decidable p] :
    wp False (check p) Q E s ↔ p ∧ Q () s := by
  unfold check
  split
  · simp [*]
  · rename_i hp
    exact ⟨False.elim, fun h => hp h.1⟩

/-- What must hold is taken to. -/
@[simp]
theorem wp_check_assumed {Q : Unit → σ → Prop} (p : Prop) [Decidable p] :
    wp True (check p) Q E s ↔ (p → Q () s) := by
  unfold check
  split
  · simp [*]
  · rename_i hp
    exact iff_of_true trivial fun h => absurd h hp

/-- The consequence rule. -/
theorem wp_mono (h : wp F m Q E s) (hQ : ∀ a s', Q a s' → Q' a s') (hE : ∀ s', E s' → E' s') :
    wp F m Q' E' s := by
  unfold wp at h ⊢
  cases hm : m s with
  | ok a s' =>
    rw [hm] at h
    exact hQ a s' h
  | fail s' =>
    rw [hm] at h
    exact hE s' h
  | fault =>
    rw [hm] at h
    exact h

/-- That there is no fault, and what holds when there is none. -/
theorem wp_and (h : wp False m Q E s) (h' : wp True m Q' E' s) :
    wp False m (fun a s => Q a s ∧ Q' a s) (fun s => E s ∧ E' s) s := by
  unfold wp at h h' ⊢
  cases hm : m s with
  | ok a s' =>
    rw [hm] at h h'
    exact ⟨h, h'⟩
  | fail s' =>
    rw [hm] at h h'
    exact ⟨h, h'⟩
  | fault =>
    rw [hm] at h
    exact h

/-- A step that is shown to end in `R`, and what comes after it. -/
theorem wp_seq {R : α → σ → Prop} {f : α → Prog σ β} {Q : β → σ → Prop} (h : wp F m R E s)
    (hf : ∀ a s', R a s' → wp F (f a) Q E s') : wp F (m >>= f) Q E s :=
  (wp_bind m f Q).2 (wp_mono h hf fun _ he => he)

theorem wp_ite (c : Prop) [Decidable c] {m m' : Prog σ α} (ht : c → wp F m Q E s)
    (hf : ¬c → wp F m' Q E s) : wp F (if c then m else m') Q E s := by
  split
  · exact ht ‹_›
  · exact hf ‹_›

/-- What a program without a fault gets to. -/
theorem wp_cases (h : wp False m Q E s) :
    (∃ a s', m s = .ok a s' ∧ Q a s') ∨ ∃ s', m s = .fail s' ∧ E s' := by
  unfold wp at h
  cases hm : m s with
  | ok a s' =>
    rw [hm] at h
    exact .inl ⟨a, s', rfl, h⟩
  | fail s' =>
    rw [hm] at h
    exact .inr ⟨s', rfl, h⟩
  | fault =>
    rw [hm] at h
    exact h.elim

/-! ## What is kept -/

/-- Where `m` returns, `P` holds if it did before. -/
def Keeps (P : σ → Prop) (m : Prog σ α) : Prop :=
  ∀ s, P s → wp True m (fun _ => P) (fun _ => True) s

namespace Keeps

variable {P : σ → Prop}

theorem pure (a : α) : Keeps P (pure a : Prog σ α) := fun _ h => h

theorem get : Keeps P (get : Prog σ σ) := fun _ h => h

theorem modify {f : σ → σ} (h : ∀ s, P s → P (f s)) : Keeps P (modify f) := h

theorem check (p : Prop) [Decidable p] : Keeps P (check p) :=
  fun _ h => (wp_check_assumed p).2 fun _ => h

theorem bind {f : α → Prog σ β} (h : Keeps P m) (hf : ∀ a, Keeps P (f a)) : Keeps P (m >>= f) :=
  fun s hs => wp_seq (h s hs) hf

theorem ite (c : Prop) [Decidable c] {m m' : Prog σ α} (ht : Keeps P m) (hf : Keeps P m') :
    Keeps P (if c then m else m') := by
  split
  · exact ht
  · exact hf

end Keeps

end Checked
