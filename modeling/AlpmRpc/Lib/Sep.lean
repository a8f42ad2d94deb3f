import Mathlib

/-!
# Assertions about pieces of memory

A heap maps addresses to contents, and an assertion is a set of heaps. Assertions are a commutative
quantale: `P * Q` holds of two heaps apart from each other, one in `P` and one in `Q`, put together; `1`
is the empty heap, `≤` is entailment and `⨆` an existential. So Mathlib's laws of ordered monoids and
quantales are the rules of separating conjunction.
-/

set_option autoImplicit false

namespace Sep

variable {A B : Type*}

abbrev Heap (A B : Type*) : Type _ := A → Option B

namespace Heap

/-- Nothing is at an address in both. -/
def Apart (h k : Heap A B) : Prop := ∀ a, h a = none ∨ k a = none

def join (h k : Heap A B) : Heap A B := fun a => (h a).or (k a)

def empty : Heap A B := fun _ => none

variable {h k l : Heap A B}

theorem Apart.symm (hk : h.Apart k) : k.Apart h := fun a => (hk a).symm

theorem join_comm (hk : h.Apart k) : h.join k = k.join h := by
  funext a
  obtain ha | ka := hk a
  · simp [join, ha]
  · simp [join, ka]

theorem join_assoc (h k l : Heap A B) : (h.join k).join l = h.join (k.join l) :=
  funext fun _ => Option.or_assoc

theorem apart_join_left : (h.join k).Apart l ↔ h.Apart l ∧ k.Apart l := by
  simp only [Apart, join, Option.or_eq_none_iff]
  refine ⟨fun hl => ⟨fun a => (hl a).imp_left And.left, fun a => (hl a).imp_left And.right⟩,
    fun hl a => ?_⟩
  obtain ha | la := hl.1 a
  · exact (hl.2 a).imp_left fun ka => ⟨ha, ka⟩
  · exact .inr la

theorem apart_join_right : h.Apart (k.join l) ↔ h.Apart k ∧ h.Apart l :=
  ⟨fun hl => (apart_join_left.1 hl.symm).imp Apart.symm Apart.symm,
    fun hl => (apart_join_left.2 ⟨hl.1.symm, hl.2.symm⟩).symm⟩

@[simp]
theorem empty_join (h : Heap A B) : empty.join h = h := funext fun _ => Option.none_or

theorem empty_apart (h : Heap A B) : empty.Apart h := fun _ => .inl rfl

/-- The heap with `b` at `a` and nothing else. -/
def single [DecidableEq A] (a : A) (b : B) : Heap A B := Function.update empty a (some b)

end Heap

/-- A set of heaps. -/
def Assn (A B : Type*) : Type _ := Heap A B → Prop

namespace Assn

instance : CompleteLattice (Assn A B) := inferInstanceAs (CompleteLattice (Heap A B → Prop))

def Holds (P : Assn A B) (h : Heap A B) : Prop := P h

variable {P Q R : Assn A B} {h k l : Heap A B} {p : Prop}

theorem Holds.mono (hP : P.Holds h) (hPQ : P ≤ Q) : Q.Holds h := hPQ h hP

theorem ext (hPQ : ∀ h, P.Holds h ↔ Q.Holds h) : P = Q := funext fun h => propext (hPQ h)

theorem holds_iSup {ι : Sort*} (P : ι → Assn A B) : (⨆ i, P i).Holds h ↔ ∃ i, (P i).Holds h := by
  have heq := iSup_apply (α := Heap A B) (β := fun _ => Prop) (f := P) (a := h)
  exact (Iff.of_eq heq).trans iSup_Prop_eq.to_iff

theorem holds_sSup (s : Set (Assn A B)) : (sSup s).Holds h ↔ ∃ P ∈ s, P.Holds h := by
  rw [sSup_eq_iSup, holds_iSup]
  simp only [holds_iSup, exists_prop]

/-- `P` and `Q` of two heaps apart. -/
instance : Mul (Assn A B) := ⟨fun P Q h => ∃ k l, k.Apart l ∧ h = k.join l ∧ P k ∧ Q l⟩

instance : One (Assn A B) := ⟨fun h => h = Heap.empty⟩

theorem holds_mul :
    (P * Q).Holds h ↔ ∃ k l, k.Apart l ∧ h = k.join l ∧ P.Holds k ∧ Q.Holds l := Iff.rfl

theorem sep_comm (P Q : Assn A B) : P * Q = Q * P := by
  have hle : ∀ P Q : Assn A B, P * Q ≤ Q * P := by
    intro P Q h hPQ
    obtain ⟨k, l, hkl, rfl, hP, hQ⟩ := hPQ
    exact ⟨l, k, hkl.symm, Heap.join_comm hkl, hQ, hP⟩
  exact le_antisymm (hle P Q) (hle Q P)

theorem emp_sep (P : Assn A B) : 1 * P = P := by
  refine ext fun h => ⟨fun hP => ?_, fun hP => ⟨_, h, h.empty_apart, h.empty_join.symm, rfl, hP⟩⟩
  obtain ⟨k, l, -, rfl, rfl, hP⟩ := hP
  rwa [Heap.empty_join]

theorem sep_assoc (P Q R : Assn A B) : P * Q * R = P * (Q * R) := by
  refine ext fun h => ⟨fun hPQR => ?_, fun hPQR => ?_⟩
  · obtain ⟨_, l, hl, rfl, ⟨k₁, k₂, hk, rfl, hP, hQ⟩, hR⟩ := hPQR
    obtain ⟨h₁, h₂⟩ := Heap.apart_join_left.1 hl
    exact ⟨k₁, k₂.join l, Heap.apart_join_right.2 ⟨hk, h₁⟩, Heap.join_assoc k₁ k₂ l, hP,
      k₂, l, h₂, rfl, hQ, hR⟩
  · obtain ⟨k, _, hk, rfl, hP, l₁, l₂, hl, rfl, hQ, hR⟩ := hPQR
    obtain ⟨h₁, h₂⟩ := Heap.apart_join_right.1 hk
    exact ⟨k.join l₁, l₂, Heap.apart_join_left.2 ⟨h₂, hl⟩, (Heap.join_assoc k l₁ l₂).symm,
      ⟨k, l₁, h₁, rfl, hP, hQ⟩, hR⟩

instance : CommMonoid (Assn A B) where
  mul_assoc := sep_assoc
  one_mul := emp_sep
  mul_one P := (sep_comm P 1).trans (emp_sep P)
  mul_comm := sep_comm

theorem sep_sSup (P : Assn A B) (s : Set (Assn A B)) : P * sSup s = ⨆ Q ∈ s, P * Q := by
  refine ext fun h => ?_
  simp only [holds_iSup, holds_mul, holds_sSup]
  constructor
  · intro hall
    obtain ⟨k, l, hkl, heq, hP, Q, hs, hQ⟩ := hall
    exact ⟨Q, hs, k, l, hkl, heq, hP, hQ⟩
  · intro hall
    obtain ⟨Q, hs, k, l, hkl, heq, hP, hQ⟩ := hall
    exact ⟨k, l, hkl, heq, hP, Q, hs, hQ⟩

instance : IsQuantale (Assn A B) where
  mul_sSup_distrib := sep_sSup
  sSup_mul_distrib s Q := by simp only [mul_comm _ Q, sep_sSup]

instance : IsOrderedMonoid (Assn A B) where
  mul_le_mul_left P Q hPQ R h hR := by
    obtain ⟨k, l, hkl, rfl, hP, hR⟩ := hR
    exact ⟨k, l, hkl, rfl, hPQ _ hP, hR⟩

/-! ## Facts and existentials -/

/-- A fact, of the empty heap. -/
def lift (p : Prop) : Assn A B := fun h => p ∧ h = Heap.empty

theorem holds_lift_mul : (lift p * P).Holds h ↔ p ∧ P.Holds h := by
  constructor
  · intro hlift
    obtain ⟨k, l, -, heq, ⟨hp, hk⟩, hP⟩ := hlift
    rw [heq, hk, Heap.empty_join]
    exact ⟨hp, hP⟩
  · intro hlift
    exact ⟨_, h, h.empty_apart, h.empty_join.symm, ⟨hlift.1, rfl⟩, hlift.2⟩

theorem lift_of (hp : p) : (lift p : Assn A B) = 1 := ext fun _ => and_iff_right hp

theorem le_lift_mul (hp : p) (hPQ : P ≤ Q) : P ≤ lift p * Q := by
  rw [lift_of hp, one_mul]
  exact hPQ

theorem lift_mul_le (hPQ : p → P ≤ Q) : lift p * P ≤ Q := by
  intro h hP
  obtain ⟨hp, hP⟩ := holds_lift_mul.1 hP
  exact hPQ hp h hP

theorem mul_lift_le (P : Assn A B) (p : Prop) : P * lift p ≤ P := by
  rw [mul_comm]
  exact lift_mul_le fun _ => le_rfl

theorem iSup_mul {ι : Sort*} (P : ι → Assn A B) (Q : Assn A B) : (⨆ i, P i) * Q = ⨆ i, P i * Q := by
  refine ext fun h => ?_
  simp only [holds_iSup, holds_mul]
  constructor
  · intro hall
    obtain ⟨k, l, hkl, heq, ⟨i, hP⟩, hQ⟩ := hall
    exact ⟨i, k, l, hkl, heq, hP, hQ⟩
  · intro hall
    obtain ⟨i, k, l, hkl, heq, hP, hQ⟩ := hall
    exact ⟨k, l, hkl, heq, ⟨i, hP⟩, hQ⟩

theorem mul_iSup {ι : Sort*} (P : ι → Assn A B) (Q : Assn A B) : Q * (⨆ i, P i) = ⨆ i, Q * P i := by
  simp only [mul_comm Q, iSup_mul]

/-- `R` of the elements of two lists, each of a heap of its own. -/
def all₂ {α β : Type*} (R : α → β → Assn A B) : List α → List β → Assn A B
  | [], [] => 1
  | v :: vs, w :: ws => R v w * all₂ R vs ws
  | _, _ => ⊥

section
variable {α β : Type*} {R : α → β → Assn A B}

@[simp]
theorem all₂_nil : all₂ R [] [] = 1 := rfl

@[simp]
theorem all₂_cons (v : α) (vs : List α) (w : β) (ws : List β) :
    all₂ R (v :: vs) (w :: ws) = R v w * all₂ R vs ws := rfl

theorem bot_mul (P : Assn A B) : ⊥ * P = ⊥ := by
  refine ext fun h => ⟨fun hP => ?_, fun hb => hb.elim⟩
  obtain ⟨k, l, -, -, hb, -⟩ := hP
  exact hb.elim

theorem all₂_append (R : α → β → Assn A B) (vs vs' : List α) (ws ws' : List β) :
    all₂ R vs ws * all₂ R vs' ws' ≤ all₂ R (vs ++ vs') (ws ++ ws') := by
  induction vs generalizing ws with
  | nil =>
    cases ws with
    | nil => exact (one_mul _).le
    | cons w ws => exact (bot_mul _).le.trans bot_le
  | cons v vs ih =>
    cases ws with
    | nil => exact (bot_mul _).le.trans bot_le
    | cons w ws =>
      rw [List.cons_append, List.cons_append, all₂_cons, all₂_cons, mul_assoc]
      exact mul_le_mul_right (ih ws) (R v w)

theorem all₂_le_one (h : ∀ v w, R v w ≤ 1) (vs : List α) (ws : List β) : all₂ R vs ws ≤ 1 := by
  induction vs generalizing ws with
  | nil =>
    cases ws with
    | nil => exact le_rfl
    | cons w ws => exact bot_le
  | cons v vs ih =>
    cases ws with
    | nil => exact bot_le
    | cons w ws => exact mul_le_one' (h v w) (ih ws)

/-- One of the elements, and the others. -/
theorem all₂_eraseIdx (R : α → β → Assn A B) {vs : List α} {ws : List β} {i : Nat} {w : β}
    (hw : ws[i]? = some w) :
    all₂ R vs ws ≤ ⨆ v, R v w * all₂ R (vs.eraseIdx i) (ws.eraseIdx i) := by
  induction vs generalizing ws i with
  | nil =>
    cases ws with
    | nil => exact absurd hw.symm (Option.some_ne_none w)
    | cons u ws => exact bot_le
  | cons v vs ih =>
    cases ws with
    | nil => exact bot_le
    | cons u ws =>
      cases i with
      | zero =>
        obtain rfl : u = w := Option.some.inj hw
        exact le_iSup_of_le v le_rfl
      | succ i =>
        rw [all₂_cons]
        have hw' : ws[i]? = some w := hw
        refine (mul_le_mul_right (ih hw') _).trans ?_
        rw [mul_iSup]
        refine iSup_mono fun x => ?_
        rw [mul_left_comm]
        exact le_rfl

theorem all₂_length (R : α → β → Assn A B) (vs : List α) (ws : List β) :
    all₂ R vs ws ≤ lift (vs.length = ws.length) * all₂ R vs ws := by
  induction vs generalizing ws with
  | nil =>
    cases ws with
    | nil => exact le_lift_mul rfl le_rfl
    | cons w ws => exact bot_le
  | cons v vs ih =>
    cases ws with
    | nil => exact bot_le
    | cons w ws =>
      rw [all₂_cons]
      refine (mul_le_mul_right (ih ws) (R v w)).trans ?_
      rw [← mul_assoc, mul_comm (R v w), mul_assoc]
      exact lift_mul_le fun hl => le_lift_mul (congrArg Nat.succ hl) le_rfl

end

/-- Anything, if `b`; else nothing. -/
def lost (b : Bool) : Assn A B := if b then ⊤ else 1

@[simp]
theorem lost_false : (lost false : Assn A B) = 1 := rfl

theorem lost_mul_lost (b c : Bool) : (lost b * lost c : Assn A B) ≤ lost (b || c) := by
  cases b
  · rw [lost_false, one_mul]
    exact le_rfl
  · exact le_top

end Assn

end Sep
