import Mathlib.Data.Nat.Bitwise

/-!
# Numbers as bits

The low bits of a number, the most significant first: what regrouping a stream of digits of one width
into digits of another keeps.
-/

set_option autoImplicit false

namespace Bits

/-- The low `k` bits of `n`. -/
def bits : Nat → Nat → List Bool
  | 0, _ => []
  | k + 1, n => n.testBit k :: bits k n

@[simp] theorem bits_length (k n : Nat) : (bits k n).length = k := by
  induction k with
  | zero => rfl
  | succ k ih => rw [bits, List.length_cons, ih]

theorem bits_add (a b n : Nat) : bits (a + b) n = bits a (n / 2 ^ b) ++ bits b n := by
  induction a with
  | zero => rw [Nat.zero_add]; rfl
  | succ a ih =>
    rw [Nat.add_right_comm, bits, ih, bits, Nat.testBit_div_two_pow, List.cons_append]

theorem bits_inj {k m n : Nat} (h : bits k m = bits k n) : m % 2 ^ k = n % 2 ^ k := by
  have htest : ∀ i < k, m.testBit i = n.testBit i := by
    induction k with
    | zero => intro i hi; omega
    | succ k ih =>
      obtain ⟨hk, hrest⟩ := List.cons.inj h
      intro i hi
      by_cases he : i = k
      · rw [he, hk]
      · exact ih hrest i (by omega)
  refine Nat.eq_of_testBit_eq fun i => ?_
  rw [Nat.testBit_mod_two_pow, Nat.testBit_mod_two_pow]
  by_cases hi : i < k
  · rw [htest i hi]
  · simp [hi]

theorem bits_congr {k m n : Nat} (h : m % 2 ^ k = n % 2 ^ k) : bits k m = bits k n := by
  have htest : ∀ i < k, m.testBit i = n.testBit i := by
    intro i hi
    have := congrArg (fun x => x.testBit i) h
    simpa [Nat.testBit_mod_two_pow, hi] using this
  clear h
  induction k with
  | zero => rfl
  | succ k ih => rw [bits, bits, htest k (by omega), ih fun i hi => htest i (by omega)]

/-! ## Streams of digits -/

/-- The bits of digits of width `k`. -/
def stream (k : Nat) (ds : List Nat) : List Bool := ds.flatMap (bits k)

theorem stream_nil (k : Nat) : stream k [] = [] := rfl

theorem stream_cons (k d : Nat) (ds : List Nat) : stream k (d :: ds) = bits k d ++ stream k ds :=
  List.flatMap_cons

theorem stream_append (k : Nat) (ds es : List Nat) :
    stream k (ds ++ es) = stream k ds ++ stream k es := List.flatMap_append

@[simp] theorem stream_length (k : Nat) (ds : List Nat) : (stream k ds).length = k * ds.length := by
  induction ds with
  | nil => rfl
  | cons d ds ih =>
    rw [stream_cons, List.length_append, bits_length, ih, List.length_cons, Nat.mul_succ, Nat.add_comm]

theorem stream_take (k n : Nat) (ds : List Nat) :
    stream k (ds.take n) = (stream k ds).take (k * n) := by
  induction ds generalizing n with
  | nil => rw [List.take_nil, stream_nil, List.take_nil]
  | cons d ds ih =>
    cases n with
    | zero => rw [Nat.mul_zero, List.take_zero, List.take_zero, stream_nil]
    | succ n =>
      have hlen : (bits k d).length ≤ k + k * n := by
        rw [bits_length]
        omega
      rw [List.take_succ_cons, stream_cons, stream_cons, ih, Nat.mul_succ, Nat.add_comm,
        List.take_append, bits_length, Nat.add_sub_cancel_left, List.take_of_length_le hlen]

/-- Digits below `2 ^ k` are read back from their bits. -/
theorem stream_inj {k : Nat} (hk : 0 < k) {ds es : List Nat} (hd : ∀ d ∈ ds, d < 2 ^ k)
    (he : ∀ e ∈ es, e < 2 ^ k) (h : stream k ds = stream k es) : ds = es := by
  induction ds generalizing es with
  | nil =>
    have hl := congrArg List.length h
    rw [stream_length, stream_length, List.length_nil, Nat.mul_zero] at hl
    exact (List.length_eq_zero_iff.1 ((Nat.mul_eq_zero.1 hl.symm).resolve_left (by omega))).symm
  | cons d ds ih =>
    cases es with
    | nil =>
      have hl := congrArg List.length h
      rw [stream_length, stream_length, List.length_nil, Nat.mul_zero] at hl
      cases (Nat.mul_eq_zero.1 hl).resolve_left (by omega)
    | cons e es =>
      rw [stream_cons, stream_cons] at h
      obtain ⟨hde, hrest⟩ := List.append_inj h (by simp)
      have hmod := bits_inj hde
      rw [Nat.mod_eq_of_lt (hd d List.mem_cons_self),
        Nat.mod_eq_of_lt (he e List.mem_cons_self)] at hmod
      rw [hmod, ih (fun x hx => hd x (List.mem_cons_of_mem _ hx))
        (fun x hx => he x (List.mem_cons_of_mem _ hx)) hrest]

end Bits
