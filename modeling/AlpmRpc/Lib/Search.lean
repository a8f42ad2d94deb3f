import Mathlib.Data.List.Basic

/-!
# Binary search

C's `bsearch`, of a list whose elements are compared with a key: below `0` where the key comes before
the element. In a list that is in order for the key (`InOrder`) it finds an element that compares as `0`
if there is one.
-/

set_option autoImplicit false

namespace Search

variable {α : Type*} {cmp : α → Int} {xs : List α} {lo n i : Nat} {x : α}

/-- Where the key is, among the `n` elements from `lo` on. -/
def bsearch (cmp : α → Int) (xs : List α) (lo n : Nat) : Option Nat :=
  if n = 0 then none
  else
    let mid := lo + n / 2
    match xs[mid]? with
    | none => none
    | some x =>
      if cmp x = 0 then some mid
      else if cmp x < 0 then bsearch cmp xs lo (n / 2)
      else bsearch cmp xs (mid + 1) (n - n / 2 - 1)
termination_by n

/-- What the key comes after is before what it does not come after, and what it comes before is last. -/
def InOrder (cmp : α → Int) (xs : List α) : Prop :=
  xs.Pairwise fun x y => (0 ≤ cmp y → 0 ≤ cmp x) ∧ (0 < cmp y → 0 < cmp x)

theorem InOrder.nonneg (h : InOrder cmp xs) {j : Nat} {y : α} (hij : i ≤ j) (hx : xs[i]? = some x)
    (hy : xs[j]? = some y) (hpos : 0 ≤ cmp y) : 0 ≤ cmp x := by
  obtain ⟨hi, rfl⟩ := List.getElem?_eq_some_iff.1 hx
  obtain ⟨hj, rfl⟩ := List.getElem?_eq_some_iff.1 hy
  obtain rfl | hlt := Nat.eq_or_lt_of_le hij
  · exact hpos
  · exact (List.pairwise_iff_getElem.1 h i j hi hj hlt).1 hpos

theorem InOrder.pos (h : InOrder cmp xs) {j : Nat} {y : α} (hij : i ≤ j) (hx : xs[i]? = some x)
    (hy : xs[j]? = some y) (hpos : 0 < cmp y) : 0 < cmp x := by
  obtain ⟨hi, rfl⟩ := List.getElem?_eq_some_iff.1 hx
  obtain ⟨hj, rfl⟩ := List.getElem?_eq_some_iff.1 hy
  obtain rfl | hlt := Nat.eq_or_lt_of_le hij
  · exact hpos
  · exact (List.pairwise_iff_getElem.1 h i j hi hj hlt).2 hpos

/-- Nothing is found that does not compare as the key. -/
theorem bsearch_sound (h : bsearch cmp xs lo n = some i) : ∃ x, xs[i]? = some x ∧ cmp x = 0 := by
  fun_induction bsearch cmp xs lo n with
  | case1 lo => exact absurd h.symm (Option.some_ne_none i)
  | case2 lo n hn mid hmid => exact absurd h.symm (Option.some_ne_none i)
  | case3 lo n hn mid x hmid hzero =>
    obtain rfl := Option.some.inj h
    exact ⟨x, hmid, hzero⟩
  | case4 lo n hn mid x hmid hzero hneg ih => exact ih h
  | case5 lo n hn mid x hmid hzero hneg ih => exact ih h

/-- What compares as the key is found. -/
theorem bsearch_complete (h : InOrder cmp xs) (hlen : lo + n ≤ xs.length) (hlo : lo ≤ i)
    (hi : i < lo + n) (hx : xs[i]? = some x) (hzero : cmp x = 0) : (bsearch cmp xs lo n).isSome := by
  fun_induction bsearch cmp xs lo n with
  | case1 lo => omega
  | case2 lo n hn mid hmid =>
    have hout := List.getElem?_eq_none_iff.1 hmid
    have : mid = lo + n / 2 := rfl
    omega
  | case3 lo n hn mid y hmid hy => rfl
  | case4 lo n hn mid y hmid hy hneg ih =>
    -- the key comes before the middle, so what is found is too
    have hlt : i < mid := Nat.lt_of_not_le fun hle => by
      have := h.nonneg hle hmid hx (Int.le_of_eq hzero.symm)
      omega
    have : mid = lo + n / 2 := rfl
    exact ih (by omega) hlo hlt
  | case5 lo n hn mid y hmid hy hneg ih =>
    have hlt : mid < i := Nat.lt_of_not_le fun hle => by
      have := h.pos hle hx hmid (by omega)
      omega
    have : mid = lo + n / 2 := rfl
    exact ih (by omega) hlt (by omega)

/-- A search through the whole list. -/
theorem bsearch_isSome_iff (h : InOrder cmp xs) :
    (bsearch cmp xs 0 xs.length).isSome ↔ ∃ x ∈ xs, cmp x = 0 := by
  constructor
  · intro hsome
    obtain ⟨i, hi⟩ := Option.isSome_iff_exists.1 hsome
    obtain ⟨x, hx, hzero⟩ := bsearch_sound hi
    exact ⟨x, List.mem_of_getElem? hx, hzero⟩
  · intro hex
    obtain ⟨x, hx, hzero⟩ := hex
    obtain ⟨i, hi, rfl⟩ := List.mem_iff_getElem.1 hx
    exact bsearch_complete h (Nat.le_of_eq (Nat.zero_add _)) (Nat.zero_le i) (by omega)
      (List.getElem?_eq_getElem hi) hzero

end Search
