import Mathlib.Data.List.Sort

/-!
# Stable sorting

What sorts a list by a total preorder and leaves elements that rank the same in their order gives one
list only (`eq_of_ranks`): where it is sorted, a list is known by the elements of each rank. So any way
to split a list and merge what is sorted of its parts is `List.mergeSort` (`merge_mergeSort`).
-/

set_option autoImplicit false

namespace StableSort

variable {α β : Type*} {le : α → α → Bool} {a b x y : α} {l l' xs ys : List α}

/-- `le` is a total preorder. -/
structure Ranks (le : α → α → Bool) : Prop where
  trans : ∀ a b c, le a b → le b c → le a c
  total : ∀ a b, le a b || le b a

/-- `a` and `b` rank the same. -/
def same (le : α → α → Bool) (a b : α) : Bool := le a b && le b a

abbrev Sorted (le : α → α → Bool) (l : List α) : Prop := l.Pairwise fun a b => le a b

namespace Ranks

theorem refl (hle : Ranks le) (a : α) : le a a := by
  simpa using hle.total a a

theorem same_refl (hle : Ranks le) (a : α) : same le a a := by
  rw [same, hle.refl a]
  rfl

theorem same_le (hle : Ranks le) (hab : same le a b) (hxb : le x b) : le x a :=
  hle.trans x b a hxb (Bool.and_eq_true_iff.1 hab).2

theorem same_congr (hle : Ranks le) (a : α) (hxy : le x y) (hyx : le y x) :
    same le a x = same le a y := by
  have hsame {u v : α} (huv : le u v) (hvu : le v u) (hu : same le a u) : same le a v := by
    obtain ⟨hau, hua⟩ := Bool.and_eq_true_iff.1 hu
    exact Bool.and_eq_true_iff.2 ⟨hle.trans a u v hau huv, hle.trans v u a hvu hua⟩
  exact Bool.eq_iff_iff.2 ⟨hsame hxy hyx, hsame hyx hxy⟩

end Ranks

theorem mem_filter_same : b ∈ l.filter (same le a) ↔ b ∈ l ∧ same le a b := List.mem_filter

/-- A merge has the elements of a rank of the one list before those of the other. -/
theorem filter_merge (hle : Ranks le) (hxs : Sorted le xs) (hys : Sorted le ys) (a : α) :
    (xs.merge ys le).filter (same le a) = xs.filter (same le a) ++ ys.filter (same le a) := by
  induction xs generalizing ys with
  | nil => rw [List.nil_merge, List.filter_nil, List.nil_append]
  | cons x xs ihx =>
    induction ys with
    | nil => rw [List.merge_right, List.filter_nil, List.append_nil]
    | cons y ys ihy =>
      rw [List.cons_merge_cons]
      split
      · rw [List.filter_cons, List.filter_cons, ihx hxs.tail hys]
        split <;> rfl
      · rename_i hxy
        rw [List.filter_cons, ihy hys.tail, List.filter_cons (x := y)]
        split
        · rename_i hay
          have hnone : (x :: xs).filter (same le a) = [] := by
            rw [List.filter_eq_nil_iff]
            intro z hz haz
            have hxz : le x z := by
              obtain rfl | hz := List.mem_cons.1 hz
              · exact hle.refl _
              · exact List.rel_of_pairwise_cons hxs hz
            have hxa : le x a := hle.same_le haz hxz
            exact hxy (hle.trans x a y hxa (Bool.and_eq_true_iff.1 hay).1)
          rw [hnone, List.nil_append, List.nil_append]
        · rfl

theorem filter_mergeSort (hle : Ranks le) (a : α) (l : List α) :
    (l.mergeSort le).filter (same le a) = l.filter (same le a) := by
  have hsorted : Sorted le (l.filter (same le a)) := by
    refine List.pairwise_of_forall_mem_list fun x hx y hy => ?_
    have hxa := (Bool.and_eq_true_iff.1 (mem_filter_same.1 hx).2).2
    exact hle.trans x a y hxa (Bool.and_eq_true_iff.1 (mem_filter_same.1 hy).2).1
  have hsub := (List.sublist_mergeSort hle.trans hle.total hsorted List.filter_sublist).filter (same le a)
  rw [List.filter_filter, funext fun b => Bool.and_self (same le a b)] at hsub
  exact (hsub.eq_of_length ((List.mergeSort_perm l le).filter _).length_eq.symm).symm

/-- A sorted list is known by its elements of each rank. -/
theorem eq_of_ranks (hle : Ranks le) (hl : Sorted le l) (hl' : Sorted le l')
    (h : ∀ a, l.filter (same le a) = l'.filter (same le a)) : l = l' := by
  induction l generalizing l' with
  | nil =>
    cases l' with
    | nil => rfl
    | cons y l' =>
      have hy := h y
      rw [List.filter_nil, List.filter_cons, if_pos (hle.same_refl y)] at hy
      exact absurd hy.symm (List.cons_ne_nil _ _)
  | cons x l ih =>
    cases l' with
    | nil =>
      have hx := h x
      rw [List.filter_nil, List.filter_cons, if_pos (hle.same_refl x)] at hx
      exact absurd hx (List.cons_ne_nil _ _)
    | cons y l' =>
      have hle_head {u v : α} {us vs : List α} (hu : Sorted le (u :: us))
          (hv : (v :: vs).filter (same le v) = (u :: us).filter (same le v)) : le u v := by
        have hmem : v ∈ (u :: us).filter (same le v) :=
          hv ▸ mem_filter_same.2 ⟨List.mem_cons_self, hle.same_refl v⟩
        obtain rfl | hmem := List.mem_cons.1 (mem_filter_same.1 hmem).1
        · exact hle.refl _
        · exact List.rel_of_pairwise_cons hu hmem
      have hxy : same le x y :=
        Bool.and_eq_true_iff.2 ⟨hle_head hl (h y).symm, hle_head hl' (h x)⟩
      have hx := h x
      rw [List.filter_cons, if_pos (hle.same_refl x), List.filter_cons, if_pos hxy] at hx
      obtain ⟨rfl, -⟩ := List.cons.inj hx
      refine congrArg (x :: ·) (ih hl.tail hl'.tail fun a => ?_)
      have ha := h a
      rw [List.filter_cons, List.filter_cons] at ha
      split at ha
      · exact (List.cons.inj ha).2
      · exact ha

/-- Sorted parts, merged. -/
theorem merge_mergeSort (hle : Ranks le) (xs ys : List α) :
    (xs.mergeSort le).merge (ys.mergeSort le) le = (xs ++ ys).mergeSort le := by
  have hsorted (l : List α) : Sorted le (l.mergeSort le) :=
    List.pairwise_mergeSort hle.trans hle.total l
  refine eq_of_ranks hle (List.pairwise_merge hle.trans hle.total _ _ (hsorted _) (hsorted _))
    (hsorted _) fun a => ?_
  rw [filter_merge hle (hsorted _) (hsorted _), filter_mergeSort hle, filter_mergeSort hle,
    filter_mergeSort hle, List.filter_append]

/-! ## Difference -/

/-- What a sorted list has more than another, found in one walk along both. -/
def minus (le : α → α → Bool) : List α → List α → List α
  | [], _ => []
  | x :: xs, [] => x :: xs
  | x :: xs, y :: ys =>
    if le x y then if le y x then minus le xs ys else x :: minus le xs (y :: ys)
    else minus le (x :: xs) ys
termination_by xs ys => xs.length + ys.length

theorem minus_sublist (le : α → α → Bool) (xs ys : List α) : (minus le xs ys).Sublist xs := by
  fun_induction minus le xs ys with
  | case1 ys => exact List.Sublist.refl _
  | case2 x xs => exact List.Sublist.refl _
  | case3 x xs y ys hxy hyx ih => exact ih.cons x
  | case4 x xs y ys hxy hyx ih => exact ih.cons_cons x
  | case5 x xs y ys hxy ih => exact ih

/-- No element before the head of a sorted list ranks as `a` does. -/
theorem filter_eq_nil (hle : Ranks le) (hl : Sorted le (x :: l)) (ha : le x a = false) :
    (x :: l).filter (same le a) = [] := by
  rw [List.filter_eq_nil_iff]
  intro z hz haz
  have hxz : le x z := by
    obtain rfl | hz := List.mem_cons.1 hz
    · exact hle.refl _
    · exact List.rel_of_pairwise_cons hl hz
  have hxa : le x a := hle.same_le haz hxz
  rw [ha] at hxa
  exact Bool.false_ne_true hxa

/-- Of each rank, what is left when as many are taken from the front as the other list has. -/
theorem filter_minus (hle : Ranks le) (hxs : Sorted le xs) (hys : Sorted le ys) (a : α) :
    (minus le xs ys).filter (same le a) = (xs.filter (same le a)).drop (ys.countP (same le a)) := by
  fun_induction minus le xs ys with
  | case1 ys => rw [List.filter_nil, List.drop_nil]
  | case2 x xs => rw [List.countP_nil, List.drop_zero]
  | case3 x xs y ys hxy hyx ih =>
    have hsame : same le a y = same le a x := hle.same_congr a hyx hxy
    rw [ih hxs.tail hys.tail, List.filter_cons, List.countP_cons, hsame]
    split <;> rfl
  | case4 x xs y ys hxy hyx ih =>
    rw [List.filter_cons, List.filter_cons, ih hxs.tail hys]
    split
    · rename_i hax
      have hya : le y a = false := by
        refine Bool.eq_false_iff.2 fun hya => hyx ?_
        exact hle.trans y a x hya (Bool.and_eq_true_iff.1 hax).1
      have hnone : (y :: ys).countP (same le a) = 0 := by
        rw [List.countP_eq_length_filter, filter_eq_nil hle hys hya, List.length_nil]
      rw [hnone, List.drop_zero, List.drop_zero]
    · rfl
  | case5 x xs y ys hxy ih =>
    rw [ih hxs hys.tail, List.countP_cons]
    split
    · rename_i hay
      have hxa : le x a = false := by
        refine Bool.eq_false_iff.2 fun hxa => hxy ?_
        exact hle.trans x a y hxa (Bool.and_eq_true_iff.1 hay).1
      rw [filter_eq_nil hle hxs hxa, List.drop_nil, List.drop_nil]
    · rfl

end StableSort
