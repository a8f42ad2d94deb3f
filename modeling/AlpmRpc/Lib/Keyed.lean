import Mathlib.Data.List.Nodup
import Mathlib.Data.List.Perm.Basic

/-!
# Lists with one element for each key

A list in which no two elements have one key (`(l.map key).Nodup`) is a table. What a search by key
finds is the element of that key (`find?_iff`), a filter by key leaves that element alone
(`filter_mem`), and once it is erased no element has its key (`ne_of_mem_eraseP`).
-/

set_option autoImplicit false

namespace Keyed

variable {α β κ : Type} {l : List α} {x : α}

/-! ## Searching -/

/-- A search for what only one element is. -/
theorem find?_unique {P : α → Bool} (hu : ∀ x ∈ l, ∀ y ∈ l, P x = true → P y = true → x = y) :
    l.find? P = some x ↔ x ∈ l ∧ P x = true := by
  constructor
  · intro h
    exact ⟨List.mem_of_find?_eq_some h, List.find?_some h⟩
  · intro ⟨hx, hp⟩
    cases hf : l.find? P with
    | none => exact absurd hp (List.find?_eq_none.1 hf x hx)
    | some y => rw [hu y (List.mem_of_find?_eq_some hf) x hx (List.find?_some hf) hp]

/-- What a search takes out, and what it leaves. -/
theorem perm_eraseP {P : α → Bool} (h : l.find? P = some x) : (x :: l.eraseP P).Perm l := by
  induction l with
  | nil => cases h
  | cons y l ih =>
    rw [List.find?_cons] at h
    cases hy : P y with
    | true =>
      rw [hy] at h
      cases h
      rw [List.eraseP_cons_of_pos hy]
    | false =>
      rw [hy] at h
      rw [List.eraseP_cons_of_neg (by simp [hy])]
      exact (List.Perm.swap _ _ _).trans ((ih h).cons y)

section
variable [DecidableEq κ] {key : α → κ} {k : κ}

theorem of_find? (h : l.find? (key · = k) = some x) : x ∈ l ∧ key x = k :=
  ⟨List.mem_of_find?_eq_some h, by simpa using List.find?_some h⟩

theorem find?_none_iff : l.find? (key · = k) = none ↔ ∀ x ∈ l, key x ≠ k := by
  simp [List.find?_eq_none]

theorem find?_iff (hn : (l.map key).Nodup) :
    l.find? (key · = k) = some x ↔ x ∈ l ∧ key x = k := by
  rw [find?_unique fun y hy z hz h h' => List.inj_on_of_nodup_map hn hy hz
    ((of_decide_eq_true h).trans (of_decide_eq_true h').symm), decide_eq_true_eq]

theorem find?_mem (hn : (l.map key).Nodup) (hx : x ∈ l) : l.find? (key · = key x) = some x :=
  (find?_iff hn).2 ⟨hx, rfl⟩

/-! ## Filtering -/

theorem filter_mem (hn : (l.map key).Nodup) (hx : x ∈ l) : l.filter (key · = key x) = [x] := by
  induction l with
  | nil => cases hx
  | cons y l ih =>
    rw [List.map_cons, List.nodup_cons] at hn
    by_cases hy : key y = key x
    · obtain rfl : y = x := by
        rcases List.mem_cons.1 hx with rfl | hx
        · rfl
        · exact absurd (hy ▸ List.mem_map_of_mem hx) hn.1
      rw [List.filter_cons_of_pos (by simp)]
      congr 1
      refine List.filter_eq_nil_iff.2 fun z hz hzk => hn.1 ?_
      rw [← of_decide_eq_true hzk]
      exact List.mem_map_of_mem hz
    · rw [List.filter_cons_of_neg (by simpa using hy)]
      rcases List.mem_cons.1 hx with rfl | hx
      · exact absurd rfl hy
      · exact ih hn.2 hx

theorem map_filter (hn : (l.map key).Nodup) (k : κ) :
    (l.filter (key · = k)).map key = if k ∈ l.map key then [k] else [] := by
  split
  · rename_i hk
    obtain ⟨x, hx, rfl⟩ := List.mem_map.1 hk
    rw [filter_mem hn hx]
    rfl
  · rename_i hk
    rw [List.filter_eq_nil_iff.2, List.map_nil]
    exact fun x hx hxk => hk (of_decide_eq_true hxk ▸ List.mem_map_of_mem hx)

/-! ## Erasing -/

theorem ne_of_mem_eraseP (hn : (l.map key).Nodup) (hx : x ∈ l.eraseP (key · = k)) : key x ≠ k := by
  induction l with
  | nil => cases hx
  | cons y l ih =>
    rw [List.map_cons, List.nodup_cons] at hn
    by_cases hy : key y = k
    · rw [List.eraseP_cons_of_pos (by simpa using hy)] at hx
      intro hxk
      apply hn.1
      rw [hy, ← hxk]
      exact List.mem_map_of_mem hx
    · rw [List.eraseP_cons_of_neg (by simpa using hy)] at hx
      rcases List.mem_cons.1 hx with rfl | hx
      · exact hy
      · exact ih hn.2 hx

/-- Tables with the same keys in the same order stay so. -/
theorem map_eraseP {key' : β → κ} {l' : List β} (h : l.map key = l'.map key') (k : κ) :
    (l.eraseP (key · = k)).map key = (l'.eraseP (key' · = k)).map key' := by
  have hl : (l.map key).eraseP (fun y => decide (y = k)) = (l.eraseP (key · = k)).map key :=
    List.eraseP_map
  have hl' : (l'.map key').eraseP (fun y => decide (y = k)) = (l'.eraseP (key' · = k)).map key' :=
    List.eraseP_map
  rw [← hl, h, hl']

end

end Keyed
