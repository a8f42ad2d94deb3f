import AlpmRpc.Common.Json
import AlpmRpc.Lib.Search

/-!
# Strings in order

`strcmp`, by which `arpc_handle_parsed` and `alpm_filelist_contains` search, and the order in which
`tools/gen/emit.py` sorts names. On strings without a NUL they are one order.
-/

set_option autoImplicit false

namespace Json

/-- `strcmp`, of the bytes before the NUL. -/
def strcmp : Bytes → Bytes → Int
  | [], [] => 0
  | [], b :: _ => -b.toNat
  | a :: _, [] => a.toNat
  | a :: s, b :: t => if a = b then strcmp s t else (a.toNat : Int) - b.toNat

/-- `s <= t` of Python's `bytes`. -/
def bytesLe : Bytes → Bytes → Bool
  | [], _ => true
  | _ :: _, [] => false
  | a :: s, b :: t => if a = b then bytesLe s t else a.toNat < b.toNat

variable {s t u : Bytes} {a b : UInt8}

theorem toNat_ne (h : a ≠ b) : a.toNat ≠ b.toNat := fun heq => h (UInt8.toNat_inj.1 heq)

theorem toNat_pos (h : a ≠ 0) : 0 < a.toNat := Nat.pos_of_ne_zero (toNat_ne h)

theorem strcmp_swap (s t : Bytes) : strcmp t s = -strcmp s t := by
  induction s generalizing t with
  | nil =>
    cases t with
    | nil => rfl
    | cons b t => rw [strcmp, strcmp, Int.neg_neg]
  | cons a s ih =>
    cases t with
    | nil => rfl
    | cons b t =>
      rw [strcmp, strcmp]
      by_cases hab : a = b
      · rw [if_pos hab, if_pos hab.symm, ih]
      · rw [if_neg hab, if_neg (Ne.symm hab), Int.neg_sub]

theorem strcmp_nonpos (hs : NulFree s) : strcmp s t ≤ 0 ↔ bytesLe s t := by
  induction s generalizing t with
  | nil =>
    cases t with
    | nil => exact iff_of_true (Int.le_refl 0) rfl
    | cons b t =>
      refine iff_of_true ?_ rfl
      rw [strcmp]
      omega
  | cons a s ih =>
    cases t with
    | nil =>
      have := toNat_pos (hs a List.mem_cons_self)
      refine iff_of_false ?_ Bool.false_ne_true
      rw [strcmp]
      omega
    | cons b t =>
      rw [strcmp, bytesLe]
      by_cases hab : a = b
      · rw [if_pos hab, if_pos hab]
        exact ih fun c hc => hs c (List.mem_cons_of_mem a hc)
      · have := toNat_ne hab
        rw [if_neg hab, if_neg hab, decide_eq_true_iff]
        omega

theorem strcmp_nonneg (ht : NulFree t) : 0 ≤ strcmp s t ↔ bytesLe t s := by
  rw [← strcmp_nonpos ht, strcmp_swap]
  omega

theorem strcmp_pos (hs : NulFree s) : 0 < strcmp s t ↔ ¬bytesLe s t := by
  rw [← strcmp_nonpos hs, Int.not_le]

theorem strcmp_self (s : Bytes) : strcmp s s = 0 := by
  have := strcmp_swap s s
  omega

theorem bytesLe_total (s t : Bytes) : bytesLe s t || bytesLe t s := by
  induction s generalizing t with
  | nil => rfl
  | cons a s ih =>
    cases t with
    | nil => rfl
    | cons b t =>
      rw [bytesLe, bytesLe]
      by_cases hab : a = b
      · rw [if_pos hab, if_pos hab.symm]
        exact ih t
      · have := toNat_ne hab
        rw [if_neg hab, if_neg (Ne.symm hab), Bool.or_eq_true, decide_eq_true_iff, decide_eq_true_iff]
        omega

theorem bytesLe_antisymm (hst : bytesLe s t) (hts : bytesLe t s) : s = t := by
  induction s generalizing t with
  | nil =>
    cases t with
    | nil => rfl
    | cons b t => exact absurd hts Bool.false_ne_true
  | cons a s ih =>
    cases t with
    | nil => exact absurd hst Bool.false_ne_true
    | cons b t =>
      rw [bytesLe] at hst hts
      by_cases hab : a = b
      · rw [if_pos hab] at hst
        rw [if_pos hab.symm] at hts
        rw [hab, ih hst hts]
      · rw [if_neg hab, decide_eq_true_iff] at hst
        rw [if_neg (Ne.symm hab), decide_eq_true_iff] at hts
        omega

theorem bytesLe_trans (s t u : Bytes) (hst : bytesLe s t) (htu : bytesLe t u) : bytesLe s u := by
  induction s generalizing t u with
  | nil => rfl
  | cons a s ih =>
    cases t with
    | nil => exact absurd hst Bool.false_ne_true
    | cons b t =>
      cases u with
      | nil => exact absurd htu Bool.false_ne_true
      | cons c u =>
        rw [bytesLe] at hst htu ⊢
        by_cases hab : a = b
        · subst hab
          rw [if_pos rfl] at hst
          by_cases hac : a = c
          · rw [if_pos hac] at htu ⊢
            exact ih t u hst htu
          · rwa [if_neg hac] at htu ⊢
        · rw [if_neg hab, decide_eq_true_iff] at hst
          by_cases hbc : b = c
          · subst hbc
            rw [if_neg hab, decide_eq_true_iff]
            exact hst
          · rw [if_neg hbc, decide_eq_true_iff] at htu
            have hac : a ≠ c := fun hac => by
              rw [hac] at hst
              omega
            rw [if_neg hac, decide_eq_true_iff]
            omega

theorem strcmp_eq_zero (hs : NulFree s) (ht : NulFree t) : strcmp s t = 0 ↔ s = t := by
  constructor
  · intro hzero
    have hle := (strcmp_nonpos hs).1 (Int.le_of_eq hzero)
    have hge := (strcmp_nonneg ht).1 (Int.le_of_eq hzero.symm)
    exact bytesLe_antisymm hle hge
  · intro heq
    rw [heq, strcmp_self]

/-- What is sorted by name is in order for a search by `strcmp`. -/
theorem inOrder_strcmp {α : Type} {name : α → Bytes} {xs : List α}
    (hxs : xs.Pairwise fun x y => bytesLe (name x) (name y)) (hnames : ∀ x ∈ xs, NulFree (name x))
    (hs : NulFree s) : Search.InOrder (fun x => strcmp s (name x)) xs := by
  refine hxs.imp_of_mem fun {x y} hx hy hxy => ⟨fun hnonneg => ?_, fun hpos => ?_⟩
  · rw [strcmp_nonneg (hnames x hx)]
    exact bytesLe_trans _ _ _ hxy ((strcmp_nonneg (hnames y hy)).1 hnonneg)
  · rw [strcmp_pos hs] at hpos ⊢
    exact fun hsx => hpos (bytesLe_trans _ _ _ hsx hxy)

end Json
