import AlpmRpc.Client.Proof.AlpmList
import AlpmRpc.Common.Proof.Doc
import AlpmRpc.Gen.Materialise

/-!
# What is made of a reply

`ownsRec m r v ws`: the cells `ws` hold the struct `v`, and this is the memory behind them, no list or
array of it longer than `m`. What `fill_*` makes of zeroed cells is such a struct, the one of
`Gen/Schema.lean` where no memory was refused (`makeRec_spec`). `Fills` says it of cells in the middle of
a block, and is put together from the members'.
-/

set_option autoImplicit false

namespace Gen

open Json Store Sep Client.AlpmList

variable {place : Nat → Nat} {register : Nat → Cmd Nat Unit} {fuel m : Nat}

/-! ## The memory of a value -/

section
variable {α : Type}

/-- A struct in a block of its own, or `NULL`. -/
def boxed (own : α → List Nat → Blocks Nat) : Option α → Nat → Blocks Nat
  | none, p => Assn.lift (p = 0)
  | some v, p => ⨆ us : List Nat, pts p (us.map some) * own v us

/-- A list of at most `m` nodes. -/
def listed (m : Nat) (own : α → Nat → Blocks Nat) (l : List α) (p : Nat) : Blocks Nat :=
  ⨆ cs : Nodes, Assn.lift (p = first cs 0 ∧ cs.length ≤ m) *
    (ring cs * Assn.all₂ own l (cs.map (·.2)))

/-- One cell. -/
def cell (own : Nat → Blocks Nat) (ws : List Nat) : Blocks Nat := ⨆ p, Assn.lift (ws = [p]) * own p

/-- `k` cells, and those after them. -/
def cut (k : Nat) (P Q : List Nat → Blocks Nat) (ws : List Nat) : Blocks Nat :=
  ⨆ us, ⨆ us' : List Nat, Assn.lift (ws = us ++ us' ∧ us.length = k) * (P us * Q us')

/-- Structs of `k` cells, one after another. -/
def rows (k : Nat) (own : α → List Nat → Blocks Nat) : List α → List Nat → Blocks Nat
  | [], ws => Assn.lift (ws = [])
  | v :: vs, ws => cut k (own v) (rows k own vs) ws

/-- An array in a block of its own; an empty one has none. -/
def array (k : Nat) (own : α → List Nat → Blocks Nat) : List α → Nat → Blocks Nat
  | [], p => Assn.lift (p = 0)
  | v :: vs, p => ⨆ us : List Nat, pts p (us.map some) * rows k own (v :: vs) us

/-- A string in a block of its own, or `NULL`. -/
def text : Option CStr → Nat → Blocks Nat
  | none, p => Assn.lift (p = 0)
  | some s, p => pts p (textBlock s.1)

/-- A number, and no memory. -/
def word (v w : Nat) : Blocks Nat := Assn.lift (w = v)

end

/-- A member that is left as `calloc` made it. -/
def left (k : FieldTy) (v : k.Val .client) (us : List Nat) : Blocks Nat :=
  Assn.lift (v = FieldTy.zero .client k ∧ us = List.replicate k.size 0)

mutual
def ownsField (m : Nat) : (k : FieldTy) → k.Val .client → List Nat → Blocks Nat
  | .string _, s => cell (text s)
  | .scalar _, v => cell (word (toU64 v.1))
  | .handle _, id => cell (word id.1)
  | .structPtr r, v => cell (boxed (fun x => ownsRec m r x) v)
  | .recordValue r, v => ownsRec m r v
  | .list e, l => cell (listed m (fun x => ownsElem m e x) l)
  | .foreign, v => cell (word v.1)

/-- What `data` is, and the memory behind it. -/
def ownsElem (m : Nat) : (e : ElemTy) → e.Val .client → Nat → Blocks Nat
  | .string, s => text s
  | .handle _, id => word id.1
  | .record r, v => boxed (fun x => ownsRec m r x) v

def ownsRec (m : Nat) : (r : RecTy) → r.Val .client → List Nat → Blocks Nat
  | .struct fs, v => ownsFields m fs v
  | .counted elem others, (items, rest) => fun ws =>
    ⨆ p, Assn.lift (ws = items.length :: p :: List.replicate others.size 0 ∧ items.length ≤ m ∧
      rest = FieldsTy.zero .client others) * array elem.size (fun x => ownsRec m elem x) items p

def ownsFields (m : Nat) : (fs : FieldsTy) → fs.Val .client → List Nat → Blocks Nat
  | .nil, _ => fun ws => Assn.lift (ws = [])
  | .cons _ true k fs, (v, vs) => cut k.size (ownsField m k v) (ownsFields m fs vs)
  | .cons _ false k fs, (v, vs) => cut k.size (left k v) (ownsFields m fs vs)
end

section
variable {name : Bytes} {k : FieldTy} {fs : FieldsTy}

theorem ownsFields_carried (x : (FieldsTy.cons name true k fs).Val .client) :
    ownsFields m (.cons name true k fs) x = cut k.size (ownsField m k x.1) (ownsFields m fs x.2) := by
  obtain ⟨v, vs⟩ := x
  rw [ownsFields]

theorem ownsFields_left (x : (FieldsTy.cons name false k fs).Val .client) :
    ownsFields m (.cons name false k fs) x = cut k.size (left k x.1) (ownsFields m fs x.2) := by
  obtain ⟨v, vs⟩ := x
  rw [ownsFields]

end

/-- What `get_*` returns. -/
def ownsPtr (m : Nat) (r : RecTy) : Option (r.Val .client) → Nat → Blocks Nat := boxed (ownsRec m r)

/-- What `build_list_*` returns. -/
def ownsList (m : Nat) (e : ElemTy) : List (e.Val .client) → Nat → Blocks Nat :=
  listed m (ownsElem m e)

/-- A count, an array and zeroes for what else there is. -/
def counted {α : Type} (m k l : Nat) (own : α → List Nat → Blocks Nat) (items : List α)
    (ws : List Nat) : Blocks Nat :=
  ⨆ p, Assn.lift (ws = items.length :: p :: List.replicate l 0 ∧ items.length ≤ m) *
    array k own items p

theorem ownsRec_counted {elem : RecTy} {others : FieldsTy} (x : (RecTy.counted elem others).Val .client)
    (ws : List Nat) : ownsRec m (.counted elem others) x ws ≤
      counted m elem.size others.size (fun y => ownsRec m elem y) x.1 ws := by
  obtain ⟨items, rest⟩ := x
  rw [ownsRec]
  exact iSup_mono fun p => Assn.lift_mul_le fun hws => Assn.le_lift_mul ⟨hws.1, hws.2.1⟩ le_rfl

/-! ## Trees -/

/-- The tree has at most `m` values. -/
def Bounded (m : Nat) (n : Option Tree) : Prop := ∀ t ∈ n, size t ≤ m

theorem size_pos (t : Tree) : 0 < size t := by
  cases t with
  | arr es => exact Nat.lt_of_lt_of_eq (Nat.succ_pos _) (Nat.add_comm _ 1)
  | obj ms => exact Nat.lt_of_lt_of_eq (Nat.succ_pos _) (Nat.add_comm _ 1)
  | _ => exact Nat.one_pos

theorem length_le_elemsSize (es : List Tree) : es.length ≤ elemsSize es := by
  induction es with
  | nil => exact le_rfl
  | cons e es ih =>
    rw [List.length_cons, elemsSize]
    have := size_pos e
    omega

theorem size_le_elemsSize {es : List Tree} {e : Tree} (he : e ∈ es) : size e ≤ elemsSize es := by
  induction he with
  | head es =>
    rw [elemsSize]
    omega
  | tail e' _ ih =>
    rw [elemsSize]
    omega

theorem elemsSize_snd (ms : List (Bytes × Tree)) : elemsSize (ms.map (·.2)) = membersSize ms := by
  induction ms with
  | nil => rfl
  | cons c ms ih => rw [List.map_cons, elemsSize, membersSize, ih]

theorem elemsSize_children {t : Tree} : elemsSize (children (some t)) + 1 ≤ size t := by
  cases t with
  | arr es => rw [children, size, Nat.add_comm]
  | obj ms => rw [children, elemsSize_snd, size, Nat.add_comm]
  | _ => exact le_rfl

namespace Bounded

variable {n : Option Tree} {e : Tree}

theorem elems (hn : Bounded m n) : elemsSize (children n) ≤ m := by
  cases n with
  | none => exact Nat.zero_le m
  | some t => exact (Nat.le_succ _).trans (elemsSize_children.trans (hn t rfl))

theorem length (hn : Bounded m n) : (children n).length ≤ m := (length_le_elemsSize _).trans hn.elems

theorem child (hn : Bounded m n) (he : e ∈ children n) : Bounded m (some e) := by
  intro t ht
  obtain rfl : e = t := Option.some.inj ht
  exact (size_le_elemsSize he).trans hn.elems

theorem member (hn : Bounded m n) (key : Bytes) : Bounded m (ajMember n key) := by
  intro t ht
  cases n with
  | none => exact absurd ht (Option.not_mem_none t)
  | some n =>
    cases n with
    | obj ms =>
      obtain ⟨c, hc, rfl⟩ := Option.map_eq_some_iff.1 ht
      exact hn.child (List.mem_map_of_mem (List.mem_of_find?_eq_some hc)) _ rfl
    | _ => exact absurd ht (Option.not_mem_none t)

end Bounded

/-! ## Cells that are filled -/

section
variable {ι κ α : Type} {v i k l cnt : Nat} {pre post : List (Option Nat)} {x₀ : ι} {y₀ : κ}
  {n : Option Tree}

def zeros (k : Nat) : List (Option Nat) := List.replicate k (some 0)

/-- `k` cells of the block `v`, between `pre` and `post`, in `P`. -/
def cells (v : Nat) (pre post : List (Option Nat)) (k : Nat) (P : List Nat → Blocks Nat) : Blocks Nat :=
  ⨆ ws : List Nat, Assn.lift (ws.length = k) * (pts v (pre ++ (ws.map some ++ post)) * P ws)

/-- `c` makes `x₀` of `k` zeroed cells. -/
def Fills {β : Type} (v : Nat) (pre post : List (Option Nat)) (k : Nat) (x₀ : ι)
    (own : β → ι → List Nat → Blocks Nat) (c : Cmd Nat β) : Prop :=
  Spec (pts v (pre ++ (zeros k ++ post))) c fun b => made x₀ fun x => cells v pre post k (own b x)

theorem set_middle (pre post : List (Option Nat)) (a b : Option Nat) :
    (pre ++ a :: post).set pre.length b = pre ++ b :: post := by
  rw [List.set_append_right _ _ le_rfl, Nat.sub_self, List.set_cons_zero]

theorem set_middle_succ (pre post : List (Option Nat)) (a b c : Option Nat) :
    (pre ++ a :: b :: post).set (pre.length + 1) c = pre ++ a :: c :: post := by
  rw [List.set_append_right _ _ (Nat.le_succ _), Nat.succ_sub (le_refl _), Nat.sub_self, List.set_cons_succ,
    List.set_cons_zero]

theorem le_cells {P : Blocks Nat} {Q : List Nat → Blocks Nat} (ws : List Nat) (hk : ws.length = k)
    (hP : P ≤ pts v (pre ++ (ws.map some ++ post)) * Q ws) : P ≤ cells v pre post k Q :=
  le_iSup_of_le ws (Assn.le_lift_mul hk hP)

theorem map_zeros (k : Nat) : (List.replicate k 0).map some = zeros k := List.map_replicate

theorem zeros_add (k l : Nat) (post : List (Option Nat)) :
    zeros (k + l) ++ post = zeros k ++ (zeros l ++ post) := by
  rw [zeros, List.replicate_add, List.append_assoc]
  rfl

theorem cells_mono {P Q : List Nat → Blocks Nat} (h : ∀ ws, P ws ≤ Q ws) :
    cells v pre post k P ≤ cells v pre post k Q :=
  iSup_mono fun ws => mul_le_mul_right (mul_le_mul_right (h ws) _) _

/-- Cells, and those after them. -/
theorem cells_cut {P Q : List Nat → Blocks Nat} {us : List Nat} (hus : us.length = k) :
    cells v (pre ++ us.map some) post l Q * P us ≤ cells v pre post (k + l) (cut k P Q) := by
  rw [cells, Assn.iSup_mul]
  refine iSup_le fun us' => ?_
  rw [mul_assoc]
  refine Assn.lift_mul_le fun hus' => le_cells (us ++ us') ?_ ?_
  · rw [List.length_append, hus, hus']
  · rw [List.map_append, List.append_assoc, List.append_assoc, mul_assoc, mul_comm (Q us')]
    exact mul_le_mul_right (le_iSup_of_le us (le_iSup_of_le us' (Assn.le_lift_mul ⟨rfl, hus⟩ le_rfl))) _

section
variable {β : Type} {own : β → ι → List Nat → Blocks Nat} {own' : β → κ → List Nat → Blocks Nat}
  {c : Cmd Nat β}

theorem Fills.ret {b : β} (h : 1 ≤ own b x₀ (List.replicate k 0)) :
    Fills v pre post k x₀ own (pure b) := by
  refine Spec.ret_made (le_cells (List.replicate k 0) List.length_replicate ?_)
  rw [map_zeros]
  exact (mul_one _).ge.trans (mul_le_mul_right h _)

theorem Fills.mono (h : Fills v pre post k x₀ own c) {g : ι → κ}
    (hown : ∀ b x ws, own b x ws ≤ own' b (g x) ws) : Fills v pre post k (g x₀) own' c :=
  h.conseq le_rfl fun b => made_mono fun x => cells_mono (hown b x)

theorem Fills.store {own : ι → Nat → Blocks Nat} {c : Cmd Nat Nat} (hi : i = pre.length)
    (h : Spec 1 c fun p => made x₀ fun x => own x p) :
    Fills v pre post 1 x₀ (fun _ x => cell (own x)) (c >>= Store.store v i) := by
  refine h.step_made (g := id) (one_mul _).ge fun p x => ?_
  rw [mul_comm, hi]
  have hlen : pre.length < (pre ++ (zeros 1 ++ post)).length := by
    simp [zeros]
  refine (Spec.frame_sure (store_spec hlen) (own x p)).conseq le_rfl
    (sure_le fun _ => le_made (le_cells [p] rfl ?_))
  refine mul_le_mul' ?_ (le_iSup_of_le p (Assn.le_lift_mul rfl le_rfl))
  rw [zeros, List.replicate_one, List.singleton_append, set_middle]
  exact le_rfl

/-- One member after another. -/
theorem Fills.seq {own₁ : ι → List Nat → Blocks Nat} {c₁ : Cmd Nat Unit}
    (h₁ : Fills v pre (zeros l ++ post) k x₀ (fun _ => own₁) c₁)
    (h₂ : ∀ us, pre.length + k = (pre ++ us).length → Fills v (pre ++ us) post l y₀ own' c) :
    Fills v pre post (k + l) (x₀, y₀) (fun b z => cut k (own₁ z.1) (own' b z.2))
      (c₁ >>= fun _ => c) := by
  refine Spec.step_made (g := fun x => (x, y₀)) (R := 1) h₁ ?_ fun _ x => ?_
  · rw [zeros_add, mul_one]
  · rw [mul_one]
    refine Spec.ex fun us => Spec.fact fun hus => ?_
    rw [← List.append_assoc]
    have hlen : pre.length + k = (pre ++ us.map some).length := by
      rw [List.length_append, List.length_map, hus]
    exact ((h₂ _ hlen).frame (own₁ x us)).conseq le_rfl fun _ _ =>
      made_mul_le (g := fun y => (x, y)) fun y _ => cells_cut hus

theorem cut_lift {P Q : List Nat → Blocks Nat} {q : Prop} (ws : List Nat) :
    cut k P (fun us => Assn.lift q * Q us) ws ≤ Assn.lift q * cut k P Q ws := by
  refine iSup_le fun us => iSup_le fun us' => Assn.lift_mul_le fun hws => ?_
  rw [mul_left_comm]
  refine mul_le_mul_right (le_iSup_of_le us (le_iSup_of_le us' ?_)) _
  exact Assn.le_lift_mul hws le_rfl

end

/-- The elements of a counted array. -/
theorem fillLoop_spec {val : Tree → α} {own : α → List Nat → Blocks Nat}
    {fill : Nat → Option Tree → Cmd Nat Unit} {es : List Tree} {j : Nat}
    (h : ∀ e ∈ es, ∀ j pre post, j * k = pre.length →
      Fills v pre post k (val e) (fun _ => own) (fill j (some e)))
    (hj : j * k = pre.length) (hcnt : j + es.length ≤ cnt) :
    Fills v pre post (es.length * k) (es.map val)
      (fun i l ws => Assn.lift (l.length = es.length ∧ i = j + l.length) * rows k own l ws)
      (fillLoop fill cnt j es) := by
  induction es generalizing pre j with
  | nil =>
    rw [List.length_nil, Nat.zero_mul]
    exact Fills.ret (Assn.le_lift_mul ⟨rfl, rfl⟩ (Assn.lift_of rfl).ge)
  | cons e es ih =>
    rw [List.length_cons] at hcnt ⊢
    rw [fillLoop, if_pos (by omega), Nat.succ_mul, Nat.add_comm _ k]
    obtain ⟨he, hes⟩ := List.forall_mem_cons.1 h
    refine Fills.mono (Fills.seq (he j pre _ hj) fun us hus => ih hes ?_ ?_)
      (g := fun z : α × List α => z.1 :: z.2) fun i z ws => ?_
    · rw [← hus, Nat.succ_mul, hj]
    · omega
    · refine (cut_lift ws).trans (Assn.lift_mul_le fun hz => Assn.le_lift_mul ?_ le_rfl)
      rw [List.length_cons, hz.1, hz.2, hz.1]
      omega

theorem le_counted {own : α → List Nat → Blocks Nat} {items : List α} {p : Nat} {P : Blocks Nat}
    (hm : items.length ≤ m) (hP : P ≤ array k own items p) :
    P ≤ counted m k l own items (items.length :: p :: List.replicate l 0) :=
  le_iSup_of_le p (Assn.le_lift_mul ⟨rfl, hm⟩ hP)

theorem le_array {own : α → List Nat → Blocks Nat} {items : List α} {p : Nat} (hne : items ≠ [])
    (us : List Nat) : pts p (us.map some) * rows k own items us ≤ array k own items p := by
  cases items with
  | nil => exact absurd rfl hne
  | cons x items => exact le_iSup_of_le us le_rfl

theorem zeros_two (l : Nat) (post : List (Option Nat)) :
    zeros (2 + l) ++ post = some 0 :: some 0 :: (zeros l ++ post) := zeros_add 2 l post

theorem filled_le {own : α → List Nat → Blocks Nat} {items : List α} {es : List Tree} (hne : es ≠ [])
    {p filled cnt : Nat} {B : Blocks Nat} :
    cells p [] [] cnt (fun us => Assn.lift (items.length = es.length ∧ filled = 0 + items.length) *
      rows k own items us) * B ≤
        Assn.lift (items.length = es.length ∧ filled = 0 + items.length) *
          (B * array k own items p) := by
  rw [cells, Assn.iSup_mul]
  refine iSup_le fun us => ?_
  rw [mul_assoc]
  refine Assn.lift_mul_le fun _ => ?_
  rw [mul_left_comm, mul_assoc]
  refine Assn.lift_mul_le fun hq => Assn.le_lift_mul hq ?_
  have hitems : items ≠ [] := fun hnil => hne (List.eq_nil_of_length_eq_zero (by rw [← hq.1, hnil]; rfl))
  rw [List.nil_append, List.append_nil, mul_comm]
  exact mul_le_mul_right (le_array hitems us) B

/-- `fill_*` of a counted array. -/
theorem fillCounted_spec {val : Tree → α} {own : α → List Nat → Blocks Nat}
    {fill : Nat → Nat → Option Tree → Cmd Nat Unit} (hm : (children n).length ≤ m)
    (hi : i = pre.length)
    (h : ∀ e ∈ children n, ∀ p j pre post, j * k = pre.length →
      Fills p pre post k (val e) (fun _ => own) (fill p j (some e))) :
    Fills v pre post (2 + l) ((children n).map val) (fun _ => counted m k l own)
      (if ajCount n = 0 then pure () else do
        let items ← calloc place (ajCount n * k)
        store v (i + 1) items
        if items = 0 then return
        let filled ← fillLoop (fill items) (ajCount n) 0 (children n)
        store v i filled) := by
  by_cases hcnt : ajCount n = 0
  · rw [if_pos hcnt, List.eq_nil_of_length_eq_zero hcnt]
    refine Fills.ret ?_
    rw [List.replicate_add]
    exact le_counted (Nat.zero_le m) (Assn.lift_of rfl).ge
  · have hne : children n ≠ [] := fun hnil => hcnt (List.length_eq_zero_iff.2 hnil)
    rw [if_neg hcnt, Fills, zeros_two, hi]
    have hlen (a b : Option Nat) (j : Nat) (hj : j < 2) :
        pre.length + j < (pre ++ a :: b :: (zeros l ++ post)).length := by
      rw [List.length_append, List.length_cons, List.length_cons]
      omega
    refine (alloc_spec place _).step (one_mul _).ge fun p r => ?_
    cases r with
    | true =>
      refine Spec.fact fun hp => ?_
      refine (store_spec (hlen _ _ 1 (by decide))).step_sure (mul_one _).ge fun _ => ?_
      rw [if_pos hp, mul_one, set_middle_succ, hp]
      refine Spec.pure (le_made_refused (v := []) ((le_cells (0 :: 0 :: List.replicate l 0) ?_ ?_).trans
        ((mul_one _).ge.trans (mul_le_mul_right le_top _))))
      · rw [List.length_cons, List.length_cons, List.length_replicate]
        omega
      · rw [List.map_cons, List.map_cons, map_zeros]
        refine (mul_one _).ge.trans (mul_le_mul_right ?_ _)
        exact le_counted (Nat.zero_le m) (Assn.lift_of rfl).ge
    | false =>
      refine Spec.known (q := p ≠ 0) ?_ fun hp => ?_
      · rw [← mul_assoc]
        exact mul_le_mul_left pts_ne.le _
      refine (store_spec (hlen _ _ 1 (by decide))).step_sure (mul_comm _ _).le fun _ => ?_
      rw [if_neg hp, set_middle_succ, mul_comm]
      have hloop : Fills p [] [] ((children n).length * k) ((children n).map val) _
          (fillLoop (fill p) (ajCount n) 0 (children n)) :=
        fillLoop_spec (h · · p) (Nat.zero_mul k) (Nat.zero_add _).le
      refine Spec.step_made (g := id) (R := pts v (pre ++ some 0 :: some p :: (zeros l ++ post)))
        hloop ?_ fun filled items => ?_
      · rw [List.nil_append, List.append_nil]
        exact le_rfl
      · refine Spec.conseq (Spec.fact fun hq => ?_) (filled_le hne) fun _ _ => le_rfl
        obtain ⟨hitems, rfl⟩ := hq
        refine (Spec.frame_sure (store_spec (hlen _ _ 0 (by decide))) _).conseq le_rfl
          (sure_le fun _ => le_made ?_)
        refine le_cells (items.length :: p :: List.replicate l 0) ?_ ?_
        · rw [List.length_cons, List.length_cons, List.length_replicate]
          omega
        · rw [List.map_cons, List.map_cons, map_zeros, Nat.zero_add, Nat.add_zero, set_middle]
          exact mul_le_mul_right (le_counted (hitems.le.trans hm) le_rfl) _

/-! ## Blocks and lists that are made -/

theorem getWith_spec {own : ι → List Nat → Blocks Nat} {fill : Nat → Cmd Nat Unit}
    (h : ∀ p, Fills p [] [] k x₀ (fun _ => own) (fill p)) :
    Spec 1 (getWith place k fill n) fun p =>
      made (if ajIsNull n then none else some x₀) fun x => boxed own x p := by
  unfold getWith
  split
  · exact Spec.ret_made (Assn.lift_of rfl).ge
  · refine Spec.alloc_then ?_ fun p _ => ?_
    · refine Spec.pure (le_made_refused (v := none) ?_)
      exact (mul_one _).ge.trans (mul_le_mul' (Assn.lift_of rfl).ge le_top)
    · refine Spec.step_made (g := some) (R := 1) (h p) ?_ fun _ x => Spec.ret_made ?_
      · rw [List.nil_append, List.append_nil]
        exact le_rfl
      · rw [mul_one]
        refine iSup_mono fun us => Assn.lift_mul_le fun _ => ?_
        rw [List.nil_append, List.append_nil]

theorem arpcDup_spec (s : Option Bytes) :
    Spec 1 (arpcDup place s) fun p => made (s.map CStr.dup) fun x => text x p := by
  cases s with
  | none => exact Spec.ret_made (Assn.lift_of rfl).ge
  | some s =>
    refine (alloc_spec place _).conseq le_rfl fun p r => ?_
    cases r with
    | true =>
      exact le_made_refused (v := none) ((mul_one _).ge.trans (mul_le_mul_right le_top _))
    | false =>
      refine le_made ?_
      have hs : textBlock (cstr s) = textBlock s := by
        rw [textBlock, textBlock, cstr_eq (cstr_nulFree s)]
      rw [Option.map_some, text, CStr.dup, hs]
      exact le_rfl

theorem le_listed {own : α → Nat → Blocks Nat} {l : List α} {P : Blocks Nat} (cs : Nodes) {p : Nat}
    (hp : p = first cs 0) (hm : cs.length ≤ m) (hP : P ≤ ring cs * Assn.all₂ own l (cs.map (·.2))) :
    P ≤ listed m own l p := le_iSup_of_le cs (Assn.le_lift_mul ⟨hp, hm⟩ hP)

/-- A new element is the list's, or lost. -/
theorem append_spec {own : α → Nat → Blocks Nat} {l : List α} {x : α} {out d : Nat} :
    Spec (listed k own l out * own x d) (alpmListAppend place out d) fun q =>
      made (l ++ [x]) fun l' => listed (k + 1) own l' q.2 := by
  rw [listed, Assn.iSup_mul]
  refine Spec.ex fun cs => ?_
  rw [mul_assoc]
  refine Spec.fact fun hlist => ?_
  obtain ⟨hout, hcs⟩ := hlist
  rw [mul_assoc, hout]
  refine ((alpmListAppend_spec d).frame _).conseq le_rfl fun q r => ?_
  cases r with
  | true =>
    rw [appended, if_pos rfl, mul_assoc]
    refine Assn.lift_mul_le fun hq => le_made_refused (v := l) ?_
    rw [← mul_assoc]
    exact mul_le_mul' (le_listed cs (hq ▸ rfl) (Nat.le_succ_of_le hcs) le_rfl) le_top
  | false =>
    rw [appended, if_neg Bool.false_ne_true, mul_assoc]
    refine Assn.lift_mul_le fun hq => le_made (le_listed _ hq.2 ?_ (mul_le_mul_right ?_ _))
    · rw [List.length_append, List.length_singleton]
      exact Nat.succ_le_succ hcs
    · rw [List.map_append]
      exact (mul_le_mul_right (mul_one (own x d)).ge _).trans (Assn.all₂_append own l [x] _ [d])

theorem buildLoop_spec {val : Tree → α} {own : α → Nat → Blocks Nat}
    {get : Option Tree → Cmd Nat Nat} {es : List Tree} {l : List α} {out : Nat}
    (h : ∀ e ∈ es, Spec 1 (get (some e)) fun p => made (val e) fun x => own x p) :
    Spec (listed k own l out) (buildLoop place get out es) fun p =>
      made (l ++ es.map val) fun l' => listed (k + es.length) own l' p := by
  induction es generalizing k l out with
  | nil =>
    rw [List.map_nil, List.append_nil]
    exact Spec.ret_made le_rfl
  | cons e es ih =>
    obtain ⟨he, hes⟩ := List.forall_mem_cons.1 h
    refine Spec.step_made (g := fun x => l ++ x :: es.map val) he (one_mul _).ge fun d x => ?_
    rw [mul_comm, List.append_cons]
    refine Spec.step_made (g := (· ++ es.map val)) (append_spec) (mul_one _).ge fun q l' => ?_
    rw [mul_one, List.length_cons, Nat.add_comm es.length, ← Nat.add_assoc]
    exact ih hes

/-- A list that nothing is done with at last. -/
theorem buildWith_spec {val : Tree → α} {own : α → Nat → Blocks Nat} {get : Option Tree → Cmd Nat Nat}
    {built : Nat → Cmd Nat Unit} (hbuilt : ∀ p, built p = pure ()) (hm : (children n).length ≤ m)
    (h : ∀ e ∈ children n, Spec 1 (get (some e)) fun p => made (val e) fun x => own x p) :
    Spec 1 (buildWith place get built n) fun p =>
      made (if ajIsNull n then [] else (children n).map val) fun l => listed m own l p := by
  have hnil : (1 : Blocks Nat) ≤ listed 0 own ([] : List α) 0 :=
    le_listed [] rfl le_rfl (one_mul _).ge
  have hle (k : Nat) (hk : k ≤ m) (l : List α) (p : Nat) : listed k own l p ≤ listed m own l p :=
    iSup_mono fun cs => Assn.lift_mul_le fun hcs => Assn.le_lift_mul ⟨hcs.1, hcs.2.trans hk⟩ le_rfl
  unfold buildWith
  split
  · exact Spec.ret_made (hnil.trans (hle 0 (Nat.zero_le m) _ _))
  · have hloop : Spec (listed 0 own [] 0) (buildLoop place get 0 (children n)) fun p =>
        made ((children n).map val) fun l => listed (0 + (children n).length) own l p := buildLoop_spec h
    refine hloop.step_made (g := id) (hnil.trans (mul_one _).ge) fun p l => ?_
    have hcount : 0 + (children n).length ≤ m := by rwa [Nat.zero_add]
    have hdone : Writes (listed (0 + (children n).length) own l p) (built p)
        (listed (0 + (children n).length) own l p) := by
      rw [hbuilt]
      exact Spec.ret le_rfl
    refine hdone.next rfl (Spec.ret_made ?_)
    rw [mul_one]
    exact hle _ hcount l p

end

/-! ## Records that are made -/

theorem Fills.word {v i w : Nat} {pre post : List (Option Nat)} {ι : Type} {x₀ : ι} {f : ι → Nat}
    (hi : i = pre.length) (hw : f x₀ = w) :
    Fills v pre post 1 x₀ (fun _ x => cell (Gen.word (f x))) (Store.store v i w) :=
  have hmake : Spec 1 (pure w) fun p => made x₀ fun x => Gen.word (f x) p :=
    Spec.ret_made (Assn.lift_of hw.symm).ge
  Fills.store hi hmake

theorem registerList_of_noPkgs {e : ElemTy} (he : e.NoPkgs) (out : Nat) :
    registerList register out e = pure () := by
  cases e with
  | handle tag =>
    cases tag with
    | pkg => exact absurd rfl he
    | _ => rfl
  | _ => rfl

mutual
theorem makeField_spec {n : Option Tree} {v i : Nat} {pre post : List (Option Nat)}
    (hn : Bounded m n) (hi : i = pre.length) : (k : FieldTy) → k.NoPkgs →
      Fills v pre post k.size (getField n k) (fun _ => ownsField m k) (makeField place register v i n k)
  | .string _, _ => Fills.store hi (arpcDup_spec _)
  | .scalar _, _ => Fills.word hi rfl
  | .handle _, _ => Fills.word hi rfl
  | .structPtr r, hk =>
    Fills.store hi (getWith_spec fun _ => makeRec_spec hn List.length_nil.symm r hk)
  | .recordValue r, hk => makeRec_spec hn hi r hk
  | .list e, hk => Fills.store hi (buildWith_spec (registerList_of_noPkgs hk) hn.length fun _ hx =>
      makeElem_spec (hn.child hx) e hk)
  | .foreign, _ => Fills.ret (le_iSup_of_le 0 (Assn.le_lift_mul rfl (Assn.lift_of rfl).ge))

theorem makeElem_spec {n : Option Tree} (hn : Bounded m n) : (e : ElemTy) → e.NoPkgs →
    Spec 1 (makeElem place register n e) fun p => made (getElemOf n e) fun x => ownsElem m e x p
  | .string, _ => arpcDup_spec _
  | .handle _, _ => Spec.ret_made (Assn.lift_of rfl).ge
  | .record r, he => getWith_spec fun _ => makeRec_spec hn List.length_nil.symm r he

/-- `fill_*` makes the record of the tree. -/
theorem makeRec_spec {n : Option Tree} {v i : Nat} {pre post : List (Option Nat)}
    (hn : Bounded m n) (hi : i = pre.length) : (r : RecTy) → r.NoPkgs →
      Fills v pre post r.size (fillRec n r) (fun _ => ownsRec m r) (makeRec place register v i n r)
  | .struct fs, hr => makeFields_spec hn hi fs hr
  | .counted elem others, hr => by
    refine Fills.mono (fillCounted_spec hn.length hi fun e he p j pre post hj =>
      makeRec_spec (hn.child he) hj elem hr)
      (g := fun items => (items, FieldsTy.zero .client others)) fun _ items ws => ?_
    refine iSup_mono fun p => Assn.lift_mul_le fun hws => Assn.le_lift_mul ?_ le_rfl
    exact ⟨hws.1, hws.2, rfl⟩

theorem makeFields_spec {n : Option Tree} {v i : Nat} {pre post : List (Option Nat)}
    (hn : Bounded m n) (hi : i = pre.length) : (fs : FieldsTy) → fs.NoPkgs →
      Fills v pre post fs.size (fillFields n fs) (fun _ => ownsFields m fs)
        (makeFields place register v i n fs)
  | .nil, _ => Fills.ret (Assn.lift_of rfl).ge
  | .cons name true k fs, hc => by
    have hk : Fills v pre (zeros fs.size ++ post) k.size (getField (ajMember n name) k) _ _ :=
      makeField_spec (hn.member name) hi k hc.1
    have hfs us (hus : pre.length + k.size = (pre ++ us).length) :
        Fills v (pre ++ us) post fs.size (fillFields n fs) _ _ := makeFields_spec hn (hi ▸ hus) fs hc.2
    rw [fillFields, makeFields]
    exact (hk.seq hfs).mono (g := id) fun _ x ws => (congrFun (ownsFields_carried x) ws).ge
  | .cons _ false k fs, hc => by
    have hzero : Fills v pre (zeros fs.size ++ post) k.size (FieldTy.zero .client k)
        (fun _ => left k) (pure ()) := Fills.ret (Assn.lift_of ⟨rfl, rfl⟩).ge
    have hfs us (hus : pre.length + k.size = (pre ++ us).length) :
        Fills v (pre ++ us) post fs.size (fillFields n fs) _ _ := makeFields_spec hn (hi ▸ hus) fs hc
    rw [fillFields, makeFields]
    exact (hzero.seq hfs).mono (g := id) fun _ x ws => (congrFun (ownsFields_left x) ws).ge
end

end Gen
