import AlpmRpc.Gen.Schema
import AlpmRpc.Gen.Proof.ListArgs
import Mathlib.Data.List.MinMax

/-!
# Records arrive as they are

The writers emit the tree of the value (`putRec_eq`), the tree fits a parser that admits as many
containers as the value opens (`recTree_fits`), and reading the tree gives the value
(`recTree_same`). All three follow the description of the record.
-/

set_option autoImplicit false

namespace Gen

open Json Server

/-! ## What is written -/

mutual
def fieldTree (env : SrvEnv) : (k : FieldTy) → k.Val .server → Tree
  | .string path, s => strTree (if path then s.map env.pathOut else s)
  | .scalar _, v => .num (toI64 v.1)
  | .handle tag, p => idTree (env.idOf tag p)
  | .structPtr _, none => .null
  | .structPtr r, some v => recTree env r v
  | .recordValue r, v => recTree env r v
  | .list _, [] => .null
  | .list e, x :: l => .arr ((x :: l).map fun x => elemTree env e x)
  | .foreign, _ => .null

def elemTree (env : SrvEnv) : (e : ElemTy) → e.Val .server → Tree
  | .string, s => strTree s
  | .handle tag, p => idTree (env.idOf tag p)
  | .record _, none => .null
  | .record r, some v => recTree env r v

def recTree (env : SrvEnv) : (r : RecTy) → r.Val .server → Tree
  | .struct fs, v => .obj (fieldTreesOf env fs v)
  | .counted elem _, (items, _) => .arr (items.map fun x => recTree env elem x)

def fieldTreesOf (env : SrvEnv) : (fs : FieldsTy) → fs.Val .server → List (Bytes × Tree)
  | .nil, _ => []
  | .cons name true k fs, (v, vs) => (name, fieldTree env k v) :: fieldTreesOf env fs vs
  | .cons _ false _ fs, (_, vs) => fieldTreesOf env fs vs
end

theorem ajwStr_eq (w : Writer) (s : Option CStr) : ajwStr w (s.map (·.1)) = ajwTree w (strTree s) := by
  cases s <;> rfl

theorem ajwI64_eq (w : Writer) (id : Word) : ajwI64 w (toI64 id.1) = ajwTree w (idTree id) := by
  rw [idTree, ajwTree]

mutual
theorem putField_eq (env : SrvEnv) (w : Writer) :
    (k : FieldTy) → (v : k.Val .server) → putField env w k v = ajwTree w (fieldTree env k v)
  | .string path, s => by
    rw [putField, fieldTree, ajwStr_eq]
  | .scalar _, v => by
    rw [putField, fieldTree, ajwTree]
  | .handle tag, p => by
    rw [putField, fieldTree, ajwI64_eq]
  | .structPtr _, none => rfl
  | .structPtr r, some v => by
    rw [putField, fieldTree, putRec_eq env w r v]
  | .recordValue r, v => by
    rw [putField, fieldTree, putRec_eq env w r v]
  | .list _, [] => rfl
  | .list e, x :: l => by
    rw [putField, fieldTree, ajwTree, foldl_eq_ajwElems fun w x => putElem_eq env w e x]
  | .foreign, _ => rfl

theorem putElem_eq (env : SrvEnv) (w : Writer) :
    (e : ElemTy) → (x : e.Val .server) → putElem env w e x = ajwTree w (elemTree env e x)
  | .string, s => ajwStr_eq w s
  | .handle tag, p => by
    rw [putElem, elemTree, ajwI64_eq]
  | .record _, none => rfl
  | .record r, some v => by
    rw [putElem, elemTree, putRec_eq env w r v]

/-- The writers emit the tree of the record. -/
theorem putRec_eq (env : SrvEnv) (w : Writer) :
    (r : RecTy) → (v : r.Val .server) → putRec env w r v = ajwTree w (recTree env r v)
  | .struct fs, v => by
    rw [putRec, recTree, ajwTree, putFieldsOf_eq env _ fs v]
  | .counted elem _, (items, _) => by
    rw [putRec, recTree, ajwTree, foldl_eq_ajwElems fun w x => putRec_eq env w elem x]

theorem putFieldsOf_eq (env : SrvEnv) (w : Writer) :
    (fs : FieldsTy) → (v : fs.Val .server) →
      putFieldsOf env w fs v = ajwMembers w (fieldTreesOf env fs v)
  | .nil, _ => rfl
  | .cons name true k fs, (v, vs) => by
    rw [putFieldsOf, fieldTreesOf, ajwMembers, putField_eq env _ k v, putFieldsOf_eq env _ fs vs]
  | .cons _ false _ fs, (_, vs) => by
    rw [putFieldsOf, fieldTreesOf, putFieldsOf_eq env _ fs vs]
end

theorem fieldTreesOf_names (env : SrvEnv) :
    (fs : FieldsTy) → (v : fs.Val .server) → (fieldTreesOf env fs v).map (·.1) = fs.names
  | .nil, _ => rfl
  | .cons name true k fs, (v, vs) => by
    rw [fieldTreesOf, List.map_cons, FieldsTy.names, fieldTreesOf_names env fs vs]
  | .cons _ false _ fs, (_, vs) => by
    rw [fieldTreesOf, FieldsTy.names, fieldTreesOf_names env fs vs]

theorem fieldTreesOf_nulFree (env : SrvEnv) :
    (fs : FieldsTy) → (v : fs.Val .server) → fs.Wf → ∀ m ∈ fieldTreesOf env fs v, NulFree m.1
  | .nil, _, _ => by simp [fieldTreesOf]
  | .cons name true k fs, (v, vs), hw => by
    intro m hm
    rcases List.mem_cons.1 hm with rfl | hm
    · exact hw.1
    · exact fieldTreesOf_nulFree env fs vs hw.2.2 m hm
  | .cons _ false _ fs, (_, vs), hw => fieldTreesOf_nulFree env fs vs hw

/-! ## How deep it is -/

/-- An array of trees that each fit. -/
theorem fits_arr_map {α : Type} {g : α → Tree} {depth : α → Nat} {l : List α} {d : Nat}
    (hg : ∀ x ∈ l, ∀ e, depth x ≤ e → Fits e (g x)) (hd : (l.map depth).foldr max 0 + 1 ≤ d) :
    Fits d (.arr (l.map g)) := by
  obtain ⟨d, rfl⟩ : ∃ e, d = e + 1 := ⟨d - 1, by omega⟩
  refine .arr fun t ht => ?_
  obtain ⟨x, hx, rfl⟩ := List.mem_map.1 ht
  have hle : depth x ≤ (l.map depth).foldr max 0 :=
    List.le_max_of_le' 0 (List.mem_map_of_mem hx) le_rfl
  exact hg x hx d (by omega)

mutual
theorem fieldTree_fits (env : SrvEnv) {d : Nat} :
    (k : FieldTy) → (v : k.Val .server) → k.Wf → k.depth v ≤ d → Fits d (fieldTree env k v)
  | .string _, _, _, _ => (strTree_fits _).mono (Nat.zero_le d)
  | .scalar _, _, _, _ => .num (toI64_range _)
  | .handle _, _, _, _ => (idTree_fits _).mono (Nat.zero_le d)
  | .structPtr _, none, _, _ => .null
  | .structPtr r, some v, hw, hd => recTree_fits env r v hw hd
  | .recordValue r, v, hw, hd => recTree_fits env r v hw hd
  | .list _, [], _, _ => .null
  | .list e, _ :: _, hw, hd => fits_arr_map (fun x _ _ hx => elemTree_fits env e x hw hx) hd
  | .foreign, _, _, _ => .null

theorem elemTree_fits (env : SrvEnv) {d : Nat} :
    (e : ElemTy) → (x : e.Val .server) → e.Wf → e.depth x ≤ d → Fits d (elemTree env e x)
  | .string, s, _, _ => (strTree_fits s).mono (Nat.zero_le d)
  | .handle _, _, _, _ => (idTree_fits _).mono (Nat.zero_le d)
  | .record _, none, _, _ => .null
  | .record r, some v, hw, hd => recTree_fits env r v hw hd

/-- A record opens as many containers as it is deep. -/
theorem recTree_fits (env : SrvEnv) {d : Nat} :
    (r : RecTy) → (v : r.Val .server) → r.Wf → r.depth v ≤ d → Fits d (recTree env r v)
  | .struct fs, v, hw, hd => by
    rw [RecTy.depth] at hd
    obtain ⟨d, rfl⟩ : ∃ e, d = e + 1 := ⟨d - 1, by omega⟩
    exact .obj (fieldTreesOf_nulFree env fs v hw.1)
      (fieldTreesOf_fits env fs v hw.1 (Nat.le_of_succ_le_succ hd))
  | .counted elem _, (items, _), hw, hd =>
    fits_arr_map (fun x _ _ hx => recTree_fits env elem x hw hx) hd

theorem fieldTreesOf_fits (env : SrvEnv) {d : Nat} :
    (fs : FieldsTy) → (v : fs.Val .server) → fs.Wf → fs.depth v ≤ d →
      ∀ m ∈ fieldTreesOf env fs v, Fits d m.2
  | .nil, _, _, _ => by simp [fieldTreesOf]
  | .cons name true k fs, (v, vs), hw, hd => by
    rw [FieldsTy.depth, Nat.max_le] at hd
    intro m hm
    rcases List.mem_cons.1 hm with rfl | hm
    · exact fieldTree_fits env k v hw.2.1 hd.1
    · exact fieldTreesOf_fits env fs vs hw.2.2 hd.2 m hm
  | .cons _ false _ fs, (_, vs), hw, hd => fieldTreesOf_fits env fs vs hw hd
end

/-! ## What is read -/

theorem ajIsNull_recTree (env : SrvEnv) (r : RecTy) (v : r.Val .server) :
    ajIsNull (some (recTree env r v)) = false := by
  cases r <;> rfl

/-- A list read element by element. -/
theorem forall₂_map_map {α β : Type} {g : α → Tree} {r : Tree → β} {R : α → β → Prop}
    {l : List α} (h : ∀ x ∈ l, R x (r (g x))) :
    List.Forall₂ R l ((l.map g).map r) := by
  induction l with
  | nil => exact .nil
  | cons x l ih =>
    exact .cons (h x List.mem_cons_self) (ih fun y hy => h y (List.mem_cons_of_mem _ hy))

theorem getField_scalar (ty : CInt) (v : Int) :
    getField (some (.num v)) (.scalar ty) = scalarOf .client ty v := rfl

theorem getField_handle (tag : HandleTag) (n : Option Tree) :
    getField n (.handle tag) = wordOf (ajI64 n 0) := rfl

theorem wordOf_idTree (id : Word) : wordOf (ajI64 (some (idTree id)) 0) = id := by
  rw [idTree, ajI64, wordOf_toI64]

mutual
theorem fieldTree_same (env : SrvEnv) :
    (k : FieldTy) → (v : k.Val .server) → k.Wf → k.ClientHas v →
      k.Same env v (getField (some (fieldTree env k v)) k)
  | .string path, s, _, _ => dup_strTree (if path then s.map env.pathOut else s)
  | .scalar ty, v, _, hc => by
    rw [fieldTree, getField_scalar]
    exact (cast_toI64_eq_iff .server .client v.2).2 hc
  | .handle tag, p, _, _ => by
    rw [fieldTree, getField_handle]
    exact wordOf_idTree (env.idOf tag p)
  | .structPtr _, none, _, _ => rfl
  | .structPtr r, some v, hw, hc => by
    rw [fieldTree, getField, ajIsNull_recTree]
    exact ⟨_, rfl, recTree_same env r v hw hc⟩
  | .recordValue r, v, hw, hc => recTree_same env r v hw hc
  | .list _, [], _, _ => .nil
  | .list e, x :: l, hw, hc => by
    have hl : ∀ y ∈ x :: l, e.ClientHas y := List.forall_iff_forall_mem.1 hc
    have hsame : ∀ y ∈ x :: l, e.Same env y (getElemOf (some (elemTree env e y)) e) :=
      fun y hy => elemTree_same env e y hw (hl y hy)
    exact forall₂_map_map (r := fun t => getElemOf (some t) e) hsame

theorem elemTree_same (env : SrvEnv) :
    (e : ElemTy) → (x : e.Val .server) → e.Wf → e.ClientHas x →
      e.Same env x (getElemOf (some (elemTree env e x)) e)
  | .string, s, _, _ => dup_strTree s
  | .handle tag, p, _, _ => wordOf_idTree (env.idOf tag p)
  | .record _, none, _, _ => rfl
  | .record r, some v, hw, hc => by
    rw [elemTree, getElemOf, ajIsNull_recTree]
    exact ⟨_, rfl, recTree_same env r v hw hc⟩

/-- **Reading the tree gives the record.** -/
theorem recTree_same (env : SrvEnv) :
    (r : RecTy) → (v : r.Val .server) → r.Wf → r.ClientHas v →
      r.Same env v (fillRec (some (recTree env r v)) r)
  | .struct fs, v, hw, hc => by
    have hn : ((fieldTreesOf env fs v).map (·.1)).Nodup :=
      (congrArg List.Nodup (fieldTreesOf_names env fs v)).mpr hw.2
    exact fieldTreesOf_same env fs v hw.1 hc fun m hm =>
      ajMember_nodup hn (fieldTreesOf_nulFree env fs v hw.1) hm
  | .counted elem others, (items, _), hw, hc => by
    have hl : ∀ x ∈ items, elem.ClientHas x := List.forall_iff_forall_mem.1 hc
    exact ⟨forall₂_map_map fun x hx => recTree_same env elem x hw (hl x hx), rfl⟩

theorem fieldTreesOf_same (env : SrvEnv) {n : Option Tree} :
    (fs : FieldsTy) → (v : fs.Val .server) → fs.Wf → fs.ClientHas v →
      (∀ m ∈ fieldTreesOf env fs v, ajMember n m.1 = some m.2) →
      fs.Same env v (fillFields n fs)
  | .nil, _, _, _, _ => trivial
  | .cons name true k fs, (v, vs), hw, hc, hn => by
    have hhead : ajMember n name = some (fieldTree env k v) :=
      hn (name, fieldTree env k v) List.mem_cons_self
    rw [fillFields, hhead]
    exact ⟨fieldTree_same env k v hw.2.1 hc.1,
      fieldTreesOf_same env fs vs hw.2.2 hc.2 fun m hm => hn m (List.mem_cons_of_mem _ hm)⟩
  | .cons _ false k fs, (_, vs), hw, hc, hn => ⟨rfl, fieldTreesOf_same env fs vs hw hc hn⟩
end

/-! ## A record in a reply -/

end Gen
