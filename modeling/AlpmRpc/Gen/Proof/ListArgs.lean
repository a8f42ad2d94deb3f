import AlpmRpc.Gen.Params
import AlpmRpc.Gen.Proof.Integers

/-!
# List arguments arrive

`listTree` is what the client's writer puts on the wire for a list and `takeList_listTree` what the
server's reader makes of it. Strings and handles arrive as they were sent. Structs are written as
the ids of their addresses, of which the reader makes empty structs.
-/

set_option autoImplicit false

namespace Gen

open Json Server

/-! ## What is sent -/

/-- An id on the wire. -/
def idTree (id : Word) : Tree := .num (toI64 id.1)

/-- A list on the wire, when `g` is an element. -/
def arrTree {α : Type} (g : α → Tree) (l : List α) : Tree :=
  if l.isEmpty then .null else .arr (l.map g)

def listTree : (e : ElemKind) → List e.Elem → Tree
  | .string, l => arrTree strTree l
  | .handle _, l => arrTree idTree l
  | .record _, l => arrTree idTree (l.map arpcId)

theorem foldl_eq_ajwElems {α : Type} {f : Writer → α → Writer} {g : α → Tree}
    (hf : ∀ w x, f w x = ajwTree w (g x)) (l : List α) (w : Writer) :
    l.foldl f w = ajwElems w (l.map g) := by
  induction l generalizing w with
  | nil => rfl
  | cons x l ih => rw [List.foldl_cons, ih, List.map_cons, ajwElems, hf]

theorem putStrs_eq (w : Writer) (l : List (Option CStr)) :
    arpcPutStrList w l = ajwTree w (arrTree strTree l) := by
  have hf : ∀ (w : Writer) (s : Option CStr), ajwStr w (s.map (·.1)) = ajwTree w (strTree s) := by
    intro w s
    cases s <;> rfl
  unfold arpcPutStrList
  cases l with
  | nil => rfl
  | cons s l =>
    rw [if_neg (by simp), foldl_eq_ajwElems hf]
    rfl

theorem putHandles_eq (w : Writer) (l : List Word) :
    arpcPutHandleList w l = ajwTree w (arrTree idTree l) := by
  have hf : ∀ (w : Writer) (id : Word), ajwI64 w (toI64 id.1) = ajwTree w (idTree id) := by
    intro w id
    rw [idTree, ajwTree]
  unfold arpcPutHandleList
  cases l with
  | nil => rfl
  | cons id l =>
    rw [if_neg (by simp), foldl_eq_ajwElems hf]
    rfl

/-- The writers emit the tree of the list. -/
theorem putListParam_eq (w : Writer) (e : ElemKind) (l : List e.Elem) :
    putListParam w e l = ajwTree w (listTree e l) := by
  cases e with
  | string => exact putStrs_eq w l
  | handle tag => exact putHandles_eq w l
  | record fs => exact putHandles_eq w (l.map arpcId)

theorem ajwElems_append (w : Writer) (es fs : List Tree) :
    ajwElems w (es ++ fs) = ajwElems (ajwElems w es) fs := by
  induction es generalizing w with
  | nil => rfl
  | cons v vs ih => rw [List.cons_append, ajwElems, ajwElems, ih]

/-- **The request of a stub** is a request frame with the list in its place. -/
theorem stubRequest_eq (id : Int) (method : Bytes) (before after : List Tree) (e : ElemKind)
    (l : List e.Elem) :
    stubRequest id method before after e l =
      ajwTree {} (requestFrame id method (before ++ listTree e l :: after)) := by
  rw [stubRequest, putListParam_eq, requestFrame, ajwTree, ajwMembers, ajwMembers, ajwMembers,
    ajwMembers, ajwTree, ajwTree, ajwTree, ajwElems_append, ajwElems]
  rfl

theorem arrTree_fits {α : Type} {g : α → Tree} (hg : ∀ x, Fits 0 (g x)) (l : List α) :
    Fits 1 (arrTree g l) := by
  unfold arrTree
  split
  · exact .null
  · refine .arr fun v hv => ?_
    obtain ⟨x, -, rfl⟩ := List.mem_map.1 hv
    exact hg x

theorem idTree_fits (id : Word) : Fits 0 (idTree id) := .num (toI64_range _)

theorem listTree_fits (e : ElemKind) (l : List e.Elem) : Fits 1 (listTree e l) := by
  cases e with
  | string => exact arrTree_fits strTree_fits l
  | handle tag => exact arrTree_fits idTree_fits l
  | record fs => exact arrTree_fits idTree_fits (l.map arpcId)

/-- The handler finds the list at its index. -/
theorem argNode_stubRequest {d : Nat} {id : Int} {method : Bytes} {before after : List Tree}
    (hid : I64 id) (hm : NulFree method) (hp : ∀ v ∈ before ++ after, Fits d v)
    (hd : d + 2 ≤ maxDepth) (h1 : 1 ≤ d) (e : ElemKind) (l : List e.Elem) :
    argNode (ajParse (stubRequest id method before after e l).buf) before.length =
      some (listTree e l) := by
  have hfit : ∀ v ∈ before ++ listTree e l :: after, Fits d v := by
    intro v hv
    rcases List.mem_append.1 hv with hv | hv
    · exact hp v (List.mem_append_left _ hv)
    · rcases List.mem_cons.1 hv with rfl | hv
      · exact (listTree_fits e l).mono h1
      · exact hp v (List.mem_append_right _ hv)
  have hsent := sent_eq (fits_request hid hm hfit) hd
  unfold sent at hsent
  rw [stubRequest_eq, hsent, argNode_request]
  simp

/-! ## What is read -/

mutual
/-- The server's struct is the client's: the same strings and integers, the objects of its ids. -/
def Kind.Arrived (h : Handles) : (k : Kind) → k.Val .client → k.Val .server → Prop
  | .string, c, v => c = v
  | .scalar _, c, v => c.1 = v.1
  | .handle tag, c, v => h.objOf tag c = v
  | .structPtr _, none, none => True
  | .structPtr fs, some c, some v => Fields.Arrived h fs c v
  | _, _, _ => False

def Fields.Arrived (h : Handles) : (fs : Fields) → fs.Val .client → fs.Val .server → Prop
  | .nil, _, _ => True
  | .cons _ k fs, (c, cs), (v, vs) => Kind.Arrived h k c v ∧ Fields.Arrived h fs cs vs
end

/-- A member that is `NULL`, `0`, or an id of no object. -/
def Kind.Blank (h : Handles) : (k : Kind) → k.Val .client → Prop
  | .string, c => c = none
  | .scalar _, c => c.1 = 0
  | .handle tag, c => h.objOf tag c = ⟨0, zero_lt_word⟩
  | .structPtr _, c => c = none

/-- A struct of nothing but such members. -/
def Fields.Blank (h : Handles) : (fs : Fields) → fs.Val .client → Prop
  | .nil, _ => True
  | .cons _ k fs, (c, cs) => k.Blank h c ∧ Fields.Blank h fs cs

/-- What a member is read as where there is none. -/
theorem arrived_missing_iff (h : Handles) :
    (k : Kind) → (c : k.Val .client) → (k.Arrived h c (srvReadValue h none k) ↔ k.Blank h c)
  | .string, _ => Iff.rfl
  | .scalar ty, c => by
    have h0 : (scalarOf .server ty 0).1 = 0 := by cases ty <;> decide
    have hval : (srvReadValue h none (.scalar ty)) = scalarOf .server ty 0 := rfl
    rw [hval]
    exact (iff_of_eq (congrArg (c.1 = ·) h0))
  | .handle tag, c => by
    have hval : (srvReadValue h none (.handle tag)) = h.objOf tag ⟨0, zero_lt_word⟩ := rfl
    rw [hval, h.objOf_zero]
    rfl
  | .structPtr fs, none => iff_of_true trivial rfl
  | .structPtr fs, some c => iff_of_false (fun hf => hf) (by intro hc; cases hc)

theorem arrivedFields_number_iff (h : Handles) (n : Int) :
    (fs : Fields) → (c : fs.Val .client) →
      (fs.Arrived h c (getFields h .server (some (.num n)) fs) ↔ fs.Blank h c)
  | .nil, _ => iff_of_true trivial trivial
  | .cons _ k fs, (c, cs) =>
    and_congr (arrived_missing_iff h k c) (arrivedFields_number_iff h n fs cs)

/-- The server's list is the caller's, element for element, and the request is a good one. -/
def ListArrived (h : Handles) : (e : ElemKind) → List e.Elem → List e.SrvElem × Bool → Prop
  | .string, l, r => r = (l, false)
  | .handle tag, l, r => r = (l.map (h.objOf tag), false)
  | .record fs, l, r => r.2 = false ∧
      List.Forall₂ (fun c v => (Kind.structPtr fs).Arrived h (c.map (·.val)) v) l r.1

/-- Every handle of the list is of a live object. -/
def Live (h : Handles) : (e : ElemKind) → List e.Elem → Prop
  | .handle tag, l => ∀ id ∈ l, (h.objOf tag id).1 ≠ 0
  | _, _ => True

/-- No struct of the list has anything in it to lose. -/
def NothingToLose (h : Handles) : (e : ElemKind) → List e.Elem → Prop
  | .record fs, l => ∀ x ∈ l, ∃ r, x = some r ∧ fs.Blank h r.val
  | _, _ => True

theorem takeHandles_eq (h : Handles) (tag : HandleTag) (l : List Word)
    (hl : ∀ id ∈ l, (h.objOf tag id).1 ≠ 0) :
    takeHandles h tag (l.map idTree) = (l.map (h.objOf tag), false) := by
  induction l with
  | nil => rfl
  | cons id l ih =>
    have hread : wordOf (ajI64 (some (idTree id)) 0) = id := by
      rw [idTree, ajI64, wordOf_toI64]
    have hrest := ih fun i hi => hl i (List.mem_cons_of_mem _ hi)
    rw [List.map_cons, takeHandles]
    simp only [hread, hrest, if_neg (hl id List.mem_cons_self), List.map_cons]

theorem dup_strTree (s : Option CStr) : (ajStr (some (strTree s)) none).map CStr.dup = s := by
  cases s with
  | none => rfl
  | some s =>
    simp only [strTree, ajStr, Option.map_some]
    rw [cstr_eq s.2, CStr.dup_eq]

theorem takeStrs_eq (l : List (Option CStr)) :
    ((l.map strTree).map fun n => (ajStr (some n) none).map CStr.dup) = l := by
  rw [List.map_map]
  exact (List.map_congr_left fun s _ => dup_strTree s).trans (List.map_id l)

/-- A struct sent as an address is read as an empty one. -/
theorem arrived_address_iff (h : Handles) {fs : Fields} (x : Option (At (fs.Val .client))) (n : Int) :
    (Kind.structPtr fs).Arrived h (x.map (·.val)) (srvReadValue h (some (.num n)) (.structPtr fs)) ↔
      ∃ r, x = some r ∧ fs.Blank h r.val := by
  have hread : srvReadValue h (some (.num n)) (.structPtr fs) =
      some (getFields h .server (some (.num n)) fs) := rfl
  rw [hread]
  cases x with
  | none => exact iff_of_false (fun hf => hf) (by simp)
  | some r =>
    refine (arrivedFields_number_iff h n fs r.val).trans ?_
    simp

theorem takeRecords_iff (h : Handles) {fs : Fields} (l : List (Option (At (fs.Val .client)))) :
    List.Forall₂ (fun c v => (Kind.structPtr fs).Arrived h (c.map (·.val)) v) l
        (((l.map arpcId).map idTree).map fun n => srvReadValue h (some n) (.structPtr fs)) ↔
      ∀ x ∈ l, ∃ r, x = some r ∧ fs.Blank h r.val := by
  induction l with
  | nil => simp
  | cons x l ih =>
    rw [List.map_cons, List.map_cons, List.map_cons, List.forall₂_cons, ih, List.forall_mem_cons]
    exact and_congr_left fun _ => arrived_address_iff h x _

/-- **What the reader makes of a list.** -/
theorem takeList_listTree (h : Handles) (e : ElemKind) (l : List e.Elem) (hl : Live h e l) :
    ListArrived h e l (takeList h (some (listTree e l)) e) ↔ NothingToLose h e l := by
  cases e with
  | string =>
    refine iff_of_true ?_ trivial
    cases l with
    | nil => rfl
    | cons s l => exact Prod.ext (takeStrs_eq (s :: l)) rfl
  | handle tag =>
    refine iff_of_true ?_ trivial
    cases l with
    | nil => rfl
    | cons id l => exact takeHandles_eq h tag (id :: l) hl
  | record fs =>
    cases l with
    | nil => exact iff_of_true ⟨rfl, .nil⟩ (by intro x hx; cases hx)
    | cons x l => exact (and_iff_right rfl).trans (takeRecords_iff h (x :: l))

/-- **When a list argument arrives.** The list that the handler's reader builds from the request a
stub wrote is the caller's, unless it is a list of structs and one of them is `NULL` or has a
member that is not blank. -/
theorem list_argument_arrives_iff (h : Handles) (e : ElemKind) (l : List e.Elem) (hl : Live h e l)
    (id : Int) (hid : I64 id) (method : CStr) (before after : List Tree) (d : Nat)
    (hp : ∀ v ∈ before ++ after, Fits d v) (h1 : 1 ≤ d) (hd : d + 2 ≤ maxDepth) :
    ListArrived h e l (takeList h
      (argNode (ajParse (stubRequest id method.1 before after e l).buf) before.length) e) ↔
      NothingToLose h e l := by
  rw [argNode_stubRequest hid method.2 hp hd h1 e l]
  exact takeList_listTree h e l hl

theorem list_argument_arrives_iff_servers :
    ListArrived noHandles .string [some ⟨lit "https://a", by decide⟩, none]
      (takeList noHandles (argNode (ajParse (stubRequest 3 (lit "alpm_db_set_servers") [.num 9] []
        .string [some ⟨lit "https://a", by decide⟩, none]).buf) 1) .string) ↔
      NothingToLose noHandles .string [some ⟨lit "https://a", by decide⟩, none] :=
  list_argument_arrives_iff noHandles .string [some ⟨lit "https://a", by decide⟩, none] trivial 3
    (by decide) ⟨lit "alpm_db_set_servers", by decide⟩ [.num 9] [] 1
    (by intro v hv; cases List.mem_singleton.1 hv; exact .num (by decide)) (by decide) (by decide)

/-- The dependency `glibc`, at some address. -/
def glibcDep : At (alpmDepend.Val .client) :=
  ⟨⟨4096, by decide⟩, by decide,
    (some ⟨lit "glibc", glibc_nulFree⟩, none, none, ⟨7, by decide⟩, ⟨1, by decide⟩, ())⟩

/-- The dependency set as installed does not reach the server. -/
theorem assumeinstalled_lost :
    ¬ListArrived noHandles (.record alpmDepend) [some glibcDep]
      (takeList noHandles (argNode (ajParse (stubRequest 3 (lit "alpm_option_set_assumeinstalled")
        [.num 1] [] (.record alpmDepend) [some glibcDep]).buf) 1) (.record alpmDepend)) := by
  have hp : ∀ v ∈ ([.num 1] : List Tree) ++ [], Fits 1 v := by
    intro v hv
    cases List.mem_singleton.1 hv
    exact .num (by decide)
  have hnode := argNode_stubRequest (show I64 3 by decide)
    (show NulFree (lit "alpm_option_set_assumeinstalled") by decide) hp (by decide) (by decide)
    (.record alpmDepend) [some glibcDep]
  intro ha
  rw [show ([.num 1] : List Tree).length = 1 from rfl] at hnode
  rw [hnode] at ha
  have hnone := (takeList_listTree noHandles (.record alpmDepend) [some glibcDep] trivial).1 ha
  obtain ⟨r, hr, hb⟩ := hnone (some glibcDep) List.mem_cons_self
  cases hr
  cases hb.1

end Gen
