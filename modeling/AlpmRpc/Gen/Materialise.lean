import AlpmRpc.Client.AlpmList
import AlpmRpc.Gen.Schema

/-!
# Records in the client's memory

The `fill_*`, `get_*`, `clear_*`, `free_*`, `build_list_*` and `free_list_*` that
`emit_client_helpers` of `tools/gen/emit.py` generates for a record, as functions of its description: how
a reply is made into structs, strings and lists of the caller's, and how these are freed. A member of a
struct is a cell, one that is a struct itself has its cells in place, and of a counted array's two
members the count comes first. `Gen/Schema.lean` says what is read of a document where no memory is
refused. `arpc_pkg_group_register`, which a list of packages is given to, is a parameter: what it
allocates is the caches', and no `free_list_*` frees it.
-/

set_option autoImplicit false

namespace Gen

open Json Store Checked Client.AlpmList

/-! ## Layout -/

mutual
/-- How many cells a member takes. -/
def FieldTy.size : FieldTy → Nat
  | .recordValue r => r.size
  | _ => 1

/-- `sizeof(*v)` -/
def RecTy.size : RecTy → Nat
  | .struct fs => fs.size
  | .counted _ others => 2 + others.size

def FieldsTy.size : FieldsTy → Nat
  | .nil => 0
  | .cons _ _ k fs => k.size + fs.size
end

/-- `memcpy` of a C string with its NUL. -/
def textBlock (s : Bytes) : List (Option Nat) := (cstr s ++ [0]).map fun b : UInt8 => some b.toNat

variable (place : Nat → Nat) (register : Nat → Cmd Nat Unit) (fuel : Nat)

/-! ## Making -/

/-- `arpc_dup` -/
def arpcDup : Option Bytes → Cmd Nat Nat
  | none => pure 0
  | some s => alloc place (textBlock s)

/-- `get_*` of a record of `size` cells that `fill` fills. -/
def getWith (size : Nat) (fill : Nat → Cmd Nat Unit) (n : Option Tree) : Cmd Nat Nat :=
  if ajIsNull n then pure 0
  else do
    let v ← calloc place size
    if v = 0 then return 0
    fill v
    return v

/-- The loop of `build_list_*`; what `alpm_list_append` returns is not looked at. -/
def buildLoop (get : Option Tree → Cmd Nat Nat) : Nat → List Tree → Cmd Nat Nat
  | out, [] => pure out
  | out, e :: es => do
    let x ← get (some e)
    let (_, out) ← alpmListAppend place out x
    buildLoop get out es

/-- `build_list_*` of elements that `get` makes; `built` is what it does with the list at last. -/
def buildWith (get : Option Tree → Cmd Nat Nat) (built : Nat → Cmd Nat Unit) (arr : Option Tree) :
    Cmd Nat Nat :=
  if ajIsNull arr then pure 0
  else do
    let out ← buildLoop place get 0 (children arr)
    built out
    return out

/-- `arpc_pkg_group_register(out)`, of a list of packages. -/
def registerList (out : Nat) : ElemTy → Cmd Nat Unit
  | .handle .pkg => register out
  | _ => pure ()

/-- The loop of `fill_*` over the elements of a counted array: how many were filled. -/
def fillLoop (fill : Nat → Option Tree → Cmd Nat Unit) (cnt : Nat) : Nat → List Tree → Cmd Nat Nat
  | i, [] => pure i
  | i, e :: es =>
    if i < cnt then do
      fill i (some e)
      fillLoop fill cnt (i + 1) es
    else pure i

mutual
/-- `cli_get_value`, into the member at cell `i` of the block `v`. -/
def makeField (v i : Nat) (n : Option Tree) : FieldTy → Cmd Nat Unit
  | .string _ => do
    let p ← arpcDup place (ajStr n none)
    store v i p
  | .scalar ty => store v i (toU64 (scalarOf .client ty (ajI64 n 0)).1)
  | .handle _ => store v i (wordOf (ajI64 n 0)).1
  | .structPtr r => do
    let p ← getWith place r.size (fun p => makeRec p 0 n r) n
    store v i p
  | .recordValue r => makeRec v i n r
  | .list e => do
    let p ← buildWith place (fun n => makeElem n e) (fun out => registerList register out e) n
    store v i p
  | .foreign => pure ()

/-- One element, in `build_list_*`. -/
def makeElem (n : Option Tree) : ElemTy → Cmd Nat Nat
  | .string => arpcDup place (ajStr n none)
  | .handle _ => pure (wordOf (ajI64 n 0)).1
  | .record r => getWith place r.size (fun p => makeRec p 0 n r) n

/-- `fill_*`, of the struct at cell `i` of the block `v`. -/
def makeRec (v i : Nat) (n : Option Tree) : RecTy → Cmd Nat Unit
  | .struct fs => makeFields v i n fs
  | .counted elem _ =>
    let cnt := ajCount n
    if cnt = 0 then pure ()
    else do
      let items ← calloc place (cnt * elem.size)
      store v (i + 1) items
      if items = 0 then return
      let filled ← fillLoop (fun j n => makeRec items (j * elem.size) n elem) cnt 0 (children n)
      store v i filled

def makeFields (v i : Nat) (n : Option Tree) : FieldsTy → Cmd Nat Unit
  | .nil => pure ()
  | .cons name true k fs => do
    makeField v i (ajMember n name) k
    makeFields v (i + k.size) n fs
  | .cons _ false k fs => makeFields v (i + k.size) n fs
end

/-- `get_*` -/
def getRec (n : Option Tree) (r : RecTy) : Cmd Nat Nat :=
  getWith place r.size (fun p => makeRec place register p 0 n r) n

/-- `build_list_*` -/
def buildList (arr : Option Tree) (e : ElemTy) : Cmd Nat Nat :=
  buildWith place (fun n => makeElem place register n e) (fun out => registerList register out e) arr

/-! ## Freeing -/

/-- `free_*` of a record that `clear` clears. -/
def freeWith (clear : Nat → Cmd Nat Unit) (p : Nat) : Cmd Nat Unit :=
  if p = 0 then pure ()
  else do
    clear p
    free p

/-- The loop of `clear_*` over the elements of a counted array. -/
def clearLoop (clear : Nat → Nat → Cmd Nat Unit) (v i : Nat) : Nat → Nat → Cmd Nat Unit
  | 0, _ => fault
  | fuel + 1, j => do
    let cnt ← load v i
    if j < cnt then
      let items ← load v (i + 1)
      clear items j
      clearLoop clear v i fuel (j + 1)
    else pure ()

mutual
/-- What `clear_*` does about a member. -/
def clearField (v i : Nat) : FieldTy → Cmd Nat Unit
  | .string _ => do
    let p ← load v i
    free p
  | .structPtr r => do
    let p ← load v i
    freeWith (fun p => clearRec p 0 r) p
  | .recordValue r => clearRec v i r
  | .list e => do
    let p ← load v i
    arpcFreeList fuel p (elemFree e)
  | _ => pure ()

/-- `elem_free_fn` -/
def elemFree : ElemTy → Option (Nat → Cmd Nat Unit)
  | .string => some free
  | .handle _ => none
  | .record r => some (freeWith fun p => clearRec p 0 r)

/-- `clear_*` -/
def clearRec (v i : Nat) : RecTy → Cmd Nat Unit
  | .struct fs => clearFields v i fs
  | .counted elem _ => do
    clearLoop (fun items j => clearRec items (j * elem.size) elem) v i fuel 0
    let items ← load v (i + 1)
    free items

def clearFields (v i : Nat) : FieldsTy → Cmd Nat Unit
  | .nil => pure ()
  | .cons _ true k fs => do
    clearField v i k
    clearFields v (i + k.size) fs
  | .cons _ false k fs => clearFields v (i + k.size) fs
end

/-- `free_*` -/
def freeRec (p : Nat) (r : RecTy) : Cmd Nat Unit := freeWith (fun p => clearRec fuel p 0 r) p

/-- `free_list_*` -/
def freeList (p : Nat) (e : ElemTy) : Cmd Nat Unit := arpcFreeList fuel p (elemFree fuel e)

/-! ## What a caller does with them -/

/-- What is had from a reply: a record, or a list. -/
inductive Shape where
  | record (r : RecTy)
  | list (e : ElemTy)

namespace Shape

/-- The values. -/
def Val : Shape → Type
  | record r => Option (r.Val .client)
  | list e => List (e.Val .client)

/-- What a reply says. -/
def read (n : Option Tree) : (t : Shape) → t.Val
  | record r => getPtr n r
  | list e => if ajIsNull n then [] else (children n).map fun x => getElemOf (some x) e

/-- `get_*`, `build_list_*` -/
def make (n : Option Tree) : Shape → Cmd Nat Nat
  | record r => getRec place register n r
  | list e => buildList place register n e

/-- `free_*`, `free_list_*` -/
def release (p : Nat) : Shape → Cmd Nat Unit
  | record r => freeRec fuel p r
  | list e => freeList fuel p e

end Shape

/-- Have something of a reply, or free the `i`-th of what is held. -/
inductive Use where
  | make (t : Shape) (n : Option Tree)
  | release (i : Nat)

/-- One use; what is held is a pointer, and what is there. -/
def use (held : List (Shape × Nat)) : Use → Cmd Nat (List (Shape × Nat))
  | .make t n => do
    let p ← t.make place register n
    return held ++ [(t, p)]
  | .release i =>
    (held[i]?).elim (pure held) fun h => do
      h.1.release fuel h.2
      return held.eraseIdx i

def useAll : List (Shape × Nat) → List Use → Cmd Nat (List (Shape × Nat))
  | held, [] => pure held
  | held, u :: us => do
    let held ← use place register fuel held u
    useAll held us

mutual
/-- No list of packages is made for it. -/
def FieldTy.NoPkgs : FieldTy → Prop
  | .structPtr r => r.NoPkgs
  | .recordValue r => r.NoPkgs
  | .list e => e.NoPkgs
  | _ => True

def ElemTy.NoPkgs : ElemTy → Prop
  | .string => True
  | .handle tag => tag ≠ .pkg
  | .record r => r.NoPkgs

def RecTy.NoPkgs : RecTy → Prop
  | .struct fs => fs.NoPkgs
  | .counted elem _ => elem.NoPkgs

def FieldsTy.NoPkgs : FieldsTy → Prop
  | .nil => True
  | .cons _ true k fs => k.NoPkgs ∧ fs.NoPkgs
  | .cons _ false _ fs => fs.NoPkgs
end

def Shape.NoPkgs : Shape → Prop
  | record r => r.NoPkgs
  | list e => e.NoPkgs

/-- Neither a list of packages nor one inside a record, as `alpm_group_t` has, is made. -/
def Use.NoPkgs : Use → Prop
  | make t _ => t.NoPkgs
  | release _ => True

/-- The values that are held after a use. -/
def Use.values (vs : List (Sigma Shape.Val)) : Use → List (Sigma Shape.Val)
  | make t n => vs ++ [⟨t, t.read n⟩]
  | release i => vs.eraseIdx i

end Gen
