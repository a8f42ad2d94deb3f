import AlpmRpc.Gen.Record
import Mathlib.Data.List.Basic

/-!
# Records from the server to the client

Every record `tools/gen/emit.py` can write and read: `put_*`, `put_list_*` on the server
(`srv_put_value`, `emit_server_helpers`, `emit_server_list_writers`), `get_*`, `fill_*`,
`build_list_*` on the client (`cli_get_value`, `emit_client_helpers`). `RecTy` describes a record as
the emitter sees it, with the overlay's counted arrays and fields that do not cross; the generated
functions are functions of that description. A C list is a Lean list, `NULL` the empty one; the
elements of a counted array are a Lean list, whose length is the count.
-/

set_option autoImplicit false

namespace Gen

open Json Server

mutual
/-- The kind of a field. -/
inductive FieldTy where
  /-- `path`: in the overlay's `paths.fields` -/
  | string (path : Bool)
  | scalar (ty : CInt)
  | handle (tag : HandleTag)
  | structPtr (r : RecTy)
  | recordValue (r : RecTy)
  | list (e : ElemTy)
  /-- a kind that has no branch of its own: a callback, a `void *` -/
  | foreign

/-- The element type of a list (`record_list_elem`). -/
inductive ElemTy where
  | string
  | handle (tag : HandleTag)
  | record (r : RecTy)

/-- A record: fields, or a count and an array (`records_counted_array`) and what else it has. -/
inductive RecTy where
  | struct (fs : FieldsTy)
  | counted (elem : RecTy) (others : FieldsTy)

/-- The fields of a record, in order; `carried` unless in `record_fields_uncarried`. -/
inductive FieldsTy where
  | nil
  | cons (name : Bytes) (carried : Bool) (k : FieldTy) (fs : FieldsTy)
end

mutual
/-- The values a field holds on a side. -/
def FieldTy.Val (side : Side) : FieldTy → Type
  | .string _ => Option CStr
  | .scalar ty => { v : Int // ty.InRange side v }
  | .handle _ => Word
  | .structPtr r => Option (RecTy.Val side r)
  | .recordValue r => RecTy.Val side r
  | .list e => List (ElemTy.Val side e)
  | .foreign => Word

/-- What `data` is. -/
def ElemTy.Val (side : Side) : ElemTy → Type
  | .string => Option CStr
  | .handle _ => Word
  | .record r => Option (RecTy.Val side r)

def RecTy.Val (side : Side) : RecTy → Type
  | .struct fs => FieldsTy.Val side fs
  | .counted elem others => List (RecTy.Val side elem) × FieldsTy.Val side others

def FieldsTy.Val (side : Side) : FieldsTy → Type
  | .nil => Unit
  | .cons _ _ k fs => FieldTy.Val side k × FieldsTy.Val side fs
end

theorem zero_inRange (side : Side) (ty : CInt) : ty.InRange side 0 := by
  unfold CInt.InRange
  cases ty <;> cases side <;> decide

mutual
/-- Memory from `calloc`. -/
def FieldTy.zero (side : Side) : (k : FieldTy) → k.Val side
  | .string _ => none
  | .scalar ty => ⟨0, zero_inRange side ty⟩
  | .handle _ => ⟨0, zero_lt_word⟩
  | .structPtr _ => none
  | .recordValue r => RecTy.zero side r
  | .list _ => []
  | .foreign => ⟨0, zero_lt_word⟩

def RecTy.zero (side : Side) : (r : RecTy) → r.Val side
  | .struct fs => FieldsTy.zero side fs
  | .counted _ others => ([], FieldsTy.zero side others)

def FieldsTy.zero (side : Side) : (fs : FieldsTy) → fs.Val side
  | .nil => ()
  | .cons _ _ k fs => (FieldTy.zero side k, FieldsTy.zero side fs)
end

/-- What the server's writers use: the ids of the objects (`arpc_handle_put`), and the form a path
has for this connection (`arpc_path_out`). -/
structure SrvEnv where
  idOf : HandleTag → Word → Word
  pathOut : CStr → CStr

/-! ## Writing -/

mutual
/-- `srv_put_value` -/
def putField (env : SrvEnv) (w : Writer) : (k : FieldTy) → k.Val .server → Writer
  | .string path, s => ajwStr w ((if path then s.map env.pathOut else s).map (·.1))
  | .scalar _, v => ajwI64 w (toI64 v.1)
  | .handle tag, p => ajwI64 w (toI64 (env.idOf tag p).1)
  | .structPtr _, none => ajwNull w
  | .structPtr r, some v => putRec env w r v
  | .recordValue r, v => putRec env w r v
  | .list _, [] => ajwNull w
  | .list e, x :: l =>
    ajwArrEnd ((x :: l).foldl (fun w x => putElem env w e x) (ajwArrBegin w))
  | .foreign, _ => ajwNull w

/-- One element, in `put_list_*`. -/
def putElem (env : SrvEnv) (w : Writer) : (e : ElemTy) → e.Val .server → Writer
  | .string, s => ajwStr w (s.map (·.1))
  | .handle tag, p => ajwI64 w (toI64 (env.idOf tag p).1)
  | .record _, none => ajwNull w
  | .record r, some v => putRec env w r v

/-- `put_*`, of a pointer that is not `NULL` -/
def putRec (env : SrvEnv) (w : Writer) : (r : RecTy) → r.Val .server → Writer
  | .struct fs, v => ajwObjEnd (putFieldsOf env (ajwObjBegin w) fs v)
  | .counted elem _, (items, _) =>
    ajwArrEnd (items.foldl (fun w x => putRec env w elem x) (ajwArrBegin w))

def putFieldsOf (env : SrvEnv) (w : Writer) : (fs : FieldsTy) → fs.Val .server → Writer
  | .nil, _ => w
  | .cons name true k fs, (v, vs) => putFieldsOf env (putField env (ajwKey w name) k v) fs vs
  | .cons _ false _ fs, (_, vs) => putFieldsOf env w fs vs
end

mutual
/-- `cli_get_value` -/
def getField (n : Option Tree) : (k : FieldTy) → k.Val .client
  | .string _ => (ajStr n none).map CStr.dup
  | .scalar ty => scalarOf .client ty (ajI64 n 0)
  | .handle _ => wordOf (ajI64 n 0)
  | .structPtr r => if ajIsNull n then none else some (fillRec n r)
  | .recordValue r => fillRec n r
  | .list e => if ajIsNull n then [] else (children n).map fun x => getElemOf (some x) e
  | .foreign => ⟨0, zero_lt_word⟩

/-- One element, in `build_list_*`. -/
def getElemOf (n : Option Tree) : (e : ElemTy) → e.Val .client
  | .string => (ajStr n none).map CStr.dup
  | .handle _ => wordOf (ajI64 n 0)
  | .record r => if ajIsNull n then none else some (fillRec n r)

/-- `fill_*`, of zeroed memory -/
def fillRec (n : Option Tree) : (r : RecTy) → r.Val .client
  | .struct fs => fillFields n fs
  | .counted elem others =>
    ((children n).map fun x => fillRec (some x) elem, FieldsTy.zero .client others)

def fillFields (n : Option Tree) : (fs : FieldsTy) → fs.Val .client
  | .nil => ()
  | .cons name true k fs => (getField (ajMember n name) k, fillFields n fs)
  | .cons _ false k fs => (FieldTy.zero .client k, fillFields n fs)
end

/-- `get_*` -/
def getPtr (n : Option Tree) (r : RecTy) : Option (r.Val .client) :=
  if ajIsNull n then none else some (fillRec n r)

/-! ## What is to arrive -/

/-- The names of the fields that cross. -/
def FieldsTy.names : FieldsTy → List Bytes
  | .nil => []
  | .cons name true _ fs => name :: fs.names
  | .cons _ false _ fs => fs.names

mutual
/-- Fields have distinct C names, and those that cross are of a kind that can. -/
def FieldTy.Wf : FieldTy → Prop
  | .structPtr r => RecTy.Wf r
  | .recordValue r => RecTy.Wf r
  | .list e => ElemTy.Wf e
  | .foreign => False
  | _ => True

def ElemTy.Wf : ElemTy → Prop
  | .record r => RecTy.Wf r
  | _ => True

def RecTy.Wf : RecTy → Prop
  | .struct fs => FieldsTy.Wf fs ∧ fs.names.Nodup
  | .counted elem _ => RecTy.Wf elem

def FieldsTy.Wf : FieldsTy → Prop
  | .nil => True
  | .cons name true k fs => NulFree name ∧ FieldTy.Wf k ∧ FieldsTy.Wf fs
  | .cons _ false _ fs => FieldsTy.Wf fs
end

mutual
/-- Every integer that crosses is one the client's type has. -/
def FieldTy.ClientHas : (k : FieldTy) → k.Val .server → Prop
  | .scalar ty, v => ty.InRange .client v.1
  | .structPtr _, none => True
  | .structPtr r, some v => RecTy.ClientHas r v
  | .recordValue r, v => RecTy.ClientHas r v
  | .list e, l => List.Forall (fun x => ElemTy.ClientHas e x) l
  | _, _ => True

def ElemTy.ClientHas : (e : ElemTy) → e.Val .server → Prop
  | .record r, some v => RecTy.ClientHas r v
  | _, _ => True

def RecTy.ClientHas : (r : RecTy) → r.Val .server → Prop
  | .struct fs, v => FieldsTy.ClientHas fs v
  | .counted elem _, (items, _) => List.Forall (fun x => RecTy.ClientHas elem x) items

def FieldsTy.ClientHas : (fs : FieldsTy) → fs.Val .server → Prop
  | .nil, _ => True
  | .cons _ true k fs, (v, vs) => FieldTy.ClientHas k v ∧ FieldsTy.ClientHas fs vs
  | .cons _ false _ fs, (_, vs) => FieldsTy.ClientHas fs vs
end

mutual
/-- How many containers the value opens at once. -/
def FieldTy.depth : (k : FieldTy) → k.Val .server → Nat
  | .structPtr _, none => 0
  | .structPtr r, some v => RecTy.depth r v
  | .recordValue r, v => RecTy.depth r v
  | .list _, [] => 0
  | .list e, x :: l => ((x :: l).map fun x => ElemTy.depth e x).foldr max 0 + 1
  | _, _ => 0

def ElemTy.depth : (e : ElemTy) → e.Val .server → Nat
  | .record r, some v => RecTy.depth r v
  | _, _ => 0

def RecTy.depth : (r : RecTy) → r.Val .server → Nat
  | .struct fs, v => FieldsTy.depth fs v + 1
  | .counted elem _, (items, _) => (items.map fun x => RecTy.depth elem x).foldr max 0 + 1

def FieldsTy.depth : (fs : FieldsTy) → fs.Val .server → Nat
  | .nil, _ => 0
  | .cons _ true k fs, (v, vs) => max (FieldTy.depth k v) (FieldsTy.depth fs vs)
  | .cons _ false _ fs, (_, vs) => FieldsTy.depth fs vs
end

mutual
/-- The client's value is the server's: the same strings (paths in the connection's form), numbers,
ids, lists and records; fields that do not cross are zero. -/
def FieldTy.Same (env : SrvEnv) : (k : FieldTy) → k.Val .server → k.Val .client → Prop
  | .string path, s, s' => s' = if path then s.map env.pathOut else s
  | .scalar _, v, v' => v'.1 = v.1
  | .handle tag, p, p' => p' = env.idOf tag p
  | .structPtr _, none, v' => v' = none
  | .structPtr r, some v, v' => ∃ x, v' = some x ∧ RecTy.Same env r v x
  | .recordValue r, v, v' => RecTy.Same env r v v'
  | .list e, l, l' => List.Forall₂ (fun x x' => ElemTy.Same env e x x') l l'
  | .foreign, _, _ => False

def ElemTy.Same (env : SrvEnv) : (e : ElemTy) → e.Val .server → e.Val .client → Prop
  | .string, s, s' => s' = s
  | .handle tag, p, p' => p' = env.idOf tag p
  | .record _, none, v' => v' = none
  | .record r, some v, v' => ∃ x, v' = some x ∧ RecTy.Same env r v x

def RecTy.Same (env : SrvEnv) : (r : RecTy) → r.Val .server → r.Val .client → Prop
  | .struct fs, v, v' => FieldsTy.Same env fs v v'
  | .counted elem others, (items, _), v' =>
    List.Forall₂ (fun x x' => RecTy.Same env elem x x') items v'.1 ∧
      v'.2 = FieldsTy.zero .client others

def FieldsTy.Same (env : SrvEnv) : (fs : FieldsTy) → fs.Val .server → fs.Val .client → Prop
  | .nil, _, _ => True
  | .cons _ true k fs, (v, vs), v' => FieldTy.Same env k v v'.1 ∧ FieldsTy.Same env fs vs v'.2
  | .cons _ false k fs, (_, vs), v' =>
    v'.1 = FieldTy.zero .client k ∧ FieldsTy.Same env fs vs v'.2
end

end Gen
