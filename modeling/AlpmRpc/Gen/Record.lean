import AlpmRpc.Common.Frame
import AlpmRpc.Gen.Types
import AlpmRpc.Server.Table

/-!
# Records on the wire

The record writers and readers that `tools/gen/emit.py` generates, for a record that goes both
ways: `put_*` of `srv_put_value` and `get_*`/`fill_*` of `cli_get_value` from server to client,
`put_*` of `emit_client_writers` and `read_*` of `emit_server_readers` back. The emitter walks the
fields of the record; here `Fields` is that description, `Val` the struct it describes on a side,
and the writers and readers are the generated functions as functions of the description. Fields of
other kinds (lists, structs by value) fail the build of a record that goes back.
-/

set_option autoImplicit false

namespace Gen

open Json Server

/-- A C string. -/
abbrev CStr := { s : Bytes // NulFree s }

/-- A pointer, or an id in a pointer's place. -/
abbrev Word := { n : Nat // n < 2 ^ 64 }

theorem zero_lt_word : 0 < 2 ^ 64 := by decide

/-- A copy of the C string at `s`. -/
def CStr.dup (s : Bytes) : CStr := ⟨cstr s, cstr_nulFree s⟩

theorem CStr.dup_eq (s : CStr) : CStr.dup s.1 = s := Subtype.ext (cstr_eq s.2)

/-- A string or `NULL` on the wire. -/
def strTree : Option CStr → Tree
  | none => .null
  | some s => .str s.1

theorem strTree_fits (s : Option CStr) : Fits 0 (strTree s) := by
  cases s with
  | none => exact .null
  | some s => exact .str s.2

mutual
/-- The kind of a field. -/
inductive Kind where
  | string
  | scalar (ty : CInt)
  | handle (tag : HandleTag)
  | structPtr (fs : Fields)

/-- The fields of a record, in order. -/
inductive Fields where
  | nil
  | cons (name : Bytes) (k : Kind) (fs : Fields)
end

mutual
/-- The values a field holds on a side. -/
def Kind.Val (side : Side) : Kind → Type
  | .string => Option CStr
  | .scalar ty => { v : Int // ty.InRange side v }
  | .handle _ => Word
  | .structPtr fs => Option (Fields.Val side fs)

def Fields.Val (side : Side) : Fields → Type
  | .nil => Unit
  | .cons _ k fs => Kind.Val side k × Fields.Val side fs
end

def Fields.names : Fields → List Bytes
  | .nil => []
  | .cons name _ fs => name :: fs.names

mutual
/-- Members of a struct have distinct C names, and the description is at most `d` structs deep. -/
def Kind.Wf (d : Nat) : Kind → Prop
  | .structPtr fs => 0 < d ∧ Fields.Wf (d - 1) fs ∧ fs.names.Nodup
  | _ => True

def Fields.Wf (d : Nat) : Fields → Prop
  | .nil => True
  | .cons name k fs => NulFree name ∧ Kind.Wf d k ∧ Fields.Wf d fs
end

/-- The server's handle table as a record's handle fields meet it. -/
structure Handles where
  idOf : HandleTag → Word → Word
  objOf : HandleTag → Word → Word
  objOf_zero : ∀ tag, objOf tag ⟨0, zero_lt_word⟩ = ⟨0, zero_lt_word⟩

/-- The id written for a handle field: the client holds ids in the pointer's place. -/
def Handles.toId (h : Handles) : Side → HandleTag → Word → Word
  | .server, tag, p => h.idOf tag p
  | .client, _, p => p

/-- What a handle field is set to for the id read. -/
def Handles.ofId (h : Handles) : Side → HandleTag → Word → Word
  | .server, tag, id => h.objOf tag id
  | .client, _, id => id

def wordOf (v : Int) : Word := ⟨toU64 v, by unfold toU64; omega⟩

theorem wordOf_val (v : Int) : (wordOf v).1 = toU64 v := rfl

/-- What an integer field is set to for the number read. -/
def scalarOf (side : Side) (ty : CInt) (v : Int) : { v : Int // ty.InRange side v } :=
  ⟨cast side ty v, cast_range side ty v⟩

/-- `alpm_depend_t` -/
def alpmDepend : Fields :=
  .cons (lit "name") .string <| .cons (lit "version") .string <| .cons (lit "desc") .string <|
    .cons (lit "name_hash") (.scalar .ulong) <| .cons (lit "mod") (.scalar .uint) .nil

/-! ## Writing -/

mutual
/-- One field's value, written by the side that holds it. -/
def putValue (h : Handles) (side : Side) (w : Writer) : (k : Kind) → k.Val side → Writer
  | .string, s => ajwStr w (s.map (·.1))
  | .scalar _, v => ajwI64 w (toI64 v.1)
  | .handle tag, p => ajwI64 w (toI64 (h.toId side tag p).1)
  | .structPtr _, none => ajwNull w
  | .structPtr fs, some v => ajwObjEnd (putFields h side (ajwObjBegin w) fs v)

def putFields (h : Handles) (side : Side) (w : Writer) : (fs : Fields) → fs.Val side → Writer
  | .nil, _ => w
  | .cons name k fs, (v, vs) => putFields h side (putValue h side (ajwKey w name) k v) fs vs
end

/-- `srv_put_value` -/
def srvPutValue (h : Handles) : Writer → (k : Kind) → k.Val .server → Writer := putValue h .server

/-- `put_*` of `emit_client_writers` -/
def cliPutValue (h : Handles) : Writer → (k : Kind) → k.Val .client → Writer := putValue h .client

/-! ## Reading -/

mutual
/-- One field's value, read by a side into the field. -/
def getValue (h : Handles) (side : Side) (n : Option Tree) : (k : Kind) → k.Val side
  | .string => (ajStr n none).map CStr.dup
  | .scalar ty => scalarOf side ty (ajI64 n 0)
  | .handle tag => h.ofId side tag (wordOf (ajI64 n 0))
  | .structPtr fs => if ajIsNull n then none else some (getFields h side n fs)

def getFields (h : Handles) (side : Side) (n : Option Tree) : (fs : Fields) → fs.Val side
  | .nil => ()
  | .cons name k fs => (getValue h side (ajMember n name) k, getFields h side n fs)
end

/-- `cli_get_value` -/
def cliGetValue (h : Handles) : Option Tree → (k : Kind) → k.Val .client := getValue h .client

/-- `read_*` of `emit_server_readers` -/
def srvReadValue (h : Handles) : Option Tree → (k : Kind) → k.Val .server := getValue h .server

/-! ## What a field is on the wire -/

mutual
def valueTree (h : Handles) (side : Side) : (k : Kind) → k.Val side → Tree
  | .string, none => .null
  | .string, some s => .str s.1
  | .scalar _, v => .num (toI64 v.1)
  | .handle tag, p => .num (toI64 (h.toId side tag p).1)
  | .structPtr _, none => .null
  | .structPtr fs, some v => .obj (fieldTrees h side fs v)

def fieldTrees (h : Handles) (side : Side) : (fs : Fields) → fs.Val side → List (Bytes × Tree)
  | .nil, _ => []
  | .cons name k fs, (v, vs) => (name, valueTree h side k v) :: fieldTrees h side fs vs
end

mutual
/-- The writers emit the tree of the value. -/
theorem putValue_eq (h : Handles) (side : Side) (w : Writer) :
    (k : Kind) → (v : k.Val side) → putValue h side w k v = ajwTree w (valueTree h side k v)
  | .string, none => rfl
  | .string, some _ => rfl
  | .scalar _, _ => rfl
  | .handle _, _ => rfl
  | .structPtr _, none => rfl
  | .structPtr fs, some v => by
    rw [putValue, valueTree, ajwTree, putFields_eq h side _ fs v]

theorem putFields_eq (h : Handles) (side : Side) (w : Writer) :
    (fs : Fields) → (v : fs.Val side) →
      putFields h side w fs v = ajwMembers w (fieldTrees h side fs v)
  | .nil, _ => rfl
  | .cons name k fs, (v, vs) => by
    rw [putFields, fieldTrees, ajwMembers, putValue_eq h side _ k v, putFields_eq h side _ fs vs]
end

theorem fieldTrees_names (h : Handles) (side : Side) :
    (fs : Fields) → (v : fs.Val side) → (fieldTrees h side fs v).map (·.1) = fs.names
  | .nil, _ => rfl
  | .cons name k fs, (v, vs) => by
    rw [fieldTrees, List.map_cons, Fields.names, fieldTrees_names h side fs vs]

mutual
theorem valueTree_fits (h : Handles) (side : Side) {d : Nat} :
    (k : Kind) → (v : k.Val side) → k.Wf d → Fits d (valueTree h side k v)
  | .string, none, _ => .null
  | .string, some s, _ => .str s.2
  | .scalar _, _, _ => .num (toI64_range _)
  | .handle _, _, _ => .num (toI64_range _)
  | .structPtr _, none, _ => .null
  | .structPtr fs, some v, hw => by
    obtain ⟨hd, hf, -⟩ := hw
    obtain ⟨d, rfl⟩ : ∃ e, d = e + 1 := ⟨d - 1, by omega⟩
    obtain ⟨hk, ht⟩ := fieldTrees_fits h side fs v hf
    exact .obj hk ht

theorem fieldTrees_fits (h : Handles) (side : Side) {d : Nat} :
    (fs : Fields) → (v : fs.Val side) → fs.Wf d →
      (∀ m ∈ fieldTrees h side fs v, NulFree m.1) ∧ ∀ m ∈ fieldTrees h side fs v, Fits d m.2
  | .nil, _, _ => ⟨by simp [fieldTrees], by simp [fieldTrees]⟩
  | .cons name k fs, (v, vs), hw => by
    obtain ⟨hn, hk, hf⟩ := hw
    obtain ⟨h1, h2⟩ := fieldTrees_fits h side fs vs hf
    refine ⟨fun m hm => ?_, fun m hm => ?_⟩
    · rcases List.mem_cons.1 hm with rfl | hm
      · exact hn
      · exact h1 m hm
    · rcases List.mem_cons.1 hm with rfl | hm
      · exact valueTree_fits h side k v hk
      · exact h2 m hm
end

end Gen
