import AlpmRpc.Common.Frame
import AlpmRpc.Gen.Signature

/-!
# The keys of generated objects

What `tools/gen/emit.py` lets the generated code write into one JSON object: the result of a call
(`srv_call`, `srv_outs`), the `args` of a callback (`emit_cb_server`, `emit_cb_union_put`,
`emit_cb_void_put`) and a record (`put_*` of both sides). A member is its key and where its value comes
from; how a value is written is left to `Schema`. An emitter that ends in `SystemExit`, or in a Python
error, is `none`.
-/

set_option autoImplicit false

namespace Gen

open Json

/-! ## The model and the overlay -/

/-- An object of the overlay. -/
structure Dict (β : Type) where
  entries : List (Bytes × β)
  keys_nodup : (entries.map (·.1)).Nodup

def Dict.empty {β : Type} : Dict β := ⟨[], List.nodup_nil⟩

/-- A field of a record, a member of a union or a parameter of a callback. -/
structure Decl where
  name : Bytes
  cType : Bytes
  kind : TypeKind
  /-- `extra.enum` -/
  enum : Option Bytes := none
  deriving DecidableEq, Repr

/-- A struct or a union of the header; its members' names differ, as C asks. -/
structure Record where
  name : Bytes
  fields : List Decl
  names_nodup : (fields.map (·.name)).Nodup

/-- A function pointer type of the header. -/
structure Callback where
  name : Bytes
  params : List Decl
  names_nodup : (params.map (·.name)).Nodup

/-- What the overlay says of a callback. -/
structure CbSpec where
  /-- a text, and the `va_list` that goes into it -/
  format : Dict Bytes := .empty
  unionParam : Option Bytes := none
  answer : Option Bytes := none
  /-- the member that a tag value selects -/
  members : Option (Dict Bytes) := none
  tagParam : Option Bytes := none
  payloadParam : Option Bytes := none
  /-- the record that a tag value says a `void *` is -/
  types : Dict Bytes := .empty
  typeOnly : List Bytes := []

structure ApiModel where
  functions : List (Overlay × Signature) := []
  records : List Record := []
  /-- an enum's name and its values' -/
  enums : List (Bytes × List Bytes) := []
  /-- with the overlay's entry -/
  callbacks : List (Callback × Option CbSpec) := []
  /-- `records_unsupported` -/
  unsupported : List Bytes := []
  /-- `record_fields_uncarried` -/
  uncarried : List (Bytes × Bytes) := []
  /-- `records_counted_array` -/
  counted : List Bytes := []

/-- Where a member's value comes from. -/
inductive Source where
  /-- the call's return -/
  | ret
  /-- the caller's buffer, filled -/
  | buffer (p : Bytes)
  /-- the errno beside an out-list -/
  | errno (op : Bytes)
  | out (op : Bytes)
  | param (p : Bytes)
  /-- the tag of a union -/
  | tag
  | field (of name : Bytes)
  deriving DecidableEq, Repr

/-- The members of an object, in order. -/
abbrev Object := List (Bytes × Source)

def Object.keys (o : Object) : List Bytes := o.map (·.1)

/-! ## Results -/

section

variable (ov : Overlay) (fn : Signature)

def errnoKey (op : Bytes) : Bytes := op ++ lit ".errno"

/-- The out-parameters whose element type depends on the errno. -/
def errLists : List Bytes := ov.outParams.filter (ov.outListByErrno · ≠ 0)

/-- `h["out_buf"]`, which `srv_args` sets for the last such parameter. -/
def outBuf : Option Bytes :=
  (fn.params.filter fun p => p.name ∉ ov.outParams ∧ p.kind = .opaqueVoid ∧
    ov.opaqueHandle p.name = none ∧ ov.outBuffer p.name ≠ none).getLast?.map (·.name)

def kindOf (op : Bytes) : Option TypeKind := (fn.params.find? (·.name = op)).map (·.kind)

/-- `h["out_lists"]` -/
def outLists : List Bytes :=
  ov.outParams.filter fun op => kindOf fn op = some (.ptr .list) ∧ ov.outListByErrno op = 0

/-- The lengths of the buffers of `h["out_bytes"]`. -/
def outLengths : List Bytes :=
  (ov.outParams.filter fun op => kindOf fn op = some (.ptr .string)).filterMap ov.byteBuffer

/-- The out-parameters of the first loop of `srv_outs`. -/
def plainOuts : List Bytes :=
  ov.outParams.filter fun op => op ∉ outLists ov fn ∧ ov.outListByErrno op = 0 ∧
    (kindOf fn op = some .structPtr ∨ op ∉ outLengths ov fn)

/-- What `srv_call` writes for the return, and for the buffer of an int return. -/
def retMembers : Object :=
  (retKey, .ret) ::
    (if fn.retKind ∈ [.scalar, .enum] then
      ((outBuf ov fn).map fun b => (b, .buffer b)).toList else [])

/-- The result of a call (`srv_call`, `srv_outs`). -/
def resultObject : Object :=
  retMembers ov fn ++
    ((errLists ov).flatMap fun op => [(errnoKey op, .errno op), (op, .out op)]) ++
    (plainOuts ov fn ++ outLists ov fn).map fun op => (op, .out op)

/-- A function's handler, as far as its result goes. -/
def emitResult : Option Object :=
  if validates ov fn = false then none
  -- errno-typed lists need an int return to judge the call by
  else if errLists ov ≠ [] ∧ fn.retKind ∉ [.scalar, .enum] then none
  else some (resultObject ov fn)

end

/-! ## Records -/

/-- `s.replace(pat, "")`; `skip` bytes of an occurrence are left. -/
def removeAll (pat : Bytes) : Nat → Bytes → Bytes
  | _, [] => []
  | skip + 1, _ :: s => removeAll pat skip s
  | 0, c :: s =>
    if pat.isPrefixOf (c :: s) then removeAll pat (pat.length - 1) s else c :: removeAll pat 0 s

/-- `s.strip()` -/
def strip (s : Bytes) : Bytes :=
  let blank : UInt8 → Bool := fun c => c = 32 ∨ 9 ≤ c ∧ c ≤ 13
  ((s.dropWhile blank).reverse.dropWhile blank).reverse

/-- `put_*` of the client -/
def inputObject (r : Record) : Object := r.fields.map fun f => (f.name, .field r.name f.name)

namespace ApiModel

variable (m : ApiModel)

/-- `RECORDS.get(name)` -/
def recordNamed (name : Bytes) : Option Record := m.records.reverse.find? (·.name = name)

def findRecord (cType : Bytes) : Option Record :=
  let base := strip (removeAll (lit "struct ") 0 (removeAll (lit "union ") 0
    (removeAll (lit "*") 0 (removeAll (lit "const") 0 cType))))
  let try_ := fun cand => (m.recordNamed cand).map fun r => (r, m.unsupported.contains cand)
  match (try_ base).or (try_ (lit "_" ++ base)) with
  | some (r, false) => some r
  | _ => none

/-- `put_*` of the server -/
def recordObject (r : Record) : Object :=
  (r.fields.filter fun f => (r.name, f.name) ∉ m.uncarried).map fun f => (f.name, .field r.name f.name)

/-! ## Callbacks -/

def callbackSetter (cbname : Bytes) : Option Signature :=
  (m.functions.find? fun (_, fn) => (lit "alpm_option_set_").isPrefixOf fn.name &&
    fn.params.any fun p => p.kind = .callback ∧ p.cType = cbname).map (·.2)

def callbacksOf : Option (List (Callback × CbSpec)) :=
  let cbs := m.callbacks.filterMap fun (cb, spec) =>
    match spec with
    | some spec => some (cb, spec)
    | none => if (m.callbackSetter cb.name).isSome then some (cb, {}) else none
  if cbs.length ≤ 32 then some cbs else none

variable (cb : Callback) (spec : CbSpec) (urec : Option Record)

/-- `cb_union_record`: the parameter and its record, when the overlay names one. -/
def cbUnionRecord : Option (Option Decl × Option Record) :=
  match spec.unionParam with
  | none => some (none, none)
  | some pname => (cb.params.find? (·.name = pname)).map fun p => (some p, m.findRecord p.cType)

/-- `cb_check_tags` -/
def cbCheckTags : Option Unit := do
  let tag ← match urec with
    | some r => r.fields.head?
    | none => spec.tagParam.bind fun t => cb.params.find? (·.name = t)
  let values ← tag.enum.bind fun e => List.lookup e m.enums
  let mapped := (spec.members.getD spec.types).entries
  guard (∀ v ∈ values, v ∈ mapped.map (·.1) ∨ v ∈ spec.typeOnly)
  guard (mapped.all fun (_, x) =>
    match urec with
    | some r => r.fields.any (·.name = x)
    | none => (m.findRecord x).isSome)

/-- The record of a union's member. -/
def cbVariant (urec : Record) (member : Bytes) : Option Record :=
  (urec.fields.find? (·.name = member)).bind fun f => m.findRecord f.cType

/-- `cb_skipped_fields` -/
def cbSkippedFields (variant urec : Record) : Option (List Bytes) := do
  let first ← variant.fields.head?
  match spec.answer with
  | none => return [first.name]
  | some ans => do
    let anyField ← urec.fields[1]?
    let anyrec ← m.findRecord anyField.cType
    let idx ← anyrec.fields.findIdx? (·.name = ans)
    let slot ← variant.fields[idx]?
    if slot.kind = .scalar then return [first.name, slot.name] else none

/-- The fields of a union's member that are payload. -/
def payloadFields (urec : Record) (member : Bytes) : Option (List Bytes) := do
  let variant ← m.cbVariant urec member
  let skip ← m.cbSkippedFields spec variant urec
  return (variant.fields.map (·.name)).filter (· ∉ skip)

end ApiModel

/-- What a trampoline writes for a parameter. -/
inductive Piece where
  | plain (name : Bytes)
  /-- a union: its tag, then a switch on the tag -/
  | union (tag : Bytes) (cases : List (Bytes × Object))
  /-- a `void *`: a switch on the parameter that says what it is -/
  | void (cases : List (Bytes × Object))

namespace ApiModel

variable (m : ApiModel) (cb : Callback) (spec : CbSpec)

def emitCbUnionPut (urec : Record) : Option Piece := do
  let tag ← urec.fields.head?
  let cases ← (spec.members.getD .empty).entries.mapM fun (val, member) =>
    (m.payloadFields spec urec member).map fun fs => (val, fs.map fun f => (f, Source.field member f))
  return .union tag.name cases

def emitCbVoidPut : Option Piece := do
  let _ ← spec.tagParam
  let cases ← spec.types.entries.mapM fun (val, tname) =>
    (m.findRecord tname).map fun r => (val, r.fields.map fun f => (f.name, Source.field tname f.name))
  return .void cases

/-- One turn of the loop over the parameters. -/
def emitCbParam (up : Option Decl) (urec : Option Record) (p : Decl) : Option Piece :=
  if up.any (·.name = p.name) then urec.bind (m.emitCbUnionPut spec)
  else if spec.payloadParam = some p.name then m.emitCbVoidPut spec
  else some (.plain p.name)

/-- The parameters of the loop: the context and a `va_list` do not travel. -/
def cbParams : List Decl :=
  cb.params.tail.filter fun p => p.name ∉ spec.format.entries.map (·.2)

/-- A trampoline, as far as its `args` go. -/
def emitCb : Option (List Piece) := do
  let (up, urec) ← m.cbUnionRecord cb spec
  if urec.isSome ∨ spec.tagParam.isSome then m.cbCheckTags cb spec urec
  let _ ← m.callbackSetter cb.name
  (cbParams cb spec).mapM (m.emitCbParam spec up urec)

end ApiModel

/-- What a trampoline is called with, as far as its switches go: the union's tag, the parameter that
says what the `void *` is, and whether that is `NULL`. -/
structure CbInput where
  unionTag : Bytes
  tag : Bytes
  null : Bool

/-- The members a piece of a trampoline writes. -/
def Piece.write (i : CbInput) : Piece → Object
  | .plain name => [(name, .param name)]
  | .union tag cases => (tag, .tag) :: (cases.lookup i.unionTag).getD []
  | .void cases => if i.null then [] else (cases.lookup i.tag).getD []

/-- `args` -/
def argsObject (ps : List Piece) (i : CbInput) : Object := ps.flatMap (·.write i)

/-! ## The whole -/

/-- The generated code, as far as the objects go that it writes. -/
structure Generated where
  results : List Object
  trampolines : List (List Piece)
  records : List Object

def ApiModel.handlers (m : ApiModel) : List (Overlay × Signature) :=
  m.functions.filter fun (ov, fn) => select ov fn = .gen ∧ ov.clientLocal = false

def ApiModel.emit (m : ApiModel) : Option Generated := do
  let cbs ← m.callbacksOf
  let results ← m.handlers.mapM fun (ov, fn) => emitResult ov fn
  let trampolines ← cbs.mapM fun (cb, spec) => m.emitCb cb spec
  let structs := m.records.filter (·.name ∉ m.counted)
  return ⟨results, trampolines, structs.map m.recordObject ++ m.records.map inputObject⟩

/-- The objects that the generated code writes. -/
inductive Generated.Writes (g : Generated) : Object → Prop
  | result {o : Object} (h : o ∈ g.results) : g.Writes o
  | args {ps : List Piece} (h : ps ∈ g.trampolines) (i : CbInput) : g.Writes (argsObject ps i)
  | record {o : Object} (h : o ∈ g.records) : g.Writes o

def Generated.KeysDistinct (g : Generated) : Prop := ∀ o, g.Writes o → o.keys.Nodup

/-! ## When they are -/

/-- No errno travels under another out-parameter's name, and no buffer under the return's or an errno's
key: a C name has no `@` and no dot. -/
structure ResultApart (ov : Overlay) (fn : Signature) : Prop where
  errno : ∀ op ∈ errLists ov, errnoKey op ∉ errLists ov ++ (plainOuts ov fn ++ outLists ov fn)
  buffer : fn.retKind ∈ [.scalar, .enum] → ∀ b ∈ outBuf ov fn,
    b ≠ retKey ∧ ∀ op ∈ errLists ov, b ≠ errnoKey op

instance (ov : Overlay) (fn : Signature) : Decidable (ResultApart ov fn) :=
  decidable_of_iff (_ ∧ _) ⟨fun h => ⟨h.1, h.2⟩, fun h => ⟨h.1, h.2⟩⟩

namespace ApiModel

variable (m : ApiModel) (cb : Callback) (spec : CbSpec)

/-- The payload fields of the members that tag values select. -/
def unionFields (urec : Record) : List Bytes :=
  (spec.members.getD .empty).entries.flatMap fun e => (m.payloadFields spec urec e.2).getD []

/-- The fields of the records that tag values say a `void *` is. -/
def voidFields : List Bytes :=
  spec.types.entries.flatMap fun e => ((m.findRecord e.2).map (·.fields.map (·.name))).getD []

/-- The union's record. -/
def unionRecord : Option Record := (m.cbUnionRecord cb spec).bind (·.2)

/-- The names that may be written for a parameter: its own, or those its payload is flattened to. -/
def paramNames (p : Decl) : List Bytes :=
  if spec.unionParam = some p.name then
    (m.unionRecord cb spec).elim [] fun r => (r.fields.head?.map (·.name)).toList ++ m.unionFields spec r
  else if spec.payloadParam = some p.name then m.voidFields spec
  else [p.name]

/-- No two parameters of a callback are written under one name, and no payload field of its union under
the tag's. -/
structure CbApart : Prop where
  params : (cbParams cb spec).Pairwise fun p q =>
    ∀ k ∈ m.paramNames cb spec p, k ∉ m.paramNames cb spec q
  tag : (∃ p ∈ cbParams cb spec, spec.unionParam = some p.name) →
    ∀ r ∈ m.unionRecord cb spec, ∀ t ∈ r.fields.head?, t.name ∉ m.unionFields spec r

instance : Decidable (m.CbApart cb spec) :=
  decidable_of_iff (_ ∧ _) ⟨fun h => ⟨h.1, h.2⟩, fun h => ⟨h.1, h.2⟩⟩

structure Apart : Prop where
  results : ∀ h ∈ m.handlers, ResultApart h.1 h.2
  callbacks : ∀ cbs ∈ m.callbacksOf, ∀ c ∈ cbs, m.CbApart c.1 c.2

instance : Decidable m.Apart :=
  decidable_of_iff (_ ∧ _) ⟨fun h => ⟨h.1, h.2⟩, fun h => ⟨h.1, h.2⟩⟩

end ApiModel

end Gen
