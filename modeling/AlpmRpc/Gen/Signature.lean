import AlpmRpc.Common.Json
import Mathlib.Data.List.Infix

/-!
# Signatures

`tools/gen/emit.py` on one function of the model: `select`, the parameter writers of `emit_client`,
and the arguments of `srv_args` and `srv_call`. A parameter's C text is kept as far as places go:
which parameter a put, a read or an argument is for. Names are C identifiers, and the names the
emitter makes up (`x_n`, `x_v`) are taken to be nobody else's.
-/

set_option autoImplicit false

namespace Gen

open Json

/-- The kinds of `classify` in `tools/gen/alpm_api.py`. -/
inductive TypeKind where
  | void | scalar | enum | recordValue | string | callback | opaqueVoid | list | handle
  | foreignHandle | structPtr | unsupported
  | ptr (k : TypeKind)
  deriving DecidableEq, Repr

def TypeKind.text : TypeKind → Bytes
  | .void => lit "void"
  | .scalar => lit "scalar"
  | .enum => lit "enum"
  | .recordValue => lit "record_value"
  | .string => lit "string"
  | .callback => lit "callback"
  | .opaqueVoid => lit "opaque_void"
  | .list => lit "list"
  | .handle => lit "handle"
  | .foreignHandle => lit "foreign_handle"
  | .structPtr => lit "struct_ptr"
  | .unsupported => lit "unsupported"
  | .ptr k => lit "ptr_" ++ k.text

structure Param where
  name : Bytes
  cType : Bytes
  kind : TypeKind
  deriving DecidableEq, Repr

/-- A function of the model. -/
structure Signature where
  name : Bytes
  variadic : Bool := false
  retKind : TypeKind
  retType : Bytes
  params : List Param
  names_nodup : (params.map (·.name)).Nodup

/-- The element type the overlay gives a list. -/
inductive ListElem where
  | string | handle | record
  deriving DecidableEq, Repr

/-- The overlay's entries for one function; `skip` and `callbackApi` say what becomes of it before
its parameters are looked at, `allowed` is the allowlist's answer. -/
structure Overlay where
  outParams : List Bytes := []
  listElem : Option ListElem := none
  paramElem : Bytes → Option ListElem := fun _ => none
  /-- the number of entries of `out_list_elem_by_errno` -/
  outListByErrno : Bytes → Nat := fun _ => 0
  structOwn : Option Bytes := none
  recordUnsupported : Bytes → Option Bytes := fun _ => none
  opaqueHandle : Bytes → Option Bytes := fun _ => none
  outBuffer : Bytes → Option Bytes := fun _ => none
  byteBuffer : Bytes → Option Bytes := fun _ => none
  variadicFormat : Option Bytes := none
  pathParam : Bytes → Bool := fun _ => false
  /-- in `client_local` or `client_local_clear` -/
  clientLocal : Bool := false
  /-- matched by `batch_pkg_fields` and not excluded -/
  batchRule : Bool := false
  skip : Option Bytes := none
  callbackApi : Bool := false
  allowed : Bool := true

variable (ov : Overlay) (fn : Signature)

/-! ## Which functions are generated -/

/-- What `select` makes of a function. -/
inductive Selection where
  | gen
  | skipped (why : Bytes)
  /-- left to the callback emitter -/
  | callback
  deriving DecidableEq, Repr

/-- `"const" in c_type` -/
def isConst (cType : Bytes) : Bool := lit "const" <:+: cType

def undeclared (p : Param) : Bytes := lit "pointer param with undeclared direction: " ++ p.name

/-- `why`, for a parameter. -/
def paramWhy (p : Param) : Option Bytes :=
  match p.kind with
  | .ptr .string =>
    if ov.byteBuffer p.name = none then some (lit "not yet generated: ptr_string")
    else if p.name ∉ ov.outParams then some (undeclared p) else none
  | .ptr .enum => if p.name ∉ ov.outParams then some (undeclared p) else none
  | .ptr .scalar => if p.name ∉ ov.outParams then some (undeclared p) else none
  | .ptr .handle => if p.name ∉ ov.outParams then some (undeclared p) else none
  | .ptr .list =>
    if p.name ∉ ov.outParams then some (lit "list out-param not declared: " ++ p.name)
    else if ov.outListByErrno p.name = 0 ∧ ov.paramElem p.name = none then
      some (lit "list out-param with no element type: " ++ p.name)
    else none
  | .structPtr =>
    match ov.recordUnsupported p.cType with
    | some r => some (lit "unsupported record: " ++ r)
    | none =>
      if p.name ∈ ov.outParams then none
      else if isConst p.cType then none
      else some (lit "non-const struct param, direction unclear: " ++ p.name)
  | .list =>
    if ov.paramElem p.name = none then some (lit "list param with no element type: " ++ p.name)
    else none
  | .opaqueVoid =>
    if ov.opaqueHandle p.name = none ∧ ov.outBuffer p.name = none then
      some (lit "unsupported type kind: " ++ p.kind.text)
    else none
  | .callback => some (lit "unsupported type kind: " ++ p.kind.text)
  | .unsupported => some (lit "unsupported type kind: " ++ p.kind.text)
  | .foreignHandle => some (lit "unsupported type kind: " ++ p.kind.text)
  | .void => none
  | .scalar => none
  | .enum => none
  | .string => none
  | .handle => none
  | k => some (lit "not yet generated: " ++ k.text)

/-- `why`, from the variadic arguments and the return. -/
def headWhy : Option Bytes :=
  if fn.retKind = .list ∧ ov.listElem = none then
    some (lit "list return with no element type in the overlay")
  else if fn.variadic ∧ ov.variadicFormat = none then
    some (lit "variadic: the wire has no way to carry ...")
  else none

/-- `why`, for a returned record. -/
def structWhy : Option Bytes :=
  if fn.retKind = .structPtr then
    match ov.recordUnsupported fn.retType with
    | some r => some (lit "unsupported record: " ++ r)
    | none =>
      if ov.structOwn = none then some (lit "struct return with no ownership in the overlay")
      else none
  else none

/-- `why`, for the kind of the return. -/
def retWhy : Option Bytes :=
  if fn.retKind ∈ [.void, .scalar, .enum, .string, .handle, .list, .structPtr] then none
  else if fn.retKind = .opaqueVoid ∧ ov.opaqueHandle (lit "@return") ≠ none then none
  else some (lit "not yet generated: " ++ fn.retKind.text)

/-- The first reason given. -/
def whyOf : Option Bytes :=
  (structWhy ov fn).or ((fn.params.findSome? (paramWhy ov)).or (retWhy ov fn))

/-- One turn of `select`. -/
def select : Selection :=
  if ov.callbackApi then .callback
  else match ov.skip with
    | some why => .skipped why
    | none =>
      match headWhy ov fn with
      | some why => .skipped why
      | none =>
        if ov.clientLocal then .gen
        else match whyOf ov fn with
          | some why => .skipped why
          | none => if ov.allowed then .gen else .skipped (lit "not in spike allowlist")

/-- What ends the generator instead: a length, a size or a format the overlay names that is no
parameter, and out-parameters that `reply_keys_validate` refuses. -/
def validates : Bool :=
  fn.params.all (fun p => (ov.byteBuffer p.name).all (· ∈ fn.params.map (·.name))) &&
  fn.params.all (fun p => (ov.outBuffer p.name).all (· ∈ fn.params.map (·.name))) &&
  ov.variadicFormat.all (fun f => fn.params.any fun p => p.name == f && p.kind == .string) &&
  decide (lit "@ret" ∉ ov.outParams ∧ ov.outParams.Nodup)

/-- The function is generated. -/
def Accepted : Prop := select ov fn = .gen ∧ validates ov fn = true

instance : Decidable (Accepted ov fn) := inferInstanceAs (Decidable (_ ∧ _))

/-! ## The client's stub -/

/-- What a stub writes in a slot of `params`. -/
inductive PutKind where
  | bytes (len : Bytes)
  | str
  /-- the variadic arguments, formatted -/
  | fmtbuf
  | i64
  | handle
  | null
  | record
  | strList
  | handleList
  deriving DecidableEq, Repr

structure Put where
  param : Bytes
  kind : PutKind
  deriving DecidableEq, Repr

/-- The slot of a parameter, for the kinds that have one. -/
def putKind (p : Param) : Option PutKind :=
  match p.kind with
  | .string =>
    match ov.byteBuffer p.name with
    | some len => some (.bytes len)
    | none => if ov.variadicFormat = some p.name then some .fmtbuf else some .str
  | .scalar => some .i64
  | .enum => some .i64
  | .handle => some .handle
  | .structPtr => if p.name ∈ ov.outParams then some .null else some .record
  | .list => if ov.paramElem p.name = some .string then some .strList else some .handleList
  | .opaqueVoid =>
    if ov.opaqueHandle p.name ≠ none then some .handle
    else if ov.outBuffer p.name ≠ none then some .null
    else none
  | _ => none

def isBatchable : Bool :=
  ov.batchRule && !fn.variadic &&
    (match fn.params with
      | [p] => p.kind == .handle && decide (lit "alpm_pkg_t" <:+: p.cType)
      | _ => false) &&
    decide (fn.retKind ∈ [.string, .scalar, .enum, .handle])

/-- The slots of `params`, in order; `none` for a stub that makes no call of its own. -/
def emitStub : Option (List Put) :=
  if ov.clientLocal || isBatchable ov fn then none
  else some (fn.params.filterMap fun p => (putKind ov p).map fun k => ⟨p.name, k⟩)

/-! ## The server's handler -/

/-- How a handler reads a slot of `params`. -/
inductive ReadKind where
  | bytes | path | str | i64
  | handle (tag : Bytes)
  | record
  | list (path : Bool)
  deriving DecidableEq, Repr

structure Read where
  index : Nat
  param : Bytes
  kind : ReadKind
  deriving DecidableEq, Repr

/-- An argument of the call. -/
inductive Arg where
  | name (p : Bytes)
  | cast (p : Bytes)
  /-- `x_n`, the decoded length of the buffer `x` that `p` measures -/
  | len (p buf : Bytes)
  /-- `&p_v` -/
  | addr (p : Bytes)
  /-- the literal `"%s"` in the place of `p` -/
  | literalFmt (p : Bytes)
  deriving DecidableEq, Repr

/-- The parameter an argument is for. -/
def Arg.param : Arg → Bytes
  | .name p => p
  | .cast p => p
  | .len p _ => p
  | .addr p => p
  | .literalFmt p => p

/-- `blen_owner`: the last buffer that names `p` as its length. -/
def blenOwner (p : Bytes) : Option Bytes :=
  (fn.params.filter fun q => ov.byteBuffer q.name = some p).getLast?.map (·.name)

/-- One turn of the loop of `srv_args`: how an input is read, and its argument. -/
def srvInput (p : Param) : Option (Option ReadKind × Arg) :=
  if p.name ∈ ov.outParams then none
  else match p.kind with
    | .string =>
      if ov.byteBuffer p.name ≠ none then some (some .bytes, .cast p.name)
      else if ov.pathParam p.name then some (some .path, .name p.name)
      else some (some .str, .name p.name)
    | .scalar =>
      match blenOwner ov fn p.name with
      | some buf => some (some .i64, .len p.name buf)
      | none => some (some .i64, .cast p.name)
    | .enum =>
      match blenOwner ov fn p.name with
      | some buf => some (some .i64, .len p.name buf)
      | none => some (some .i64, .cast p.name)
    | .handle => some (some (.handle p.cType), .name p.name)
    | .structPtr => some (some .record, .name p.name)
    | .list => some (some (.list (ov.pathParam p.name)), .name p.name)
    | .opaqueVoid =>
      match ov.opaqueHandle p.name with
      | some tag => some (some (.handle tag), .name p.name)
      | none => if ov.outBuffer p.name ≠ none then some (none, .name p.name) else none
    | _ => none

/-- What the handler reads, at the declared places. -/
def srvReads : List Read :=
  fn.params.zipIdx.filterMap fun (p, i) =>
    (srvInput ov fn p).bind fun r => r.1.map fun k => ⟨i, p.name, k⟩

/-- The out-parameters' arguments, in the overlay's order. -/
def srvOuts : List Arg :=
  ov.outParams.flatMap fun op => (fn.params.filter (·.name = op)).map fun p => .addr p.name

/-- `args` of `srv_args` -/
def srvArgs : List Arg :=
  (fn.params.filterMap fun p => (srvInput ov fn p).map (·.2)) ++ srvOuts ov fn

/-- The arguments of the call that `srv_call` emits. -/
def srvCall : List Arg :=
  match ov.variadicFormat with
  | none => srvArgs ov fn
  | some f => (srvArgs ov fn).flatMap fun a => if a = .name f then [.literalFmt f, a] else [a]

/-- What a handler reads and the arguments of its call. -/
structure Handler where
  reads : List Read
  call : List Arg
  deriving DecidableEq, Repr

def emitHandler : Option Handler :=
  if ov.clientLocal then none else some ⟨srvReads ov fn, srvCall ov fn⟩

/-! ## Places -/

/-- Stub and handler agree: the handler reads a parameter at the place the stub wrote it, reads
every input the stub wrote, and passes every parameter at its declared place. -/
structure Agree : Prop where
  reads : ∀ puts h, emitStub ov fn = some puts → emitHandler ov fn = some h →
    ∀ r ∈ h.reads, (puts[r.index]?).map (·.param) = some r.param
  writes : ∀ puts h, emitStub ov fn = some puts → emitHandler ov fn = some h →
    ∀ (i : Nat) (w : Put), puts[i]? = some w → w.param ∉ ov.outParams → w.kind ≠ .null →
      ∃ r ∈ h.reads, r.index = i ∧ r.param = w.param
  call : ∀ h, emitHandler ov fn = some h →
    ∀ (i : Nat) (p : Param), fn.params[i]? = some p → (h.call[i]?).map (·.param) = some p.name

/-- The text that takes the place of a variadic function's format. -/
def formatArg : Option Bytes :=
  ov.variadicFormat.filter fun f => f ∉ ov.outParams ∧ ov.byteBuffer f = none

/-- The out-parameters are the last parameters, in the overlay's order, no parameter is of kind
`void`, and a format that the server replaces by `"%s"` has nothing behind it. -/
structure OutsLast : Prop where
  last : fn.params.map (·.name) = (fn.params.map (·.name)).filter (· ∉ ov.outParams) ++
    ov.outParams.filter (· ∈ fn.params.map (·.name))
  noVoid : ∀ p ∈ fn.params, p.name ∉ ov.outParams → p.kind ≠ .void
  format : ∀ f, formatArg ov = some f → (fn.params.map (·.name)).getLast? = some f

end Gen
