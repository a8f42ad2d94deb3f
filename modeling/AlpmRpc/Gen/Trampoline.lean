import AlpmRpc.Common.Framing
import AlpmRpc.Gen.Schema

/-!
# Callbacks with their payload

The two halves that `tools/gen/emit.py` generates for a callback: the trampoline that libalpm calls on
the server (`emit_cb_server`, `emit_cb_union_put`, `emit_cb_void_put`) and the dispatcher that calls the
caller's function on the client (`emit_cb_dispatch`, `emit_cb_union_fill`, `emit_cb_void_fill`), with the
frames between them (`arpc_cb_send`, `arpc_dispatch_callback`). `CbTy` describes a callback as the
emitter sees it. The id a payload's handle has is the environment's, as in `Schema`; a question's ids are
dropped after the answer, which is left out here, and so are calls that the function makes.
-/

set_option autoImplicit false

namespace Gen

open Json Server

/-! ## What a callback is called with -/

/-- The fields that a tag value selects; none when the tag is all there is. -/
def caseOf (cases : List (Int × FieldsTy)) (t : Int) : FieldsTy := (cases.lookup t).getD .nil

/-- The parameter that does not go as it is. -/
inductive PayloadTy where
  | absent
  /-- a format, whose `va_list` is consumed -/
  | text (name : Bytes)
  /-- a union: its tag, and the fields of the member that a tag value selects -/
  | union (tag : Bytes) (ty : CInt) (cases : List (Int × FieldsTy))
  /-- a `void *`: the parameter that says what it is, and the record for each of its values -/
  | void (tagParam : Bytes) (cases : List (Int × FieldsTy))

/-- How a callback is answered. -/
inductive Answer where
  | nothing
  /-- by its return -/
  | returned
  /-- by what the function leaves in the union's `any` -/
  | stored
  deriving DecidableEq

/-- A callback: its wire name, and its parameters after the context. -/
structure CbTy where
  name : Bytes
  before : FieldsTy
  payload : PayloadTy
  after : FieldsTy
  answer : Answer

/-- A number among the parameters. -/
def FieldsTy.scalarAt (side : Side) (name : Bytes) : (fs : FieldsTy) → fs.Val side → Option Int
  | .nil, _ => none
  | .cons n _ k fs, (v, vs) =>
    match k, v with
    | .scalar _, v => if n = name then some v.1 else fs.scalarAt side name vs
    | _, _ => fs.scalarAt side name vs

def PayloadTy.Val (side : Side) (t : Int) : PayloadTy → Type
  | .absent => Unit
  | .text _ => CStr
  | .union _ ty cases => Σ u : { v : Int // ty.InRange side v }, (caseOf cases u.1).Val side
  | .void _ cases => Option ((caseOf cases t).Val side)

/-- The parameter that says what a `void *` is. -/
def PayloadTy.tagParam : PayloadTy → Option Bytes
  | .void tagParam _ => some tagParam
  | _ => none

namespace CbTy

variable (c : CbTy)

/-- What the parameter that names the `void *`'s record says. -/
def tagOf (side : Side) (p : c.before.Val side × c.after.Val side) : Int :=
  (c.payload.tagParam.bind fun name =>
    (c.before.scalarAt side name p.1).or (c.after.scalarAt side name p.2)).getD 0

/-- The parameters on a side. -/
def Val (side : Side) : Type :=
  Σ p : c.before.Val side × c.after.Val side, c.payload.Val side (c.tagOf side p)

/-- A function of the caller's, as far as its answer goes. -/
def Fn : Type := c.Val .client → { v : Int // CInt.int.InRange .client v }

/-- What the trampoline answers when nobody else does. -/
def dflt : Int := if c.answer = .returned then -1 else 0

end CbTy

/-! ## The server's half -/

/-- `vsnprintf` into `arpc_msg`. -/
def message (s : CStr) : CStr := ⟨s.1.take 4095, fun c hc => s.2 c (List.mem_of_mem_take hc)⟩

/-- The frame of `arpc_cb_send`. -/
def cbFrame (name : Bytes) (seq : Int) (owner : Word) (args : Writer) : Writer :=
  let w := ajwI64 (ajwKey (ajwStr (ajwKey (ajwObjBegin {}) (lit "cb")) (some name)) (lit "seq")) seq
  let w := ajwI64 (ajwKey w (lit "handle")) (toI64 owner.1)
  ajwObjEnd (ajwRaw (ajwKey w (lit "args")) args.buf)

/-- The end of `arpc_cb_send`: the answer that the reply has for this question. -/
def cbAnswer (seq dflt : Int) (reply : Bytes) : Int :=
  match ajParse reply with
  | some d =>
    if ajI64 (ajMember (some d) (lit "cbseq")) (-1) = seq then ajI64 (ajMember (some d) retKey) dflt
    else dflt
  | none => dflt

/-- `arpc_cb_send`, with what `arpc_conn_exchange` brings for a frame. -/
def cbSend (name : Bytes) (seq : Int) (owner : Word) (args : Writer) (dflt : Int)
    (exchange : Bytes → Option Bytes) : Int :=
  ((exchange (cbFrame name seq owner args).buf).map (cbAnswer seq dflt)).getD dflt

/-- `emit_cb_union_fill`, `emit_cb_void_fill`, and `arpc_cb_log_via` for a text -/
def fillPayload (n : Option Tree) (t : Int) : (p : PayloadTy) → p.Val .client t
  | .absent => ()
  | .text name => CStr.dup ((ajStr (ajMember n name) none).getD [])
  | .union tag ty cases =>
    let u := scalarOf .client ty (ajI64 (ajMember n tag) 0)
    ⟨u, fillFields n (caseOf cases u.1)⟩
  | .void _ cases => if (cases.lookup t).isSome then some (fillFields n (caseOf cases t)) else none

/-- What a dispatcher calls the function with. -/
def fillArgs (n : Option Tree) (c : CbTy) : c.Val .client :=
  let p := (fillFields n c.before, fillFields n c.after)
  ⟨p, fillPayload n (c.tagOf .client p) c.payload⟩

/-- `call_*` -/
def callFn (c : CbTy) (f : c.Fn) (args : Option Tree) : Int :=
  let r := f (fillArgs args c)
  if c.answer = .nothing then 0 else r.1

/-- The functions that the caller has registered (`arpc_cb_fn`). -/
abbrev Registered (kinds : List CbTy) : Type :=
  Word → (i : Fin kinds.length) → Option (kinds.get i).Fn

/-- `arpc_dispatch_callback` -/
def dispatchCallback (kinds : List CbTy) (fns : Registered kinds) (d : Option Tree) : Writer :=
  let which := (ajStr (ajMember d (lit "cb")) (some [])).getD []
  let seq := ajI64 (ajMember d (lit "seq")) 0
  let handle := wordOf (ajI64 (ajMember d (lit "handle")) 0)
  let args := ajMember d (lit "args")
  let ret := ((kinds.findFinIdx? fun c => c.name = which).bind fun i =>
    (fns handle i).map fun f => callFn (kinds.get i) f args).getD 0
  let w := ajwI64 (ajwKey (ajwObjBegin {}) (lit "cbseq")) seq
  ajwObjEnd (ajwI64 (ajwKey w retKey) (toI64 ret))

/-- A turn of `transact`'s loop: the answer to a frame that is a callback. -/
def answerFrame (kinds : List CbTy) (fns : Registered kinds) (f : Bytes) : Option Bytes :=
  ((Wire.delivered f).bind ajParse).bind fun d =>
    if (ajMember (some d) (lit "cb")).isSome then some (dispatchCallback kinds fns (some d)).buf
    else none

/-- The plain parameters are strings, numbers and handles. -/
def FieldsTy.Plain : FieldsTy → Prop
  | .nil => True
  | .cons _ carried k fs => carried = true ∧ (match k with
      | .string _ | .scalar _ | .handle _ => True
      | _ => False) ∧ fs.Plain

/-- Every field crosses: what the overlay says of a record is not asked here. -/
def FieldsTy.AllCarried : FieldsTy → Prop
  | .nil => True
  | .cons _ carried _ fs => carried = true ∧ fs.AllCarried

/-- The keys that are written for the payload. -/
def PayloadTy.keys (t : Int) : (p : PayloadTy) → p.Val .server t → List Bytes
  | .absent, _ => []
  | .text name, _ => [name]
  | .union tag _ cases, ⟨u, _⟩ => tag :: (caseOf cases u.1).names
  | .void _ _, none => []
  | .void _ cases, some _ => (caseOf cases t).names

/-- The keys that are looked for and not written, for a `NULL`. -/
def PayloadTy.unwritten (t : Int) : (p : PayloadTy) → p.Val .server t → List Bytes
  | .void _ cases, none => (caseOf cases t).names
  | _, _ => []

def PayloadTy.Wf : PayloadTy → Prop
  | .absent => True
  | .text name => NulFree name
  | .union tag _ cases => NulFree tag ∧ ∀ t, (caseOf cases t).Wf ∧ (caseOf cases t).AllCarried
  | .void _ cases => ∀ t, (caseOf cases t).Wf ∧ (caseOf cases t).AllCarried

structure CbTy.Wf (c : CbTy) : Prop where
  name : NulFree c.name
  before : c.before.Wf ∧ c.before.Plain
  payload : c.payload.Wf
  after : c.after.Wf ∧ c.after.Plain

def PayloadTy.ClientHas (t : Int) : (p : PayloadTy) → p.Val .server t → Prop
  | .absent, _ => True
  | .text _, _ => True
  | .union _ ty cases, ⟨u, v⟩ => ty.InRange .client u.1 ∧ (caseOf cases u.1).ClientHas v
  | .void _ _, none => True
  | .void _ cases, some v => (caseOf cases t).ClientHas v

def PayloadTy.depth (t : Int) : (p : PayloadTy) → p.Val .server t → Nat
  | .absent, _ => 0
  | .text _, _ => 0
  | .union _ _ cases, ⟨u, v⟩ => (caseOf cases u.1).depth v
  | .void _ _, none => 0
  | .void _ cases, some v => (caseOf cases t).depth v

namespace CbTy

variable (c : CbTy)

/-- The keys of the `args`, written or looked for. -/
def keys (v : c.Val .server) : List Bytes :=
  c.before.names ++ (c.payload.keys _ v.2 ++ (c.payload.unwritten _ v.2 ++ c.after.names))

/-- Every integer that crosses is one the client's type has. -/
structure ClientHas (v : c.Val .server) : Prop where
  before : c.before.ClientHas v.1.1
  payload : c.payload.ClientHas _ v.2
  after : c.after.ClientHas v.1.2

/-- How many containers the values open at once. -/
def depth (v : c.Val .server) : Nat :=
  max (c.before.depth v.1.1) (max (c.payload.depth _ v.2) (c.after.depth v.1.2))

end CbTy

/-- The client's payload is the server's: the text as far as `vsnprintf` took it, the tag with the fields
that it selects, or the record. A `NULL` is a record of zeros, and what no tag value tells of is `NULL`. -/
def PayloadTy.Same (env : SrvEnv) (t t' : Int) (h : t' = t) :
    (p : PayloadTy) → p.Val .server t → p.Val .client t' → Prop
  | .absent, _, _ => True
  | .text _, s, s' => s' = message s
  | .union _ _ cases, ⟨u, v⟩, ⟨u', v'⟩ =>
    ∃ hu : u'.1 = u.1, (caseOf cases u.1).Same env v (hu ▸ v')
  | .void _ cases, v, v' =>
    if (cases.lookup t).isSome then
      match v with
      | some v => ∃ x, v' = some x ∧ (caseOf cases t).Same env v (h ▸ x)
      | none => v' = some (FieldsTy.zero .client (caseOf cases t'))
    else v' = none

/-- The function is called with what libalpm called the trampoline with. -/
structure CbTy.Same (env : SrvEnv) (c : CbTy) (v : c.Val .server) (v' : c.Val .client) : Prop where
  before : c.before.Same env v.1.1 v'.1.1
  after : c.after.Same env v.1.2 v'.1.2
  payload : ∃ h : c.tagOf .client v'.1 = c.tagOf .server v.1, c.payload.Same env _ _ h v.2 v'.2

end Gen
