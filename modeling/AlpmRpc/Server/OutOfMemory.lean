import AlpmRpc.Common.Frame
import AlpmRpc.Common.OutOfMemory
import AlpmRpc.Server.Reply

/-!
# Replies and callbacks, out of memory

The result of a call and the frame around it, as `src/server/arpc_server.c` builds them, and the
callback frames of `src/server/arpc_callbacks.c`, with every writer on a memory of its own.
-/

set_option autoImplicit false

namespace OutOfMemory

open Json Growth Server

/-! ## The result -/

/-- `arpc_res` -/
structure ArpcRes where
  out : AjW := {}
  hasRet : Bool := false
  failed : Bool := false
  code : Int := 0
  msg : Bytes := []

/-- What a handler calls. -/
inductive Call where
  /-- `arpc_ret_*` with the value; `begun` when it is `arpc_ret_begin`, and the value is written to
  what `arpc_res_writer` returns -/
  | ret (begun : Bool) (v : Tree)
  /-- `arpc_out_*`, or `arpc_out_writer` and the value -/
  | out (name : Bytes) (v : Tree)
  | fail (code : Int) (msg : Option Bytes)

section

variable (mem : Nat → Bool)

def ArpcRes.write (rs : ArpcRes) (f : AjW → AjW) : ArpcRes := { rs with out := f rs.out }

def ensureObj (rs : ArpcRes) : ArpcRes :=
  match rs.out.out.block with
  | none => { rs with out := ajwObjBegin mem (ajwInit rs.out) }
  | some _ => rs

def setRet (rs : ArpcRes) : ArpcRes :=
  { (ensureObj mem rs).write (ajwKey mem · retKey) with hasRet := true }

/-- `arpc_ret_null`, `arpc_ret_i64` and the rest. -/
def arpcRet (rs : ArpcRes) (v : Tree) : ArpcRes := (setRet mem rs).write (ajwTree mem · v)

/-- `arpc_ret_begin`, and what is written to `arpc_res_writer`. -/
def arpcRetBegin (rs : ArpcRes) (v : Tree) : ArpcRes :=
  (ensureObj mem (setRet mem rs)).write (ajwTree mem · v)

def arpcOut (rs : ArpcRes) (name : Bytes) (v : Tree) : ArpcRes :=
  let rs := ensureObj mem rs
  -- the return goes first in traces
  let rs := if rs.hasRet then rs else arpcRet mem rs .null
  (rs.write (ajwKey mem · name)).write (ajwTree mem · v)

def arpcFail (rs : ArpcRes) (code : Int) (msg : Option Bytes) : ArpcRes :=
  { rs with failed := true, code := code, msg := snprintf256 (cstr (msg.getD (lit "error"))) }

def Call.apply (rs : ArpcRes) : Call → ArpcRes
  | .ret false v => arpcRet mem rs v
  | .ret true v => arpcRetBegin mem rs v
  | .out name v => arpcOut mem rs name v
  | .fail code msg => arpcFail rs code msg

/-- What `arpc_handle_parsed` does to a result that did not fail. -/
def complete (rs : ArpcRes) : AjW :=
  let rs := ensureObj mem rs
  let rs := if rs.hasRet then rs else arpcRet mem rs .null
  ajwObjEnd mem rs.out

/-! ## Frames -/

def finish (w : AjW) : Option Bytes := if w.out.failed then none else some w.out.data

def replyError (id code : Int) (msg : Bytes) : Option Bytes :=
  let w := ajwObjBegin mem {}
  let w := ajwI64 mem (ajwKey mem w (lit "id")) id
  let w := ajwObjBegin mem (ajwKey mem w (lit "error"))
  let w := ajwI64 mem (ajwKey mem w (lit "code")) code
  let w := ajwStr mem (ajwKey mem w (lit "message")) (some msg)
  finish (ajwObjEnd mem (ajwObjEnd mem w))

/-- The handler's object, spliced in verbatim. -/
def replyResult (id : Int) (out : AjW) : Option Bytes :=
  let w := ajwObjBegin mem {}
  let w := ajwI64 mem (ajwKey mem w (lit "id")) id
  let w := ajwReserve mem w (out.out.data.length + 2)
  let w := ajwRaw mem (ajwKey mem w (lit "result")) out.out.data
  finish (ajwObjEnd mem w)

/-- The frame `arpc_cb_send` sends, if any; `args` is the trampoline's writer. -/
def cbSend (kind : Bytes) (seq handle : Int) (args : AjW) : Option Bytes :=
  let w := ajwObjBegin mem {}
  let w := ajwStr mem (ajwKey mem w (lit "cb")) (some kind)
  let w := ajwI64 mem (ajwKey mem w (lit "seq")) seq
  let w := ajwI64 mem (ajwKey mem w (lit "handle")) handle
  let w := ajwKey mem w (lit "args")
  let w :=
    match args.out.block with
    | some k => ajwRaw mem w k.data
    | none => ajwNull mem w
  finish (ajwObjEnd mem w)

end

/-- The memory of each writer: the result's, the two frames it ends in, and the last resort's. -/
structure Memory where
  result : Nat → Bool
  outer : Nat → Bool
  error : Nat → Bool
  oom : Nat → Bool

/-- `ARPC_E_INTERNAL` -/
def eInternal : Int := -32603

/-- `arpc_handle_parsed` once it has the handler, which makes `calls`: the reply, if there is one. -/
def handleCalls (M : Memory) (id : Int) (calls : List Call) : Option Bytes :=
  let rs := calls.foldl (Call.apply M.result) {}
  let out :=
    if rs.failed then replyError M.error id rs.code rs.msg
    else replyResult M.outer id (complete M.result rs)
  out.or (replyError M.oom id eInternal (lit "out of memory"))

/-! ## What was meant -/

def Call.fails : Call → Bool
  | .fail _ _ => true
  | _ => false

/-- Whether a handler writes its return before anything else. -/
def startsWithRet : List Call → Bool
  | .ret _ _ :: _ => true
  | _ => false

/-- The members that the calls write, with the return value first. -/
def members : Bool → List Call → List (Bytes × Tree)
  | false, [] => [(retKey, .null)]
  | true, [] => []
  | _, .ret _ v :: cs => (retKey, v) :: members true cs
  | false, .out name v :: cs => (retKey, .null) :: (name, v) :: members true cs
  | true, .out name v :: cs => (name, v) :: members true cs
  | hasRet, .fail _ _ :: cs => members hasRet cs

/-- The result's writer gets its memory: all of it, or all but a first try that loses nothing. -/
def Granted (mem : Nat → Bool) (calls : List Call) : Prop :=
  (∀ k < growthsOf (.obj (members false calls)), mem k = true) ∨
    (startsWithRet calls = false ∧ mem 0 = false ∧
      ∀ k < growthsOf (.obj (members false calls)), mem (k + 1) = true)

/-- A success with the result `ms`. -/
def okFrame (id : Int) (ms : List (Bytes × Tree)) : Tree :=
  .obj [(lit "id", .num id), (lit "result", .obj ms)]

def cbFrame (kind : Bytes) (seq handle : Int) (args : Tree) : Tree :=
  .obj [(lit "cb", .str kind), (lit "seq", .num seq), (lit "handle", .num handle), (lit "args", args)]

end OutOfMemory
