import AlpmRpc.Common.Emit
import AlpmRpc.Server.Request

/-!
# A frame in, a frame out

`arpc_handle_frame` and `arpc_handle_parsed` of `src/server/arpc_server.c`, down to the writer that
each reply is built in. A handler is known by what it does to the `arpc_res` it is given: the calls
of `arpc_fail`, `arpc_ret_*` and `arpc_out_*` it makes, in order, each `ret` and `out` with the value
written after the key. The handlers, what `bsearch` finds in the generated table and
`arpc_gpgdir_follow` are parameters, with a state `σ` that they share.
-/

set_option autoImplicit false

namespace Server

open Json

/-! ## Building the result -/

/-- `arpc_res`; `out` is `none` while `out.buf` is `NULL`. -/
structure ArpcRes where
  out : Option Writer := none
  hasRet : Bool := false
  failed : Bool := false
  code : Int := 0
  msg : Bytes := []

def ensureObj (rs : ArpcRes) : ArpcRes :=
  match rs.out with
  | none => { rs with out := some (ajwObjBegin {}) }
  | some _ => rs

/-- Every call on the writer of the result. -/
def ArpcRes.write (rs : ArpcRes) (f : Writer → Writer) : ArpcRes :=
  { rs with out := rs.out.map f }

def setRet (rs : ArpcRes) : ArpcRes :=
  { (ensureObj rs).write (ajwKey · retKey) with hasRet := true }

/-- `arpc_ret_null`, `arpc_ret_i64`, `arpc_ret_str` and the rest, which differ in the value. -/
def arpcRet (rs : ArpcRes) (v : Tree) : ArpcRes := (setRet rs).write (ajwTree · v)

/-- `arpc_out_i64`, `arpc_out_bytes` and `arpc_out_writer` with the value written to it. -/
def arpcOut (rs : ArpcRes) (name : Bytes) (v : Tree) : ArpcRes :=
  let rs := ensureObj rs
  -- the return goes first in traces
  let rs := if rs.hasRet then rs else arpcRet rs .null
  (rs.write (ajwKey · name)).write (ajwTree · v)

/-- What `snprintf` leaves in a buffer of 256 bytes. -/
def snprintf256 (s : Bytes) : Bytes := s.take 255

def arpcFail (rs : ArpcRes) (code : Int) (msg : Option Bytes) : ArpcRes :=
  { rs with failed := true, code := code, msg := snprintf256 (cstr (msg.getD (lit "error"))) }

/-- What a handler does to its `arpc_res`. -/
inductive ResOp where
  | ret (v : Tree)
  | out (name : Bytes) (v : Tree)
  | fail (code : Int) (msg : Option Bytes)

def ResOp.apply (rs : ArpcRes) : ResOp → ArpcRes
  | .ret v => arpcRet rs v
  | .out name v => arpcOut rs name v
  | .fail code msg => arpcFail rs code msg

/-! ## Replies -/

def replyError (id code : Int) (msg : Bytes) : Bytes :=
  let w := ajwObjBegin {}
  let w := ajwI64 (ajwKey w (lit "id")) id
  let w := ajwObjBegin (ajwKey w (lit "error"))
  let w := ajwI64 (ajwKey w (lit "code")) code
  let w := ajwStr (ajwKey w (lit "message")) (some msg)
  (ajwObjEnd (ajwObjEnd w)).buf

/-- The reply to `arpc.shutdown`. -/
def replyShutdown (id : Int) : Bytes :=
  let w := ajwObjBegin {}
  let w := ajwI64 (ajwKey w (lit "id")) id
  let w := ajwObjBegin (ajwKey w (lit "result"))
  let w := ajwI64 (ajwKey w retKey) 0
  (ajwObjEnd (ajwObjEnd w)).buf

/-- The end of `arpc_handle_parsed`: the error, or the handler's object spliced in. -/
def replyRes (id : Int) (rs : ArpcRes) : Bytes :=
  if rs.failed then replyError id rs.code rs.msg
  else
    let rs := ensureObj rs
    let rs := if rs.hasRet then rs else arpcRet rs .null
    let out := ajwObjEnd (rs.out.getD {})
    let w := ajwObjBegin {}
    let w := ajwI64 (ajwKey w (lit "id")) id
    let w := ajwRaw (ajwKey w (lit "result")) out.buf
    (ajwObjEnd w).buf

/-! ## Dispatch -/

/-- A handler, given the request's parameters. -/
abbrev Handler (σ : Type) := σ → Option Tree → σ × List ResOp

structure Methods (σ : Type) where
  /-- The table of `arpc_handle_parsed`. -/
  builtins : List (Bytes × Handler σ)
  /-- What `bsearch` finds in `arpc_methods`. -/
  generated : Bytes → Option (Handler σ)
  /-- `arpc_gpgdir_follow(req_handle(&rq))` -/
  follow : Option Tree → σ → σ

structure ServerState (σ : Type) where
  app : σ
  /-- `g_shutdown_requested` -/
  shutdown : Bool := false

variable {σ : Type}

def Methods.find (tab : Methods σ) (method : Bytes) : Option (Handler σ) :=
  match tab.builtins.find? fun k => k.1 = method with
  | some k => some k.2
  | none => tab.generated method

/-- `ARPC_E_PARSE` -/
def eParse : Int := -32700

/-- `ARPC_E_INVALID_REQ` -/
def eInvalidReq : Int := -32600

/-- `ARPC_E_NO_METHOD` -/
def eNoMethod : Int := -32601

def arpcHandleParsed (tab : Methods σ) (s : ServerState σ) (d : Option Tree) :
    ServerState σ × Bytes :=
  let id := ajI64 (ajMember d (lit "id")) 0
  let params := ajMember d (lit "params")
  match ajStr (ajMember d (lit "method")) none with
  | none => (s, replyError id eInvalidReq (lit "missing method"))
  | some method =>
    if method = lit "arpc.shutdown" then ({ s with shutdown := true }, replyShutdown id)
    else match tab.find method with
      | none => (s, replyError id eNoMethod (snprintf256 (lit "no such method: " ++ method)))
      | some fn =>
        let r := fn (tab.follow params s.app) params
        ({ s with app := r.1 }, replyRes id (r.2.foldl ResOp.apply {}))

def arpcHandleFrame (tab : Methods σ) (s : ServerState σ) (req : Bytes) : ServerState σ × Bytes :=
  match ajParse req with
  | none => (s, replyError 0 eParse (lit "malformed JSON"))
  | some d => arpcHandleParsed tab s (some d)

end Server
