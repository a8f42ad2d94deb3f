import AlpmRpc.Common.Frame
import AlpmRpc.Server.Ops

/-!
# Requests at the server

What a generated handler reads its arguments with (`arpc_arg_*` of `src/server/arpc_server.c`), and
the reply `arpc_handle_parsed` writes for what it answered. `params` is the node of the request's
parameters; a reader that would mark the request bad says so beside its value.
-/

set_option autoImplicit false

namespace Server

open Json

/-- What a handler answers: `arpc_fail`, or the return value and the out-values. -/
inductive Res where
  | fail (code : Int) (msg : Bytes)
  | ok (ret : Tree) (outs : List (Bytes × Tree))

/-- The result object of an answer that is not a refusal. -/
def Res.result : Res → Option Tree
  | .fail _ _ => none
  | .ok ret outs => some (.obj ((retKey, ret) :: outs))

/-- `ARPC_E_INVALID_PARAMS` -/
def invalidParams : Int := -32602

/-- A generated handler's refusal. -/
def badArguments (fn : Bytes) : Res := .fail invalidParams (fn ++ lit ": bad arguments")

def arpcArgStr (params : Option Tree) (i : Nat) : Option Bytes × Bool :=
  match ajElem params i with
  | none => (none, true)
  | some n =>
    if ajIsNull (some n) then (none, false)
    else (ajStr (some n) none, (ajStr (some n) none).isNone)

/-- Whether `arpc_arg_i64` marks the request bad. -/
def arpcArgI64Bad (params : Option Tree) (i : Nat) : Bool :=
  match ajElem params i with
  | some (.num _) => false
  | some (.bool _) => false
  | _ => true

/-- `arpc_arg_id`; the request is bad when the argument is missing. -/
def arpcArgId (params : Option Tree) (i : Nat) : Nat :=
  match ajElem params i with
  | none => 0
  | some n => if ajIsNull (some n) then 0 else toU64 (ajI64 (some n) 0)

/-- `arpc_arg_handle`: `0` is a legitimate `NULL`, an id of nothing is not. -/
def arpcArgHandle (params : Option Tree) (i : Nat) (tag : HandleTag) : TProg (Nat × Bool) :=
  if (ajElem params i).isNone then .ret (0, true)
  else if arpcArgId params i = 0 then .ret (0, false)
  else .call (.get (arpcArgId params i) tag) fun p => .ret (p, p == 0)

/-- `arpc_list_owner`: the first element of a list argument, as an id. -/
def arpcListOwner (params : Option Tree) (i : Nat) : Nat :=
  match children (ajElem params i) with
  | [] => 0
  | e :: _ => toU64 (ajI64 (some e) 0)

/-- The reply to request `id`. -/
def replyFrame (id : Int) : Res → Tree
  | .fail code msg => errorFrame id code msg
  | .ok ret outs => resultFrame id ret outs

end Server
