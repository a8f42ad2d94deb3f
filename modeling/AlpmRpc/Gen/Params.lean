import AlpmRpc.Gen.Record

/-!
# List parameters

How a list argument crosses. The client emitter picks the writer by the element kind
(`emit_client`), the server emitter the reader (`emit_server_list_writers`). A C list is a Lean
list, `NULL` the empty one.
-/

set_option autoImplicit false

namespace Gen

open Json Server

/-- The element kind the overlay gives a list parameter (`param_list_elem`). -/
inductive ElemKind where
  | string
  | handle (tag : HandleTag)
  | record (fs : Fields)

/-- An object in memory, at an address. -/
structure At (α : Type) where
  addr : Word
  addr_ne : addr.1 ≠ 0
  val : α

/-- What `data` is on the client: a string or `NULL`, an id, a struct or `NULL`. -/
def ElemKind.Elem : ElemKind → Type
  | .string => Option CStr
  | .handle _ => Word
  | .record fs => Option (At (fs.Val .client))

/-- What `data` is on the server. -/
def ElemKind.SrvElem : ElemKind → Type
  | .string => Option CStr
  | .handle _ => Word
  | .record fs => Option (fs.Val .server)

/-! ## The client's stub -/

/-- `arpc_begin` -/
def arpcBegin (id : Int) (method : Bytes) : Writer :=
  let w := ajwI64 (ajwKey (ajwObjBegin {}) (lit "id")) id
  let w := ajwStr (ajwKey w (lit "method")) (some method)
  ajwArrBegin (ajwKey w (lit "params"))

/-- How `arpc_invoke` ends the request. -/
def arpcFinish (w : Writer) : Writer := ajwObjEnd (ajwArrEnd w)

def arpcPutStrList (w : Writer) (l : List (Option CStr)) : Writer :=
  if l = [] then ajwNull w
  else ajwArrEnd (l.foldl (fun w s => ajwStr w (s.map (·.1))) (ajwArrBegin w))

def arpcPutHandleList (w : Writer) (l : List Word) : Writer :=
  if l = [] then ajwNull w
  else ajwArrEnd (l.foldl (fun w id => ajwI64 w (toI64 id.1)) (ajwArrBegin w))

/-- `ARPC_ID` of a struct: its address. -/
def arpcId {α : Type} : Option (At α) → Word
  | none => ⟨0, zero_lt_word⟩
  | some r => r.addr

/-- The list branch of `emit_client`'s parameter writers: a string list is written as such, any
other as ids. -/
def putListParam (w : Writer) : (e : ElemKind) → List e.Elem → Writer
  | .string, l => arpcPutStrList w l
  | .handle _, l => arpcPutHandleList w l
  | .record _, l => arpcPutHandleList w (l.map arpcId)

/-- The request a stub writes, with the list between the other parameters. -/
def stubRequest (id : Int) (method : Bytes) (before after : List Tree) (e : ElemKind)
    (l : List e.Elem) : Writer :=
  arpcFinish (ajwElems (putListParam (ajwElems (arpcBegin id method) before) e l) after)

/-! ## The server's handler -/

/-- The handle loop of `take_list_*`: an id that resolves to nothing marks the request bad and ends
the list. -/
def takeHandles (h : Handles) (tag : HandleTag) : List Tree → List Word × Bool
  | [] => ([], false)
  | n :: ns =>
    let p := h.objOf tag (wordOf (ajI64 (some n) 0))
    if p.1 = 0 then ([], true)
    else (p :: (takeHandles h tag ns).1, (takeHandles h tag ns).2)

/-- `take_list_*`: the list, and whether the request was marked bad. -/
def takeList (h : Handles) (arr : Option Tree) : (e : ElemKind) → List e.SrvElem × Bool
  | .string =>
    if ajIsNull arr then ([], false)
    else ((children arr).map fun n => (ajStr (some n) none).map CStr.dup, false)
  | .handle tag => if ajIsNull arr then ([], false) else takeHandles h tag (children arr)
  | .record fs =>
    if ajIsNull arr then ([], false)
    else ((children arr).map fun n => srvReadValue h (some n) (.structPtr fs), false)

end Gen
