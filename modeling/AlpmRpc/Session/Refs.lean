import AlpmRpc.Client.Call
import AlpmRpc.Gen.Record

/-!
# Handles and the connection

The generated stubs and handlers of `alpm_initialize` and `alpm_release`, with the count of handles
that holds the client's connection open (`arpc_conn_ref`, `arpc_conn_unref`). libalpm is the list of
its live handles; what it answers is part of the call.
-/

set_option autoImplicit false

namespace Session

open Json Server Client Gen

/-! ## The handlers -/

/-- `h_alpm_initialize`: libalpm answers `h` and leaves `err`. -/
def hAlpmInitialize (h : Nat) (err : Int) (lib : List Nat) (params : Option Tree) :
    TProg (Res × List Nat) :=
  if (arpcArgStr params 0).2 || (arpcArgStr params 1).2 then
    .ret (badArguments (lit "alpm_initialize"), lib)
  else
    .call (.put h .handle 0) fun id =>
      .ret (.ok (.num (toI64 id)) [(lit "err", .num (toI64 err))], if h = 0 then lib else h :: lib)

/-- `alpm_release`: `NULL` is refused with `-1`; for a handle libalpm answers `rc`. -/
def libRelease (rc : Int) (lib : List Nat) (p : Nat) : Int × List Nat :=
  if p = 0 then (-1, lib) else (rc, lib.erase p)

/-- `h_alpm_release` -/
def hAlpmRelease (rc : Int) (lib : List Nat) (params : Option Tree) : TProg (Res × List Nat) := do
  let (p, bad) ← arpcArgHandle params 0 .handle
  if bad then
    return (badArguments (lit "alpm_release"), lib)
  let _ ← TProg.op (.dropOwner (arpcArgId params 0))
  return (.ok (.num (toI64 (libRelease rc lib p).1)) [], (libRelease rc lib p).2)

/-! ## The stubs -/

/-- The client's side, with the server it is connected to. -/
structure State where
  table : Table := {}
  /-- libalpm's live handles -/
  lib : List Nat := []
  /-- `g_conn_refs` -/
  refs : Int := 0
  /-- the pipe is open -/
  piped : Bool := false
  /-- `g_next_id` -/
  nextId : Nat := 1

inductive Call where
  | alpmInitialize (root dbpath : Option CStr) (h : Nat) (err : Int)
  | alpmRelease (id : Word) (rc : Int)

/-- After `arpc_begin`: connected, with a request id taken. -/
def connected (s : State) : State := { s with piped := true, nextId := s.nextId + 1 }

/-- `arpc_conn_unref`, and whether it closes the pipe. -/
def arpcConnUnref (s : State) : State × Bool :=
  let refs := s.refs - 1
  if refs > 0 then ({ s with refs }, false) else ({ s with refs, piped := false }, true)

/-- One call, and whether it closed the pipe. -/
def call (s : State) : Call → Option (State × Bool)
  | .alpmInitialize root dbpath h err => do
    let (table, lib, rsp) ← exchange (s.nextId : Int)
      (requestFrame s.nextId (lit "alpm_initialize") [strTree root, strTree dbpath])
      (hAlpmInitialize h err s.lib) s.table
    let s := { connected s with table, lib }
    match rsp with
    | none => return (s, false)
    | some result =>
      let r := toU64 (ajI64 (ajMember (some result) retKey) 0)
      return ({ s with refs := if r ≠ 0 then s.refs + 1 else s.refs }, false)
  | .alpmRelease id rc => do
    let (table, lib, rsp) ← exchange (s.nextId : Int)
      (requestFrame s.nextId (lit "alpm_release") [.num (toI64 id.1)])
      (hAlpmRelease rc s.lib) s.table
    let s := { connected s with table, lib }
    match rsp with
    | none => return (s, false)
    | some _ => return arpcConnUnref s

/-- A call with the states around it. -/
structure Step where
  before : State
  closed : Bool
  after : State

def trace : List Call → State → Option (List Step)
  | [], _ => some []
  | c :: cs, s => do
    let (s', closed) ← call s c
    let l ← trace cs s'
    return ⟨s, closed, s'⟩ :: l

/-- A new handle is not where a live one is. -/
def Call.Fresh (s : State) : Call → Prop
  | .alpmInitialize _ _ h _ => h ∉ s.lib ∧ h < 2 ^ 64
  | .alpmRelease _ _ => True

/-- libalpm gives every new handle memory of its own. -/
def FreshRun : List Call → State → Prop
  | [], _ => True
  | c :: cs, s => c.Fresh s ∧ ∀ s' closed, call s c = some (s', closed) → FreshRun cs s'

/-- The count is of the live handles, the pipe closed when the last went, and it is open while one
lives. -/
def Step.Ok (st : Step) : Prop :=
  st.after.refs = st.after.lib.length ∧
    (st.closed = true ↔ st.before.lib ≠ [] ∧ st.after.lib = []) ∧
    (st.after.lib ≠ [] → st.after.piped = true)

end Session
