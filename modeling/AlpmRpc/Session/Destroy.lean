import AlpmRpc.Client.Cache
import AlpmRpc.Client.Call
import AlpmRpc.Gen.Record

/-!
# Calls that destroy their object

The generated handlers and stubs of `alpm_pkg_free` and `alpm_db_unregister`, the calls the overlay
marks `destroys` that are not of a handle: `srv_finish` on the server, `after_call` on the client.
libalpm is the list of its objects; whether it destroys the one it is given is part of the call.
-/

set_option autoImplicit false

namespace Session

open Json Server Client Gen

/-- The call, and what libalpm makes of it. -/
inductive Destroy where
  /-- `origin` is `ALPM_PKG_FROM_FILE`, or a db's -/
  | alpmPkgFree (fromFile : Bool)
  | alpmDbUnregister (rc : Int)
  deriving DecidableEq

namespace Destroy

def name : Destroy → Bytes
  | .alpmPkgFree _ => lit "alpm_pkg_free"
  | .alpmDbUnregister _ => lit "alpm_db_unregister"

def tag : Destroy → HandleTag
  | .alpmPkgFree _ => .pkg
  | .alpmDbUnregister _ => .db

/-- libalpm frees a package that is no db's, and a db when it returns `0`. -/
def frees : Destroy → Bool
  | .alpmPkgFree fromFile => fromFile
  | .alpmDbUnregister rc => rc = 0

/-- libalpm's function on the object `p`: `NULL` is refused with `-1`. -/
def lib (d : Destroy) (objs : List Nat) (p : Nat) : Int × List Nat :=
  if p = 0 then (-1, objs)
  else
    let rc := match d with
      | .alpmPkgFree _ => 0
      | .alpmDbUnregister rc => rc
    (rc, if d.frees then objs.erase p else objs)

/-- `h_alpm_pkg_free`, `h_alpm_db_unregister` -/
def handler (d : Destroy) (objs : List Nat) (params : Option Tree) : TProg (Res × List Nat) := do
  let (p, bad) ← arpcArgHandle params 0 d.tag
  if bad then
    return (badArguments d.name, objs)
  let (rc, objs) := d.lib objs p
  let _ ← TProg.op (.dropOwner (arpcArgId params 0))
  return (.ok (.num (toI64 rc)) [], objs)

variable {α : Type}

/-- What the stub does to the cache once the reply is in. -/
def afterCall (d : Destroy) (c : Cache α) (id : Nat) : Cache α :=
  match d with
  | .alpmPkgFree _ => c.arpcPurgeOwner id
  | .alpmDbUnregister _ => (c.arpcPurgeOwner id).arpcDetach id true [lit "alpm_get_syncdbs"]

end Destroy

/-- The server's table, libalpm's objects and the client's cache. -/
structure Sides (α : Type) where
  table : Table
  objs : List Nat
  cache : Cache α

variable {α : Type}

/-- The stub, with `ARPC_ID` of the object `id` and the request's id `rid`. -/
def destroy (d : Destroy) (rid : Int) (id : Word) (s : Sides α) : Option (Sides α) := do
  let (table, objs, rsp) ← exchange rid (requestFrame rid d.name [.num (toI64 id.1)])
    (d.handler s.objs) s.table
  match rsp with
  | none => return { s with table, objs }
  | some _ => return { table, objs, cache := d.afterCall s.cache id.1 }

/-- Every id that resolved resolves to the same object, and no value cached under `owner` has been
released. -/
structure Unharmed (s s' : Sides α) (owner : Nat) : Prop where
  ids : ∀ id tag p, p ≠ 0 → arpcHandleGet s.table id tag = some p →
    arpcHandleGet s'.table id tag = some p
  values : ∀ e ∈ s.cache.held, e.owner = owner → e ∈ s'.cache.held
  released : ∃ calls, s'.cache.released = s.cache.released ++ calls ∧
    ∀ e ∈ s.cache.held, e.owner = owner → (e.release, e.num) ∉ calls

end Session
