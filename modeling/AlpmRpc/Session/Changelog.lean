import AlpmRpc.Session.Bytes
import AlpmRpc.Gen.Record
import AlpmRpc.Server.HandOut

/-!
# Reading a changelog

The generated handler and stub of `alpm_pkg_changelog_read(ptr, size, pkg, fp)`, the function whose
`ptr` the overlay lists under `out_buffers` with the length `size`: `srv_args`, `srv_check` and
`srv_call` of `tools/gen/emit.py` on the server, `emit_client` on the client. libalpm's function is a
parameter: given the package, the cursor and a size, the bytes it puts into the buffer. A `NULL` buffer
keeps none of them.
-/

set_option autoImplicit false

open Json

namespace Server

/-- `h_alpm_pkg_changelog_read` -/
def changelogRead {σ : Type} (lib : Nat → Nat → Nat → σ → Bytes × σ) (l : σ) (params : Option Tree) :
    TProg (Res × σ) := do
  let size := ajI64 (ajElem params 1) 0
  let (pkg, bad) ← arpcArgHandle params 2 .pkg
  let (fp, bad') ← arpcArgHandle params 3 .changelog
  -- `malloc((size_t)size)`, or `NULL`
  let ptr : Bool := 0 < size ∧ size < 2 ^ 24
  if arpcArgI64Bad params 1 || bad || bad' || (decide (0 < size) && !ptr) then
    return (badArguments (lit "alpm_pkg_changelog_read"), l)
  let (b, l) := lib pkg fp (toU64 size) l
  return (.ok (.num (toI64 b.length))
    [(lit "ptr", Session.bytesTree (if ptr then some b else none))], l)

end Server

namespace Session

open Client Server Gen

/-- The server's table, libalpm, and `g_next_id`. -/
structure Reader (σ : Type) where
  table : Table
  lib : σ
  nextId : Nat := 1

/-- What a call of the stub returns, and the bytes it puts into the caller's buffer. -/
structure Read where
  count : Nat
  bytes : Bytes
  deriving DecidableEq

variable {σ : Type} (lib : Nat → Nat → Nat → σ → Bytes × σ)

/-- What the stub makes of the result; `none` when `arpc_invoke` fails. -/
def readOf (size : Nat) : Option Tree → Read
  | none => { count := 0, bytes := [] }
  | some result =>
    let (v, n) := Client.arpcOutBytes (some result) (lit "ptr")
    -- never more than the caller asked for, whatever came back
    { count := toU64 (ajI64 (ajMember (some result) retKey) 0)
      bytes := (v.getD []).take (min n size) }

/-- `alpm_pkg_changelog_read` of the client, on the ids of the package and the cursor. -/
def changelogRead (pkg fp size : Word) (s : Reader σ) : Option (Reader σ × Read) := do
  let id := toI64 s.nextId
  let req := requestFrame id (lit "alpm_pkg_changelog_read")
    [.null, .num (toI64 size.1), .num (toI64 pkg.1), .num (toI64 fp.1)]
  let (table, l, rsp) ← exchange id req (Server.changelogRead lib s.lib) s.table
  return ({ table, lib := l, nextId := s.nextId + 1 }, readOf size.1 rsp)

/-- Calls with these sizes, one after the other. -/
def changelogReads (pkg fp : Word) : List Word → Reader σ → Option (Reader σ × List Read)
  | [], s => some (s, [])
  | size :: sizes, s => do
    let (s, r) ← changelogRead lib pkg fp size s
    let (s, rs) ← changelogReads pkg fp sizes s
    return (s, r :: rs)

/-- libalpm fills up to `size` bytes from the cursor, `rest` being what is left behind it, and puts
none only at the end or for size 0. -/
structure ReadsFrom (p f : Nat) (rest : σ → Bytes) : Prop where
  fills : ∀ n l, rest l = (lib p f n l).1 ++ rest (lib p f n l).2
  fits : ∀ n l, (lib p f n l).1.length ≤ n
  ends : ∀ n l, (lib p f n l).1 = [] → n = 0 ∨ rest l = []

/-- The ids of a package and of a cursor that is open on it, and their objects. -/
structure Open (t : Table) (pkg fp : Word) (p f : Nat) : Prop where
  getPkg : arpcHandleGet t pkg.1 .pkg = some p
  getFp : arpcHandleGet t fp.1 .changelog = some f
  ids : pkg.1 ≠ 0 ∧ fp.1 ≠ 0
  objs : p ≠ 0 ∧ f ≠ 0

/-- The bytes delivered by calls. -/
def delivered (rs : List Read) : Bytes := rs.flatMap (·.bytes)

/-- Up to the first call that returns 0, all of `content` was delivered. -/
def Lossless (content : Bytes) (rs : List Read) : Prop :=
  ∀ before r after, rs = before ++ r :: after → (∀ x ∈ before, x.count ≠ 0) → r.count = 0 →
    delivered before = content

end Session
