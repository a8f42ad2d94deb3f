import AlpmRpc.Client.Call
import AlpmRpc.Client.Columns

/-!
# Reading package fields

The stub of a batched accessor against the server's `arpc.pkg_fields` (`emit_pkg_batch`), over runs
in which lists are fetched, fields read, install reasons set, handles released, and ids issued and
dropped by the server. `fields` says which accessors are batched, and what they return: a string, or
a number (an id for an accessor that returns a handle, the one `arpc_handle_put` has for it).
-/

set_option autoImplicit false

namespace Session

open Json Server Client Gen

/-- What a batched accessor returns, as it crosses. -/
inductive FieldKind where
  | str | num
  deriving DecidableEq

/-- A server's packages at one moment. -/
structure Pkgs where
  /-- `arpc_handle_get(id, ARPC_H_PKG)` -/
  get : Nat → Nat
  /-- an accessor that returns a string, on a package -/
  str : Bytes → Nat → Option CStr
  /-- an accessor that returns a number, on a package -/
  num : Bytes → Nat → Int
  /-- the ids given out so far -/
  issued : Nat → Prop
  num_range : ∀ f p, I64 (num f p)
  get_issued : ∀ id, get id ≠ 0 → issued id
  /-- one id for one object -/
  get_inj : ∀ id id', get id ≠ 0 → get id = get id' → id = id'
  issued_lt : ∀ id, issued id → id < 2 ^ 64 ∧ id ≠ 0

/-- An id a client can have: `0` for `NULL`, or one it was given, live or dropped. -/
def Pkgs.Known (srv : Pkgs) (id : Nat) : Prop := id = 0 ∨ srv.issued id

/-- What happens to issued ids and their packages: an id stays with its package, whose fields stay,
or it is dropped for good. -/
structure Pkgs.Evolves (srv srv' : Pkgs) : Prop where
  issued : ∀ id, srv.issued id → srv'.issued id
  get : ∀ id, srv.issued id → srv'.get id = 0 ∨ srv'.get id = srv.get id
  str : ∀ id, srv.get id ≠ 0 → srv'.get id = srv.get id →
    ∀ f, srv'.str f (srv.get id) = srv.str f (srv.get id)
  num : ∀ id, srv.get id ≠ 0 → srv'.get id = srv.get id →
    ∀ f, srv'.num f (srv.get id) = srv.num f (srv.get id)

/-! ## The server's side -/

/-- `pkg_field_put` -/
def pkgFieldPut (srv : Pkgs) (k : FieldKind) (f : Bytes) (p : Nat) : Tree :=
  match k with
  | .str => strTree (srv.str f p)
  | .num => .num (srv.num f p)

/-- The element for one id. -/
def pkgFieldElem (srv : Pkgs) (k : FieldKind) (f : Bytes) (id : Nat) : Tree :=
  if srv.get id = 0 then .null else pkgFieldPut srv k f (srv.get id)

/-- `h_arpc_pkg_fields` -/
def hArpcPkgFields (fields : Bytes → Option FieldKind) (srv : Pkgs) (params : Option Tree) : Res :=
  let idx := (arpcArgStr params 1).1.bind fields
  match ajElem params 0, idx with
  | some ids, some k =>
    if (arpcArgStr params 1).2 then
      .fail invalidParams (lit "arpc.pkg_fields: unknown or missing field")
    else
      .ok (.arr ((children (some ids)).map fun e =>
        pkgFieldElem srv k ((arpcArgStr params 1).1.getD []) (toU64 (ajI64 (some e) 0)))) []
  | _, _ => .fail invalidParams (lit "arpc.pkg_fields: unknown or missing field")

/-- The name of the column that `alpm_pkg_set_reason` changes. -/
def reasonField : Bytes := lit "alpm_pkg_get_reason"

/-- `alpm_pkg_set_reason` on a package: the new reason, when libalpm could write it. -/
def libSetReason (srv : Pkgs) (p : Nat) (reason : { v : Int // I64 v }) (ok : Bool) : Pkgs :=
  if p = 0 ∨ ok = false then srv
  else { srv with
    num := fun f q => if f = lit "alpm_pkg_get_reason" ∧ q = p then reason.1 else srv.num f q
    num_range := fun f q => by
      split
      · exact reason.2
      · exact srv.num_range f q }

/-! ## Both sides -/

/-- The call of `fetch_column`, over a pipe that does not fail: the return node, or nothing. -/
def fetchReply (fields : Bytes → Option FieldKind) (srv : Pkgs) (rid : Int) (field : Bytes)
    (ids : List Nat) : Option (Option Tree) :=
  let doc := sent (requestFrame rid (lit "arpc.pkg_fields") (Groups.fetchParams ids field))
  let res := hArpcPkgFields fields srv (ajMember doc (lit "params"))
  (arpcInvoke rid (sent (replyFrame (ajI64 (ajMember doc (lit "id")) 0) res))).map fun result =>
    ajMember (some result) retKey

/-- What a read returns. -/
inductive FieldVal where
  | str (s : Option CStr)
  | num (v : Int)
  deriving DecidableEq

/-- `NULL` or `0` -/
def FieldKind.blank : FieldKind → FieldVal
  | .str => .str none
  | .num => .num 0

/-- The accessor called on the server. -/
def Pkgs.value (srv : Pkgs) (k : FieldKind) (f : Bytes) (id : Nat) : FieldVal :=
  match k with
  | .str => .str (srv.str f (srv.get id))
  | .num => .num (srv.num f (srv.get id))

/-- `g_groups` and `g_slots`, the server, and for each id the values its accessors had when it was
last live. -/
structure Columns where
  groups : Groups := {}
  srv : Pkgs
  last : Nat → Bytes → FieldKind → FieldVal := fun _ _ k => k.blank

/-- What can happen. -/
inductive Event where
  /-- a package list is materialised -/
  | register (ids : List Nat)
  /-- a batched accessor is called; `rid` is the next request's id -/
  | read (id : Nat) (field : Bytes) (k : FieldKind) (rid : { v : Int // I64 v })
  | setReason (id : Nat) (reason : { v : Int // I64 v }) (ok : Bool)
  | purgeRoot (handle : Nat)
  /-- the server issues and drops ids -/
  | server (srv : Pkgs)

/-- One event and, for a read, its answer; `none` for a read through a freed group. -/
def columnStep (fields : Bytes → Option FieldKind) (s : Columns) :
    Event → Option (Columns × Option FieldVal)
  | .register ids => some ({ s with groups := s.groups.arpcPkgGroupRegister ids }, none)
  | .read id f .str rid => do
    let (groups, r) ← s.groups.arpcPkgFieldStr id f (fetchReply fields s.srv rid f)
    return ({ s with groups }, some (.str r))
  | .read id f .num rid => do
    let (groups, r) ← s.groups.arpcPkgFieldI64 id f (fetchReply fields s.srv rid f)
    return ({ s with groups }, some (.num r))
  | .setReason id reason ok =>
    -- an id of nothing is refused, and the stub does not get to its cache
    if id ≠ 0 ∧ s.srv.get id = 0 then some (s, none)
    else do
      let groups ← s.groups.dropColumn id (lit "alpm_pkg_get_reason")
      return ({ s with groups, srv := libSetReason s.srv (s.srv.get id) reason ok }, none)
  | .purgeRoot handle =>
    some ({ s with groups := s.groups.freeGroupsOf (Wire.arpcRoot handle) }, none)
  | .server srv =>
    some ({ s with
      srv
      last := fun id f k => if s.srv.get id ≠ 0 then s.srv.value k f id else s.last id f k }, none)

/-- Lists are of packages of one root; the ids the client has are ids it was given; a field is read
by its own kind; and the server keeps to its ids. -/
def Event.Allowed (fields : Bytes → Option FieldKind) (s : Columns) : Event → Prop
  | .register ids => (∀ id ∈ ids, s.srv.Known id) ∧
      ∀ id ∈ ids, ∀ id' ∈ ids, Wire.arpcRoot id = Wire.arpcRoot id'
  | .read id f k _ => s.srv.Known id ∧ fields f = some k ∧ NulFree f
  | .setReason id _ _ => s.srv.Known id
  | .purgeRoot _ => True
  | .server srv => s.srv.Evolves srv

/-- A read's answer: the accessor's value while the id is live; after that the last one, or `NULL`
or `0`. -/
def RightAnswer (s : Columns) (id : Nat) (f : Bytes) (k : FieldKind) (v : FieldVal) : Prop :=
  (s.srv.get id ≠ 0 → v = s.srv.value k f id) ∧
    (s.srv.get id = 0 → v = k.blank ∨ v = s.last id f k)

/-- Every event of a run is allowed where it happens. -/
def AllowedEvents (fields : Bytes → Option FieldKind) (s : Columns) : List Event → Prop
  | [] => True
  | e :: es => e.Allowed fields s ∧
      ∀ s' r, columnStep fields s e = some (s', r) → AllowedEvents fields s' es

/-- Every event returns, and every read gets a right answer. -/
def RightRun (fields : Bytes → Option FieldKind) (s : Columns) : List Event → Prop
  | [] => True
  | e :: es => ∃ s' r, columnStep fields s e = some (s', r) ∧
      (∀ id f k rid, e = .read id f k rid → ∃ v, r = some v ∧ RightAnswer s id f k v) ∧
      RightRun fields s' es

end Session
