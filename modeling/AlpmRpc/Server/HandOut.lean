import AlpmRpc.Gen.Owner

/-!
# Handlers that hand out packages, and calls that free them

The generated handlers that put packages and dbs in the handle table, the callback trampolines that
do, and the three calls after which libalpm has freed a db's packages, with the hooks of
`src/server/arpc_invalidate.c`. libalpm is what it holds: each package with the db it belongs to,
each handle with its sync dbs. What it answers is part of the call.
-/

set_option autoImplicit false

namespace Server

open Json Gen

/-! ## Arguments -/

/-- The loop of `take_list_*` over ids: one that resolves to nothing marks the request bad and ends
the list. -/
def takeHandles (tag : HandleTag) : List Tree → TProg (List Nat × Bool)
  | [] => .ret ([], false)
  | n :: ns => .call (.get (toU64 (ajI64 (some n) 0)) tag) fun p =>
    if p = 0 then .ret ([], true)
    else do
      let (ps, bad) ← takeHandles tag ns
      return (p :: ps, bad)

/-- One argument: the objects it stands for, and whether it marks the request bad. -/
def readArg (params : Option Tree) (i : Nat) : ParamKind → TProg (List Nat × Bool)
  | .handle tag => do
    let (p, bad) ← arpcArgHandle params i tag
    return ([p], bad)
  | .handles tag =>
    if (ajElem params i).isNone then .ret ([], true)
    else if ajIsNull (ajElem params i) then .ret ([], false)
    else takeHandles tag (children (ajElem params i))
  | .string => .ret ([], (arpcArgStr params i).2)
  | .strings => .ret ([], (ajElem params i).isNone)
  | .scalar => .ret ([], arpcArgI64Bad params i)

/-- `srv_args`: all arguments, in order. -/
def readArgs (params : Option Tree) : Nat → List ParamKind → TProg (List (List Nat) × Bool)
  | _, [] => .ret ([], false)
  | i, k :: ks => do
    let (x, bad) ← readArg params i k
    let (xs, bad') ← readArgs params (i + 1) ks
    return (x :: xs, bad || bad')

/-! ## Handing out -/

/-- The ids of `objs`, all put under `owner`. -/
def putAll (tag : HandleTag) (owner : Nat) : List Nat → TProg (List Nat)
  | [] => .ret []
  | p :: ps => .call (.put p tag owner) fun id => do
    let ids ← putAll tag owner ps
    return id :: ids

/-- The handler of `fn`, when libalpm answers `objs`: the ids it sends, or nothing when it refuses
the request. -/
def handOut (fn : Fn) (objs : List Nat) (params : Option Tree) : TProg (Option (List Nat)) := do
  let (_, bad) ← readArgs params 0 fn.params
  if bad then
    return none
  let owner ← (ownerExpr fn).eval params
  let ids ← putAll fn.tag owner objs
  return some ids

/-! ## Freeing -/

/-- Drop under each id; the loop of `arpc_hook_alpm_db_update_post`. -/
def dropUnderAll : List Nat → TProg Unit
  | [] => .ret ()
  | id :: ids => .call (.dropUnder id) fun _ => dropUnderAll ids

/-- `drop_all` -/
def dropAll (tag : HandleTag) : List Nat → TProg Unit
  | [] => .ret ()
  | p :: ps => .call (.dropPtr p tag) fun _ => dropAll tag ps

/-- libalpm, as far as the handle table depends on it. -/
structure Lib where
  /-- the db each package is of, `some none` for a package of no db -/
  pkgDb : Nat → Option (Option Nat) := fun _ => none
  /-- each handle's sync dbs -/
  syncdbs : Nat → List Nat := fun _ => []

/-- `alpm_get_syncdbs` -/
def Lib.alpmGetSyncdbs (lib : Lib) (h : Nat) : List Nat := if h = 0 then [] else lib.syncdbs h

/-- A call that frees packages. -/
inductive Freeing where
  | dbUpdate (rc : Int)
  | dbUnregister (rc : Int)
  | unregisterAllSyncdbs (rc : Int)

def Freeing.params : Freeing → List ParamKind
  | .dbUpdate _ => [.handle .handle, .handles .db, .scalar]
  | .dbUnregister _ => [.handle .db]
  | .unregisterAllSyncdbs _ => [.handle .handle]

/-- The return after which libalpm has freed packages. -/
def Freeing.Frees : Freeing → Prop
  | .dbUpdate rc => rc ≠ 1
  | .dbUnregister rc => rc = 0
  | .unregisterAllSyncdbs rc => rc = 0

/-- The dbs whose packages libalpm frees, called with `args`. -/
def Freeing.frees (lib : Lib) (args : List (List Nat)) : Freeing → List Nat
  | .dbUpdate rc => if rc ≠ 1 then args.getD 1 [] else []
  | .dbUnregister rc => if rc = 0 then (args.getD 0 []).filter (· ≠ 0) else []
  | .unregisterAllSyncdbs rc => if rc = 0 then (args.getD 0 []).flatMap lib.alpmGetSyncdbs else []

/-- The post hook, or the end of a handler that destroys its object. -/
def Freeing.drop (lib : Lib) (params : Option Tree) (args : List (List Nat)) : Freeing → TProg Unit
  | .dbUpdate rc =>
    if rc = 1 then .ret ()
    else dropUnderAll ((children (ajElem params 1)).map fun e => toU64 (ajI64 (some e) 0))
  | .dbUnregister _ => .call (.dropOwner (arpcArgId params 0)) fun _ => .ret ()
  | .unregisterAllSyncdbs rc =>
    if rc = 0 then dropAll .db ((args.getD 0 []).flatMap lib.alpmGetSyncdbs) else .ret ()

/-- The handler of a freeing call: the dbs whose packages are gone. -/
def Freeing.handler (f : Freeing) (lib : Lib) (params : Option Tree) : TProg (List Nat) := do
  let (args, bad) ← readArgs params 0 f.params
  if bad then
    return []
  f.drop lib params args
  return f.frees lib args

/-! ## Runs -/

structure State where
  table : Table := {}
  lib : Lib := {}

/-- What the server does, one call or callback at a time. -/
inductive Act where
  /-- libalpm comes to have other packages and sync dbs -/
  | load (lib : Lib)
  /-- `h_alpm_initialize`, answered with the handle `h` -/
  | alpmInitialize (h : Nat)
  | handOut (fn : Fn) (objs : List Nat) (params : Option Tree)
  /-- a trampoline that puts a payload's packages under its context, a handle's id -/
  | callback (ctx : Nat) (pkgs : List Nat)
  /-- the end of a trampoline, which drops libalpm's temporaries -/
  | callbackEnd (pkgs : List Nat)
  | free (f : Freeing) (params : Option Tree)

/-- The packages of the dbs `dbs` are no more. -/
def Lib.without (lib : Lib) (dbs : List Nat) : Lib :=
  { lib with
    pkgDb := fun p =>
      match lib.pkgDb p with
      | some (some d) => if d ∈ dbs then none else some (some d)
      | r => r }

def Act.step (s : State) : Act → Option State
  | .load lib => some { s with lib }
  | .alpmInitialize h => do
    let (table, _) ← (TProg.op (.put h .handle 0)).run s.table
    return { s with table }
  | .handOut fn objs params => do
    let (table, _) ← (Server.handOut fn objs params).run s.table
    return { s with table }
  | .callback ctx pkgs => do
    let (table, _) ← (putAll .pkg ctx pkgs).run s.table
    return { s with table }
  | .callbackEnd pkgs => do
    let (table, _) ← (dropAll .pkg pkgs).run s.table
    return { s with table }
  | .free f params => do
    let (table, dbs) ← (f.handler s.lib params).run s.table
    return { s with table, lib := s.lib.without dbs }

/-- The actions in order. -/
def runActs (s : State) (as : List Act) : Option State := as.foldlM Act.step s

/-- How many objects an action puts. -/
def Act.puts : Act → Nat
  | .alpmInitialize _ => 1
  | .handOut _ objs _ => objs.length
  | .callback _ pkgs => pkgs.length
  | _ => 0

/-- `P` holds of each action in the state it is taken in. -/
def Each (P : State → Act → Prop) : List Act → State → Prop
  | [], _ => True
  | c :: as, s => P s c ∧ ∀ s', c.step s = some s' → Each P as s'

/-! ## What is assumed of libalpm, and when the handlers file packages right -/

/-- libalpm frees a package that has an id only in a freeing call, hands out packages it has, hands
out nothing when the argument that names the owner is `NULL`, and calls a trampoline with the id of
a handle it was registered for. -/
def Act.LibOk (s : State) : Act → Prop
  | .load lib => ∀ id p, p ≠ 0 → arpcHandleGet s.table id .pkg = some p →
    lib.pkgDb p = s.lib.pkgDb p
  | .handOut fn objs params => (fn.tag = .pkg → ∀ p ∈ objs, p ≠ 0 → s.lib.pkgDb p ≠ none) ∧
    ((ownerExpr fn).start params = 0 → ∀ p ∈ objs, p = 0)
  | .callback ctx pkgs => arpcHandleGet s.table ctx .handle ≠ some 0 ∧
    ∀ p ∈ pkgs, p ≠ 0 → s.lib.pkgDb p ≠ none
  | _ => True

/-- The db the id of package `p` is filed under; `0` when it is under a handle, or `p` has none. -/
def filedDb (t : Table) (p : Nat) : Nat :=
  match findPtr t p .pkg with
  | some (some i) => (arpcHandleGet t (t.tab i).owner .db).getD 0
  | _ => 0

/-- The db a request to `fn` files its packages under; `0` when it is not a db. -/
def namedDb (t : Table) (fn : Fn) (params : Option Tree) : Nat :=
  match ((ownerExpr fn).eval params).run t with
  | some (_, o) => (arpcHandleGet t o .db).getD 0
  | none => 0

/-- The dbs whose packages libalpm frees. -/
def Freeing.freed (f : Freeing) (s : State) (params : Option Tree) : List Nat :=
  match (readArgs params 0 f.params).run s.table with
  | some (_, args, false) => f.frees s.lib args
  | _ => []

/-- `p` belongs to one of the dbs `dbs`. -/
def Lib.Of (lib : Lib) (dbs : List Nat) (p : Nat) : Prop := ∃ d ∈ dbs, lib.pkgDb p = some (some d)

/-- A hand-out names no db but a package's own for it, unless a db is already known for the package;
and when its db goes, one is. -/
def Act.Right (s : State) : Act → Prop
  | .handOut fn objs params => fn.tag = .pkg → namedDb s.table fn params ≠ 0 → ∀ p ∈ objs, p ≠ 0 →
    s.lib.pkgDb p = some (some (namedDb s.table fn params)) ∨ filedDb s.table p ≠ 0
  | .free f params => ∀ id p, p ≠ 0 → arpcHandleGet s.table id .pkg = some p →
    s.lib.Of (f.freed s params) p → filedDb s.table p ≠ 0
  | _ => True

/-- From `s` to `s'` exactly the ids of packages of `dbs` stop resolving. -/
def DropsExactly (dbs : List Nat) (s s' : State) : Prop :=
  ∀ id p, p ≠ 0 → (arpcHandleGet s'.table id .pkg = some p ↔
    arpcHandleGet s.table id .pkg = some p ∧ ¬s.lib.Of dbs p)

end Server
