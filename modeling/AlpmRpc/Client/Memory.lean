import AlpmRpc.Client.Cache
import AlpmRpc.Lib.Run
import Mathlib.Logic.Function.Basic

/-!
# What the client remembers of a server

All of the client's memory that is keyed by ids: the cache of borrowed results, the columns
(`src/client/arpc_client.c`) and the registered callbacks (`src/client/arpc_callbacks.c`), in runs of
stubs over any number of server processes. Each connection is to a new process, numbered in the
order they are connected to. A stub that does not answer from memory sends a request, and ends when
the request is answered, refused or lost; what is called meanwhile is called from callbacks.

Everything that is kept carries the process connected to when it was stored, and every id the process
that last handed it out.
-/

set_option autoImplicit false

namespace Client

open Json Gen

/-- A stub, by what it does with the client's memory. -/
inductive Call where
  /-- returns a borrowed list or struct -/
  | borrowed (owner : Nat) (key : Bytes)
  /-- returns a borrowed string -/
  | str (owner : Nat) (key : Bytes)
  /-- `arpc_pkg_field_str` or `arpc_pkg_field_i64` -/
  | field (pkg : Nat) (field : Bytes) (wantStr : Bool)
  /-- `arpc_cb_register` -/
  | setCallback (handle kind : Nat) (fn : Option Nat)
  /-- `arpc_cb_fn` -/
  | getCallback (handle kind : Nat)
  /-- makes a handle -/
  | creates
  /-- destroys the handle -/
  | destroysHandle (handle : Nat)
  /-- any other; it may destroy its first argument, and change what the getters `keys` return in
  `scope` and the `columns` of its first argument -/
  | other (first : Nat) (destroys : Bool) (scope : List Nat) (wholeRoot : Bool)
      (keys columns : List Bytes)
  deriving DecidableEq

/-- The id that what a stub returns is of. -/
def Call.id : Call → Nat
  | .borrowed owner _ => owner
  | .str owner _ => owner
  | .field pkg _ _ => pkg
  | .setCallback handle _ _ => handle
  | .getCallback handle _ => handle
  | .creates => 0
  | .destroysHandle handle => handle
  | .other first _ _ _ _ _ => first

/-- A request on its way. -/
structure Sent where
  call : Call
  /-- the process it was sent to -/
  proc : Nat
  /-- the group whose column is fetched -/
  group : Nat := 0

/-- A reply, by what the stubs read in it. -/
structure Answer (β : Type) where
  /-- the ids it hands out -/
  ids : List Nat := []
  /-- the lists of packages in it -/
  lists : List (List Nat) := []
  /-- a list or a struct -/
  value : Option β := none
  /-- a string -/
  str : Option Bytes := none
  /-- the return value -/
  ret : Option Tree := none

/-- How a request ends. -/
inductive Outcome (β : Type) where
  | lost
  | refused
  | answered (r : Answer β)

/-- What is returned from memory. -/
inductive Recalled where
  /-- the cached value of this number -/
  | value (num : Nat)
  | str (s : Option CStr)
  | num (v : Int)
  | fn (f : Nat)
  deriving DecidableEq

structure Memory (β : Type) where
  /-- `g_owned`, `g_detached`, `g_groups`, `g_slots` -/
  cache : Cache (Option Nat × Option β) := {}
  /-- when the columns of each group were stored, in the group's order -/
  stamps : Nat → List (Bytes × Option Nat) := fun _ => []
  /-- `g_regs`, by handle and kind: the function, and when it was stored -/
  regs : Nat → Nat → Option (Nat × Option Nat) := fun _ _ => none
  /-- `g_conn_refs` -/
  refs : Int := 0
  /-- the process `g_pipe` leads to -/
  conn : Option Nat := none
  /-- the connections made so far -/
  made : Nat := 0
  stack : List Sent := []
  /-- the process that last handed out an id -/
  issuer : Nat → Option Nat := fun _ => none

inductive Event (β : Type) where
  /-- a stub is called; `connects`: a connection can be made -/
  | enter (c : Call) (connects : Bool)
  /-- the innermost request ends -/
  | finish (o : Outcome β)

namespace Memory

variable {β : Type}

/-! ## The memory -/

/-- `ARPC_CB_SLOTS` -/
def cbSlots : Nat := 32

/-- The storing part of `arpc_cb_register`. -/
def cbStore (m : Memory β) (handle kind : Nat) (fn : Option Nat) : Memory β :=
  { m with
    regs := Function.update m.regs handle
      (Function.update (m.regs handle) kind (fn.map fun f => (f, m.conn))) }

def arpcCallbacksPurge (m : Memory β) (handle : Nat) : Memory β :=
  { m with regs := Function.update m.regs handle fun _ => none }

/-- What a column has for the member at `slot`. -/
def cell (wantStr : Bool) (c : Column) (slot : Nat) : Recalled :=
  match wantStr, c.cells with
  | true, .str cells => .str cells[slot]?.join
  | true, .num _ => .str none
  | false, .num cells => .num ((cells[slot]?).getD 0)
  | false, .str _ => .num 0

/-- What a stub returns without a request, and when that was stored. -/
def fromMemory (m : Memory β) : Call → Option (Recalled × Option Nat)
  | .borrowed owner key => do
    let p ← m.cache.findOwned owner key
    match p.value with
    | .obj (at_, _) => some (.value p.num, at_)
    | .str _ => none
  | .field pkg field wantStr => do
    if pkg = 0 then none
    else
      let p ← m.cache.groups.findSlot pkg
      let x ← m.cache.groups.deref p.g
      let c ← x.cols.find? (·.field = field)
      some (cell wantStr c p.slot, ((m.stamps p.g).find? (·.1 = field)).bind (·.2))
  | .getCallback handle kind =>
    if kind < cbSlots then (m.regs handle kind).map fun r => (.fn r.1, r.2) else none
  | _ => none

/-! ## Requests -/

/-- `arpc_begin` -/
def arpcBegin (m : Memory β) (c : Call) (group : Nat) (connects : Bool) : Memory β :=
  match m.conn with
  | some n => { m with stack := ⟨c, n, group⟩ :: m.stack }
  | none =>
    if connects then
      { m with conn := some m.made, made := m.made + 1, stack := ⟨c, m.made, group⟩ :: m.stack }
    else m

/-- The stub of a batched accessor whose column is not there; through a group that was freed there is
no telling. -/
def enterField (m : Memory β) (pkg : Nat) (field : Bytes) (wantStr connects : Bool) :
    Option (Memory β) :=
  match m.cache.groups.groupForPkg pkg with
  | (s, none) => some { m with cache := { m.cache with groups := s } }
  | (s, some (g, _)) => do
    let _ ← s.deref g
    return { m with cache := { m.cache with groups := s } }.arpcBegin (.field pkg field wantStr) g
      connects

/-- A stub that has nothing in memory. -/
def enter (m : Memory β) (c : Call) (connects : Bool) : Option (Memory β) :=
  match c with
  | .getCallback _ _ => some m
  | .setCallback handle kind fn =>
    if kind < cbSlots then some ((m.cbStore handle kind fn).arpcBegin c 0 connects) else some m
  | .field pkg field wantStr =>
    if pkg = 0 then some m else m.enterField pkg field wantStr connects
  | c => some (m.arpcBegin c 0 connects)

/-- The caller has the ids of a reply. -/
def hand (m : Memory β) (ids : List Nat) : Memory β :=
  { m with issuer := fun id => if id ∈ ids then m.conn else m.issuer id }

/-- `build_list_*` of each list of packages. -/
def register (m : Memory β) (lists : List (List Nat)) : Memory β :=
  { m with cache := { m.cache with
    groups := lists.foldl Groups.arpcPkgGroupRegister m.cache.groups } }

/-- The end of `fetch_column`. -/
def storeColumn (m : Memory β) (g : Nat) (field : Bytes) (wantStr : Bool) (ret : Option Tree) :
    Option (Memory β) := do
  let x ← m.cache.groups.deref g
  let c : Column := ⟨field, Groups.fetchCells wantStr x.ids.length (children ret)⟩
  return { m with
    cache := { m.cache with groups := m.cache.groups.setCols g (c :: x.cols) }
    stamps := Function.update m.stamps g ((field, m.conn) :: m.stamps g) }

/-- `arpc_drop_column` -/
def arpcDropColumn (m : Memory β) (pkg : Nat) (field : Bytes) : Option (Memory β) := do
  let s ← m.cache.groups.dropColumn pkg field
  return { m with
    cache := { m.cache with groups := s }
    stamps := match m.cache.groups.findSlot pkg with
      | some p => Function.update m.stamps p.g ((m.stamps p.g).eraseP (·.1 = field))
      | none => m.stamps }

/-- `arpc_purge_root` -/
def purgeRoot (m : Memory β) (handle : Nat) : Memory β :=
  { m with cache := m.cache.arpcPurgeRoot handle }.arpcCallbacksPurge handle

/-- `arpc_conn_unref` -/
def arpcConnUnref (m : Memory β) : Memory β :=
  let m := { m with refs := m.refs - 1 }
  if m.refs > 0 then m else { m with conn := none }

/-- The rest of `after_call` of a stub that does not destroy a handle. -/
def afterCall (m : Memory β) (first : Nat) (destroys : Bool) (scope : List Nat) (wholeRoot : Bool)
    (keys columns : List Bytes) : Option (Memory β) :=
  let c := if destroys then m.cache.arpcPurgeOwner first else m.cache
  let c := scope.foldl (fun c o => c.arpcDetach o wholeRoot keys) c
  columns.foldlM (fun m f => m.arpcDropColumn first f) { m with cache := c }

/-- The end of a stub whose request was answered. -/
def after (m : Memory β) (s : Sent) (r : Answer β) : Option (Memory β) :=
  match s.call with
  | .borrowed owner key => do
    let m := m.register r.lists
    return { m with cache := (← m.cache.arpcCache owner key (m.conn, r.value) 1).1 }
  | .str owner key => do
    return { m with cache := (← m.cache.intern owner key r.str).1 }
  | .field _ field wantStr => m.storeColumn s.group field wantStr r.ret
  | .creates => some (if r.ids.isEmpty then m else { m with refs := m.refs + 1 })
  | .destroysHandle handle => some (m.purgeRoot handle).arpcConnUnref
  | .other first destroys scope wholeRoot keys columns =>
    (m.register r.lists).afterCall first destroys scope wholeRoot keys columns
  | _ => some m

/-- One event. A reply comes from the process the request was sent to; `none` when the event cannot
happen. -/
def step (m : Memory β) : Event β → Option (Memory β)
  | .enter c connects => if (m.fromMemory c).isSome then some m else m.enter c connects
  | .finish o =>
    match m.stack with
    | [] => none
    | s :: rest =>
      let m := { m with stack := rest }
      match o with
      | .lost => some { m with conn := none }
      | .refused => some m
      | .answered r => if m.conn = some s.proc then (m.hand r.ids).after s r else none

/-! ## Whose it is -/

/-- What is kept under `id` with this stamp is its issuer's. -/
def OfIssuer (m : Memory β) (id : Nat) (at_ : Option Nat) : Prop :=
  id ≠ 0 → at_.isSome = true ∧ at_ = m.issuer id

/-- What a stub returns from memory for an id was stored while connected to the process that issued
the id. -/
def OwnMemory (m : Memory β) : Event β → Prop
  | .enter c _ => ∀ r ∈ m.fromMemory c, m.OfIssuer c.id r.2
  | .finish _ => True

/-- Nothing is kept under `id` that a stub could return. -/
structure Blank (m : Memory β) (id : Nat) : Prop where
  entries : ∀ e ∈ m.cache.owned, e.owner = id → e.value.isStr = true
  columns : ∀ p ∈ m.cache.groups.slots, p.id = id → m.stamps p.g = []
  callbacks : ∀ kind < cbSlots, m.regs id kind = none

/-- The process connected to issued `id`. -/
def Here (m : Memory β) (id : Nat) : Prop := id ≠ 0 → m.conn.isSome = true ∧ m.issuer id = m.conn

/-- The stub of `s` keeps its result under ids of the process connected to. -/
def KeepsHere (m : Memory β) (s : Sent) : Prop :=
  match s.call with
  | .borrowed owner _ => m.Here owner
  | .field _ _ _ => ∀ p ∈ m.cache.groups.slots, p.g = s.group → m.Here p.id
  | _ => True

/-- The steps that keep sessions apart: no process hands out an id under which something of another
is kept, and what is stored is stored under ids of the process connected to. -/
def Apart (m : Memory β) : Event β → Prop
  | .enter (.setCallback handle _ _) _ => m.Here handle
  | .finish (.answered r) =>
    (∀ id ∈ r.ids, m.issuer id ≠ m.conn → m.Blank id) ∧
      ∀ s ∈ m.stack.head?, m.KeepsHere s
  | _ => True

/-! ## Deciding them -/

instance (m : Memory β) (id : Nat) (at_ : Option Nat) : Decidable (m.OfIssuer id at_) := by
  unfold OfIssuer
  infer_instance

instance (m : Memory β) (id : Nat) : Decidable (m.Here id) := by
  unfold Here
  infer_instance

instance (m : Memory β) (id : Nat) : Decidable (m.Blank id) :=
  decidable_of_iff ((∀ e ∈ m.cache.owned, e.owner = id → e.value.isStr = true) ∧
      (∀ p ∈ m.cache.groups.slots, p.id = id → m.stamps p.g = []) ∧
      ∀ kind < cbSlots, m.regs id kind = none)
    ⟨fun h => ⟨h.1, h.2.1, h.2.2⟩, fun h => ⟨h.entries, h.columns, h.callbacks⟩⟩

instance (m : Memory β) (s : Sent) : Decidable (m.KeepsHere s) := by
  unfold KeepsHere
  split <;> infer_instance

instance (m : Memory β) (e : Event β) : Decidable (m.OwnMemory e) := by
  unfold OwnMemory
  split <;> infer_instance

instance (m : Memory β) (e : Event β) : Decidable (m.Apart e) := by
  unfold Apart
  split <;> infer_instance

end Memory

end Client
