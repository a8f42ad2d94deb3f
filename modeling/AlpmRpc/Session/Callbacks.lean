import AlpmRpc.Common.Json
import Mathlib.Data.List.Nodup

/-!
# Callback registration

Both halves of `arpc_callbacks.c`: the caller's functions in the client's registry, and in the
server's which kinds the client asked for. A call of `arpc_cb_register` fails where memory, the
connection, the server or libalpm fails, which `Env` says; a pointer is a number, `0` for
`NULL`.
-/

set_option autoImplicit false

namespace Callbacks

open Json

/-! ## The registries -/

/-- `g_regs`: an entry for a handle, the newest first. -/
abbrev Regs (α : Type) := List (Nat × α)

namespace Regs

variable {α : Type}

/-- `reg_for(handle, 1)`, with `blank` from `calloc`; `none` when out of memory. -/
def regFor (rs : Regs α) (handle : Nat) (blank : α) (mem : Bool) : Option (Regs α) :=
  if (rs.lookup handle).isSome then some rs
  else if mem then some ((handle, blank) :: rs)
  else none

/-- A write through what `reg_for` returns. -/
def write (handle : Nat) (f : α → α) : Regs α → Regs α
  | [] => []
  | (h, a) :: rs => if h = handle then (h, f a) :: rs else (h, a) :: write handle f rs

/-- `arpc_callbacks_purge`, `arpc_cb_purge` -/
def purge (rs : Regs α) (handle : Nat) : Regs α := rs.filter fun r => r.1 ≠ handle

end Regs

/-- `ARPC_CB_SLOTS` -/
def slots : Nat := 32

/-- `reg` -/
structure Reg where
  fn : Fin slots → Nat := fun _ => 0
  ctx : Fin slots → Nat := fun _ => 0

/-- `kind >= 0 && kind < ARPC_CB_SLOTS` -/
def slotOf (kind : Int) : Option (Fin slots) :=
  if h : 0 ≤ kind ∧ kind < 32 then some ⟨kind.toNat, by unfold slots; omega⟩ else none

/-- The names of `arpc_cb_kinds`, of which the generator emits at most one for each bit. -/
structure Kinds where
  names : List Bytes
  nodup : names.Nodup
  named : [] ∉ names
  fit : names.length ≤ slots

/-- The name a setter of this kind passes; no setter is generated for other kinds. -/
def Kinds.wire (k : Kinds) (kind : Int) : Bytes := k.names.getD kind.toNat []

/-! ## The system -/

/-- The handles live on the server, both registries, and what the last call returned. -/
structure State where
  handles : List Nat := []
  client : Regs Reg := []
  server : Regs (BitVec slots) := []
  rc : Int := 0

/-- How a call goes, apart from what is decided by its arguments. -/
structure Env where
  /-- `calloc` succeeds, in the client and in the server -/
  clientMem : Bool := true
  serverMem : Bool := true
  /-- the request arrives, and its reply does -/
  arrives : Bool := true
  returns : Bool := true
  /-- what libalpm returns -/
  answer : Int := 0

def arpcCbFn (s : State) (handle : Nat) (kind : Int) : Nat :=
  match s.client.lookup handle, slotOf kind with
  | some r, some i => r.fn i
  | _, _ => 0

def arpcCbCtx (s : State) (handle : Nat) (kind : Int) : Nat :=
  match s.client.lookup handle, slotOf kind with
  | some r, some i => r.ctx i
  | _, _ => 0

/-- `1u << kind` -/
def bit (kind : Nat) : BitVec slots := BitVec.ofNat slots 1 <<< kind

def arpcCbWanted (s : State) (handle kind : Nat) : Bool :=
  match s.server.lookup handle with
  | some enabled => enabled &&& bit kind != 0
  | none => false

/-- The loop over `arpc_cb_kinds`. -/
def kindLoop (which : Bytes) : List Bytes → Nat → Option Nat → Option Nat
  | [], _, kind => kind
  | name :: names, i, kind => kindLoop which names (i + 1) (if name = which then some i else kind)

def setBit (enabled : BitVec slots) (kind : Nat) (on : Bool) : BitVec slots :=
  if on then enabled ||| bit kind else enabled &&& ~~~bit kind

/-- The registry, and what the reply has; `none` is an error. -/
def arpcCbSet (k : Kinds) (s : State) (hid : Nat) (which : Bytes) (enabled : Bool) (env : Env) :
    Regs (BitVec slots) × Option Int :=
  -- `NULL` is no bad argument
  if hid ≠ 0 ∧ hid ∉ s.handles then (s.server, none)
  else match kindLoop which k.names 0 none with
    | none => (s.server, none)
    | some kind =>
      match s.server.regFor hid 0 env.serverMem with
      | none => (s.server, none)
      | some rs => (rs.write hid (setBit · kind enabled), some env.answer)

def setRemote (k : Kinds) (s : State) (handle : Nat) (which : Bytes) (enabled : Bool) (env : Env) :
    State :=
  if env.arrives then
    let (server, r) := arpcCbSet k s handle which enabled env
    { s with server, rc := if env.returns then r.getD (-1) else -1 }
  else { s with rc := -1 }

def arpcCbRegister (k : Kinds) (s : State) (handle : Nat) (kind : Int) (fn ctx : Nat) (env : Env) :
    State :=
  match s.client.regFor handle {} env.clientMem with
  | none => { s with rc := -1 }
  | some rs =>
    match slotOf kind with
    | none => { s with client := rs, rc := -1 }
    | some i =>
      let client := rs.write handle fun r =>
        { fn := Function.update r.fn i fn, ctx := Function.update r.ctx i ctx }
      setRemote k { s with client } handle (k.wire kind) (fn ≠ 0) env

/-- `alpm_release` in both processes, as far as it is about callbacks. -/
def alpmRelease (s : State) (handle : Nat) (env : Env) : State :=
  if ¬env.arrives then { s with rc := -1 }
  else if handle ≠ 0 ∧ handle ∉ s.handles then { s with rc := -1 }
  else
    let s := if handle = 0 then s else
      { s with handles := s.handles.filter (· ≠ handle), server := s.server.purge handle }
    if env.returns then { s with client := s.client.purge handle, rc := env.answer } else { s with rc := -1 }

inductive Event where
  /-- `alpm_initialize`; the handle table gives an id that is not in it -/
  | create (id : Nat)
  | register (handle : Nat) (kind : Int) (fn ctx : Nat) (env : Env)
  | release (handle : Nat) (env : Env)

def step (k : Kinds) (s : State) : Event → Option State
  | .create id =>
    if id = 0 ∨ id ∈ s.handles then none else some { s with handles := id :: s.handles, rc := 0 }
  | .register handle kind fn ctx env => some (arpcCbRegister k s handle kind fn ctx env)
  | .release handle env => some (alpmRelease s handle env)

/-! ## What is meant -/

/-- A registration is all or nothing, the registries agree, and both know live handles only. -/
structure AllOrNothing (s : State) (ev : Event) (s' : State) : Prop where
  nothing : ∀ handle kind fn ctx env, ev = .register handle kind fn ctx env → s'.rc ≠ 0 →
    ∀ h j, arpcCbFn s' h j = arpcCbFn s h j ∧ arpcCbCtx s' h j = arpcCbCtx s h j
  agree : ∀ handle kind fn ctx env, ev = .register handle kind fn ctx env → s'.rc = 0 →
    handle ∈ s.handles → (arpcCbWanted s' handle kind.toNat = true ↔ arpcCbFn s' handle kind ≠ 0) ∧
      ∀ h j, j < slots → ¬(h = handle ∧ (j : Int) = kind) → arpcCbWanted s' h j = arpcCbWanted s h j
  gone : ∀ id, id ∉ s'.handles → s'.client.lookup id = none ∧ s'.server.lookup id = none

/-- The whole way of a registration succeeds. -/
structure Succeeds (k : Kinds) (s : State) (handle : Nat) (kind : Int) (env : Env) : Prop where
  known : kind.toNat < k.names.length
  arrives : env.arrives = true
  room : (s.server.lookup handle).isSome = true ∨ env.serverMem = true
  answer : env.answer = 0
  returns : env.returns = true

/-- A registration that makes an entry is for a live handle, and one that fails asks for what is
there; a release that is done is heard of, where the client has something to forget. -/
def Clean (k : Kinds) (s : State) (ev : Event) (_ : State) : Prop :=
  match ev with
  | .create _ => True
  | .register handle kind fn ctx env =>
    (s.client.lookup handle).isSome = true ∨ env.clientMem = true →
      handle ∈ s.handles ∧ (0 ≤ kind ∧ kind < 32 →
        (arpcCbFn s handle kind = fn ∧ arpcCbCtx s handle kind = ctx) ∨ Succeeds k s handle kind env)
  | .release handle env =>
    handle ≠ 0 → handle ∈ s.handles → env.arrives = true →
      env.returns = true ∨ s.client.lookup handle = none

end Callbacks
