import AlpmRpc.Session.Columns
import AlpmRpc.Lib.Run
import Mathlib.Logic.Function.Basic

/-!
# Columns fetched while others are

`column_for` looks for a column, and `fetch_column` adds one after a round trip in which the server may
call back, and the callback's function do anything: fetch columns, the same one included, and set
reasons. Here a fetch begins, the server reads the members' values one after another, and the reply is
stored, with callbacks in between to any depth. Beside each column stands the memory it is in and how
many reasons had been set when each value was read. Pipes do not fail and allocations succeed; the
handle lives.
-/

set_option autoImplicit false

namespace Session

open Wire Json Client

/-- A column, and what the client cannot see of it. -/
structure Kept where
  col : Column
  /-- the memory it is in -/
  num : Nat
  /-- for each member, how many reasons had been set when the server read its value -/
  read : List Nat
  deriving DecidableEq

/-- The string of the member at `slot`: its memory; `none` is `NULL`. -/
def Kept.ptr (k : Kept) (slot : Nat) : Option (Nat × Nat) :=
  match k.col.cells with
  | .str cells => cells[slot]?.join.map fun _ => (k.num, slot)
  | .num _ => none

def Kept.time (k : Kept) (slot : Nat) : Nat := k.read.getD slot 0

/-- What a read returned. -/
structure Returned where
  id : Nat
  field : Bytes
  ptr : Option (Nat × Nat)
  /-- how many reasons had been set when the server read the value -/
  time : Nat
  /-- the last setting of the package's reason that had returned -/
  due : Nat
  deriving DecidableEq

/-- What the client is inside of. -/
inductive Pending where
  /-- `fetch_column`, for the member `id` at `slot`; `got` is what the server has read, and when -/
  | fetch (id g slot : Nat) (field : Bytes) (got : List (Tree × Nat))
  /-- `alpm_pkg_set_reason`; `effect` is its number, once the server has set it -/
  | setReason (id : Nat) (effect : Option Nat)
  /-- any other stub -/
  | other
  /-- a callback's function -/
  | callback

structure Fetching where
  groups : Groups := {}
  /-- the columns of each group, in the group's order -/
  kept : Nat → List Kept := fun _ => []
  /-- the columns made so far -/
  made : Nat := 0
  /-- the reasons set so far -/
  sets : Nat := 0
  /-- the last setting of a package's reason that has returned -/
  settled : Nat → Nat := fun _ => 0
  stack : List Pending := []
  reads : List Returned := []

namespace Fetching

inductive Event where
  /-- a package list is materialised -/
  | register (ids : List Nat)
  /-- a batched accessor is called -/
  | read (id : Nat) (field : Bytes)
  | setReason (id : Nat)
  | other
  /-- the server reads the next member's value -/
  | serve (v : Tree)
  /-- the server sets the reason -/
  | effect
  /-- the server refuses: the package is gone -/
  | refuse
  | callback
  /-- the callback's function returns -/
  | return_
  | reply

/-- The caller's code runs. -/
def codeRuns : List Pending → Bool
  | [] => true
  | .callback :: _ => true
  | _ => false

/-- The end of `arpc_pkg_field_str` and `arpc_pkg_field_i64`. -/
def answer (w : Fetching) (id g slot : Nat) (field : Bytes) : Fetching :=
  match (w.kept g).find? (·.col.field = field) with
  | some k => { w with reads := ⟨id, field, k.ptr slot, k.time slot, w.settled id⟩ :: w.reads }
  | none => w

/-- `arpc_pkg_field_str`, `arpc_pkg_field_i64`: what is fetched is asked for. -/
def read (w : Fetching) (id : Nat) (field : Bytes) : Option Fetching :=
  if id = 0 then some w
  else match w.groups.groupForPkg id with
    | (s, none) => some { w with groups := s }
    | (s, some (g, slot)) => do
      let x ← s.deref g
      let w := { w with groups := s }
      match x.cols.find? (·.field = field) with
      | some _ => return w.answer id g slot field
      | none => return { w with stack := .fetch id g slot field [] :: w.stack }

/-- The end of `fetch_column`. -/
def store (isStr : Bytes → Bool) (w : Fetching) (g : Nat) (x : PkgGroup) (field : Bytes)
    (got : List (Tree × Nat)) : Fetching :=
  let k : Kept := {
    col := ⟨field, Groups.fetchCells (isStr field) x.ids.length (got.map (·.1))⟩
    num := w.made
    read := got.map (·.2) }
  { w with
    groups := w.groups.setCols g (k.col :: x.cols)
    kept := Function.update w.kept g (k :: w.kept g)
    made := w.made + 1 }

/-- `arpc_drop_column` -/
def dropColumn (w : Fetching) (pkg : Nat) (field : Bytes) : Option Fetching := do
  let s ← w.groups.dropColumn pkg field
  return { w with
    groups := s
    kept := match w.groups.findSlot pkg with
      | some p => Function.update w.kept p.g ((w.kept p.g).eraseP (·.col.field = field))
      | none => w.kept }

/-- The reply to the innermost exchange is in. -/
def reply (isStr : Bytes → Bool) (w : Fetching) : Option Fetching :=
  match w.stack with
  | .fetch id g slot field got :: rest => do
    let x ← w.groups.deref g
    if got.length = x.ids.length then
      return ({ w with stack := rest }.store isStr g x field got).answer id g slot field
    else none
  | .setReason id effect :: rest => do
    let w ← { w with stack := rest }.dropColumn id reasonField
    match effect with
    | some e => return { w with settled := Function.update w.settled id e }
    | none => return w
  | .other :: rest => some { w with stack := rest }
  | _ => none

def step (isStr : Bytes → Bool) (w : Fetching) : Event → Option Fetching
  | .register ids =>
    -- a list is of one handle's packages
    if codeRuns w.stack ∧ ∀ id ∈ ids, ∀ id' ∈ ids, arpcRoot id = arpcRoot id' then
      some { w with groups := w.groups.arpcPkgGroupRegister ids }
    else none
  | .read id field => if codeRuns w.stack then w.read id field else none
  | .setReason id =>
    if codeRuns w.stack then some { w with stack := .setReason id none :: w.stack } else none
  | .other => if codeRuns w.stack then some { w with stack := .other :: w.stack } else none
  | .serve v =>
    match w.stack with
    | .fetch id g slot field got :: rest =>
      some { w with stack := .fetch id g slot field (got ++ [(v, w.sets)]) :: rest }
    | _ => none
  | .effect =>
    match w.stack with
    | .setReason id none :: rest =>
      some { w with sets := w.sets + 1, stack := .setReason id (some (w.sets + 1)) :: rest }
    | _ => none
  | .refuse =>
    match w.stack with
    | .setReason _ none :: rest => some { w with stack := rest }
    | _ => none
  | .callback => if codeRuns w.stack then none else some { w with stack := .callback :: w.stack }
  | .return_ =>
    match w.stack with
    | .callback :: rest => some { w with stack := rest }
    | _ => none
  | .reply => w.reply isStr

/-! ## What is to hold of a run -/

/-- No group has two columns of a field; reads of a string return one pointer; and no read of a reason
returned, or would now, a value from before a setting that had returned. -/
structure Single (isStr : Bytes → Bool) (w : Fetching) : Prop where
  columns : ∀ x ∈ w.groups.groups, (x.cols.map (·.field)).Nodup
  pointers : ∀ r ∈ w.reads, ∀ r' ∈ w.reads, isStr r.field = true → r.id = r'.id →
    r.field = r'.field → r.ptr = r'.ptr
  reasons : ∀ r ∈ w.reads, r.field = reasonField → r.due ≤ r.time
  current : ∀ p ∈ w.groups.slots, ∀ k ∈ w.kept p.g, k.col.field = reasonField →
    w.settled p.id ≤ k.time p.slot

/-- When a column's reply comes, the group has no such column yet, and no reason in it is older than a
setting that has returned. -/
def Unshared (w : Fetching) : Event → Prop
  | .reply =>
    match w.stack with
    | .fetch _ g _ field got :: _ =>
      (∀ k ∈ w.kept g, k.col.field ≠ field) ∧
        (field = reasonField → ∀ p ∈ w.groups.slots, p.g = g →
          w.settled p.id ≤ (got.map (·.2)).getD p.slot 0)
    | _ => True
  | _ => True

instance (w : Fetching) (e : Event) : Decidable (w.Unshared e) := by
  unfold Unshared
  split
  · split <;> infer_instance
  · infer_instance

end Fetching

end Session
