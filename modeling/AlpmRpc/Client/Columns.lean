import AlpmRpc.Common.Wire
import AlpmRpc.Gen.Record

/-!
# Batched package fields

`src/client/arpc_client.c`, the groups of packages and their columns. A `pkg_group *` is the group's
number, and reading through one that was freed gives `none`; `g_slots`, a uthash table, is a list
with one slot for each id. Allocations succeed.
-/

set_option autoImplicit false

namespace Client

open Wire Json Gen

/-- `str` or `num` of a column, one cell for each member. -/
inductive Cells where
  | str (cells : List (Option CStr))
  | num (cells : List Int)
  deriving DecidableEq

/-- `column` -/
structure Column where
  field : Bytes
  cells : Cells
  deriving DecidableEq

/-- `pkg_group`, with its number -/
structure PkgGroup where
  num : Nat
  ids : List Nat
  cols : List Column := []
  deriving DecidableEq

/-- `pkg_slot` -/
structure PkgSlot where
  id : Nat
  g : Nat
  slot : Nat
  deriving DecidableEq

/-- `g_groups`, `g_slots` -/
structure Groups where
  groups : List PkgGroup := []
  slots : List PkgSlot := []
  nextGroup : Nat := 0
  deriving DecidableEq

namespace Groups

/-- Through a `pkg_group *`. -/
def deref (s : Groups) (g : Nat) : Option PkgGroup := s.groups.find? (·.num = g)

def setCols (s : Groups) (g : Nat) (cols : List Column) : Groups :=
  { s with groups := s.groups.map fun x => if x.num = g then { x with cols } else x }

/-- `HASH_FIND` on `g_slots` -/
def findSlot (s : Groups) (id : Nat) : Option PkgSlot := s.slots.find? (·.id = id)

/-! ## Groups -/

def groupRoot (g : PkgGroup) : Option Nat := g.ids.head?.map arpcRoot

def freeGroupsOf (s : Groups) (root : Nat) : Groups :=
  { s with
    groups := s.groups.filter fun g => groupRoot g ≠ some root
    slots := s.slots.filter fun p => arpcRoot p.id ≠ root }

/-- The loop of `group_new` for group `g` from member `i` on. -/
def place (g : Nat) : List Nat → Nat → List PkgSlot → List PkgSlot
  | [], _, slots => slots
  | id :: ids, i, slots =>
    if slots.any (·.id = id) then place g ids (i + 1) slots
    else place g ids (i + 1) (slots ++ [⟨id, g, i⟩])

/-- The group's number, `none` when no member was placed. -/
def groupNew (s : Groups) (ids : List Nat) : Groups × Option Nat :=
  let slots := place s.nextGroup ids 0 s.slots
  if slots.length = s.slots.length then (s, none)
  else
    ({ groups := ⟨s.nextGroup, ids, []⟩ :: s.groups, slots, nextGroup := s.nextGroup + 1 },
      some s.nextGroup)

def arpcPkgGroupRegister (s : Groups) (ids : List Nat) : Groups :=
  if ids = [] then s else (s.groupNew ids).1

/-- The group and the place of a package, a group of one for a package of no list. -/
def groupForPkg (s : Groups) (id : Nat) : Groups × Option (Nat × Nat) :=
  match s.findSlot id with
  | some p => (s, some (p.g, p.slot))
  | none => ((s.groupNew [id]).1, (s.groupNew [id]).2.map fun g => (g, 0))

/-! ## Columns -/

/-- `aj_str` and `arpc_dup` of an element -/
def strCell (e : Option Tree) : Option CStr := (ajStr e none).map CStr.dup

/-- The cells `fetch_column` fills for `n` members from the elements of the reply. -/
def fetchCells (wantStr : Bool) (n : Nat) (es : List Tree) : Cells :=
  if wantStr then .str ((List.range n).map fun i => strCell es[i]?)
  else .num ((List.range n).map fun i => ajI64 es[i]? 0)

/-- `column_for`: the column of a group, fetched with `reply` when the group has none; the reply is
`none` when the call fails. -/
def columnFor (s : Groups) (g : Nat) (field : Bytes) (wantStr : Bool)
    (reply : List Nat → Option (Option Tree)) : Option (Groups × Option Column) := do
  let x ← s.deref g
  match x.cols.find? (·.field = field) with
  | some c => return (s, some c)
  | none =>
    match reply x.ids with
    | none => return (s, none)
    | some ret =>
      let c := ⟨field, fetchCells wantStr x.ids.length (children ret)⟩
      return (s.setCols g (c :: x.cols), some c)

/-- The elements of `params` of the request `fetch_column` makes. -/
def fetchParams (ids : List Nat) (field : Bytes) : List Tree :=
  [.arr (ids.map fun (id : Nat) => .num (toI64 id)), .str field]

def arpcPkgFieldStr (s : Groups) (id : Nat) (field : Bytes)
    (reply : List Nat → Option (Option Tree)) : Option (Groups × Option CStr) :=
  if id = 0 then some (s, none)
  else match s.groupForPkg id with
    | (s, none) => some (s, none)
    | (s, some (g, slot)) => do
      match ← s.columnFor g field true reply with
      | (s, some ⟨_, .str cells⟩) => return (s, cells[slot]?.join)
      | (s, _) => return (s, none)

def arpcPkgFieldI64 (s : Groups) (id : Nat) (field : Bytes)
    (reply : List Nat → Option (Option Tree)) : Option (Groups × Int) :=
  if id = 0 then some (s, 0)
  else match s.groupForPkg id with
    | (s, none) => some (s, 0)
    | (s, some (g, slot)) => do
      match ← s.columnFor g field false reply with
      | (s, some ⟨_, .num cells⟩) => return (s, (cells[slot]?).getD 0)
      | (s, _) => return (s, 0)

/-- `arpc_drop_column`: the first column of that field. -/
def dropColumn (s : Groups) (pkg : Nat) (field : Bytes) : Option Groups :=
  match s.findSlot pkg with
  | none => some s
  | some p => do
    let x ← s.deref p.g
    return s.setCols p.g (x.cols.eraseP (·.field = field))

end Groups

end Client
