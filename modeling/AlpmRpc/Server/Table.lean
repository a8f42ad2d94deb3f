import AlpmRpc.Common.Wire
import AlpmRpc.Lib.Probe

/-!
# The server's handle table

`src/server/arpc_server.c`, the handle table: two open-addressed indexes over one array of slots,
by id (`tab`) and by (pointer, tag) (`byptr`, which holds slot numbers plus one).

A probe loop of the source has no bound of its own. Here it is cut after `cap` probes, which is
once around the table: `none` stands for a loop that never ends, and every function that looks a
slot up returns an `Option` for that reason. Arrays are maps from an index (`calloc` is the map to
the zero value); allocations succeed. Pointers and function pointers are words, `0` is `NULL`.
-/

set_option autoImplicit false

namespace Server

open Wire

/-- `arpc_handle_tag` -/
inductive HandleTag where
  | none | changelog | db | handle | pkg
  deriving DecidableEq, Repr

/-- The enumerator's value. -/
def HandleTag.val : HandleTag → Nat
  | .none => 0
  | .changelog => 1
  | .db => 2
  | .handle => 3
  | .pkg => 4

/-- `slot` -/
structure Slot where
  /-- `0` is an empty slot -/
  id : Nat := 0
  ptr : Nat := 0
  owner : Nat := 0
  tag : HandleTag := .none
  /-- adopted: called when the slot is dropped -/
  release : Nat := 0
  deriving DecidableEq, Repr

/-- `g_tab`, `g_byptr`, `g_cap`, `g_used`, `g_next_seq`, `g_next_root`, and the calls of release
functions made so far (function, argument). -/
structure Table where
  tab : Nat → Slot := fun _ => {}
  byptr : Nat → Nat := fun _ => 0
  cap : Nat := 0
  used : Nat := 0
  nextSeq : Nat := 1
  nextRoot : Nat := 1
  released : List (Nat × Nat) := []

/-- Fibonacci hashing of `x` to `mask + 1` cells. -/
def mix (x mask : Nat) : Nat := ((x * 11400714819323198485 % 2 ^ 64) >>> 32) &&& mask

/-- The cell after `i`. -/
def nextCell (cap i : Nat) : Nat := (i + 1) &&& (cap - 1)

def slotFor (tab : Nat → Slot) (cap id : Nat) : Option Nat :=
  Probe.search (nextCell cap) (fun i => (tab i).id == 0 || (tab i).id == id) cap
    (mix id (cap - 1))

/-- The `byptr` cell for (`p`, `tag`): the one pointing at its slot, or the empty one where it
would go. -/
def ptrFor (tab : Nat → Slot) (byptr : Nat → Nat) (cap p : Nat) (tag : HandleTag) : Option Nat :=
  Probe.search (nextCell cap)
    (fun i => byptr i == 0 || ((tab (byptr i - 1)).ptr == p && (tab (byptr i - 1)).tag == tag)) cap
    (mix (p ^^^ (tag.val <<< 56)) (cap - 1))

def indexPtr (tab : Nat → Slot) (byptr : Nat → Nat) (cap si : Nat) : Option (Nat → Nat) := do
  let j ← ptrFor tab byptr cap (tab si).ptr (tab si).tag
  return Function.update byptr j (si + 1)

/-! ## Rebuilding -/

/-- What `rebuild` builds: `nt`, `np`, `used`, and the release calls it makes. -/
structure Rebuilt where
  nt : Nat → Slot := fun _ => {}
  np : Nat → Nat := fun _ => 0
  used : Nat := 0
  released : List (Nat × Nat)

/-- One turn of `rebuild`'s loop, at the old slot `s`. -/
def rebuildSlot (ncap : Nat) (keep : Slot → Option Bool) (r : Rebuilt) (s : Slot) :
    Option Rebuilt := do
  if s.id = 0 then
    return r
  if !(← keep s) then
    return if s.release = 0 then r else { r with released := r.released ++ [(s.release, s.ptr)] }
  let si ← slotFor r.nt ncap s.id
  let nt := Function.update r.nt si s
  let np ← indexPtr nt r.np ncap si
  return { r with nt, np, used := r.used + 1 }

/-- Both indexes at `ncap` cells, with the slots `keep` accepts. -/
def rebuild (t : Table) (ncap : Nat) (keep : Slot → Option Bool) : Option Table := do
  let r ← (List.range t.cap).foldlM (fun r i => rebuildSlot ncap keep r (t.tab i))
    { released := t.released }
  return { t with tab := r.nt, byptr := r.np, cap := ncap, used := r.used, released := r.released }

/-! ## Lookup -/

/-- The index of `id`'s slot. -/
def find (t : Table) (id : Nat) : Option (Option Nat) :=
  if id = 0 ∨ t.cap = 0 then some none
  else do
    let i ← slotFor t.tab t.cap id
    return if (t.tab i).id = id then some i else none

def findPtr (t : Table) (p : Nat) (tag : HandleTag) : Option (Option Nat) :=
  if p = 0 ∨ t.cap = 0 then some none
  else do
    let i ← ptrFor t.tab t.byptr t.cap p tag
    return if t.byptr i = 0 then none else some (t.byptr i - 1)

/-- The owner of `id`, `0` when `id` has no slot. -/
def ownerOf (t : Table) (id : Nat) : Option Nat := do
  match ← find t id with
  | some i => return (t.tab i).owner
  | none => return 0

/-- The loop of `under`, `depth` turns from its end. -/
def underLoop (t : Table) (o : Nat) : Nat → Nat → Option Bool
  | 0, _ => some false
  | depth + 1, id =>
    if id = 0 then some false
    else if id = o then some true
    else do underLoop t o depth (← ownerOf t id)

/-- Is `id` the object `o` itself, or somewhere below it? -/
def under (t : Table) (id o : Nat) : Option Bool := underLoop t o 8 id

/-! ## The operations -/

/-- The root of a new object's id, and the root counter after it. -/
def newRoot (nextRoot owner : Nat) (tag : HandleTag) : Nat × Nat :=
  if owner ≠ 0 then (arpcRoot owner, nextRoot)
  else if tag = .handle then (nextRoot, (nextRoot + 1) % 2 ^ 64)
  else (0, nextRoot)

/-- `rebuild` at twice the size when one more slot would fill three quarters. -/
def grow (t : Table) : Option Table :=
  if (t.used + 1) * 4 ≥ t.cap * 3 then
    rebuild t (if t.cap ≠ 0 then t.cap * 2 else 256) fun _ => some true
  else some t

/-- The end of `arpc_handle_put`: a slot and an id for an object not in the table. -/
def putNew (t : Table) (ptr : Nat) (tag : HandleTag) (owner : Nat) : Option (Table × Nat) := do
  let t ← grow t
  let (root, nextRoot) := newRoot t.nextRoot owner tag
  let id := mkId root t.nextSeq
  let i ← slotFor t.tab t.cap id
  let tab := Function.update t.tab i { id, ptr, owner, tag, release := 0 }
  let byptr ← indexPtr tab t.byptr t.cap i
  return ({ t with tab, byptr, used := t.used + 1, nextSeq := (t.nextSeq + 1) % 2 ^ 64, nextRoot },
    id)

def arpcHandlePut (t : Table) (ptr : Nat) (tag : HandleTag) (owner : Nat) :
    Option (Table × Nat) := do
  if ptr = 0 then
    return (t, 0)
  match ← findPtr t ptr tag with
  | some i =>
    let old := t.tab i
    -- first filed under an ancestor of this owner: re-filed under the closer one
    if owner ≠ 0 ∧ owner ≠ old.owner ∧ (← under t owner old.owner) = true then
      return ({ t with tab := Function.update t.tab i { old with owner } }, old.id)
    return (t, old.id)
  | none => putNew t ptr tag owner

def arpcHandleAdopt (t : Table) (ptr owner release : Nat) : Option (Table × Nat) := do
  let (t, id) ← arpcHandlePut t ptr .none owner
  match ← find t id with
  | some i => return ({ t with tab := Function.update t.tab i { t.tab i with release } }, id)
  | none => return (t, id)

def arpcHandleGet (t : Table) (id : Nat) (tag : HandleTag) : Option Nat := do
  match ← find t id with
  | some i => return if (t.tab i).tag = tag then (t.tab i).ptr else 0
  | none => return 0

/-- The loop of `arpc_ancestor`, `depth` turns from its end. -/
def ancestorLoop (t : Table) (tag : HandleTag) : Nat → Nat → Nat → Option Nat
  | 0, _, top => some top
  | depth + 1, id, top =>
    if id = 0 then some top
    else do
      match ← find t id with
      | none => return top
      | some i =>
        if tag ≠ .none ∧ (t.tab i).tag = tag then return id
        else ancestorLoop t tag depth (t.tab i).owner id

def arpcAncestor (t : Table) (id : Nat) (tag : HandleTag) : Option Nat := ancestorLoop t tag 8 id id

def keepNot (id : Nat) (s : Slot) : Option Bool := some (s.id ≠ id)

def keepOutside (t : Table) (o : Nat) (s : Slot) : Option Bool := do return !(← under t s.id o)

def keepOutsideOrSelf (t : Table) (o : Nat) (s : Slot) : Option Bool :=
  if s.id = o then some true else do return !(← under t s.id o)

def dropMatching (t : Table) (keep : Slot → Option Bool) : Option Table :=
  if t.cap = 0 then some t else rebuild t t.cap keep

def arpcHandleDrop (t : Table) (id : Nat) : Option Table := do
  match ← find t id with
  | some _ => dropMatching t (keepNot id)
  | none => return t

/-- The table's part of `arpc_handle_drop_owner`. -/
def arpcHandleDropOwner (t : Table) (owner : Nat) : Option Table :=
  if owner = 0 then some t else dropMatching t (keepOutside t owner)

def arpcHandleDropUnder (t : Table) (owner : Nat) : Option Table :=
  if owner = 0 then some t else dropMatching t (keepOutsideOrSelf t owner)

def arpcHandleDropPtr (t : Table) (ptr : Nat) (tag : HandleTag) : Option Table := do
  match ← findPtr t ptr tag with
  | some i => arpcHandleDropOwner t (t.tab i).id
  | none => return t

/-- The release calls of `arpc_handle_reset`, in slot order. -/
def resetCalls (t : Table) : List (Nat × Nat) :=
  (List.range t.cap).filterMap fun i =>
    if (t.tab i).id ≠ 0 ∧ (t.tab i).release ≠ 0 then some ((t.tab i).release, (t.tab i).ptr)
    else none

def arpcHandleReset (t : Table) : Table :=
  { nextSeq := t.nextSeq, nextRoot := t.nextRoot, released := t.released ++ resetCalls t }

end Server
