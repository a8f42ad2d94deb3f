import AlpmRpc.Lib.Chain
import AlpmRpc.Server.Proof.TableRun

/-!
# The forest of owners

Who owns whom in the handle table, which owners the generated code passes to a put, and what it
means that the owners form a forest whose subtrees are what a drop removes.
-/

set_option autoImplicit false

namespace Server

open Wire Chain

/-- The owner of a live id; `none` at the top. -/
def Table.up (t : Table) (id : Nat) : Option Nat :=
  match ownerOf t id with
  | some o => if o = 0 then none else some o
  | none => none

/-- `id` is the id of an object of kind `tag`. -/
def LiveAs (t : Table) (id : Nat) (tag : HandleTag) : Prop :=
  ∃ i, find t id = some (some i) ∧ (t.tab i).tag = tag

/-- The calls the generated code makes: each put with an owner it can compute, and
`arpc_handle_drop` only of a changelog cursor. -/
def Allowed (t : Table) : Op → Prop
  | .put p .handle o => o = 0 ∨ ∃ i, findPtr t p .handle = some (some i) ∧ (t.tab i).id = o
  | .put _ .db o => LiveAs t o .handle
  | .put _ .pkg o => LiveAs t o .handle ∨ LiveAs t o .db
  | .put _ .changelog o => LiveAs t o .pkg
  | .put _ .none _ => False
  | .adopt _ o _ => LiveAs t o .handle
  | .drop id => ∀ tag, LiveAs t id tag → tag = .changelog
  | _ => True

/-- The calls `ops`, one after another. -/
def runTable (t : Table) : List Op → Option Table
  | [] => some t
  | op :: ops => do
    let (t, _) ← exec t op
    runTable t ops

/-- Every call of a run is allowed where it is made. -/
def AllowedRun (t : Table) : List Op → Prop
  | [] => True
  | op :: ops => Allowed t op ∧ ∀ t' r, exec t op = some (t', r) → AllowedRun t' ops

/-- The owners form a forest with chains of at most four, the bound of the walks is never met, and an
id has the root of its owner. -/
structure OwnerForest (t : Table) : Prop where
  acyclic : ∀ id, ¬Above t.up id id
  short : ∀ id, Ends t.up 4 id
  under_iff : ∀ id o, id ≠ 0 → (under t id o = some true ↔ id = o ∨ Above t.up id o)
  under_uncut : ∀ n, 4 ≤ n → ∀ id o, underLoop t o n id = under t id o
  ancestor_uncut : ∀ n, 4 ≤ n → ∀ id tag, ancestorLoop t tag n id id = arpcAncestor t id tag
  roots : ∀ id o, t.up id = some o → arpcRoot id = arpcRoot o

/-- The ids that `gone` names stop resolving, and every other id resolves as before. -/
def Removes (t t' : Table) (gone : Nat → Prop) : Prop :=
  ∀ id tag, (gone id → arpcHandleGet t' id tag = some 0) ∧
    (¬gone id → arpcHandleGet t' id tag = arpcHandleGet t id tag)

/-- The slots in use. -/
def Table.slots (t : Table) : List Slot := ((List.range t.cap).map t.tab).filter fun s => s.id ≠ 0

/-- The release calls owed to the adopted objects of `t` whose ids no longer resolve in `t'`. -/
def releases (t t' : Table) : List (Nat × Nat) :=
  (t.slots.filter fun s => s.release ≠ 0 ∧ find t' s.id = some none).map fun s => (s.release, s.ptr)

/-- The release function of the slot `s` after the call: an adoption sets its object's. -/
def Op.arms (s : Slot) : Op → Nat
  | .adopt p _ f => if s.ptr = p ∧ s.tag = .none then f else s.release
  | _ => s.release

/-- What one call from `t` to `t'` does: a drop removes its subtree, the release functions called are
those of the adopted objects whose slots go, each once, and a slot that stays keeps its own. -/
structure ExactStep (t : Table) (op : Op) (t' : Table) : Prop where
  dropOwner : ∀ o, op = .dropOwner o → o ≠ 0 → Removes t t' fun id => id = o ∨ Above t.up id o
  dropUnder : ∀ o, op = .dropUnder o → o ≠ 0 → Removes t t' fun id => Above t.up id o
  goes : ∀ s ∈ t.slots, op.drops t s.id → find t' s.id = some none
  stays : ∀ s ∈ t.slots, ¬op.drops t s.id → ∃ i, find t' s.id = some (some i) ∧
    (t'.tab i).ptr = s.ptr ∧ (t'.tab i).tag = s.tag ∧ (t'.tab i).release = op.arms s
  comes : ∀ s ∈ t'.slots, find t s.id = some none → s.release = op.arms { s with release := 0 }
  released : t'.released.Perm (t.released ++ releases t t')
  adopted : ∀ p o f, op = .adopt p o f → p ≠ 0 →
    ∃ i, findPtr t' p .none = some (some i) ∧ (t'.tab i).release = f

end Server
