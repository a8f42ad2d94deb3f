import AlpmRpc.Common.Doc

/-!
# The loops of the accessors

`aj_member`, `aj_elem`, `aj_count` and a walk with `aj_first` and `aj_next`, one turn of a loop for
each `fuel`. The loops read `nodes[i]` unchecked: `none` stands for a read outside of the nodes, and
for a loop that is not over when the fuel is.
-/

set_option autoImplicit false

namespace Json

namespace Doc

/-- `for (i = first; i >= 0; i = nodes[i].next_sibling)` of `aj_member` -/
def memberLoop (d : Doc) (key : Bytes) : Nat → Option Nat → Option (Option Nat)
  | 0, _ => none
  | _ + 1, none => some none
  | fuel + 1, some i => do
    let n ← d.nodes[i]?
    if d.keyOf n = some key then some (some i) else d.memberLoop key fuel n.nextSibling

/-- `aj_member` -/
def ajMember (d : Doc) (fuel : Nat) (obj : Option Nat) (key : Bytes) : Option (Option Nat) :=
  match d.node obj with
  | some o => if o.type = .obj then d.memberLoop key fuel o.firstChild else some none
  | none => some none

/-- `while (i >= 0 && index--)` of `aj_elem` -/
def elemLoop (d : Doc) : Nat → Option Nat → Int → Option (Option Nat)
  | 0, _, _ => none
  | _ + 1, none, _ => some none
  | fuel + 1, some i, index =>
    if index = 0 then some (some i)
    else do
      let n ← d.nodes[i]?
      d.elemLoop fuel n.nextSibling (index - 1)

/-- `aj_elem` -/
def ajElem (d : Doc) (fuel : Nat) (arr : Option Nat) (index : Int) : Option (Option Nat) :=
  match d.node arr with
  | some a =>
    if (a.type = .arr ∨ a.type = .obj) ∧ 0 ≤ index then d.elemLoop fuel a.firstChild index
    else some none
  | none => some none

/-- The loop of `aj_count`. -/
def countLoop (d : Doc) : Nat → Option Nat → Nat → Option Nat
  | 0, _, _ => none
  | _ + 1, none, n => some n
  | fuel + 1, some i, n => do
    let node ← d.nodes[i]?
    d.countLoop fuel node.nextSibling (n + 1)

/-- `aj_count` -/
def ajCount (d : Doc) (fuel : Nat) (container : Option Nat) : Option Nat :=
  match d.node container with
  | some a => if a.type = .arr ∨ a.type = .obj then d.countLoop fuel a.firstChild 0 else some 0
  | none => some 0

/-- The nodes that `for (e = aj_first(d, c); e >= 0; e = aj_next(d, e))` sees. -/
def walkLoop (d : Doc) : Nat → Option Nat → Option (List Nat)
  | 0, _ => none
  | _ + 1, none => some []
  | fuel + 1, some i => (d.walkLoop fuel (d.next (some i))).map (i :: ·)

/-- The fields that lead to a node. -/
def links (d : Doc) : List (Option Nat) :=
  d.nodes.map (·.firstChild) ++ d.nodes.map (·.nextSibling)

/-- Every link goes forward, to a node there is, and every node but the root has one. -/
structure Linked (d : Doc) : Prop where
  forward : ∀ i n j, d.nodes[i]? = some n → n.firstChild = some j ∨ n.nextSibling = some j →
    i < j ∧ j < d.nodes.length
  once : ∀ j, 0 < j → j < d.nodes.length → d.links.count (some j) = 1
  child : ∀ n ∈ d.nodes, n.type ≠ .arr → n.type ≠ .obj → n.firstChild = none

/-- The accessors agree with the walk from `aj_first`, and all of them end. -/
structure Agree (d : Doc) (c : Option Nat) (fuel : Nat) (l : List Nat) : Prop where
  walk : d.walkLoop fuel (d.first c) = some l
  elem : ∀ index : Int, d.ajElem fuel c index =
    some (if 0 ≤ index then l[index.toNat]? else none)
  count : d.ajCount fuel c = some l.length
  member : ∀ n, d.node c = some n → n.type = .obj → ∀ key, d.ajMember fuel c key =
    some (l.find? fun i => (d.node (some i)).bind d.keyOf = some key)
  /-- and with the accessors as they are used elsewhere -/
  total : (∀ index : Nat, d.elem c index = l[index]?) ∧ d.count c = l.length ∧
    ∀ key, d.ajMember fuel c key = some (d.member c key)

end Doc

end Json
