import AlpmRpc.Common.Parser

/-!
# Documents as nodes

The node array and string buffer that `aj_parse` fills, where `Common/Parser.lean` builds the tree
at once. An index of `-1` is `none`. While the parser runs `str` is an offset into `sbuf` and `key`
one more than an offset, with `0` for no key; the last loop of `aj_parse` makes pointers into `sbuf`
of them, which here stay the same offsets.
-/

set_option autoImplicit false

namespace Json

/-- `aj_type` -/
inductive NodeType where
  | null | bool | num | str | arr | obj
  deriving DecidableEq, Repr

/-- `aj_node` -/
structure Node where
  type : NodeType
  num : Int := 0
  str : Nat := 0
  key : Nat := 0
  firstChild : Option Nat := none
  nextSibling : Option Nat := none
  deriving DecidableEq, Repr

/-- `aj_doc`, with the nodes up to `count` and the bytes up to `slen`. -/
structure Doc where
  nodes : List Node := []
  sbuf : Bytes := []
  deriving DecidableEq, Repr

/-! ## Building -/

/-- `node_new`, with what its caller then sets in the node. -/
def nodeNew (d : Doc) (n : Node) : Nat × Doc :=
  (d.nodes.length, { d with nodes := d.nodes ++ [n] })

/-- `sbuf_put`; the offset it returns is the old `slen`. -/
def sbufPut (d : Doc) (s : Bytes) : Doc := { d with sbuf := d.sbuf ++ s ++ [0] }

def Doc.setNode (d : Doc) (i : Nat) (f : Node → Node) : Doc :=
  { d with nodes := d.nodes.modify i f }

/-- The child is the first of `self`, or comes after `prev`. -/
def linkChild (d : Doc) (self : Nat) (prev : Option Nat) (child : Nat) : Doc :=
  match prev with
  | none => d.setNode self fun n => { n with firstChild := some child }
  | some p => d.setNode p fun n => { n with nextSibling := some child }

/-- `parse_string_raw`, with the string put in the buffer. -/
def docParseString (d : Doc) (s : Bytes) : Option (Doc × Bytes) := do
  let (b, r) ← parseStringRaw s
  return (sbufPut d b, r)

/-- A member's key, put in the buffer, and its colon; an element has none. -/
def docParseKey (isObj : Bool) (d : Doc) (s : Bytes) : Option (Doc × Bytes) :=
  if isObj then do
    let (d, s) ← docParseString d (skipWs s)
    match skipWs s with
    | [] => none
    | c :: s => if c = ch ':' then some (d, s) else none
  else some (d, s)

/-- `parse_container` and the start of `parse_container_`, with `items` for its loop. -/
def docParseContainer (items : Nat → Doc → Bytes → Option (Doc × Bytes)) (depth : Nat)
    (isObj : Bool) (d : Doc) (r : Bytes) : Option (Nat × Doc × Bytes) :=
  if depth ≥ maxDepth then none
  else
    let (self, d) := nodeNew d { type := if isObj then .obj else .arr }
    match skipWs r with
    | [] => none
    | c :: r =>
      if c = closer isObj then some (self, d, r)
      else do
        let (d, r) ← items self d (c :: r)
        return (self, d, r)

mutual
/-- `parse_value`: the index of the value's node, the document and the rest. -/
def docParseValue : Nat → Nat → Doc → Bytes → Option (Nat × Doc × Bytes)
  | 0, _, _, _ => none
  | fuel + 1, depth, d, s =>
    match skipWs s with
    | [] => none
    | c :: r =>
      if c = ch '{' then
        docParseContainer (fun self => docParseItems fuel (depth + 1) true self none) depth true d r
      else if c = ch '[' then
        docParseContainer (fun self => docParseItems fuel (depth + 1) false self none) depth false
          d r
      else if c = ch '"' then do
        let off := d.sbuf.length
        let (d, r) ← docParseString d (c :: r)
        let (n, d) := nodeNew d { type := .str, str := off }
        return (n, d, r)
      else if lit "true" <+: c :: r then
        let (n, d) := nodeNew d { type := .bool, num := 1 }
        some (n, d, (c :: r).drop 4)
      else if lit "false" <+: c :: r then
        let (n, d) := nodeNew d { type := .bool, num := 0 }
        some (n, d, (c :: r).drop 5)
      else if lit "null" <+: c :: r then
        let (n, d) := nodeNew d { type := .null }
        some (n, d, (c :: r).drop 4)
      else if c = ch '-' ∨ isDigit c then do
        let (v, r) ← parseNumber (c :: r)
        let (n, d) := nodeNew d { type := .num, num := ajI64 (some v) 0 }
        return (n, d, r)
      else none

/-- The loop of `parse_container_`. -/
def docParseItems : Nat → Nat → Bool → Nat → Option Nat → Doc → Bytes → Option (Doc × Bytes)
  | 0, _, _, _, _, _, _ => none
  | fuel + 1, depth, isObj, self, prev, d, s => do
    let koff := d.sbuf.length
    let (d, s) ← docParseKey isObj d s
    let (child, d, s) ← docParseValue fuel depth d s
    let d := if isObj then d.setNode child fun n => { n with key := koff + 1 } else d
    let d := linkChild d self prev child
    match skipWs s with
    | [] => none
    | c :: s =>
      if c = ch ',' then docParseItems fuel depth isObj self (some child) d s
      else if c = closer isObj then some (d, s)
      else none
end

/-- `aj_parse`: the document, when all of `text` is one value. -/
def docParse (text : Bytes) : Option Doc := do
  let (root, d, r) ← docParseValue (2 * text.length + 2) 0 {} text
  if root = 0 ∧ skipWs r = [] then some d else none

/-! ## Accessors -/

namespace Doc

/-- `at` -/
def node (d : Doc) (i : Option Nat) : Option Node := i.bind (d.nodes[·]?)

/-- The string a pointer to `sbuf + off` points to. -/
def strAt (d : Doc) (off : Nat) : Bytes := cstr (d.sbuf.drop off)

/-- The field `key`. -/
def keyOf (d : Doc) (n : Node) : Option Bytes :=
  if n.key = 0 then none else some (d.strAt (n.key - 1))

/-- The nodes that `for (i = first; i >= 0; i = nodes[i].next_sibling)` visits. -/
def siblings (d : Doc) : Nat → Option Nat → List Nat
  | 0, _ => []
  | _, none => []
  | fuel + 1, some i => i :: d.siblings fuel ((d.node (some i)).bind (·.nextSibling))

/-- `aj_first` -/
def first (d : Doc) (container : Option Nat) : Option Nat :=
  match d.node container with
  | some n => if n.type = .arr ∨ n.type = .obj then n.firstChild else none
  | none => none

/-- `aj_next` -/
def next (d : Doc) (i : Option Nat) : Option Nat := (d.node i).bind (·.nextSibling)

/-- `aj_member` -/
def member (d : Doc) (obj : Option Nat) (key : Bytes) : Option Nat :=
  match d.node obj with
  | some o =>
    if o.type = .obj then
      (d.siblings d.nodes.length o.firstChild).find? fun i =>
        (d.node (some i)).bind d.keyOf = some key
    else none
  | none => none

/-- `aj_elem` -/
def elem (d : Doc) (arr : Option Nat) (index : Nat) : Option Nat :=
  (d.siblings d.nodes.length (d.first arr))[index]?

/-- `aj_count` -/
def count (d : Doc) (container : Option Nat) : Nat :=
  (d.siblings d.nodes.length (d.first container)).length

/-- `aj_i64` -/
def i64 (d : Doc) (i : Option Nat) (dflt : Int) : Int :=
  match d.node i with
  | some n => if n.type = .num ∨ n.type = .bool then n.num else dflt
  | none => dflt

/-- `aj_str` -/
def str (d : Doc) (i : Option Nat) (dflt : Option Bytes) : Option Bytes :=
  match d.node i with
  | some n => if n.type = .str then some (d.strAt n.str) else dflt
  | none => dflt

/-- `aj_is_null` -/
def isNull (d : Doc) (i : Option Nat) : Bool :=
  match d.node i with
  | some n => n.type = .null
  | none => true

/-! ## Walking a document -/

mutual
/-- The tree at a node, read off with the accessors. Every step takes one `fuel`. -/
def walk (d : Doc) : Nat → Nat → Option Tree
  | 0, _ => none
  | fuel + 1, i =>
    match d.node (some i) with
    | none => none
    | some n =>
      match n.type with
      | .null => if d.isNull (some i) then some .null else none
      | .bool => some (.bool (d.i64 (some i) 0 ≠ 0))
      | .num => some (.num (d.i64 (some i) 0))
      | .str => (d.str (some i) none).map .str
      | .arr => (d.walkItems fuel (d.first (some i))).map fun ms => .arr (ms.map (·.2))
      | .obj => (d.walkItems fuel (d.first (some i))).map .obj

/-- The items from a node on, each with its key. -/
def walkItems (d : Doc) : Nat → Option Nat → Option (List (Bytes × Tree))
  | _, none => some []
  | 0, some _ => none
  | fuel + 1, some i => do
    let v ← d.walk fuel i
    let ms ← d.walkItems fuel (d.next (some i))
    return (((d.node (some i)).bind d.keyOf).getD [], v) :: ms
end

end Doc

end Json
