import AlpmRpc.Common.Doc
import AlpmRpc.Common.Proof.Grammar

/-!
# The nodes are the tree

`nodesOf` lays a tree out as the parser does: a node before its children, the children one after
another, and the strings in the order they are met. `docParse_eq` says that the nodes parsed from a
text are the layout of the tree parsed from it, and `Holds` what such a layout is for a reader.
-/

set_option autoImplicit false

namespace Json

/-! ## The layout of a tree -/

mutual
/-- The number of values in a tree. -/
def size : Tree → Nat
  | .arr es => 1 + elemsSize es
  | .obj ms => 1 + membersSize ms
  | _ => 1

def elemsSize : List Tree → Nat
  | [] => 0
  | v :: vs => size v + elemsSize vs

def membersSize : List (Bytes × Tree) → Nat
  | [] => 0
  | (_, v) :: ms => size v + membersSize ms
end

mutual
/-- The strings of a tree, each with its NUL. -/
def bytesOf : Tree → Bytes
  | .str s => s ++ [0]
  | .arr es => elemsBytes es
  | .obj ms => membersBytes ms
  | _ => []

def elemsBytes : List Tree → Bytes
  | [] => []
  | v :: vs => bytesOf v ++ elemsBytes vs

def membersBytes : List (Bytes × Tree) → Bytes
  | [] => []
  | (k, v) :: ms => k ++ [0] ++ bytesOf v ++ membersBytes ms
end

/-- The index of the first of `l`, which starts at `i`. -/
def headIndex {α : Type} (i : Nat) (l : List α) : Option Nat := if l.isEmpty then none else some i

mutual
/-- The nodes of a tree whose root is node `i` and whose strings start at `off`. -/
def nodesOf (i off key : Nat) (next : Option Nat) : Tree → List Node
  | .null => [{ type := .null, key := key, nextSibling := next }]
  | .bool b => [{ type := .bool, num := if b then 1 else 0, key := key, nextSibling := next }]
  | .num v => [{ type := .num, num := v, key := key, nextSibling := next }]
  | .str _ => [{ type := .str, str := off, key := key, nextSibling := next }]
  | .arr es =>
    { type := .arr, key := key, firstChild := headIndex (i + 1) es, nextSibling := next } ::
      elemsNodes (i + 1) off es
  | .obj ms =>
    { type := .obj, key := key, firstChild := headIndex (i + 1) ms, nextSibling := next } ::
      membersNodes (i + 1) off ms

def elemsNodes (i off : Nat) : List Tree → List Node
  | [] => []
  | v :: vs =>
    nodesOf i off 0 (headIndex (i + size v) vs) v ++
      elemsNodes (i + size v) (off + (bytesOf v).length) vs

def membersNodes (i off : Nat) : List (Bytes × Tree) → List Node
  | [] => []
  | (k, v) :: ms =>
    nodesOf i (off + k.length + 1) (off + 1) (headIndex (i + size v) ms) v ++
      membersNodes (i + size v) (off + k.length + 1 + (bytesOf v).length) ms
end

/-- The children of an object or an array. -/
def itemsNodes (isObj : Bool) (i off : Nat) (ms : List (Bytes × Tree)) : List Node :=
  if isObj then membersNodes i off ms else elemsNodes i off (ms.map (·.2))

def itemsBytes (isObj : Bool) (ms : List (Bytes × Tree)) : Bytes :=
  if isObj then membersBytes ms else elemsBytes (ms.map (·.2))

/-- The document of a tree. -/
def docOf (v : Tree) : Doc := { nodes := nodesOf 0 0 0 none v, sbuf := bytesOf v }

/-- The head of a layout carries the key and the sibling, and nothing after it does. -/
theorem nodesOf_cons (i off : Nat) (v : Tree) :
    ∃ (n : Node) (rest : List Node), ∀ key next,
      nodesOf i off key next v = { n with key := key, nextSibling := next } :: rest := by
  cases v with
  | null => exact ⟨{ type := .null }, [], fun key next => by rw [nodesOf]⟩
  | bool b =>
    exact ⟨{ type := .bool, num := if b then 1 else 0 }, [], fun key next => by rw [nodesOf]⟩
  | num v => exact ⟨{ type := .num, num := v }, [], fun key next => by rw [nodesOf]⟩
  | str s => exact ⟨{ type := .str, str := off }, [], fun key next => by rw [nodesOf]⟩
  | arr es =>
    exact ⟨{ type := .arr, firstChild := headIndex (i + 1) es }, elemsNodes (i + 1) off es,
      fun key next => by rw [nodesOf]⟩
  | obj ms =>
    exact ⟨{ type := .obj, firstChild := headIndex (i + 1) ms }, membersNodes (i + 1) off ms,
      fun key next => by rw [nodesOf]⟩

mutual
theorem nodesOf_length (i off key : Nat) (next : Option Nat) :
    ∀ v, (nodesOf i off key next v).length = size v
  | .null => by simp [nodesOf, size]
  | .bool b => by simp [nodesOf, size]
  | .num v => by simp [nodesOf, size]
  | .str s => by simp [nodesOf, size]
  | .arr es => by
    rw [nodesOf, size, List.length_cons, elemsNodes_length]
    omega
  | .obj ms => by
    rw [nodesOf, size, List.length_cons, membersNodes_length]
    omega

theorem elemsNodes_length (i off : Nat) : ∀ es, (elemsNodes i off es).length = elemsSize es
  | [] => by rw [elemsNodes, elemsSize]; rfl
  | v :: vs => by rw [elemsNodes, elemsSize, List.length_append, nodesOf_length, elemsNodes_length]

theorem membersNodes_length (i off : Nat) : ∀ ms, (membersNodes i off ms).length = membersSize ms
  | [] => by rw [membersNodes, membersSize]; rfl
  | (k, v) :: ms => by
    rw [membersNodes, membersSize, List.length_append, nodesOf_length, membersNodes_length]
end

/-! ## Parsing to nodes is parsing to a tree, laid out -/

/-- What a parser that has read the tree `v` leaves. -/
def laid (d : Doc) (v : Tree) : Doc :=
  { nodes := d.nodes ++ nodesOf d.nodes.length d.sbuf.length 0 none v, sbuf := d.sbuf ++ bytesOf v }

/-- What the loop of a container leaves that has read the items `ms`. -/
def laidItems (isObj : Bool) (self : Nat) (prev : Option Nat) (d : Doc)
    (ms : List (Bytes × Tree)) : Doc :=
  { nodes := (linkChild d self prev d.nodes.length).nodes ++
      itemsNodes isObj d.nodes.length d.sbuf.length ms,
    sbuf := d.sbuf ++ itemsBytes isObj ms }

theorem docParseString_eq (d : Doc) (s : Bytes) :
    docParseString d s = (parseStringRaw s).map fun p => (sbufPut d p.1, p.2) := by
  rw [docParseString]
  cases parseStringRaw s <;> rfl

/-- The document after a key. -/
def keyed (isObj : Bool) (d : Doc) (k : Bytes) : Doc := if isObj then sbufPut d k else d

theorem docParseKey_eq (isObj : Bool) (d : Doc) (s : Bytes) :
    docParseKey isObj d s = (parseKey isObj s).map fun p => (keyed isObj d p.1, p.2) := by
  cases isObj with
  | false => rfl
  | true =>
    simp only [docParseKey, parseKey, if_true, docParseString_eq]
    cases parseStringRaw (skipWs s) with
    | none => rfl
    | some p =>
      simp only [Option.map_some, Option.bind_eq_bind, Option.bind_some]
      cases skipWs p.2 with
      | nil => rfl
      | cons c r =>
        dsimp only
        split <;> rfl

theorem modify_append_left {l l' : List Node} {i : Nat} (h : i < l.length) (f : Node → Node) :
    (l ++ l').modify i f = l.modify i f ++ l' := by
  induction l generalizing i with
  | nil => simp at h
  | cons a l ih =>
    cases i with
    | zero => rfl
    | succ i =>
      rw [List.cons_append, List.modify_succ_cons, List.modify_succ_cons,
        ih (by simpa using h), List.cons_append]

theorem modify_append_head (l l' : List Node) (a : Node) (f : Node → Node) :
    (l ++ a :: l').modify l.length f = l ++ f a :: l' := by
  induction l with
  | nil => rfl
  | cons b l ih =>
    rw [List.cons_append, List.length_cons, List.modify_succ_cons, ih, List.cons_append]

theorem linkChild_length (d : Doc) (self : Nat) (prev : Option Nat) (c : Nat) :
    (linkChild d self prev c).nodes.length = d.nodes.length := by
  cases prev <;> simp [linkChild, Doc.setNode]

/-- Links are set in nodes that were there before the child. -/
theorem linkChild_append {d : Doc} {self : Nat} {prev : Option Nat} (l : List Node) (b : Bytes)
    (c : Nat) (hs : self < d.nodes.length) (hp : ∀ p, prev = some p → p < d.nodes.length) :
    linkChild ⟨d.nodes ++ l, b⟩ self prev c = ⟨(linkChild d self prev c).nodes ++ l, b⟩ := by
  cases prev with
  | none => simp only [linkChild, Doc.setNode, modify_append_left hs]
  | some p => simp only [linkChild, Doc.setNode, modify_append_left (hp p rfl)]

/-! ### One item -/

/-- The offset of an item's value, after its key. -/
def valueOff (isObj : Bool) (off : Nat) (k : Bytes) : Nat :=
  if isObj then off + k.length + 1 else off

/-- The field `key` of an item. -/
def keyField (isObj : Bool) (off : Nat) : Nat := if isObj then off + 1 else 0

/-- What the loop leaves that has read one item. -/
def laidItem (isObj : Bool) (self : Nat) (prev : Option Nat) (d : Doc) (k : Bytes) (v : Tree) :
    Doc :=
  { nodes := (linkChild d self prev d.nodes.length).nodes ++
      nodesOf d.nodes.length (valueOff isObj d.sbuf.length k) (keyField isObj d.sbuf.length) none v,
    sbuf := (keyed isObj d k).sbuf ++ bytesOf v }

theorem keyed_nodes (isObj : Bool) (d : Doc) (k : Bytes) : (keyed isObj d k).nodes = d.nodes := by
  cases isObj <;> rfl

theorem keyed_length (isObj : Bool) (d : Doc) (k : Bytes) :
    (keyed isObj d k).sbuf.length = valueOff isObj d.sbuf.length k := by
  cases isObj with
  | false => rfl
  | true => simp [keyed, sbufPut, valueOff]; omega

/-- A value read after a key, with its key and the link to it set. -/
theorem linked_item {isObj : Bool} {self : Nat} {prev : Option Nat} {d : Doc} (k : Bytes) (v : Tree)
    (hs : self < d.nodes.length) (hp : ∀ p, prev = some p → p < d.nodes.length) :
    linkChild
      (if isObj then (laid (keyed isObj d k) v).setNode d.nodes.length fun n =>
        { n with key := d.sbuf.length + 1 } else laid (keyed isObj d k) v)
      self prev d.nodes.length = laidItem isObj self prev d k v := by
  obtain ⟨n, rest, hn⟩ := nodesOf_cons d.nodes.length (valueOff isObj d.sbuf.length k) v
  have hkey : (if isObj then (laid (keyed isObj d k) v).setNode d.nodes.length fun n =>
        { n with key := d.sbuf.length + 1 } else laid (keyed isObj d k) v) =
      ⟨d.nodes ++ nodesOf d.nodes.length (valueOff isObj d.sbuf.length k)
        (keyField isObj d.sbuf.length) none v, (keyed isObj d k).sbuf ++ bytesOf v⟩ := by
    rw [laid, keyed_nodes, keyed_length, hn, hn]
    cases isObj with
    | false => rfl
    | true =>
      rw [if_pos rfl, Doc.setNode, modify_append_head]
      rfl
  rw [hkey, linkChild_append _ _ _ hs hp]
  rfl

/-- The layout of the items, by the first of them. -/
theorem itemsNodes_cons (isObj : Bool) (i off : Nat) (k : Bytes) (v : Tree)
    (ms : List (Bytes × Tree)) :
    itemsNodes isObj i off ((k, v) :: ms) =
      nodesOf i (valueOff isObj off k) (keyField isObj off) (headIndex (i + size v) ms) v ++
        itemsNodes isObj (i + size v) (valueOff isObj off k + (bytesOf v).length) ms := by
  cases isObj with
  | true => simp only [itemsNodes, if_true, membersNodes, valueOff, keyField]
  | false =>
    simp only [itemsNodes, Bool.false_eq_true, if_false, List.map_cons, elemsNodes, valueOff,
      keyField]
    cases ms <;> rfl

theorem itemsBytes_cons (isObj : Bool) (d : Doc) (k : Bytes) (v : Tree)
    (ms : List (Bytes × Tree)) :
    d.sbuf ++ itemsBytes isObj ((k, v) :: ms) =
      (keyed isObj d k).sbuf ++ bytesOf v ++ itemsBytes isObj ms := by
  cases isObj with
  | true => simp [itemsBytes, membersBytes, keyed, sbufPut]
  | false => simp [itemsBytes, elemsBytes, keyed]

theorem laidItems_last (isObj : Bool) (self : Nat) (prev : Option Nat) (d : Doc) (k : Bytes)
    (v : Tree) : laidItem isObj self prev d k v = laidItems isObj self prev d [(k, v)] := by
  have hn : itemsNodes isObj (d.nodes.length + size v)
      (valueOff isObj d.sbuf.length k + (bytesOf v).length) [] = [] := by
    cases isObj <;> simp [itemsNodes, membersNodes, elemsNodes]
  have hb : itemsBytes isObj [] = [] := by
    cases isObj <;> simp [itemsBytes, membersBytes, elemsBytes]
  rw [laidItem, laidItems, itemsNodes_cons, itemsBytes_cons, hn, hb, List.append_nil,
    List.append_nil]
  rfl

/-- The items after one item, linked behind it. -/
theorem laidItems_more {isObj : Bool} (self : Nat) (prev : Option Nat) (d : Doc) (k : Bytes)
    (v : Tree) {ms : List (Bytes × Tree)} (hms : ms ≠ []) :
    laidItems isObj self (some d.nodes.length) (laidItem isObj self prev d k v) ms =
      laidItems isObj self prev d ((k, v) :: ms) := by
  obtain ⟨n, rest, hn⟩ := nodesOf_cons d.nodes.length (valueOff isObj d.sbuf.length k) v
  have hlen : (laidItem isObj self prev d k v).nodes.length = d.nodes.length + size v := by
    rw [laidItem, List.length_append, linkChild_length, nodesOf_length]
  have hslen : (laidItem isObj self prev d k v).sbuf.length =
      valueOff isObj d.sbuf.length k + (bytesOf v).length := by
    rw [laidItem, List.length_append, keyed_length]
  have hhead : headIndex (d.nodes.length + size v) ms = some (d.nodes.length + size v) := by
    cases ms with
    | nil => exact absurd rfl hms
    | cons m ms => rfl
  have hlink : (linkChild (laidItem isObj self prev d k v) self (some d.nodes.length)
      (d.nodes.length + size v)).nodes = (linkChild d self prev d.nodes.length).nodes ++
        nodesOf d.nodes.length (valueOff isObj d.sbuf.length k) (keyField isObj d.sbuf.length)
          (some (d.nodes.length + size v)) v := by
    rw [hn, laidItem, hn]
    have := modify_append_head (linkChild d self prev d.nodes.length).nodes rest
      { n with key := keyField isObj d.sbuf.length, nextSibling := none }
      (fun n => { n with nextSibling := some (d.nodes.length + size v) })
    rw [linkChild_length] at this
    exact this
  rw [laidItems, laidItems, hlen, hslen, hlink, itemsNodes_cons, hhead, itemsBytes_cons,
    List.append_assoc]
  rfl

/-! ### Containers -/

/-- A node for a container and its items, linked to it. -/
theorem laid_container (isObj : Bool) (d : Doc) {ms : List (Bytes × Tree)} (hms : ms ≠ []) :
    laidItems isObj d.nodes.length none
      (nodeNew d { type := if isObj then .obj else .arr }).2 ms = laid d (container isObj ms) := by
  have hlink : (linkChild (nodeNew d { type := if isObj then .obj else .arr }).2 d.nodes.length none
      (d.nodes.length + 1)).nodes =
        d.nodes ++ [{ type := (if isObj then .obj else .arr),
                      firstChild := some (d.nodes.length + 1) }] := modify_append_head _ _ _ _
  cases ms with
  | nil => exact absurd rfl hms
  | cons m ms =>
    have hlen : (nodeNew d { type := if isObj then .obj else .arr }).2.nodes.length =
        d.nodes.length + 1 := by simp [nodeNew]
    rw [laidItems, hlen, hlink]
    cases isObj with
    | true => simp [laid, container, nodesOf, bytesOf, itemsNodes, itemsBytes, headIndex, nodeNew]
    | false => simp [laid, container, nodesOf, bytesOf, itemsNodes, itemsBytes, headIndex, nodeNew]

theorem laid_empty (isObj : Bool) (d : Doc) :
    (nodeNew d { type := if isObj then .obj else .arr }).2 = laid d (container isObj []) := by
  cases isObj with
  | true => simp [laid, container, nodesOf, bytesOf, membersNodes, membersBytes, headIndex, nodeNew]
  | false => simp [laid, container, nodesOf, bytesOf, elemsNodes, elemsBytes, headIndex, nodeNew]

/-- The document parse of a container whose items are laid out. -/
theorem docParseContainer_eq {fuel depth : Nat} (isObj : Bool) {d : Doc} {r : Bytes}
    (hitems : ∀ self prev d s, self < d.nodes.length → (∀ p, prev = some p → p < d.nodes.length) →
      docParseItems fuel (depth + 1) isObj self prev d s =
        (parseItems fuel (depth + 1) isObj s).map fun p =>
          (laidItems isObj self prev d p.1, p.2)) :
    docParseContainer (fun self => docParseItems fuel (depth + 1) isObj self none) depth isObj d r =
      (parseContainer (parseItems fuel (depth + 1) isObj) depth isObj r).map fun p =>
        (d.nodes.length, laid d p.1, p.2) := by
  rw [docParseContainer, parseContainer]
  split
  · rfl
  cases skipWs r with
  | nil => rfl
  | cons c r =>
    dsimp only
    split
    · rw [laid_empty]
      rfl
    · rw [hitems _ none _ _ (by simp [nodeNew]) (fun p hp => (by cases hp))]
      cases hi : parseItems fuel (depth + 1) isObj (c :: r) with
      | none => rfl
      | some p =>
        obtain ⟨t, -, hms⟩ := (parse_sound fuel).2 (depth + 1) isObj _ _ _ hi
        have hlaid := laid_container isObj d hms.ne_nil
        simp only [Option.map_some, Option.bind_eq_bind, Option.bind_some, Option.pure_def, ← hlaid]
        rfl

theorem docParseValue_eq {fuel depth : Nat}
    (hitems : ∀ isObj self prev d s, self < d.nodes.length →
      (∀ p, prev = some p → p < d.nodes.length) →
      docParseItems fuel (depth + 1) isObj self prev d s =
        (parseItems fuel (depth + 1) isObj s).map fun p => (laidItems isObj self prev d p.1, p.2))
    (d : Doc) (s : Bytes) :
    docParseValue (fuel + 1) depth d s =
      (parseValue (fuel + 1) depth s).map fun p => (d.nodes.length, laid d p.1, p.2) := by
  rw [docParseValue, parseValue]
  cases skipWs s with
  | nil => rfl
  | cons c r =>
    dsimp only
    split
    · exact docParseContainer_eq true (hitems true)
    split
    · exact docParseContainer_eq false (hitems false)
    split
    · rw [docParseString_eq]
      cases parseStringRaw (c :: r) with
      | none => rfl
      | some p => simp [laid, nodesOf, bytesOf, nodeNew, sbufPut]
    split
    · simp [laid, nodesOf, bytesOf, nodeNew]
    split
    · simp [laid, nodesOf, bytesOf, nodeNew]
    split
    · simp [laid, nodesOf, bytesOf, nodeNew]
    split
    · cases hn : parseNumber (c :: r) with
      | none => rfl
      | some p =>
        obtain ⟨v, r'⟩ := p
        obtain ⟨-, i, -, rfl, -⟩ := parseNumber_sound hn
        simp [laid, nodesOf, bytesOf, nodeNew, ajI64]
    · rfl

theorem docParseItems_eq {fuel depth : Nat} {isObj : Bool}
    (hvalue : ∀ d s, docParseValue fuel depth d s =
      (parseValue fuel depth s).map fun p => (d.nodes.length, laid d p.1, p.2))
    (hitems : ∀ self prev d s, self < d.nodes.length →
      (∀ p, prev = some p → p < d.nodes.length) →
      docParseItems fuel depth isObj self prev d s =
        (parseItems fuel depth isObj s).map fun p => (laidItems isObj self prev d p.1, p.2))
    {self : Nat} {prev : Option Nat} {d : Doc} (s : Bytes) (hs : self < d.nodes.length)
    (hp : ∀ p, prev = some p → p < d.nodes.length) :
    docParseItems (fuel + 1) depth isObj self prev d s =
      (parseItems (fuel + 1) depth isObj s).map fun p => (laidItems isObj self prev d p.1, p.2) := by
  rw [docParseItems, parseItems, docParseKey_eq]
  cases parseKey isObj s with
  | none => rfl
  | some p =>
    obtain ⟨k, s⟩ := p
    simp only [Option.map_some, Option.bind_eq_bind, Option.bind_some, hvalue]
    cases parseValue fuel depth s with
    | none => rfl
    | some p =>
      obtain ⟨v, s⟩ := p
      simp only [Option.map_some, Option.bind_some, keyed_nodes, linked_item k v hs hp]
      cases skipWs s with
      | nil => rfl
      | cons c s =>
        have hlt : d.nodes.length < (laidItem isObj self prev d k v).nodes.length := by
          obtain ⟨n, rest, hn⟩ := nodesOf_cons d.nodes.length (valueOff isObj d.sbuf.length k) v
          rw [laidItem, List.length_append, linkChild_length, hn, List.length_cons]
          omega
        dsimp only
        split
        · rw [hitems self (some d.nodes.length) _ _ (by omega) (by simpa using hlt)]
          cases hi : parseItems fuel depth isObj s with
          | none => rfl
          | some p =>
            obtain ⟨t, -, hms⟩ := (parse_sound fuel).2 depth isObj _ _ _ hi
            simp only [Option.map_some, Option.bind_some, laidItems_more self prev d k v hms.ne_nil]
            rfl
        split
        · rw [laidItems_last]
          rfl
        · rfl

/-- **The nodes parsed are those of the tree parsed**, behind what was in the document. -/
theorem docParse_laid (fuel : Nat) :
    (∀ depth d s, docParseValue fuel depth d s =
      (parseValue fuel depth s).map fun p => (d.nodes.length, laid d p.1, p.2)) ∧
    (∀ depth isObj self prev d s, self < d.nodes.length →
      (∀ p, prev = some p → p < d.nodes.length) →
      docParseItems fuel depth isObj self prev d s =
        (parseItems fuel depth isObj s).map fun p => (laidItems isObj self prev d p.1, p.2)) := by
  induction fuel with
  | zero =>
    refine ⟨fun depth d s => ?_, fun depth isObj self prev d s _ _ => ?_⟩
    · rw [docParseValue, parseValue]
      rfl
    · rw [docParseItems, parseItems]
      rfl
  | succ fuel ih =>
    refine ⟨fun depth d s => ?_, fun depth isObj self prev d s hs hp => ?_⟩
    · exact docParseValue_eq (ih.2 (depth + 1)) d s
    · exact docParseItems_eq (ih.1 depth) (ih.2 depth isObj) s hs hp

theorem docParse_eq (s : Bytes) : docParse s = (ajParse s).map docOf := by
  rw [docParse, ajParse, (docParse_laid _).1]
  cases parseValue (2 * s.length + 2) 0 s with
  | none => rfl
  | some p =>
    simp only [Option.map_some, Option.bind_eq_bind, Option.bind_some]
    by_cases h : skipWs p.2 = []
    · rw [if_pos h, if_pos ⟨rfl, h⟩]
      rfl
    · rw [if_neg h, if_neg fun hn => h hn.2]
      rfl

/-! ## What the layout is for a reader -/

/-- The bytes `s` and a NUL are in the buffer at `off`. -/
def Stored (d : Doc) (off : Nat) (s : Bytes) : Prop := s ++ [0] <+: d.sbuf.drop off

/-- The field `key` of a member is its key; an element has none. -/
def KeyStored (d : Doc) (isObj : Bool) (n : Node) (k : Bytes) : Prop :=
  if isObj then 0 < n.key ∧ Stored d (n.key - 1) k else n.key = 0 ∧ k = []

mutual
/-- The nodes of the tree `v` are those from `i` on: the root, then its children. -/
inductive Holds (d : Doc) : Nat → Tree → Prop where
  | null {i : Nat} {n : Node} (hn : d.nodes[i]? = some n) (ht : n.type = .null) : Holds d i .null
  | bool {i : Nat} {n : Node} {b : Bool} (hn : d.nodes[i]? = some n) (ht : n.type = .bool)
      (hv : n.num = if b then 1 else 0) : Holds d i (.bool b)
  | num {i : Nat} {n : Node} {v : Int} (hn : d.nodes[i]? = some n) (ht : n.type = .num)
      (hv : n.num = v) : Holds d i (.num v)
  | str {i : Nat} {n : Node} {s : Bytes} (hn : d.nodes[i]? = some n) (ht : n.type = .str)
      (hs : Stored d n.str s) : Holds d i (.str s)
  | arr {i : Nat} {n : Node} {es : List Tree} (hn : d.nodes[i]? = some n) (ht : n.type = .arr)
      (hf : n.firstChild = headIndex (i + 1) es)
      (h : HoldsItems d false (i + 1) (es.map fun v => ([], v))) : Holds d i (.arr es)
  | obj {i : Nat} {n : Node} {ms : List (Bytes × Tree)} (hn : d.nodes[i]? = some n)
      (ht : n.type = .obj) (hf : n.firstChild = headIndex (i + 1) ms)
      (h : HoldsItems d true (i + 1) ms) : Holds d i (.obj ms)

/-- The items of a container are one after another from `i` on, each linked to the next. -/
inductive HoldsItems (d : Doc) : Bool → Nat → List (Bytes × Tree) → Prop where
  | nil {isObj : Bool} {i : Nat} : HoldsItems d isObj i []
  | cons {isObj : Bool} {i : Nat} {n : Node} {k : Bytes} {v : Tree} {ms : List (Bytes × Tree)}
      (hn : d.nodes[i]? = some n) (hk : KeyStored d isObj n k)
      (hx : n.nextSibling = headIndex (i + size v) ms) (h : Holds d i v)
      (hs : HoldsItems d isObj (i + size v) ms) : HoldsItems d isObj i ((k, v) :: ms)
end

/-- The nodes of a document are those of one tree, with node 0 its root. -/
structure Forest (d : Doc) (v : Tree) : Prop where
  root : Holds d 0 v
  alone : ∀ n, d.nodes[0]? = some n → n.key = 0 ∧ n.nextSibling = none
  count : d.nodes.length = size v

theorem isPrefix_drop_append {α : Type} {l l' L : List α} {i : Nat} (h : l ++ l' <+: L.drop i) :
    l <+: L.drop i ∧ l' <+: L.drop (i + l.length) := by
  obtain ⟨r, hr⟩ := h
  rw [← List.drop_drop, ← hr, List.append_assoc, List.drop_left]
  exact ⟨List.prefix_append _ _, List.prefix_append _ _⟩

theorem getElem?_of_isPrefix_drop {α : Type} {a : α} {l L : List α} {i : Nat}
    (h : a :: l <+: L.drop i) : L[i]? = some a := by
  obtain ⟨r, hr⟩ := h
  have h0 : (L.drop i)[0]? = some a := by rw [← hr]; rfl
  rw [List.getElem?_drop] at h0
  exact h0

mutual
theorem holds_nodesOf {d : Doc} {i off key : Nat} {next : Option Nat} : ∀ v,
    nodesOf i off key next v <+: d.nodes.drop i → bytesOf v <+: d.sbuf.drop off → Holds d i v
  | .null, h, _ => by
    rw [nodesOf] at h
    exact .null (getElem?_of_isPrefix_drop h) rfl
  | .bool b, h, _ => by
    rw [nodesOf] at h
    exact .bool (getElem?_of_isPrefix_drop h) rfl rfl
  | .num v, h, _ => by
    rw [nodesOf] at h
    exact .num (getElem?_of_isPrefix_drop h) rfl rfl
  | .str s, h, hb => by
    rw [nodesOf] at h
    rw [bytesOf] at hb
    exact .str (getElem?_of_isPrefix_drop h) rfl hb
  | .arr es, h, hb => by
    rw [nodesOf] at h
    rw [bytesOf] at hb
    exact .arr (getElem?_of_isPrefix_drop h) rfl rfl
      (holds_elemsNodes es (isPrefix_drop_append (l := [_]) h).2 hb)
  | .obj ms, h, hb => by
    rw [nodesOf] at h
    rw [bytesOf] at hb
    exact .obj (getElem?_of_isPrefix_drop h) rfl rfl
      (holds_membersNodes ms (isPrefix_drop_append (l := [_]) h).2 hb)

theorem holds_elemsNodes {d : Doc} {i off : Nat} : ∀ es, elemsNodes i off es <+: d.nodes.drop i →
    elemsBytes es <+: d.sbuf.drop off → HoldsItems d false i (es.map fun v => ([], v))
  | [], _, _ => .nil
  | v :: vs, h, hb => by
    rw [elemsNodes] at h
    rw [elemsBytes] at hb
    obtain ⟨h1, h2⟩ := isPrefix_drop_append h
    obtain ⟨hb1, hb2⟩ := isPrefix_drop_append hb
    rw [nodesOf_length] at h2
    obtain ⟨n, rest, hn⟩ := nodesOf_cons i off v
    have hv := holds_nodesOf v h1 hb1
    rw [hn] at h1
    refine .cons (getElem?_of_isPrefix_drop h1) ⟨rfl, rfl⟩ ?_ hv (holds_elemsNodes vs h2 hb2)
    cases vs <;> rfl

theorem holds_membersNodes {d : Doc} {i off : Nat} : ∀ ms,
    membersNodes i off ms <+: d.nodes.drop i → membersBytes ms <+: d.sbuf.drop off →
    HoldsItems d true i ms
  | [], _, _ => .nil
  | (k, v) :: ms, h, hb => by
    rw [membersNodes] at h
    rw [membersBytes, List.append_assoc] at hb
    obtain ⟨h1, h2⟩ := isPrefix_drop_append h
    obtain ⟨hk, hb⟩ := isPrefix_drop_append hb
    rw [List.length_append, List.length_singleton, ← Nat.add_assoc] at hb
    obtain ⟨hb1, hb2⟩ := isPrefix_drop_append hb
    rw [nodesOf_length] at h2
    obtain ⟨n, rest, hn⟩ := nodesOf_cons i (off + k.length + 1) v
    have hv := holds_nodesOf v h1 hb1
    rw [hn] at h1
    exact .cons (getElem?_of_isPrefix_drop h1) ⟨Nat.succ_pos _, hk⟩ rfl hv
      (holds_membersNodes ms h2 hb2)
end

theorem forest_docOf (v : Tree) : Forest (docOf v) v := by
  obtain ⟨n, rest, hn⟩ := nodesOf_cons 0 0 v
  refine ⟨holds_nodesOf v (List.prefix_refl _) (List.prefix_refl _), ?_, nodesOf_length _ _ _ _ v⟩
  intro n' h
  rw [docOf, hn] at h
  cases h
  exact ⟨rfl, rfl⟩

/-- **`aj_parse` accepts exactly the grammar**, and the nodes it leaves are the tree that the
grammar derives. -/
theorem docParse_accepts (s : Bytes) :
    ((∃ d, docParse s = some d) ↔ ∃ v, Document s v) ∧
    ∀ d, docParse s = some d → ∃ v, Document s v ∧ (∀ v', Document s v' → v' = v) ∧ Forest d v := by
  rw [docParse_eq]
  refine ⟨⟨fun ⟨d, hd⟩ => ?_, fun ⟨v, hv⟩ => ?_⟩, fun d hd => ?_⟩
  · obtain ⟨v, hv, -⟩ := Option.map_eq_some_iff.1 hd
    exact ⟨v, ajParse_iff.1 hv⟩
  · exact ⟨docOf v, by rw [ajParse_iff.2 hv]; rfl⟩
  · obtain ⟨v, hv, rfl⟩ := Option.map_eq_some_iff.1 hd
    refine ⟨v, ajParse_iff.1 hv, fun v' hv' => ?_, forest_docOf v⟩
    have := ajParse_iff.2 hv'
    rw [hv] at this
    exact (Option.some.inj this).symm

end Json
