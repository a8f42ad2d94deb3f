import AlpmRpc.Common.Parser

/-!
# The grammar of the wire

The texts of JSON values as relations on byte sequences, each with the tree it derives.
`Derives n s v` says that `s` is a text of `v` that opens at most `n` containers at once. It names
no position, fuel or rest of the input; `Common/Proof/Grammar.lean` proves that `aj_parse` accepts
exactly these texts.
-/

set_option autoImplicit false

namespace Json

/-- Space, tab, line feed or carriage return, any number of them. -/
def Ws (s : Bytes) : Prop := ∀ c ∈ s, isWs c = true

/-! ## Strings -/

/-- Four hexadecimal digits of value `v`. -/
def HexWord (x : Bytes) (v : Nat) : Prop := x.length = 4 ∧ hex4 x = some v

def isHigh (v : Nat) : Prop := 0xD800 ≤ v ∧ v ≤ 0xDBFF

def isLow (v : Nat) : Prop := 0xDC00 ≤ v ∧ v ≤ 0xDFFF

/-- The text goes on with the escape of a low surrogate. -/
def LowNext (t : Bytes) : Prop :=
  ∃ y lo t', t = ch '\\' :: ch 'u' :: y ++ t' ∧ HexWord y lo ∧ isLow lo

/-- The text between the quotes of a string, and the bytes it stands for. -/
inductive Chars : Bytes → Bytes → Prop where
  | nil : Chars [] []
  | plain {c : UInt8} {t s : Bytes} (h : 0x20 ≤ c) (hq : c ≠ ch '"') (hb : c ≠ ch '\\') :
      Chars t s → Chars (c :: t) (c :: s)
  | escape {e b : UInt8} {t s : Bytes} (h : simpleEscape e = some b) :
      Chars t s → Chars (ch '\\' :: e :: t) (b :: s)
  | unicode {x t s : Bytes} {v : Nat} (h : HexWord x v) (hn : ¬(isHigh v ∧ LowNext t)) :
      Chars t s → Chars (ch '\\' :: ch 'u' :: x ++ t) (utf8 v ++ s)
  | surrogates {x y t s : Bytes} {hi lo : Nat} (hx : HexWord x hi) (hh : isHigh hi)
      (hy : HexWord y lo) (hl : isLow lo) :
      Chars t s → Chars (ch '\\' :: ch 'u' :: x ++ ch '\\' :: ch 'u' :: y ++ t)
        (utf8 (0x10000 + ((hi - 0xD800) <<< 10) + (lo - 0xDC00)) ++ s)

/-- A string in its quotes. -/
def Quoted (s b : Bytes) : Prop := ∃ t, s = ch '"' :: t ++ [ch '"'] ∧ Chars t b

/-! ## Numbers -/

/-- The value of decimal digits read after `u`. -/
def digitsFrom (u : Nat) (ds : Bytes) : Nat := ds.foldl (fun u c => u * 10 + (c.toNat - 48)) u

/-- One or more digits, leading zeros allowed. -/
def Digits (ds : Bytes) (u : Nat) : Prop :=
  ds ≠ [] ∧ (∀ c ∈ ds, isDigit c = true) ∧ u = digitsFrom 0 ds

/-- A number of 64 bits. -/
def Number (s : Bytes) (v : Int) : Prop :=
  I64 v ∧ ∃ ds u, Digits ds u ∧ ((s = ds ∧ v = u) ∨ (s = ch '-' :: ds ∧ v = -(u : Int)))

/-! ## Values -/

mutual

inductive Derives : Nat → Bytes → Tree → Prop where
  | null {n : Nat} : Derives n (lit "null") .null
  | true {n : Nat} : Derives n (lit "true") (.bool true)
  | false {n : Nat} : Derives n (lit "false") (.bool false)
  | num {n : Nat} {s : Bytes} {v : Int} (h : Number s v) : Derives n s (.num v)
  | str {n : Nat} {s b : Bytes} (h : Quoted s b) : Derives n s (.str b)
  | empty {n : Nat} {w : Bytes} (isObj : Bool) (h : Ws w) :
      Derives (n + 1) ((if isObj then ch '{' else ch '[') :: w ++ [closer isObj])
        (container isObj [])
  | items {n : Nat} {isObj : Bool} {s : Bytes} {ms : List (Bytes × Tree)}
      (h : DerivesItems n isObj s ms) :
      Derives (n + 1) ((if isObj then ch '{' else ch '[') :: s ++ [closer isObj])
        (container isObj ms)

/-- One or more members or elements, with commas between them. -/
inductive DerivesItems : Nat → Bool → Bytes → List (Bytes × Tree) → Prop where
  | last {n : Nat} {isObj : Bool} {s k : Bytes} {v : Tree} (h : DerivesItem n isObj s k v) :
      DerivesItems n isObj s [(k, v)]
  | more {n : Nat} {isObj : Bool} {s s' k : Bytes} {v : Tree} {ms : List (Bytes × Tree)}
      (h : DerivesItem n isObj s k v) (hs : DerivesItems n isObj s' ms) :
      DerivesItems n isObj (s ++ ch ',' :: s') ((k, v) :: ms)

/-- An element, or a member with its key. -/
inductive DerivesItem : Nat → Bool → Bytes → Bytes → Tree → Prop where
  | elem {n : Nat} {w s w' : Bytes} {v : Tree} (hw : Ws w) (h : Derives n s v) (hw' : Ws w') :
      DerivesItem n Bool.false (w ++ s ++ w') [] v
  | member {n : Nat} {w q k w₁ w₂ s w' : Bytes} {v : Tree} (hw : Ws w) (hq : Quoted q k)
      (h₁ : Ws w₁) (h₂ : Ws w₂) (h : Derives n s v) (hw' : Ws w') :
      DerivesItem n Bool.true (w ++ q ++ w₁ ++ ch ':' :: w₂ ++ s ++ w') k v

end

/-- A whole text: one value, with at most `AJ_MAX_DEPTH` containers open at once. -/
def Document (s : Bytes) (v : Tree) : Prop :=
  ∃ w t w', s = w ++ t ++ w' ∧ Ws w ∧ Ws w' ∧ Derives maxDepth t v

end Json
