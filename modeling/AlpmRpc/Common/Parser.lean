import AlpmRpc.Common.Json

/-!
# The JSON parser

`aj_parse` of `src/common/arpc_json.c`, with every allocation succeeding. The input is the bytes
from `p->p` to `p->end`. `parseValue` and `parseItems` call each other as `parse_value` and
`parse_container_` do; every turn takes one `fuel`, of which `ajParse` gives more than the input
can use.
-/

set_option autoImplicit false

namespace Json

/-- `AJ_MAX_DEPTH` -/
def maxDepth : Nat := 256

def isWs (c : UInt8) : Bool := c = ch ' ' || c = 9 || c = 10 || c = 13

def skipWs (s : Bytes) : Bytes := s.dropWhile isWs

/-! ## Strings -/

def hexDigitVal (c : UInt8) : Option Nat :=
  if ch '0' ≤ c ∧ c ≤ ch '9' then some (c.toNat - 48)
  else if ch 'a' ≤ c ∧ c ≤ ch 'f' then some (c.toNat - 97 + 10)
  else if ch 'A' ≤ c ∧ c ≤ ch 'F' then some (c.toNat - 65 + 10)
  else none

/-- `hex4`; `none` is `-1`, or fewer than four bytes left. -/
def hex4 : Bytes → Option Nat
  | a :: b :: c :: d :: _ => do
    let a ← hexDigitVal a
    let b ← hexDigitVal b
    let c ← hexDigitVal c
    let d ← hexDigitVal d
    return ((a * 16 + b) * 16 + c) * 16 + d
  | _ => none

/-- `utf8_put` -/
def utf8 (cp : Nat) : Bytes :=
  if cp < 0x80 then [UInt8.ofNat cp]
  else if cp < 0x800 then [UInt8.ofNat (0xC0 ||| cp >>> 6), UInt8.ofNat (0x80 ||| cp &&& 0x3F)]
  else if cp < 0x10000 then
    [UInt8.ofNat (0xE0 ||| cp >>> 12), UInt8.ofNat (0x80 ||| cp >>> 6 &&& 0x3F),
      UInt8.ofNat (0x80 ||| cp &&& 0x3F)]
  else
    [UInt8.ofNat (0xF0 ||| cp >>> 18), UInt8.ofNat (0x80 ||| cp >>> 12 &&& 0x3F),
      UInt8.ofNat (0x80 ||| cp >>> 6 &&& 0x3F), UInt8.ofNat (0x80 ||| cp &&& 0x3F)]

/-- The code point of a `\u` escape whose digits start `s`, and how much of `s` it takes. A low
surrogate escape right after a high one is part of it. -/
def codePoint (s : Bytes) : Option (Nat × Nat) := do
  let hi ← hex4 s
  if 0xD800 ≤ hi ∧ hi ≤ 0xDBFF ∧ (s.drop 4).length ≥ 6 ∧
      s[4]? = some (ch '\\') ∧ s[5]? = some (ch 'u') then
    match hex4 (s.drop 6) with
    | some lo =>
      if 0xDC00 ≤ lo ∧ lo ≤ 0xDFFF then
        return (0x10000 + ((hi - 0xD800) <<< 10) + (lo - 0xDC00), 10)
      else return (hi, 4)
    | none => return (hi, 4)
  else return (hi, 4)

/-- The byte of a one-character escape. -/
def simpleEscape (c : UInt8) : Option UInt8 :=
  if c = ch '"' then some (ch '"')
  else if c = ch '\\' then some (ch '\\')
  else if c = ch '/' then some (ch '/')
  else if c = ch 'b' then some 8
  else if c = ch 'f' then some 12
  else if c = ch 'n' then some 10
  else if c = ch 'r' then some 13
  else if c = ch 't' then some 9
  else none

/-- The loop of `parse_string_raw`, after the opening quote: the decoded bytes and what follows the
closing quote. -/
def parseChars : Nat → Bytes → Option (Bytes × Bytes)
  | 0, _ => none
  | _, [] => none
  | n + 1, c :: s =>
    if c = ch '"' then some ([], s)
    else if c ≠ ch '\\' then
      if c < 0x20 then none
      else do
        let (cs, r) ← parseChars n s
        return (c :: cs, r)
    else match s with
      | [] => none
      | e :: s =>
        if e = ch 'u' then do
          let (cp, k) ← codePoint s
          let (cs, r) ← parseChars n (s.drop k)
          return (utf8 cp ++ cs, r)
        else do
          let b ← simpleEscape e
          let (cs, r) ← parseChars n s
          return (b :: cs, r)

def parseStringRaw : Bytes → Option (Bytes × Bytes)
  | [] => none
  | c :: s => if c = ch '"' then parseChars (s.length + 1) s else none

/-! ## Numbers -/

def isDigit (c : UInt8) : Bool := ch '0' ≤ c && c ≤ ch '9'

/-- The accumulation loop: `u` and the rest, `none` when `u` would pass 64 bits. -/
def parseDigits (u : Nat) : Bytes → Option (Nat × Bytes)
  | [] => some (u, [])
  | c :: s =>
    if isDigit c then
      let d := c.toNat - 48
      if u > (18446744073709551615 - d) / 10 then none else parseDigits (u * 10 + d) s
    else some (u, c :: s)

/-- The sign's range check and the value. -/
def signed (neg : Bool) (u : Nat) : Option Int :=
  if neg then (if u > 2 ^ 63 then none else some (-(u : Int)))
  else if u > 2 ^ 63 - 1 then none else some (u : Int)

/-- The part of `parse_value` that reads a number. -/
def parseNumber (s : Bytes) : Option (Tree × Bytes) := do
  let (neg, s) := match s with
    | c :: r => if c = ch '-' then (true, r) else (false, s)
    | [] => (false, s)
  match s with
  | [] => none
  | c :: _ =>
    if !isDigit c then none
    else do
      let (u, r) ← parseDigits 0 s
      -- no reals: rejected rather than truncated
      if r.head? = some (ch '.') ∨ r.head? = some (ch 'e') ∨ r.head? = some (ch 'E') then none
      else do
        let v ← signed neg u
        return (.num v, r)

/-! ## Values -/

/-- The end of a container. -/
def closer (isObj : Bool) : UInt8 := if isObj then ch '}' else ch ']'

/-- The container of the members an object or an array was parsed to. -/
def container (isObj : Bool) (ms : List (Bytes × Tree)) : Tree :=
  if isObj then .obj ms else .arr (ms.map (·.2))

/-- A member's key and colon; an element has none. -/
def parseKey (isObj : Bool) (s : Bytes) : Option (Bytes × Bytes) :=
  if isObj then do
    let (k, s) ← parseStringRaw (skipWs s)
    match skipWs s with
    | [] => none
    | c :: s => if c = ch ':' then some (k, s) else none
  else some ([], s)

/-- `parse_container`, after the opening bracket, with `items` to read the children. -/
def parseContainer (items : Bytes → Option (List (Bytes × Tree) × Bytes)) (depth : Nat)
    (isObj : Bool) (r : Bytes) : Option (Tree × Bytes) :=
  if depth ≥ maxDepth then none
  else match skipWs r with
    | [] => none
    | c :: r =>
      if c = closer isObj then some (container isObj [], r)
      else do
        let (ms, r) ← items (c :: r)
        return (container isObj ms, r)

mutual
/-- `parse_value`; `depth` is the number of containers open. -/
def parseValue : Nat → Nat → Bytes → Option (Tree × Bytes)
  | 0, _, _ => none
  | fuel + 1, depth, s =>
    match skipWs s with
    | [] => none
    | c :: r =>
      if c = ch '{' then parseContainer (parseItems fuel (depth + 1) true) depth true r
      else if c = ch '[' then parseContainer (parseItems fuel (depth + 1) false) depth false r
      else if c = ch '"' then do
        let (cs, r) ← parseStringRaw (c :: r)
        return (.str cs, r)
      else if lit "true" <+: c :: r then some (.bool true, (c :: r).drop 4)
      else if lit "false" <+: c :: r then some (.bool false, (c :: r).drop 5)
      else if lit "null" <+: c :: r then some (.null, (c :: r).drop 4)
      else if c = ch '-' ∨ isDigit c then parseNumber (c :: r)
      else none

/-- The loop of `parse_container_`. -/
def parseItems : Nat → Nat → Bool → Bytes → Option (List (Bytes × Tree) × Bytes)
  | 0, _, _, _ => none
  | fuel + 1, depth, isObj, s => do
    let (k, s) ← parseKey isObj s
    let (v, s) ← parseValue fuel depth s
    match skipWs s with
    | [] => none
    | c :: s =>
      if c = ch ',' then do
        let (ms, s) ← parseItems fuel depth isObj s
        return ((k, v) :: ms, s)
      else if c = closer isObj then some ([(k, v)], s)
      else none
end

/-- `aj_parse`: the root, when all of `text` is one value. -/
def ajParse (text : Bytes) : Option Tree := do
  let (v, r) ← parseValue (2 * text.length + 2) 0 text
  if skipWs r = [] then some v else none

end Json
