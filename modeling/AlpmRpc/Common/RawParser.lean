import AlpmRpc.Common.Doc
import AlpmRpc.Lib.Checked

/-!
# The parser and its memory

`aj_parse` as it runs on `text[0 .. len)`: positions for `p->p`, the counters with the capacities
behind them, the temporary buffer of a string, and allocations of which `mem k` says whether the
`k`-th succeeds. Every read of the text and every store is checked, and so is arithmetic in `int` and
in the client's 32-bit `long`; `points` has the counters each time one of them changed. A failure is
`-1`, and `aj_parse`'s `0`.
-/

set_option autoImplicit false

namespace Json.Raw

open Checked

/-- `INT_MAX`, and `LONG_MAX` on the client -/
def intMax : Nat := 2 ^ 31 - 1

/-- `aj_p` and its `aj_doc`; the depth is an argument. -/
structure State where
  pos : Nat := 0
  doc : Doc := {}
  cap : Nat := 0
  scap : Nat := 0
  allocs : Nat := 0
  points : List (Nat × Nat) := []

abbrev Parser := Prog State

section

variable (text : Bytes) (mem : Nat → Bool)

/-! ## Reading -/

def pos : Parser Nat := do return (← get).pos

/-- `p->p += n` -/
def seek (n : Nat) : Parser Unit := modify fun s => { s with pos := s.pos + n }

def byteAt (i : Nat) : Parser UInt8 :=
  match text[i]? with
  | some c => pure c
  | none => fault

/-- `p->p >= p->end` -/
def atEnd : Parser Bool := do return text.length ≤ (← get).pos

/-- `p->end - p->p` -/
def left : Parser Nat := do
  let i ← pos
  check (i ≤ text.length)
  return text.length - i

/-- `*p->p` -/
def here : Parser UInt8 := do byteAt text (← pos)

/-- `p->p < p->end && *p->p == c` -/
def sees (c : UInt8) : Parser Bool := do
  if ← atEnd text then return false
  else return (← here text) = c

/-- `skip_ws` -/
def skipWsLoop : Nat → Parser Unit
  | 0 => fault
  | fuel + 1 => do
    if ← atEnd text then return ()
    else
      let c ← here text
      if isWs c then do
        seek 1
        skipWsLoop fuel
      else return ()

def skipWs : Parser Unit := skipWsLoop text (text.length + 1)

/-- `memcmp` with the text from `i` on. -/
def matchAt : Nat → Bytes → Parser Bool
  | _, [] => return true
  | i, c :: w => do
    if (← byteAt text i) = c then matchAt (i + 1) w else return false

/-- Is the word `w` there? -/
def isWord (w : Bytes) : Parser Bool := do
  if w.length ≤ (← left text) then matchAt text (← pos) w else return false

/-! ## Memory -/

/-- `malloc` or `realloc`, and the way out when there is none. -/
def alloc : Parser Unit := fun s =>
  if mem s.allocs then .ok () { s with allocs := s.allocs + 1 }
  else .fail { s with allocs := s.allocs + 1 }

/-- The counters have changed. -/
def note : Parser Unit :=
  modify fun s => { s with points := s.points ++ [(s.doc.nodes.length, s.doc.sbuf.length)] }

/-- The growth in `node_new`. -/
def growNodes : Parser Unit := do
  let s ← get
  if s.doc.nodes.length = s.cap then do
    let cap := if s.cap = 0 then 32 else s.cap * 2
    check (cap ≤ intMax)
    alloc mem
    modify fun s => { s with cap }
  else return ()

/-- `node_new`, with what its caller then sets in the node. -/
def nodeNew (n : Node) : Parser Nat := do
  growNodes mem
  let s ← get
  check (s.doc.nodes.length < s.cap ∧ s.doc.nodes.length < intMax)
  modify fun s => { s with doc := (Json.nodeNew s.doc n).2 }
  note
  return s.doc.nodes.length

/-- A store in `nodes[i]`. -/
def setNode (i : Nat) (f : Node → Node) : Parser Unit := do
  check (i < (← get).doc.nodes.length)
  modify fun s => { s with doc := s.doc.setNode i f }

/-- `while (cap < need) cap *= 2` -/
def doubleLoop (need : Nat) : Nat → Nat → Parser Nat
  | 0, _ => fault
  | fuel + 1, cap =>
    if cap < need then do
      check (cap * 2 < 2 ^ 64)
      doubleLoop need fuel (cap * 2)
    else return cap

/-- The growth in `sbuf_put`. -/
def growBytes (need : Nat) : Parser Unit := do
  let s ← get
  if need > s.scap then do
    check (s.scap * 2 < 2 ^ 64)
    let scap ← doubleLoop need 64 (if s.scap = 0 then 256 else s.scap * 2)
    alloc mem
    modify fun s => { s with scap }
  else return ()

/-- `sbuf_put` -/
def sbufPut (b : Bytes) : Parser Nat := do
  let off := (← get).doc.sbuf.length
  growBytes mem (off + b.length + 1)
  check (off ≤ intMax)
  check (off + b.length + 1 ≤ (← get).scap)
  modify fun s => { s with doc := Json.sbufPut s.doc b }
  note
  return off

/-! ## Strings -/

/-- `hex4`, of what is left of its digits. -/
def hexLoop : Nat → Nat → Nat → Parser (Option Nat)
  | 0, _, v => return some v
  | k + 1, i, v => do
    match hexDigitVal (← byteAt text i) with
    | none => return none
    | some d => hexLoop k (i + 1) (v * 16 + d)

def hex4 (i : Nat) : Parser (Option Nat) := hexLoop text 4 i 0

/-- `tmp` -/
structure Tmp where
  bytes : Bytes := []
  cap : Nat := 256

/-- Stores behind `tmp[n]`, each inside the buffer. -/
def tmpPut (t : Tmp) (b : Bytes) : Parser Tmp := do
  check (t.bytes.length + b.length ≤ t.cap)
  return { t with bytes := t.bytes ++ b }

/-- Room for an escape. -/
def tmpRoom (t : Tmp) : Parser Tmp :=
  if t.bytes.length + 5 > t.cap then do
    check (t.cap * 2 < 2 ^ 64)
    alloc mem
    check (t.bytes.length ≤ t.cap * 2)
    return { t with cap := t.cap * 2 }
  else return t

/-- The second escape of a pair, right after the code unit `hi`. -/
def lowSurrogate (hi : Nat) : Parser Nat := do
  let i ← pos
  if (← byteAt text i) = ch '\\' then do
    if (← byteAt text (i + 1)) = ch 'u' then do
      match ← hex4 text (i + 2) with
      | some lo =>
        if 0xDC00 ≤ lo ∧ lo ≤ 0xDFFF then do
          seek 6
          return 0x10000 + ((hi - 0xD800) <<< 10) + (lo - 0xDC00)
        else return hi
      | none => return hi
    else return hi
  else return hi

/-- `case 'u'` -/
def codePoint : Parser Nat := do
  if (← left text) < 4 then fail
  else match ← hex4 text (← pos) with
    | none => fail
    | some hi => do
      seek 4
      let n ← left text
      if 0xD800 ≤ hi ∧ hi ≤ 0xDBFF ∧ n ≥ 6 then lowSurrogate text hi else return hi

/-- What follows a backslash. -/
def escape (t : Tmp) : Parser Tmp := do
  if ← atEnd text then fail
  else
    let e ← here text
    seek 1
    if e = ch 'u' then do
      let cp ← codePoint text
      tmpPut t (utf8 cp)
    else match simpleEscape e with
      | some b => tmpPut t [b]
      | none => fail

/-- The loop of `parse_string_raw`. -/
def charsLoop : Nat → Tmp → Parser Tmp
  | 0, _ => fault
  | fuel + 1, t => do
    if ← atEnd text then return t
    else if (← here text) = ch '"' then return t
    else do
      let t ← tmpRoom mem t
      let c ← here text
      if c ≠ ch '\\' then do
        if c < 0x20 then fail
        else do
          let t ← tmpPut t [c]
          seek 1
          charsLoop fuel t
      else do
        seek 1
        let t ← escape text t
        charsLoop fuel t

/-- `parse_string_raw` -/
def parseStringRaw : Parser Nat := do
  if ← sees text (ch '"') then do
    seek 1
    let t ← charsLoop text mem (text.length + 1) {}
    if ← sees text (ch '"') then do
      seek 1
      sbufPut mem t.bytes
    else fail
  else fail

/-! ## Values -/

/-- The accumulation loop. -/
def digitsLoop : Nat → Nat → Parser Nat
  | 0, _ => fault
  | fuel + 1, u => do
    if ← atEnd text then return u
    else
      let c ← here text
      if isDigit c then do
        let d := c.toNat - 48
        if u > (18446744073709551615 - d) / 10 then fail
        else do
          seek 1
          digitsLoop fuel (u * 10 + d)
      else return u

/-- The digits of a number, after its sign. -/
def parseDigits (neg : Bool) : Parser Int := do
  if ← atEnd text then fail
  else if !isDigit (← here text) then fail
  else do
    let u ← digitsLoop text (text.length + 1) 0
    if (← sees text (ch '.')) || (← sees text (ch 'e')) || (← sees text (ch 'E')) then fail
    else match signed neg u with
      | none => fail
      | some v => return v

/-- The part of `parse_value` that reads a number, which starts with `c`. -/
def parseNumber (c : UInt8) : Parser Int :=
  if c = ch '-' then do
    seek 1
    parseDigits text true
  else parseDigits text false

/-- A member's key and colon, with the key's offset; an element has none. -/
def parseKey (isObj : Bool) : Parser Nat :=
  if isObj then do
    skipWs text
    let koff ← parseStringRaw text mem
    skipWs text
    if ← sees text (ch ':') then do
      seek 1
      return koff
    else fail
  else return 0

/-- A member's key is one more than its offset. -/
def setKey (isObj : Bool) (koff child : Nat) : Parser Unit :=
  if isObj then do
    check (koff + 1 ≤ intMax)
    setNode child fun n => { n with key := koff + 1 }
  else return ()

/-- The child is the first of `self`, or comes after `prev`. -/
def linkChild (self : Nat) (prev : Option Nat) (child : Nat) : Parser Unit :=
  match prev with
  | none => setNode self fun n => { n with firstChild := some child }
  | some p => setNode p fun n => { n with nextSibling := some child }

/-- `parse_container` and the start of `parse_container_`, with `items` for its loop. -/
def parseContainer (items : Nat → Parser Unit) (depth : Nat) (isObj : Bool) : Parser Nat := do
  if depth ≥ maxDepth then fail
  else
    let self ← nodeNew mem { type := if isObj then .obj else .arr }
    seek 1
    skipWs text
    if ← sees text (closer isObj) then do
      seek 1
      return self
    else do
      items self
      return self

mutual
/-- `parse_value` -/
def parseValue : Nat → Nat → Parser Nat
  | 0, _ => fault
  | fuel + 1, depth => do
    skipWs text
    if ← atEnd text then fail
    else
      let c ← here text
      if c = ch '{' then
        parseContainer text mem (fun self => parseItems fuel (depth + 1) true self none) depth true
      else if c = ch '[' then
        parseContainer text mem (fun self => parseItems fuel (depth + 1) false self none) depth false
      else if c = ch '"' then do
        let off ← parseStringRaw text mem
        nodeNew mem { type := .str, str := off }
      else if ← isWord text (lit "true") then do
        seek 4
        nodeNew mem { type := .bool, num := 1 }
      else if ← isWord text (lit "false") then do
        seek 5
        nodeNew mem { type := .bool, num := 0 }
      else if ← isWord text (lit "null") then do
        seek 4
        nodeNew mem { type := .null }
      else if c = ch '-' ∨ isDigit c then do
        let v ← parseNumber text c
        nodeNew mem { type := .num, num := v }
      else fail

/-- The loop of `parse_container_`. -/
def parseItems : Nat → Nat → Bool → Nat → Option Nat → Parser Unit
  | 0, _, _, _, _ => fault
  | fuel + 1, depth, isObj, self, prev => do
    let koff ← parseKey text mem isObj
    let child ← parseValue fuel depth
    setKey isObj koff child
    linkChild self prev child
    skipWs text
    if ← sees text (ch ',') then do
      seek 1
      parseItems fuel depth isObj self (some child)
    else if ← sees text (closer isObj) then seek 1
    else fail
end

/-- `aj_parse`; its last loop is the one of `Common/Doc.lean`. -/
def ajParse : Parser Unit := do
  let root ← parseValue text mem (2 * text.length + 2) 0
  if root ≠ 0 then fail
  else do
    skipWs text
    if (← pos) ≠ text.length then fail else return ()

end

end Json.Raw
