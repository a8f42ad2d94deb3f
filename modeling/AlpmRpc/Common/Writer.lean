import AlpmRpc.Common.Json

/-!
# The JSON writer

The `ajw_*` functions of `src/common/arpc_json.c`, with every growth of the buffer succeeding. The
buffer is the bytes up to `len`.
-/

set_option autoImplicit false

namespace Json

/-- `aj_w` -/
structure Writer where
  buf : Bytes := []
  needComma : Bool := false
  deriving DecidableEq, Repr

def wput (w : Writer) (s : Bytes) : Writer := { w with buf := w.buf ++ s }

def ajwRaw (w : Writer) (s : Bytes) : Writer := { buf := w.buf ++ s, needComma := true }

def wsep (w : Writer) : Writer :=
  { buf := if w.needComma then w.buf ++ [ch ','] else w.buf, needComma := true }

def wopen (w : Writer) (c : UInt8) : Writer := { buf := (wsep w).buf ++ [c], needComma := false }

def wclose (w : Writer) (c : UInt8) : Writer := { buf := w.buf ++ [c], needComma := true }

def ajwObjBegin (w : Writer) : Writer := wopen w (ch '{')
def ajwObjEnd (w : Writer) : Writer := wclose w (ch '}')
def ajwArrBegin (w : Writer) : Writer := wopen w (ch '[')
def ajwArrEnd (w : Writer) : Writer := wclose w (ch ']')

/-- `HEXDIG[d]` -/
def hexDig (d : UInt8) : UInt8 := if d < 10 then ch '0' + d else ch 'a' + (d - 10)

/-- What `wstr_escaped` writes for the byte `c`. -/
def escape (c : UInt8) : Bytes :=
  if c ≥ 0x20 ∧ c ≠ ch '"' ∧ c ≠ ch '\\' then [c]
  else if c = ch '"' then [ch '\\', ch '"']
  else if c = ch '\\' then [ch '\\', ch '\\']
  else if c = 8 then [ch '\\', ch 'b']
  else if c = 12 then [ch '\\', ch 'f']
  else if c = 10 then [ch '\\', ch 'n']
  else if c = 13 then [ch '\\', ch 'r']
  else if c = 9 then [ch '\\', ch 't']
  else [ch '\\', ch 'u', ch '0', ch '0', hexDig (c >>> 4), hexDig (c &&& 0xF)]

/-- `wstr_escaped`: a C string, so up to its NUL. -/
def wstrEscaped (w : Writer) (s : Bytes) : Writer :=
  wput w (ch '"' :: (cstr s).flatMap escape ++ [ch '"'])

def ajwKey (w : Writer) (key : Bytes) : Writer :=
  { buf := (wstrEscaped (wsep w) key).buf ++ [ch ':'], needComma := false }

def ajwNull (w : Writer) : Writer := wput (wsep w) (lit "null")

def ajwStr (w : Writer) : Option Bytes → Writer
  | none => ajwNull w
  | some s => wstrEscaped (wsep w) s

/-- The loop of `ajw_i64` that fills `tmp[24]`: the digits of `u`, last one first. -/
def tmpDigits : Nat → Nat → Bytes
  | 0, _ => []
  | n + 1, u => (ch '0' + UInt8.ofNat (u % 10)) :: if u / 10 = 0 then [] else tmpDigits n (u / 10)

/-- The text `ajw_i64` writes for `v`. -/
def i64Text (v : Int) : Bytes :=
  let u := if v < 0 then (-(v + 1)).toNat + 1 else v.toNat
  (if v < 0 then [ch '-'] else []) ++ (tmpDigits 24 u).reverse

def ajwI64 (w : Writer) (v : Int) : Writer := wput (wsep w) (i64Text v)

/-! ## Whole trees -/

mutual
/-- The calls that emit a tree; nothing writes a `bool`. -/
def ajwTree (w : Writer) : Tree → Writer
  | .null => ajwNull w
  | .bool _ => w
  | .num v => ajwI64 w v
  | .str s => ajwStr w (some s)
  | .arr es => ajwArrEnd (ajwElems (ajwArrBegin w) es)
  | .obj ms => ajwObjEnd (ajwMembers (ajwObjBegin w) ms)

def ajwElems (w : Writer) : List Tree → Writer
  | [] => w
  | v :: vs => ajwElems (ajwTree w v) vs

def ajwMembers (w : Writer) : List (Bytes × Tree) → Writer
  | [] => w
  | (k, v) :: ms => ajwMembers (ajwTree (ajwKey w k) v) ms
end

end Json
