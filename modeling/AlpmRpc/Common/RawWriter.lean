import AlpmRpc.Common.OutOfMemory
import AlpmRpc.Lib.Checked

/-!
# The writer and its memory

The `ajw_*` functions as they run on the memory of an `aj_w`. `buf` is the block it owns, which the
`k`-th `realloc` makes larger where `mem k` says so, with the bytes `junk k` behind the old ones. Sums
of sizes are in `size_t`, and every store is checked. `log` is not in the source: what was stored, and
for each growth that failed the `len` and the bytes of that moment.
-/

set_option autoImplicit false

namespace Json.RawWriter

open Checked
open OutOfMemory (Plain)

inductive Event where
  | stored (len k cap : Nat)
  | failed (len : Nat) (buf : Bytes)
  deriving DecidableEq

/-- `aj_w` -/
structure State where
  buf : Bytes := []
  len : Nat := 0
  cap : Nat := 0
  err : Bool := false
  needComma : Bool := false
  allocs : Nat := 0
  log : List Event := []

abbrev W := Prog State

/-- `size_t` -/
def size (n : Nat) : Nat := n % 2 ^ 64

/-! ## Growing -/

/-- The loop of `wgrow`; nothing when it overflows. -/
def doubleLoop (n : Nat) : Nat → Nat → W (Option Nat)
  | 0, _ => fault
  | fuel + 1, cap =>
    if cap < n then
      if size (cap * 2) < cap then return none else doubleLoop n fuel (size (cap * 2))
    else return some cap

/-- `w->err = 1; return 0` -/
def giveUp : W Bool := do
  modify fun w => { w with err := true, log := w.log ++ [.failed w.len w.buf] }
  return false

section

variable (mem : Nat → Bool) (junk : Nat → Nat → UInt8)

def realloc (cap : Nat) : W Bool := do
  let k := (← get).allocs
  modify fun w => { w with allocs := k + 1 }
  if mem k then do
    modify fun w =>
      { w with buf := w.buf ++ (List.range (cap - w.buf.length)).map (junk k) }
    return true
  else return false

def wgrow (need : Nat) : W Bool := do
  let w ← get
  if w.err then return false
  else if size (w.len + need + 1) ≤ w.cap then return true
  else
    match ← doubleLoop (size (w.len + need + 1)) 64 (if w.cap = 0 then 256 else w.cap) with
    | none => giveUp
    | some cap => do
      if ← realloc mem junk cap then do
        modify fun w => { w with cap }
        return true
      else giveUp

/-! ## Storing -/

/-- `s` in the place of what is there from `i` on. -/
def overwrite (b : Bytes) (i : Nat) (s : Bytes) : Bytes := b.take i ++ s ++ b.drop (i + s.length)

/-- Stores from `buf + i` on. -/
def poke (i : Nat) (s : Bytes) : W Unit := do
  check (i + s.length ≤ (← get).buf.length)
  modify fun w => { w with buf := overwrite w.buf i s }

/-- `k` bytes and the terminator are stored here. -/
def noteStore (k : Nat) : W Unit :=
  modify fun w => { w with log := w.log ++ [.stored w.len k w.cap] }

/-- `wraw_` -/
def wraw (s : Bytes) : W Unit := do
  noteStore s.length
  poke (← get).len s
  modify fun w => { w with len := w.len + s.length }
  poke (← get).len [0]

/-- `wputc_` -/
def wputc (c : UInt8) : W Unit := wraw [c]

def setComma (b : Bool) : W Unit := modify fun w => { w with needComma := b }

def wput (s : Bytes) : W Unit := do
  if ← wgrow mem junk s.length then wraw s else return ()

def ajwReserve (bytes : Nat) : W Unit := do
  let _ ← wgrow mem junk bytes

def ajwRaw (s : Bytes) : W Unit := do
  wput mem junk s
  setComma true

def wsep : W Unit := do
  if (← get).needComma then do
    if ← wgrow mem junk 1 then do
      wputc (ch ',')
      setComma true
    else return ()
  else setComma true

def wopen (c : UInt8) : W Unit := do
  wsep mem junk
  if ← wgrow mem junk 1 then do
    wputc c
    setComma false
  else return ()

def wclose (c : UInt8) : W Unit := do
  if ← wgrow mem junk 1 then do
    wputc c
    setComma true
  else return ()

def ajwObjBegin : W Unit := wopen mem junk (ch '{')
def ajwObjEnd : W Unit := wclose mem junk (ch '}')
def ajwArrBegin : W Unit := wopen mem junk (ch '[')
def ajwArrEnd : W Unit := wclose mem junk (ch ']')

/-! ## Strings -/

/-- The run of bytes that is copied as it is. -/
def putRun (run : Bytes) : W Bool :=
  if run = [] then return true
  else do
    if ← wgrow mem junk run.length then do
      wraw run
      return true
    else return false

/-- The loop of `wstr_escaped`. -/
def wstrLoop (run : Bytes) : Bytes → W Unit
  | [] => do
    if ← putRun mem junk run then do
      if ← wgrow mem junk 1 then wputc (ch '"') else return ()
    else return ()
  | c :: s =>
    if Plain c then wstrLoop (run ++ [c]) s
    else do
      if ← putRun mem junk run then do
        if ← wgrow mem junk 6 then do
          wraw (escape c)
          wstrLoop [] s
        else return ()
      else return ()

def wstrEscaped (s : Bytes) : W Unit := do
  if ← wgrow mem junk (size ((cstr s).length + 2)) then do
    wputc (ch '"')
    wstrLoop mem junk [] (cstr s)
  else return ()

def ajwKey (key : Bytes) : W Unit := do
  wsep mem junk
  wstrEscaped mem junk key
  if ← wgrow mem junk 1 then do
    wputc (ch ':')
    setComma false
  else return ()

def ajwNull : W Unit := do
  wsep mem junk
  wput mem junk (lit "null")

def ajwStr : Option Bytes → W Unit
  | none => ajwNull mem junk
  | some s => do
    wsep mem junk
    wstrEscaped mem junk s

/-! ## Numbers -/

/-- The loop that fills `tmp[24]`, of which the head is the last digit stored. -/
def tmpLoop : Nat → Nat → Bytes → W Bytes
  | 0, _, _ => fault
  | fuel + 1, u, tmp => do
    check (tmp.length < 24)
    let tmp := (ch '0' + UInt8.ofNat (u % 10)) :: tmp
    if u / 10 = 0 then return tmp else tmpLoop fuel (u / 10) tmp

/-- The stores through `out`, and where it is then. -/
def outLoop : Nat → Bytes → W Nat
  | out, [] => return out
  | out, c :: s => do
    poke out [c]
    outLoop (out + 1) s

/-- What `ajw_i64` does with the room for its digits. -/
def putDigits (v : Int) : W Unit := do
  let u := if v < 0 then (-(v + 1)).toNat + 1 else v.toNat
  let tmp ← tmpLoop 64 u []
  let s := if v < 0 then ch '-' :: tmp else tmp
  noteStore s.length
  let out ← outLoop (← get).len s
  modify fun w => { w with len := out }
  poke out [0]

def ajwI64 (v : Int) : W Unit := do
  wsep mem junk
  if ← wgrow mem junk 24 then putDigits v else return ()

/-! ## Runs -/

/-- A call on a writer that is there. -/
inductive Call where
  | reserve (bytes : Nat)
  | raw (s : Bytes)
  | objBegin
  | objEnd
  | arrBegin
  | arrEnd
  | key (s : Bytes)
  | str (s : Option Bytes)
  | i64 (v : Int)
  | null

/-- Lengths are below `2^62`, and a number is a `long long`. -/
def Call.Fits : Call → Prop
  | .reserve bytes => bytes < 2 ^ 62
  | .raw s => s.length < 2 ^ 62
  | .key s => (cstr s).length < 2 ^ 62
  | .str (some s) => (cstr s).length < 2 ^ 62
  | .i64 v => -2 ^ 63 ≤ v ∧ v < 2 ^ 63
  | _ => True

def exec : Call → W Unit
  | .reserve bytes => ajwReserve mem junk bytes
  | .raw s => ajwRaw mem junk s
  | .objBegin => ajwObjBegin mem junk
  | .objEnd => ajwObjEnd mem junk
  | .arrBegin => ajwArrBegin mem junk
  | .arrEnd => ajwArrEnd mem junk
  | .key s => ajwKey mem junk s
  | .str s => ajwStr mem junk s
  | .i64 v => ajwI64 mem junk v
  | .null => ajwNull mem junk

def run : List Call → W Unit
  | [] => return ()
  | c :: cs => do
    exec mem junk c
    run cs

end

/-- What a call does to a writer with endless memory. -/
def Call.write (a : Writer) : Call → Writer
  | .reserve _ => a
  | .raw s => Json.ajwRaw a s
  | .objBegin => Json.ajwObjBegin a
  | .objEnd => Json.ajwObjEnd a
  | .arrBegin => Json.ajwArrBegin a
  | .arrEnd => Json.ajwArrEnd a
  | .key s => Json.ajwKey a s
  | .str s => Json.ajwStr a s
  | .i64 v => Json.ajwI64 a v
  | .null => Json.ajwNull a

end Json.RawWriter
