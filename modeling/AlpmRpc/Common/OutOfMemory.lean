import AlpmRpc.Common.Writer
import AlpmRpc.Lib.Growth

/-!
# The JSON writer, out of memory

The `ajw_*` functions of `src/common/arpc_json.c` with growths of the buffer that may fail: `mem k` says
whether a writer's growth `k` succeeds. A growth past what a `size_t` can count is one that fails.
-/

set_option autoImplicit false

namespace OutOfMemory

open Json Growth

/-- `aj_w` -/
structure AjW where
  out : Buffer UInt8 := {}
  needComma : Bool := false

/-- The loop of `wgrow` that doubles the capacity. -/
def doubled : Nat → Nat → Nat → Nat
  | 0, cap, _ => cap
  | fuel + 1, cap, n => if cap < n then doubled fuel (cap * 2) n else cap

theorem le_doubled {fuel cap n : Nat} (h : n ≤ cap * 2 ^ fuel) : n ≤ doubled fuel cap n := by
  induction fuel generalizing cap with
  | zero =>
    rw [doubled]
    omega
  | succ fuel ih =>
    rw [doubled]
    split
    · apply ih
      rwa [Nat.mul_assoc, ← Nat.pow_succ']
    · omega

/-- The capacity `wgrow` asks for. -/
def fit (cap n : Nat) : { c : Nat // n ≤ c } :=
  ⟨doubled n (if cap = 0 then 256 else cap) n, le_doubled (by
    have hlt := Nat.lt_two_pow_self (n := n)
    have hcap : 1 ≤ if cap = 0 then 256 else cap := by split <;> omega
    calc n ≤ 1 * 2 ^ n := by omega
      _ ≤ _ := Nat.mul_le_mul_right _ hcap)⟩

section

variable (mem : Nat → Bool)

def wgrow (w : AjW) (need : Nat) : AjW × Bool :=
  match w.out.grow fit mem need with
  | (b, ok) => ({ w with out := b }, ok)

/-- `wraw_` and `wputc_` -/
def wraw (w : AjW) (s : Bytes) : AjW := { w with out := w.out.append s }

def wput (w : AjW) (s : Bytes) : AjW :=
  match wgrow mem w s.length with
  | (w, true) => wraw w s
  | (w, false) => w

def ajwReserve (w : AjW) (bytes : Nat) : AjW := (wgrow mem w bytes).1

def ajwRaw (w : AjW) (s : Bytes) : AjW := { wput mem w s with needComma := true }

def wsep (w : AjW) : AjW :=
  if w.needComma then
    match wgrow mem w 1 with
    | (w, true) => { wraw w [ch ','] with needComma := true }
    | (w, false) => w
  else { w with needComma := true }

/-- `ajw_init`; what was tried stays tried. -/
def ajwInit (w : AjW) : AjW := { out := { tries := w.out.tries } }

def wopen (w : AjW) (c : UInt8) : AjW :=
  match wgrow mem (wsep mem w) 1 with
  | (w, true) => { wraw w [c] with needComma := false }
  | (w, false) => w

def wclose (w : AjW) (c : UInt8) : AjW :=
  match wgrow mem w 1 with
  | (w, true) => { wraw w [c] with needComma := true }
  | (w, false) => w

def ajwObjBegin (w : AjW) : AjW := wopen mem w (ch '{')
def ajwObjEnd (w : AjW) : AjW := wclose mem w (ch '}')
def ajwArrBegin (w : AjW) : AjW := wopen mem w (ch '[')
def ajwArrEnd (w : AjW) : AjW := wclose mem w (ch ']')

/-- A byte that needs no escaping. -/
def Plain (c : UInt8) : Prop := c ≥ 0x20 ∧ c ≠ ch '"' ∧ c ≠ ch '\\'

instance (c : UInt8) : Decidable (Plain c) := inferInstanceAs (Decidable (_ ∧ _))

/-- The run of bytes that is copied as it is. -/
def putRun (w : AjW) (run : Bytes) : AjW × Bool :=
  if run = [] then (w, true)
  else match wgrow mem w run.length with
    | (w, true) => (wraw w run, true)
    | (w, false) => (w, false)

/-- The loop of `wstr_escaped`. -/
def wstrLoop (w : AjW) (run : Bytes) : Bytes → AjW
  | [] =>
    match putRun mem w run with
    | (w, true) => wput mem w [ch '"']
    | (w, false) => w
  | c :: s =>
    if Plain c then wstrLoop w (run ++ [c]) s
    else match putRun mem w run with
      | (w, true) =>
        match wgrow mem w 6 with
        | (w, true) => wstrLoop (wraw w (escape c)) [] s
        | (w, false) => w
      | (w, false) => w

def wstrEscaped (w : AjW) (s : Bytes) : AjW :=
  match wgrow mem w ((cstr s).length + 2) with
  | (w, true) => wstrLoop mem (wraw w [ch '"']) [] (cstr s)
  | (w, false) => w

def ajwKey (w : AjW) (key : Bytes) : AjW :=
  match wgrow mem (wstrEscaped mem (wsep mem w) key) 1 with
  | (w, true) => { wraw w [ch ':'] with needComma := false }
  | (w, false) => w

def ajwNull (w : AjW) : AjW := wput mem (wsep mem w) (lit "null")

def ajwStr (w : AjW) : Option Bytes → AjW
  | none => ajwNull mem w
  | some s => wstrEscaped mem (wsep mem w) s

def ajwI64 (w : AjW) (v : Int) : AjW :=
  match wgrow mem (wsep mem w) 24 with
  | (w, true) => wraw w (i64Text v)
  | (w, false) => w

mutual
/-- The calls that emit a tree. -/
def ajwTree (w : AjW) : Tree → AjW
  | .null => ajwNull mem w
  | .bool _ => w
  | .num v => ajwI64 mem w v
  | .str s => ajwStr mem w (some s)
  | .arr es => ajwArrEnd mem (ajwElems (ajwArrBegin mem w) es)
  | .obj ms => ajwObjEnd mem (ajwMembers (ajwObjBegin mem w) ms)

def ajwElems (w : AjW) : List Tree → AjW
  | [] => w
  | v :: vs => ajwElems (ajwTree w v) vs

def ajwMembers (w : AjW) : List (Bytes × Tree) → AjW
  | [] => w
  | (k, v) :: ms => ajwMembers (ajwTree (ajwKey mem w k) v) ms
end

end

/-! ## What is put for a tree -/

def sepChunks (sep : Bool) : List (Chunk UInt8) := if sep then [⟨1, [ch ',']⟩] else []

def runChunks (run : Bytes) : List (Chunk UInt8) := if run = [] then [] else [⟨run.length, run⟩]

def loopChunks (run : Bytes) : Bytes → List (Chunk UInt8)
  | [] => runChunks run ++ [⟨1, [ch '"']⟩]
  | c :: s =>
    if Plain c then loopChunks (run ++ [c]) s
    else runChunks run ++ ⟨6, escape c⟩ :: loopChunks [] s

def strChunks (s : Bytes) : List (Chunk UInt8) :=
  ⟨(cstr s).length + 2, [ch '"']⟩ :: loopChunks [] (cstr s)

def keyChunks (sep : Bool) (key : Bytes) : List (Chunk UInt8) :=
  sepChunks sep ++ strChunks key ++ [⟨1, [ch ':']⟩]

mutual
def treeChunks (sep : Bool) : Tree → List (Chunk UInt8)
  | .null => sepChunks sep ++ [⟨4, lit "null"⟩]
  | .bool _ => []
  | .num v => sepChunks sep ++ [⟨24, i64Text v⟩]
  | .str s => sepChunks sep ++ strChunks s
  | .arr es => sepChunks sep ++ [⟨1, [ch '[']⟩] ++ elemsChunks false es ++ [⟨1, [ch ']']⟩]
  | .obj ms => sepChunks sep ++ [⟨1, [ch '{']⟩] ++ membersChunks false ms ++ [⟨1, [ch '}']⟩]

def elemsChunks (sep : Bool) : List Tree → List (Chunk UInt8)
  | [] => []
  | v :: vs => treeChunks sep v ++ elemsChunks true vs

def membersChunks (sep : Bool) : List (Bytes × Tree) → List (Chunk UInt8)
  | [] => []
  | (k, v) :: ms => keyChunks sep k ++ treeChunks false v ++ membersChunks true ms
end

/-- How often a new writer's buffer must grow for a tree. -/
def growthsOf (v : Tree) : Nat := Buffer.growths fit 0 0 (treeChunks false v)

end OutOfMemory
