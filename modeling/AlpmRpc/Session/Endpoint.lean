import AlpmRpc.Common.Json
import Mathlib.Data.List.DropRight
import Mathlib.Dynamics.PeriodicPts.Defs

/-!
# The endpoint

`arpc_pipe_name` of `src/common/arpc_wire.c`, and the roots it is called with: `msys_root` of
`src/client/arpc_client.c` and `main` of `src/server/main.c`. The paths of the modules and the
process's identity, which Windows tells, are parameters.
-/

set_option autoImplicit false

namespace Endpoint

open Json

/-- `MAX_PATH` -/
def maxPath : Nat := 260

/-- `ARPC_PROTO_VERSION` -/
def protoVersion : UInt32 := 4

/-- `arpc_identity` -/
structure Identity where
  sid : Bytes
  integrity : UInt32

/-- `/` or `\` -/
def isSep (c : UInt8) : Bool := c = ch '\\' ∨ c = ch '/'

/-! ## The name -/

/-- A step of FNV-1a. -/
def fnvStep (h : UInt64) (b : UInt8) : UInt64 := (h ^^^ b.toUInt64) * 1099511628211

def fnv1a (h : UInt64) (p : Bytes) : UInt64 := p.foldl fnvStep h

/-- The bytes of an `unsigned`. -/
def le32 (v : UInt32) : Bytes := [v.toUInt8, (v >>> 8).toUInt8, (v >>> 16).toUInt8, (v >>> 24).toUInt8]

/-- A character as it is hashed. -/
def foldChar (c : UInt8) : UInt8 :=
  let c := if c = ch '/' then ch '\\' else c
  if ch 'A' ≤ c ∧ c ≤ ch 'Z' then c - ch 'A' + ch 'a' else c

/-- The loop of `arpc_pipe_name`. -/
def hashRoot (root : Bytes) : UInt64 :=
  root.foldl (fun h c => fnv1a h [foldChar c]) 14695981039346656037

/-- What comes after the root. -/
def hashRest (me : Identity) (h : UInt64) : UInt64 :=
  let h := fnv1a h (lit "|")
  let h := fnv1a h (le32 protoVersion)
  let h := fnv1a h (lit "|")
  let h := fnv1a h me.sid
  let h := fnv1a h (lit "|")
  fnv1a h (le32 me.integrity)

def hexDigit (n : Nat) : UInt8 := if n < 10 then ch '0' + UInt8.ofNat n else ch 'a' + UInt8.ofNat (n - 10)

/-- `%0<k>llx` of what has `k` digits at most. -/
def hexPad : Nat → Nat → Bytes
  | 0, _ => []
  | k + 1, n => hexPad k (n / 16) ++ [hexDigit (n % 16)]

/-- The name without its digits. -/
def pipePrefix : Bytes :=
  ch '\\' :: ch '\\' :: ch '.' :: ch '\\' :: lit "pipe" ++ ch '\\' :: lit "alpmrpc." ++
    lit (toString protoVersion.toNat) ++ lit "."

/-- `arpc_pipe_name`, into a buffer of 256 bytes. -/
def arpcPipeName (root : Bytes) (me : Option Identity) : Option Bytes := do
  let h := hashRest (← me) (hashRoot root)
  let name := pipePrefix ++ hexPad 16 h.toNat
  if name.length < 256 then some name else none

/-! ## The roots -/

/-- The path without its last component. -/
def stripDir (path : Bytes) : Option Bytes :=
  if path.any isSep then some (path.rdropWhile fun c => !isSep c).dropLast else none

def arpcStripDirs : Nat → Bytes → Option Bytes
  | 0, path => some path
  | n + 1, path => do arpcStripDirs n (← stripDir path)

/-- The root three directories up from a module, whose path is `none` when Windows does not tell. -/
def rootOfModule (path : Option Bytes) : Option Bytes := do
  let path ← path
  if path.length = 0 ∨ path.length ≥ maxPath then none else arpcStripDirs 3 path

/-- `while (n > 1 && ...)`: the trailing separators go, but for the first byte. -/
def trimLoop (s : Bytes) : Nat → Bytes
  | 0 => []
  | n + 1 => if n + 1 > 1 ∧ isSep (s.getD n 0) then trimLoop s n else s.take (n + 1)

/-- `ALPMRPC_ROOT`, when it is there and fits, and else by the module's path. -/
def msysRoot (env self : Option Bytes) : Option Bytes :=
  match env with
  | some v =>
    if v.length > 0 ∧ v.length < maxPath then some (trimLoop v v.length) else rootOfModule self
  | none => rootOfModule self

/-- The name in `ensure_connected`. -/
def clientEndpoint (env self : Option Bytes) (me : Option Identity) : Option Bytes := do
  arpcPipeName (← msysRoot env self) me

/-- The options of `main`, but for the logging and the idle time. -/
structure Options where
  stdio : Bool := false
  root : Option Bytes := none
  stop : Bool := false

inductive Parsed where
  | options (o : Options)
  | printEndpoint
  | usage

/-- The loop over `argv`. -/
def parseArgs (o : Options) : List Bytes → Parsed
  | [] => .options o
  | [a] =>
    if a = lit "--stdio" then .options { o with stdio := true }
    else if a = lit "-v" ∨ a = lit "--verbose" then .options o
    else if a = lit "--stop" then .options { o with stop := true }
    else if a = lit "--print-endpoint" then .printEndpoint
    else .usage
  | a :: b :: rest =>
    if a = lit "--stdio" then parseArgs { o with stdio := true } (b :: rest)
    else if a = lit "-v" ∨ a = lit "--verbose" then parseArgs o (b :: rest)
    else if a = lit "--root" then parseArgs { o with root := some b } rest
    else if a = lit "--idle" then parseArgs o rest
    else if a = lit "--stop" then parseArgs { o with stop := true } (b :: rest)
    else if a = lit "--print-endpoint" then .printEndpoint
    else .usage

/-- What `main` gets to, with the name it does it under. -/
inductive Outcome where
  | exit (code : Nat)
  | selftest
  | printed (name : Bytes)
  | serves (name : Bytes)
  | stops (name : Bytes)
  deriving DecidableEq

def serverMain (argv : List Bytes) (exe : Option Bytes) (me : Option Identity) : Outcome :=
  match parseArgs {} argv with
  | .usage => .exit 2
  | .printEndpoint =>
    match (rootOfModule exe).bind fun root => arpcPipeName root me with
    | some name => .printed name
    | none => .exit 1
  | .options o =>
    if o.stdio then .selftest
    else
      -- `snprintf` into `root[MAX_PATH]`
      match o.root.elim (rootOfModule exe) fun r => some (r.take (maxPath - 1)) with
      | none => .exit 1
      | some root =>
        match arpcPipeName root me with
        | none => .exit 1
        | some name => if o.stop then .stops name else .serves name

/-! ## What is meant -/

/-- The root without its trailing separators, and these. -/
def core (root : Bytes) : Bytes := root.rdropWhile isSep

def trailing (root : Bytes) : Nat := (root.rtakeWhile isSep).length

/-- The strings differ in letter case, in slash or backslash and in trailing separators only. -/
def SameRoot (r r' : Bytes) : Prop := (core r).map foldChar = (core r').map foldChar

/-- The trailing separators that the client keeps. -/
def kept (root : Bytes) : Nat := if core root = [] then 1 else 0

/-- The trailing separators on one side only. -/
def extra (env root : Bytes) : Nat := (trailing root - kept env) + (kept env - trailing root)

/-- Hashing one more separator. -/
def sepStep (h : UInt64) : UInt64 := fnvStep h (ch '\\')

/-- The hash when the root without its trailing separators is done. -/
def coreHash (root : Bytes) : UInt64 := fnv1a 14695981039346656037 ((core root).map foldChar)

/-- The client and the server, serving or stopping, have one name. -/
def Meets (env : Bytes) (self exe : Option Bytes) (argv : List Bytes) (stop : Bool) (me : Identity) :
    Prop :=
  ∃ name, clientEndpoint (some env) self (some me) = some name ∧
    serverMain argv exe (some me) = if stop then .stops name else .serves name

end Endpoint
