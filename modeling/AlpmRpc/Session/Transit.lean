import AlpmRpc.Common.Framing
import AlpmRpc.Session.Nest
import Mathlib.Logic.Function.Basic

/-!
# The bytes under a call

The frame loops of `Session/Nest.lean` over the bytes that `arpc_send_frame` and `arpc_recv_frame` of
`src/common/arpc_wire.c` move. A side that sends writes the header and then the payload; a side that
waits for a frame reads a header and then what it announces, up to the NUL that ends it. How many bytes
each `WriteFile` and `ReadFile` moves is the action. A pipe holds at most `cap` bytes, I/O does not fail
and `malloc` succeeds; a length that is refused ends the connection.
-/

set_option autoImplicit false

namespace Session

open Json

inductive Party where
  | client
  | server
deriving DecidableEq, Repr

def Party.other : Party → Party
  | .client => .server
  | .server => .client

/-- An `arpc_recv_frame` at work, with what it has read of the header or of the payload. -/
inductive Reading where
  | header (got : Bytes)
  | payload (len : Nat) (got : Bytes)

/-- What a `ReadFile` makes of it. -/
inductive Arrival where
  | more (r : Reading)
  | refused
  | frame (f : Bytes)

/-- How many bytes it asks for. -/
def Reading.wants : Reading → Nat
  | .header got => 4 - got.length
  | .payload len got => len - got.length

/-- It was given `bs`, no more than it asked for. -/
def Reading.take : Reading → Bytes → Arrival
  | .header got, bs =>
    if (got ++ bs).length < 4 then .more (.header (got ++ bs))
    else
      let len := Wire.announced (got ++ bs)
      if len = 0 ∨ Wire.maxFrame < len then .refused else .more (.payload len [])
  | .payload len got, bs =>
    if (got ++ bs).length < len then .more (.payload len (got ++ bs)) else .frame (got ++ bs)

/-- A side's I/O: the buffers its `arpc_send_frame` still has to write, and its `arpc_recv_frame`. -/
structure Port where
  out : List Bytes := []
  inn : Reading := .header []

/-- The buffers of an `arpc_send_frame`, one for each `io_exact`. -/
def buffers (payload : Bytes) : List Bytes :=
  [Wire.header payload.length, payload.take (payload.length % 2 ^ 32)].filter (· ≠ [])

/-- A `WriteFile` that moves `k` bytes. -/
def Port.write (p : Port) (k : Nat) : Option (Bytes × Port) :=
  match p.out with
  | [] => none
  | b :: bs =>
    if 0 < k ∧ k ≤ b.length then
      some (b.take k, { p with out := if k = b.length then bs else b.drop k :: bs })
    else none

variable {σ τ : Type}

/-- The frames in flight to a side. -/
def Config.flight (c : Config σ τ) : Party → List Bytes
  | .client => c.toClient
  | .server => c.toServer

/-- The same with no frame in flight but `fs`, to the side `w`. -/
def Config.only (c : Config σ τ) (w : Party) (fs : List Bytes) : Config σ τ :=
  match w with
  | .client => { c with toServer := [], toClient := fs }
  | .server => { c with toServer := fs, toClient := [] }

/-- The side is in a loop that calls `arpc_recv_frame`. -/
def Config.waits (c : Config σ τ) : Party → Bool
  | .client => match c.client with
    | .recv (.wait _ _ _ :: _) => true
    | _ => false
  | .server => match c.server with
    | .recv _ => true
    | _ => false

def partyStep (env : Env σ τ) : Party → Config σ τ → Option (Config σ τ)
  | .client => clientStep env
  | .server => serverStep env

/-- Both sides, what is in the pipe to each, and whether the connection was given up. `sides` has no
frames of its own. -/
structure Line (σ τ : Type) where
  sides : Config σ τ
  port : Party → Port := fun _ => {}
  pipe : Party → Bytes := fun _ => []
  lost : Bool := false

namespace Line

/-- The side goes on to `c`: what it sends is to be written. -/
def goOn (l : Line σ τ) (w : Party) (c : Config σ τ) : Line σ τ :=
  { l with
    sides := c.only w []
    port := Function.update l.port w { l.port w with out := (c.flight w.other).flatMap buffers } }

/-- The side has read `bs`. -/
def arrive (env : Env σ τ) (l : Line σ τ) (w : Party) (bs : Bytes) : Option (Line σ τ) :=
  match (l.port w).inn.take bs with
  | .more r => some { l with port := Function.update l.port w { l.port w with inn := r } }
  | .refused => some { l with lost := true }
  | .frame f =>
    (partyStep env w (l.sides.only w [cstr f])).map
      (goOn { l with port := Function.update l.port w { l.port w with inn := .header [] } } w)

end Line

inductive LineAct where
  /-- the side runs its code, up to the next frame -/
  | runs (w : Party)
  | writes (w : Party) (k : Nat)
  | reads (w : Party) (k : Nat)
deriving DecidableEq, Repr

def lineStep (env : Env σ τ) (cap : Nat) (l : Line σ τ) : LineAct → Option (Line σ τ)
  | .runs w =>
    if l.lost ∨ (l.port w).out ≠ [] then none else (partyStep env w l.sides).map (l.goOn w)
  | .writes w k =>
    match (l.port w).write k with
    | none => none
    | some (bs, p) =>
      if l.lost ∨ cap < (l.pipe w.other).length + k then none
      else some { l with
        port := Function.update l.port w p
        pipe := Function.update l.pipe w.other (l.pipe w.other ++ bs) }
  | .reads w k =>
    if l.lost = false ∧ (l.port w).out = [] ∧ l.sides.waits w ∧ 0 < k ∧ k ≤ (l.port w).inn.wants ∧
        k ≤ (l.pipe w).length then
      Line.arrive env { l with pipe := Function.update l.pipe w ((l.pipe w).drop k) } w
        ((l.pipe w).take k)
    else none

/-- A step of the line, whatever the operating system moves. -/
def LineMove (env : Env σ τ) (cap : Nat) (l l' : Line σ τ) : Prop :=
  ∃ a, lineStep env cap l a = some l'

def LineReaches (env : Env σ τ) (cap : Nat) : Line σ τ → Line σ τ → Prop :=
  Relation.ReflTransGen (LineMove env cap)

/-- The client about to run `p`, and nothing written. -/
def lineStart (p : ClientProg τ) (w : World σ τ) (nextId nextSeq : Nat) : Line σ τ :=
  { sides := start p w nextId nextSeq }

/-! ## Frames on the line -/

/-- The bytes of the frame that it has read. -/
def Reading.got : Reading → Bytes
  | .header got => got
  | .payload len got => Wire.header len ++ got

/-- It asks for something. -/
def Reading.Wf : Reading → Prop
  | .header got => got.length < 4
  | .payload len got => got.length < len ∧ len ≤ Wire.maxFrame

/-- The line stands for the frames of `c`: to each side, what it has read, what is in the pipe and what
the other has yet to write are the bytes of the frames in flight. -/
structure Line.Carries (l : Line σ τ) (c : Config σ τ) : Prop where
  sides : ∀ w, l.sides = c.only w []
  bytes : ∀ w, (l.port w).inn.got ++ l.pipe w ++ (l.port w.other).out.flatten =
    (c.flight w).flatMap Wire.frame
  reading : ∀ w, (l.port w).inn.Wf
  writing : ∀ w, ∀ b ∈ (l.port w).out, b ≠ []
  kept : l.lost = false

/-- The program has returned `v`, and nothing is on the way. -/
structure Line.Finished (l : Line σ τ) (v : Value) : Prop where
  sides : l.sides.Finished v
  pipes : ∀ w, l.pipe w = []
  ports : ∀ w, (l.port w).out = [] ∧ (l.port w).inn = .header []

end Session
