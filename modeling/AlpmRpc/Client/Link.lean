import AlpmRpc.Lib.Run

/-!
# The client's one pipe

`src/client/arpc_client.c` below the stubs: `ensure_connected`, `disconnect`, `send_frame`,
`recv_frame`, `transact`, `arpc_begin`, `arpc_invoke` and the count that closes the pipe. Every one of
them works on the global `g_pipe`, and a callback's function may call stubs while `transact` waits.
Connections are numbered in the order they are made; what the pipe, the server and the caller's code
do is the action. Every use of a connection is logged with the exchange it is made for.
-/

set_option autoImplicit false

namespace Client

/-- A request on its way to a reply. -/
structure Exchange where
  /-- `c->id` -/
  id : Int
  /-- the connection that was open when it began -/
  conn : Nat
  deriving DecidableEq, Repr

/-- What a stub does to `g_conn_refs` once its reply is in. -/
inductive Stub where
  | plain
  | creates
  | destroysHandle
  deriving DecidableEq, Repr

/-- What an exchange is for. -/
inductive Purpose where
  | stub (s : Stub)
  /-- `set_path_style`, inside `ensure_connected` of a stub -/
  | pathStyle (s : Stub)
  deriving DecidableEq, Repr

/-- What the client is inside of. -/
inductive Frame where
  /-- between `arpc_begin` and the request -/
  | begun (x : Exchange) (p : Purpose)
  /-- the loop of `transact` -/
  | wait (x : Exchange) (p : Purpose)
  /-- a callback's function, delivered when `made` connections had been made -/
  | callback (made : Nat)
  deriving DecidableEq, Repr

inductive UseKind where
  | send | read | close
  deriving DecidableEq, Repr

/-- An exchange used the connection `conn`. -/
structure Use where
  by_ : Exchange
  kind : UseKind
  conn : Nat
  deriving DecidableEq, Repr

structure Link where
  /-- `g_pipe`; `none` is `INVALID_HANDLE_VALUE` -/
  pipe : Option Nat := none
  /-- the connections made so far -/
  made : Nat := 0
  /-- `g_conn_refs` -/
  refs : Int := 0
  /-- `g_next_id` -/
  nextId : Int := 1
  stack : List Frame := []
  log : List Use := []
  deriving DecidableEq, Repr

/-- A frame that arrives, by what `transact` and `arpc_invoke` look at. -/
inductive Got where
  | callback
  | malformed
  /-- a reply with an error, or with no result -/
  | error (id : Int)
  /-- a reply whose return value is not `NULL`, or is -/
  | result (id : Int) (nonNull : Bool)
  deriving DecidableEq, Repr

inductive Act where
  /-- the caller's code calls a stub; `connects`: a connection can be made -/
  | call (s : Stub) (connects : Bool)
  /-- the request is written, or the write fails -/
  | send (ok : Bool)
  /-- a frame is read, or the read fails -/
  | recv (got : Option Got)
  /-- the callback's function returns, and its answer is written or the write fails -/
  | answer (ok : Bool)
  deriving DecidableEq, Repr

namespace Link

def use (l : Link) (x : Exchange) (k : UseKind) (n : Nat) : Link :=
  { l with log := l.log ++ [⟨x, k, n⟩] }

def disconnect (l : Link) (x : Exchange) : Link :=
  match l.pipe with
  | some n => { l.use x .close n with pipe := none }
  | none => l

/-- `send_frame`; a write to no pipe fails. -/
def sendFrame (l : Link) (x : Exchange) (ok : Bool) : Link × Bool :=
  match l.pipe with
  | some n => if ok then (l.use x .send n, true) else ((l.use x .send n).disconnect x, false)
  | none => (l, false)

/-- `recv_frame`; a read from no pipe fails. -/
def recvFrame (l : Link) (x : Exchange) (got : Option Got) : Link × Option Got :=
  match l.pipe with
  | some n =>
    match got with
    | some f => (l.use x .read n, some f)
    | none => ((l.use x .read n).disconnect x, none)
  | none => (l, none)

/-- `arpc_begin`, connected to `n`. -/
def begun (l : Link) (n : Nat) (p : Purpose) : Link :=
  { l with nextId := l.nextId + 1, stack := .begun ⟨l.nextId, n⟩ p :: l.stack }

/-- `arpc_begin` of a stub. -/
def arpcBegin (win32 : Bool) (l : Link) (s : Stub) (connects : Bool) : Link :=
  match l.pipe with
  | some n => l.begun n (.stub s)
  | none =>
    if connects then
      let l' := { l with pipe := some l.made, made := l.made + 1 }
      l'.begun l.made (if win32 then .pathStyle s else .stub s)
    else l

/-- `arpc_invoke` returned `0`: the stub fails; after `arpc.set_path_style` so does the connect. -/
def failed (l : Link) (x : Exchange) (p : Purpose) (rest : List Frame) : Link :=
  match p with
  | .stub _ => { l with stack := rest }
  | .pathStyle _ => { l.disconnect x with stack := rest }

/-- `arpc_conn_unref` -/
def arpcConnUnref (l : Link) (x : Exchange) : Link :=
  let l := { l with refs := l.refs - 1 }
  if l.refs > 0 then l else l.disconnect x

/-- `arpc_invoke` returned `1`: the end of the stub, or of `ensure_connected`. -/
def succeeded (l : Link) (x : Exchange) (nonNull : Bool) (p : Purpose) (rest : List Frame) : Link :=
  match p with
  | .stub .plain => { l with stack := rest }
  | .stub .creates => { l with refs := if nonNull then l.refs + 1 else l.refs, stack := rest }
  | .stub .destroysHandle => { l.arpcConnUnref x with stack := rest }
  | .pathStyle s =>
    match l.pipe with
    | some n => { l with stack := rest }.begun n (.stub s)
    | none => { l with stack := rest }

/-- What is done with a frame that was read. -/
def received (l : Link) (x : Exchange) (p : Purpose) (rest : List Frame) : Got → Link
  | .callback => { l with stack := .callback l.made :: .wait x p :: rest }
  | .malformed => (l.disconnect x).failed x p rest
  | .error id => if id ≠ x.id then (l.disconnect x).failed x p rest else l.failed x p rest
  | .result id nonNull =>
    if id ≠ x.id then (l.disconnect x).failed x p rest else l.succeeded x nonNull p rest

/-- The caller's code runs: outside all stubs, or in a callback's function. -/
def codeRuns : List Frame → Bool
  | [] => true
  | .callback _ :: _ => true
  | _ => false

/-- One action; `none` when the client is not where it could happen. -/
def step (win32 : Bool) (l : Link) : Act → Option Link
  | .call s connects => if codeRuns l.stack then some (l.arpcBegin win32 s connects) else none
  | .send ok =>
    match l.stack with
    | .begun x p :: rest =>
      let (l', sent) := l.sendFrame x ok
      some (if sent then { l' with stack := .wait x p :: rest } else l'.failed x p rest)
    | _ => none
  | .recv got =>
    match l.stack with
    | .wait x p :: rest =>
      match l.recvFrame x got with
      | (l', some f) => some (l'.received x p rest f)
      | (l', none) => some (l'.failed x p rest)
    | _ => none
  | .answer ok =>
    match l.stack with
    | .callback _ :: .wait x p :: rest =>
      let (l', sent) := l.sendFrame x ok
      some (if sent then { l' with stack := .wait x p :: rest } else l'.failed x p rest)
    | _ => none

/-! ## What an exchange may use -/

/-- Every use of a connection was of the one the exchange began on; and when a callback's function
returns to an exchange whose connection is gone, the exchange fails and uses none. -/
structure Confined (l : Link) (a : Act) (l' : Link) : Prop where
  uses : ∀ u ∈ l'.log, u.conn = u.by_.conn
  gone : ∀ m x p rest ok, l.stack = .callback m :: .wait x p :: rest → a = .answer ok →
    l.pipe ≠ some x.conn → l' = { l with stack := rest }

/-- A callback's function does not return with a connection open that was made while it ran. -/
def Settled (l : Link) (a : Act) (_ : Link) : Prop :=
  ∀ m rest ok, l.stack = .callback m :: rest → a = .answer ok → ∀ n, l.pipe = some n → n < m

end Link

end Client
