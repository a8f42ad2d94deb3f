import AlpmRpc.Client.Link
import Mathlib.Logic.Function.Basic

/-!
# The form paths take

A client built with `ALPMRPC_WIN32_PATHS` (`Client/Link.lean`), servers, and what is in the pipes
between them. A server (`serve_connection` in `src/server/main.c`) serves one connection after
another, the client's or anyone's, and keeps the form of its paths in the global `g_win32`. Which
frames are written and read, and which of that fails, is the event; a frame that was written to the
client's pipe is read in its turn, also when the writer has closed it since.
-/

set_option autoImplicit false

namespace Session

open Client

/-- A connection: the client's `n`th, or one that another client made. -/
inductive Conn where
  | ours (n : Nat)
  | other (k : Nat)
  deriving DecidableEq, Repr

/-- The connection has been made, if the client has made `made`. -/
def Conn.isMade (made : Nat) : Conn → Bool
  | .ours n => n < made
  | .other _ => true

/-- What a request is for. -/
inductive Method where
  /-- `arpc.set_path_style`, with its parameter where that is a string -/
  | setPathStyle (style : Option String)
  | call
  deriving DecidableEq, Repr

/-- A frame to a server: it has a method, or it has none. -/
inductive Msg where
  | request (id : Int) (m : Method)
  | answer
  deriving DecidableEq, Repr

/-- What a server is inside of. -/
inductive Doing where
  /-- the handler of a call -/
  | handler (id : Int)
  /-- between the handler of `arpc.set_path_style`, or what has no handler, and the reply -/
  | replying (id : Int) (ok : Bool)
  /-- the loop of `arpc_conn_exchange` -/
  | exchange
  deriving DecidableEq, Repr

/-- A server process. -/
structure Daemon where
  /-- the connection `serve_connection` is in -/
  conn : Option Conn := none
  /-- `g_win32` -/
  win32 : Bool := false
  stack : List Doing := []
  deriving DecidableEq, Repr

namespace Daemon

/-- `arpc_paths_set` -/
def arpcPathsSet (d : Daemon) (win32 : Bool) : Daemon := { d with win32 }

/-- `arpc_set_path_style`; `false` is `arpc_fail`. -/
def arpcSetPathStyle (d : Daemon) : Option String → Daemon × Bool
  | some style =>
    if style = "win32" ∨ style = "posix" then (d.arpcPathsSet (style == "win32"), true)
    else (d, false)
  | none => (d, false)

/-- The start of `serve_connection`. -/
def serveConnection (d : Daemon) (c : Conn) : Daemon :=
  { d with conn := some c, stack := [] }.arpcPathsSet false

/-- `serve_connection` waits for a frame, or an exchange does. -/
def listens (d : Daemon) : Bool :=
  d.conn.isSome &&
    match d.stack with
    | [] => true
    | .exchange :: _ => true
    | _ => false

/-- What is done with a frame: a request is handled wherever it turns up; any other frame is the answer
an exchange waits for, or is replied to with an error. -/
def takeUp (d : Daemon) : Msg → Daemon
  | .request id (.setPathStyle style) =>
    let (d, ok) := d.arpcSetPathStyle style
    { d with stack := .replying id ok :: d.stack }
  | .request id .call => { d with stack := .handler id :: d.stack }
  | .answer =>
    match d.stack with
    | .exchange :: rest => { d with stack := rest }
    | rest => { d with stack := .replying 0 false :: rest }

/-- The pipe failed: an exchange fails, and so the handler goes on; `serve_connection` ends. -/
def pipeFailed (d : Daemon) : Daemon :=
  match d.stack with
  | .exchange :: rest => { d with stack := rest }
  | _ => { d with conn := none, stack := [] }

/-- The replies that may be made: the end of a handler of a call is anything; a success may become an
error for want of memory. -/
def MayReply : Doing → Got → Prop
  | .handler id, .error id' => id' = id
  | .handler id, .result id' _ => id' = id
  | .replying id _, .error id' => id' = id
  | .replying id ok, .result id' _ => id' = id ∧ ok = true
  | _, _ => False

instance (d : Doing) (r : Got) : Decidable (MayReply d r) := by
  cases d <;> cases r <;> unfold MayReply <;> infer_instance

end Daemon

/-- What is noted of a run. -/
inductive Noted where
  /-- the client wrote the frame to its connection `n` -/
  | sent (n : Nat) (m : Msg)
  /-- the client's `arpc.set_path_style` on its connection `n` succeeded -/
  | styled (n : Nat)
  /-- a server began to handle the request, when `g_win32` was `win32` -/
  | handled (c : Conn) (m : Method) (win32 : Bool)
  deriving DecidableEq, Repr

structure Pipes where
  client : Link := {}
  servers : Nat → Daemon := fun _ => {}
  /-- what is on its way on the client's connections -/
  toServer : Nat → List Msg := fun _ => []
  toClient : Nat → List Got := fun _ => []
  /-- the connections that servers have accepted -/
  accepted : List Conn := []
  /-- newest first -/
  log : List Noted := []

namespace Pipes

/-- How the client's read ends. -/
inductive Catch where
  | fails
  /-- the frame does not parse in `transact`, as when memory runs out -/
  | garbled
  /-- nor does the reply in `arpc_invoke` -/
  | unread
  | whole
  deriving DecidableEq, Repr

inductive Event where
  /-- the caller's code calls a stub -/
  | call (s : Stub) (connects : Bool)
  | send (ok : Bool)
  /-- `arpc_invoke` has no memory for the request -/
  | unsent
  | recv (c : Catch)
  | answer (ok : Bool)
  /-- `transact` has no memory for the callback's answer -/
  | unanswered
  | accept (s : Nat) (c : Conn)
  /-- a server reads a frame; one that does not parse is like one without a method -/
  | read (s : Nat) (m : Msg) (parses : Bool)
  | readFails (s : Nat)
  /-- a handler calls a trampoline, which writes a callback -/
  | callback (s : Nat) (sent : Bool)
  /-- the reply is written, or it is not -/
  | reply (s : Nat) (r : Got) (sent : Bool)
  deriving DecidableEq, Repr

/-- The client's own step. -/
def act (w : Pipes) (a : Act) : Option Pipes :=
  (w.client.step true a).map fun l => { w with client := l }

/-- The request of an exchange. -/
def request (x : Exchange) : Purpose → Msg
  | .stub _ => .request x.id .call
  | .pathStyle _ => .request x.id (.setPathStyle (some "win32"))

/-- The frame that the client writes next. -/
def writes (l : Link) : Option Msg :=
  match l.stack with
  | .begun x p :: _ => some (request x p)
  | .callback _ :: _ => some .answer
  | _ => none

/-- A write that succeeds puts the frame in the pipe. -/
def write (w : Pipes) (ok : Bool) : Pipes :=
  match w.client.pipe, writes w.client, ok with
  | some n, some m, true =>
    { w with
      toServer := Function.update w.toServer n (w.toServer n ++ [m])
      log := .sent n m :: w.log }
  | _, _, _ => w

/-- `arpc.set_path_style` succeeds with this frame. -/
def styles (l : Link) (f : Got) : Option Nat :=
  match l.stack, f with
  | .wait x (.pathStyle _) :: _, .result id _ => if id = x.id then l.pipe else none
  | _, _ => none

/-- What the client makes of a frame. -/
def Catch.sees (x : Exchange) (f : Got) : Catch → Option Got
  | .fails => none
  | .garbled => some .malformed
  | .unread => if f = .callback then some f else some (.error x.id)
  | .whole => some f

/-- The client reads. -/
def recv (w : Pipes) (c : Catch) : Option Pipes :=
  match w.client.stack, w.client.pipe with
  | .wait x _ :: _, some n =>
    match c, w.toClient n with
    | .fails, _ => w.act (.recv none)
    | c, f :: rest =>
      let got := c.sees x f
      let note := got.bind (styles w.client)
      { w with
        toClient := Function.update w.toClient n rest
        log := (note.map Noted.styled).toList ++ w.log }.act (.recv got)
    | _, [] => none
  | _, _ => w.act (.recv none)

/-- An exchange ends before its next frame is written. -/
def gaveUp (w : Pipes) : Option Pipes :=
  match w.client.stack with
  | .begun x p :: rest => some { w with client := w.client.failed x p rest }
  | .callback _ :: .wait x p :: rest => some { w with client := w.client.failed x p rest }
  | _ => none

def setServer (w : Pipes) (s : Nat) (d : Daemon) : Pipes :=
  { w with servers := Function.update w.servers s d }

/-- A server handles the request of a frame. -/
def noteRequest (w : Pipes) (s : Nat) : Msg → Pipes
  | .request _ m =>
    match (w.servers s).conn with
    | some c => { w with log := .handled c m (w.servers s).win32 :: w.log }
    | none => w
  | .answer => w

/-- A server reads `m`, which is what comes next if the connection is the client's. -/
def read (w : Pipes) (s : Nat) (m : Msg) (parses : Bool) : Option Pipes :=
  let m' := if parses then m else .answer
  if (w.servers s).listens then
    match (w.servers s).conn with
    | some (.ours n) =>
      match w.toServer n with
      | f :: rest =>
        if f = m then
          some (({ w with toServer := Function.update w.toServer n rest }.noteRequest s m').setServer s
            ((w.servers s).takeUp m'))
        else none
      | [] => none
    | some (.other _) => some ((w.noteRequest s m').setServer s ((w.servers s).takeUp m'))
    | none => none
  else none

/-- A server writes `f`. -/
def tell (w : Pipes) (s : Nat) (f : Got) : Pipes :=
  match (w.servers s).conn with
  | some (.ours n) => { w with toClient := Function.update w.toClient n (w.toClient n ++ [f]) }
  | _ => w

def step (w : Pipes) : Event → Option Pipes
  | .call s connects => w.act (.call s connects)
  | .send ok => (w.write ok).act (.send ok)
  | .answer ok => (w.write ok).act (.answer ok)
  | .unsent =>
    match w.client.stack with
    | .begun _ _ :: _ => w.gaveUp
    | _ => none
  | .unanswered =>
    match w.client.stack with
    | .callback _ :: _ => w.gaveUp
    | _ => none
  | .recv c => w.recv c
  | .accept s c =>
    if (w.servers s).conn = none ∧ c ∉ w.accepted ∧ c.isMade w.client.made then
      some ({ w with accepted := c :: w.accepted }.setServer s ((w.servers s).serveConnection c))
    else none
  | .read s m parses => w.read s m parses
  | .readFails s =>
    if (w.servers s).listens then some (w.setServer s (w.servers s).pipeFailed) else none
  | .callback s sent =>
    match (w.servers s).stack with
    | .handler id :: rest =>
      if sent then
        some ((w.tell s .callback).setServer s
          { w.servers s with stack := .exchange :: .handler id :: rest })
      else some w
    | _ => none
  | .reply s r sent =>
    match (w.servers s).stack with
    | d :: rest =>
      if Daemon.MayReply d r then
        let after := { w.servers s with stack := rest }
        some (if sent then (w.tell s r).setServer s after else w.setServer s after.pipeFailed)
      else none
    | [] => none

/-! ## What is to hold of a run -/

/-- The connection asked for a form of paths. -/
def Noted.Asks (c : Conn) : Noted → Prop
  | .handled c' (.setPathStyle _) _ => c' = c
  | _ => False

/-- The entry is of a request on `c`. -/
def Noted.On (c : Conn) : Noted → Prop
  | .handled c' _ _ => c' = c
  | _ => False

/-- What may happen after `past`. -/
def Fits (past : List Noted) : Noted → Prop
  | .sent n (.request _ .call) => .styled n ∈ past
  | .handled c m win32 =>
    (∀ n, c = .ours n →
      ((∀ e ∈ past, ¬ Noted.On c e) → m = .setPathStyle (some "win32")) ∧
        (m = .call → win32 = true)) ∧
      ((∀ e ∈ past, ¬ Noted.Asks c e) → win32 = false)
  | _ => True

/-- The log is in order, and so is every server: in the handler of a call on the client's connection
it has `g_win32` set, and on a connection that did not ask it has not. -/
structure Styled (w : Pipes) : Prop where
  log : ∀ e past, e :: past <:+ w.log → Fits past e
  ours : ∀ s n id, (w.servers s).conn = some (.ours n) → .handler id ∈ (w.servers s).stack →
    (w.servers s).win32 = true
  silent : ∀ s c, (w.servers s).conn = some c → (∀ e ∈ w.log, ¬ Noted.Asks c e) →
    (w.servers s).win32 = false

end Pipes

end Session
