import AlpmRpc.Client.Call
import AlpmRpc.Common.Framing
import AlpmRpc.Gen.Types

/-!
# Calls and callbacks over one pipe

The frame loops of both sides: `transact`, `arpc_invoke` and `arpc_dispatch_callback` on the client,
`serve_connection`, `arpc_handle_parsed`, `arpc_cb_send` and `arpc_conn_exchange` on the server. A
side's stack is the list of loops it is in. What the caller's callback functions and libalpm's
handlers do between two frames is a program: it changes its side's state, and asks the other side or
returns. `directClient` is what the same programs do when a call is a plain function call. A frame
arrives whole or is refused for its length; `Session/Transit.lean` has the bytes.
-/

set_option autoImplicit false

namespace Session

open Json Server

/-! ## What crosses -/

/-- A request, with parameters that fit the wire. -/
structure Req where
  method : Bytes
  params : List Tree
  method_ok : NulFree method
  params_ok : ∀ p ∈ params, Fits (maxDepth - 2) p

/-- A callback: its wire name, the id of its handle and its arguments. -/
structure Cb where
  kind : Bytes
  handle : Nat
  args : Tree
  kind_ok : NulFree kind
  handle_lt : handle < 2 ^ 64
  args_ok : Fits (maxDepth - 1) args

/-- A handler's answer that fits the wire. -/
def FitsRes : Res → Prop
  | .fail code msg => I64 code ∧ NulFree msg
  | .ok ret outs => Fits (maxDepth - 2) ret ∧ ∀ m ∈ outs, NulFree m.1 ∧ Fits (maxDepth - 2) m.2

def Answer := { res : Res // FitsRes res }

/-- What a callback function returns, as `arpc_cb_kinds[].call` does: a `long long`. -/
def Value := { v : Int // I64 v }

/-- How `arpc_invoke` ends: with the result object, or with the server's error. -/
inductive Reply where
  | result (t : Option Tree)
  | error (code : Int) (message : Bytes)

def Res.reply (res : Res) : Reply :=
  match res with
  | .fail code msg => .error code msg
  | .ok ret outs => .result (some (.obj ((retKey, ret) :: outs)))

/-! ## Programs -/

/-- The caller's code on the client, with state `τ`. -/
inductive ClientProg (τ : Type) where
  | ret (f : τ → τ × Value)
  | call (f : τ → τ × Req) (k : Reply → ClientProg τ)

/-- A handler on the server, with state `σ`; `dflt` is the trampoline's default. -/
inductive ServerProg (σ : Type) where
  | ret (f : σ → σ × Answer)
  | raise (f : σ → σ × Cb) (dflt : Int) (k : Int → ServerProg σ)

/-- The server's methods, and the client's callback kinds and registered functions. -/
structure Env (σ τ : Type) where
  methods : Bytes → Option (Option Tree → ServerProg σ)
  kinds : List Bytes
  /-- `arpc_cb_fn` with its context: of a handle and a kind -/
  fns : τ → Nat → Nat → Option (Option Tree → ClientProg τ)

variable {σ τ : Type}

/-- `ARPC_E_NO_METHOD`, with the text in its buffer. -/
def noMethod (method : Bytes) : Res :=
  .fail (-32601) ((lit "no such method: " ++ method).take 255)

theorem nulFree_noMethod {method : Bytes} (h : NulFree method) : FitsRes (noMethod method) := by
  refine ⟨by decide, fun b hb => ?_⟩
  rcases List.mem_append.1 (List.mem_of_mem_take hb) with hb | hb
  · exact (by decide : NulFree (lit "no such method: ")) b hb
  · exact h b hb

/-- The method lookup of `arpc_handle_parsed`. -/
def Env.handler (env : Env σ τ) (method : Bytes) (params : Option Tree) : ServerProg σ :=
  match env.methods method with
  | some h => h params
  | none => .ret fun s => (s, ⟨noMethod (cstr method), nulFree_noMethod (cstr_nulFree method)⟩)

/-- `arpc_dispatch_callback`, up to the answer: an unknown callback returns `0`. -/
def Env.dispatch (env : Env σ τ) (t : τ) (which : Bytes) (handle : Nat) (args : Option Tree) :
    ClientProg τ :=
  match env.kinds.findIdx? (· = which) with
  | some i =>
    match env.fns t handle i with
    | some fn => fn args
    | none => .ret fun t => (t, ⟨0, i64_zero⟩)
  | none => .ret fun t => (t, ⟨0, i64_zero⟩)

/-! ## Plain calls -/

/-- The two sides' states. -/
structure World (σ τ : Type) where
  srv : σ
  cl : τ

/-- An `arpc_invoke` or an `arpc_cb_send` that returned, and what it returned. -/
inductive Ev where
  | invoked (rq : Req) (r : Reply)
  | answered (cb : Cb) (v : Int)

mutual

/-- The program with its calls made directly, and the calls and callbacks that returned; `none` when
the tree of activity is deeper than the fuel. -/
def directClient (env : Env σ τ) : Nat → ClientProg τ → World σ τ →
    Option (World σ τ × Value × List Ev)
  | 0, _, _ => none
  | _ + 1, .ret f, w => some ({ w with cl := (f w.cl).1 }, (f w.cl).2, [])
  | n + 1, .call f k, w => do
    let rq := (f w.cl).2
    let (w, a, l) ← directServer env n (env.handler rq.method (some (.arr rq.params)))
      { w with cl := (f w.cl).1 }
    let (w, v, l') ← directClient env n (k (Res.reply a.1)) w
    return (w, v, l ++ .invoked rq (Res.reply a.1) :: l')

def directServer (env : Env σ τ) : Nat → ServerProg σ → World σ τ →
    Option (World σ τ × Answer × List Ev)
  | 0, _, _ => none
  | _ + 1, .ret f, w => some ({ w with srv := (f w.srv).1 }, (f w.srv).2, [])
  | n + 1, .raise f _ k, w => do
    let cb := (f w.srv).2
    let (w, v, l) ← directClient env n (env.dispatch w.cl cb.kind cb.handle (some cb.args))
      { w with srv := (f w.srv).1 }
    let (w, a, l') ← directServer env n (k v.1) w
    return (w, a, l ++ .answered cb v.1 :: l')

end

/-! ## The frame loops -/

/-- What the client is inside of: `transact` waiting for the reply to a request, or
`arpc_dispatch_callback` for a callback frame. -/
inductive CFrame (τ : Type) where
  | wait (id : Int) (rq : Req) (k : Reply → ClientProg τ)
  | cb (seq : Int)

/-- What the server is inside of: `arpc_handle_parsed` for a request, or `arpc_cb_send`. -/
inductive SFrame (σ : Type) where
  | req (id : Int)
  | wait (seq : Int) (cb : Cb) (dflt : Int) (k : Int → ServerProg σ)

inductive Caller (τ : Type) where
  | run (p : ClientProg τ) (stk : List (CFrame τ))
  | recv (stk : List (CFrame τ))
  | done (v : Value)
  /-- the client gave the connection up -/
  | broken

inductive Srv (σ : Type) where
  | run (p : ServerProg σ) (stk : List (SFrame σ))
  | recv (stk : List (SFrame σ))
  /-- `serve_connection` has returned -/
  | closed

/-- Both sides, the frames in flight each way, and the counters `g_next_id` and `g_seq`. -/
structure Config (σ τ : Type) where
  client : Caller τ
  server : Srv σ
  toServer : List Bytes := []
  toClient : List Bytes := []
  world : World σ τ
  nextId : Nat
  nextSeq : Nat
  log : List Ev := []

/-- A frame's bytes. -/
def frame (t : Tree) : Bytes := (ajwTree {} t).buf

def callbackFrame (seq : Int) (cb : Cb) : Tree :=
  .obj [(lit "cb", .str cb.kind), (lit "seq", .num seq), (lit "handle", .num (toI64 cb.handle)),
    (lit "args", cb.args)]

def answerFrame (seq ret : Int) : Tree := .obj [(lit "cbseq", .num seq), (retKey, .num ret)]

/-- What `arpc_recv_frame` leaves in the pipe: a refused payload is not read. Being text, it announces too
much wherever a header is read of it, so it stays a frame that is refused. -/
def unread (f : Bytes) (fs : List Bytes) : List Bytes :=
  if Wire.maxFrame < f.length % 2 ^ 32 then f :: fs else fs

/-- The end of `arpc_invoke`, on a reply in step. -/
def replyOf (d : Tree) : Reply :=
  match ajMember (some d) (lit "error") with
  | some err => .error (ajI64 (ajMember (some err) (lit "code")) 0)
    ((ajStr (ajMember (some err) (lit "message")) none).getD (lit "error"))
  | none => .result (ajMember (some d) (lit "result"))

/-- One turn of the loop in `transact`, inside `arpc_invoke` of request `id`. -/
def transact (env : Env σ τ) (c : Config σ τ) (id : Int) (rq : Req) (k : Reply → ClientProg τ)
    (stk : List (CFrame τ)) (f : Option Bytes) : Config σ τ :=
  match f.bind ajParse with
  -- a frame that is refused and one that is malformed both end in `disconnect`
  | none => { c with client := .broken }
  | some d =>
    if (ajMember (some d) (lit "cb")).isSome then
      let which := (ajStr (ajMember (some d) (lit "cb")) none).getD []
      let seq := ajI64 (ajMember (some d) (lit "seq")) 0
      let handle := toU64 (ajI64 (ajMember (some d) (lit "handle")) 0)
      let p := env.dispatch c.world.cl which handle (ajMember (some d) (lit "args"))
      { c with client := .run p (.cb seq :: .wait id rq k :: stk) }
    else if ajI64 (ajMember (some d) (lit "id")) (-1) ≠ id then { c with client := .broken }
    else { c with client := .run (k (replyOf d)) stk, log := c.log ++ [.invoked rq (replyOf d)] }

def clientStep (env : Env σ τ) (c : Config σ τ) : Option (Config σ τ) :=
  match c.client with
  | .run (.call f k) stk =>
    let rq := (f c.world.cl).2
    some { c with
      client := .recv (.wait (toI64 c.nextId) rq k :: stk)
      toServer := c.toServer ++ [frame (requestFrame (toI64 c.nextId) rq.method rq.params)]
      world := { c.world with cl := (f c.world.cl).1 }
      nextId := c.nextId + 1 }
  | .run (.ret f) (.cb seq :: stk) =>
    some { c with
      client := .recv stk
      toServer := c.toServer ++ [frame (answerFrame seq (f c.world.cl).2.1)]
      world := { c.world with cl := (f c.world.cl).1 } }
  | .run (.ret f) [] =>
    some { c with
      client := .done (f c.world.cl).2
      world := { c.world with cl := (f c.world.cl).1 } }
  | .recv (.wait id rq k :: stk) =>
    match c.toClient with
    | f :: fs => some (transact env { c with toClient := unread f fs } id rq k stk (Wire.delivered f))
    | [] =>
      match c.server with
      | .closed => some { c with client := .broken }
      | _ => none
  | _ => none

/-- `arpc_handle_parsed`, up to the handler: a request without a method is answered at once. -/
def arpcHandleParsed (env : Env σ τ) (c : Config σ τ) (stk : List (SFrame σ)) (d : Tree) :
    Config σ τ :=
  let id := ajI64 (ajMember (some d) (lit "id")) 0
  match ajStr (ajMember (some d) (lit "method")) none with
  | none =>
    { c with
      server := .recv stk
      toClient := c.toClient ++ [frame (errorFrame id (-32600) (lit "missing method"))] }
  | some method =>
    { c with
      server := .run (env.handler method (ajMember (some d) (lit "params"))) (.req id :: stk) }

/-- The end of `arpc_cb_send`, on the frame `arpc_conn_exchange` gave it. -/
def cbReply (seq dflt : Int) (d : Option Tree) : Int :=
  if ajI64 (ajMember d (lit "cbseq")) (-1) = seq then ajI64 (ajMember d retKey) dflt else dflt

/-- One turn of the loop in `arpc_conn_exchange`; after a frame that is refused, as after one that is
malformed, `arpc_cb_send` answers its default. -/
def arpcConnExchange (env : Env σ τ) (c : Config σ τ) (seq : Int) (cb : Cb) (dflt : Int)
    (k : Int → ServerProg σ) (stk : List (SFrame σ)) (f : Option Bytes) : Config σ τ :=
  match f.bind ajParse with
  | none =>
    { c with server := .run (k dflt) stk, log := c.log ++ [.answered cb dflt] }
  | some d =>
    if (ajMember (some d) (lit "method")).isSome then
      arpcHandleParsed env c (.wait seq cb dflt k :: stk) d
    else
      { c with
        server := .run (k (cbReply seq dflt (some d))) stk
        log := c.log ++ [.answered cb (cbReply seq dflt (some d))] }

/-- One turn of the loop in `serve_connection`. -/
def serveConnection (env : Env σ τ) (c : Config σ τ) (f : Option Bytes) : Config σ τ :=
  match f with
  | none => { c with server := .closed }
  | some f =>
    match ajParse f with
    | none =>
      { c with toClient := c.toClient ++ [frame (errorFrame 0 (-32700) (lit "malformed JSON"))] }
    | some d => arpcHandleParsed env c [] d

def serverStep (env : Env σ τ) (c : Config σ τ) : Option (Config σ τ) :=
  match c.server with
  | .run (.raise f dflt k) stk =>
    let cb := (f c.world.srv).2
    some { c with
      server := .recv (.wait (toI64 c.nextSeq) cb dflt k :: stk)
      toClient := c.toClient ++ [frame (callbackFrame (toI64 c.nextSeq) cb)]
      world := { c.world with srv := (f c.world.srv).1 }
      nextSeq := c.nextSeq + 1 }
  | .run (.ret f) (.req id :: stk) =>
    some { c with
      server := .recv stk
      toClient := c.toClient ++ [frame (replyFrame id (f c.world.srv).2.1)]
      world := { c.world with srv := (f c.world.srv).1 } }
  | .recv [] =>
    match c.toServer with
    | [] => none
    | f :: fs => some (serveConnection env { c with toServer := unread f fs } (Wire.delivered f))
  | .recv (.wait seq cb dflt k :: stk) =>
    match c.toServer with
    | [] => none
    | f :: fs =>
      some (arpcConnExchange env { c with toServer := unread f fs } seq cb dflt k stk (Wire.delivered f))
  | _ => none

/-- A move of either side. -/
def Move (env : Env σ τ) (c c' : Config σ τ) : Prop :=
  clientStep env c = some c' ∨ serverStep env c = some c'

/-- The client about to run `p`, the server waiting for a connection's first frame. -/
def start (p : ClientProg τ) (w : World σ τ) (nextId nextSeq : Nat) : Config σ τ :=
  { client := .run p [], server := .recv [], world := w, nextId, nextSeq }

/-- The client's program has returned `v`. -/
def Config.Finished (c : Config σ τ) (v : Value) : Prop :=
  c.client = .done v ∧ c.server = .recv [] ∧ c.toServer = [] ∧ c.toClient = []

/-- At most one frame is in flight, and one side can move and not the other, until the client's
program has returned. -/
def Config.InTurn (env : Env σ τ) (c : Config σ τ) : Prop :=
  c.toServer.length + c.toClient.length ≤ 1 ∧
    ((∃ v, c.Finished v) ∨
      ((clientStep env c).isSome ∧ serverStep env c = none) ∨
      (clientStep env c = none ∧ (serverStep env c).isSome))

/-! ## Frames that fit -/

/-- The reply to request `id`. -/
def Reply.frame (id : Int) : Reply → Tree
  | .result (some t) => .obj [(lit "id", .num id), (lit "result", t)]
  | .result none => .obj [(lit "id", .num id)]
  | .error code message => errorFrame id code message

/-- The frames of the call are within `ARPC_MAX_FRAME`, whatever their numbers. -/
def Ev.Sendable : Ev → Prop
  | .invoked rq r => ∀ id : Nat,
    Wire.Sendable (frame (requestFrame (toI64 id) rq.method rq.params)) ∧
      Wire.Sendable (frame (r.frame (toI64 id)))
  | .answered cb _ => ∀ seq : Nat, Wire.Sendable (frame (callbackFrame (toI64 seq) cb))

end Session
