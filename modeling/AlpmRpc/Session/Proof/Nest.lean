import AlpmRpc.Common.Proof.Framing
import AlpmRpc.Common.Proof.WrittenBytes
import AlpmRpc.Session.Nest
import Mathlib.Logic.Relation

/-!
# Nested calls and callbacks never cross answers

The stacks of the two sides mirror each other when the client is to move (`Ready`). `Form` lists what a
reachable configuration can be, and in each whose frames fit one side can move (`Form.turn`). `EndsClient`
and `EndsServer` follow a program that ends when its calls are plain calls: over the pipe it ends the
same way (`ends_direct`), by the one way there is (`follows_end`).
-/

set_option autoImplicit false

namespace Session

open Json Server

variable {σ τ : Type} {env : Env σ τ}

/-! ## Frames cross -/

theorem parse_request (id : Nat) (rq : Req) :
    ajParse (frame (requestFrame (toI64 id) rq.method rq.params)) =
      some (requestFrame (toI64 id) rq.method rq.params) :=
  sent_eq (fits_request (toI64_range id) rq.method_ok rq.params_ok) (by decide)

theorem parse_reply (id : Nat) (a : Answer) :
    ajParse (frame (replyFrame (toI64 id) a.1)) = some (replyFrame (toI64 id) a.1) := by
  obtain ⟨res, hres⟩ := a
  cases res with
  | fail code msg =>
    exact sent_eq (fits_error (toI64_range id) hres.1 hres.2) (by decide)
  | ok ret outs =>
    exact sent_eq (fits_result (toI64_range id) hres.1 (fun m hm => (hres.2 m hm).1)
      fun m hm => (hres.2 m hm).2) (by decide)

theorem parse_callback (seq : Nat) (cb : Cb) :
    ajParse (frame (callbackFrame (toI64 seq) cb)) = some (callbackFrame (toI64 seq) cb) := by
  have hfits : Fits maxDepth (callbackFrame (toI64 seq) cb) := by
    refine Fits.mono (Fits.obj (d := maxDepth - 1) (fun m hm => ?_) fun m hm => ?_) (by decide)
    · simp only [List.mem_cons, List.not_mem_nil, or_false] at hm
      rcases hm with rfl | rfl | rfl | rfl
      · exact (by decide : NulFree (lit "cb"))
      · exact (by decide : NulFree (lit "seq"))
      · exact (by decide : NulFree (lit "handle"))
      · exact (by decide : NulFree (lit "args"))
    · simp only [List.mem_cons, List.not_mem_nil, or_false] at hm
      rcases hm with rfl | rfl | rfl | rfl
      · exact .str cb.kind_ok
      · exact .num (toI64_range seq)
      · exact .num (toI64_range cb.handle)
      · exact cb.args_ok
  exact sent_eq hfits (Nat.le_refl _)

theorem parse_answer (seq : Nat) (v : Value) :
    ajParse (frame (answerFrame (toI64 seq) v.1)) = some (answerFrame (toI64 seq) v.1) := by
  have hfits : Fits 1 (answerFrame (toI64 seq) v.1) := by
    refine .obj (fun m hm => ?_) fun m hm => ?_
    · simp only [List.mem_cons, List.not_mem_nil, or_false] at hm
      rcases hm with rfl | rfl
      · exact (by decide : NulFree (lit "cbseq"))
      · exact (by decide : NulFree retKey)
    · simp only [List.mem_cons, List.not_mem_nil, or_false] at hm
      rcases hm with rfl | rfl
      · exact .num (toI64_range seq)
      · exact .num v.2
  exact sent_eq hfits (by decide)

/-! ## Frames that fit -/

theorem unread_eq {f : Bytes} (h : Wire.Sendable f) (fs : List Bytes) : unread f fs = fs := by
  rw [unread, Nat.mod_eq_of_lt h.lt, if_neg (Nat.not_lt.2 h.2)]

theorem sendable_answer (seq ret : Int) : Wire.Sendable (frame (answerFrame seq ret)) :=
  sendable_obj (Nat.le_of_ble_eq_true rfl)

theorem Reply.frame_reply (id : Int) (res : Res) : (Res.reply res).frame id = replyFrame id res := by
  cases res <;> rfl

/-- The frames in flight fit. -/
structure Config.Sendable (c : Config σ τ) : Prop where
  toServer : ∀ f ∈ c.toServer, Wire.Sendable f
  toClient : ∀ f ∈ c.toClient, Wire.Sendable f

section
variable {cl : Caller τ} {sv : Srv σ} {w : World σ τ} {n m : Nat} {l : List Ev} {f : Bytes}

theorem sendable_none : (⟨cl, sv, [], [], w, n, m, l⟩ : Config σ τ).Sendable :=
  ⟨fun _ hf => absurd hf List.not_mem_nil, fun _ hf => absurd hf List.not_mem_nil⟩

theorem sendable_toServer (h : Wire.Sendable f) : (⟨cl, sv, [f], [], w, n, m, l⟩ : Config σ τ).Sendable :=
  ⟨List.forall_mem_singleton.2 h, fun _ hf => absurd hf List.not_mem_nil⟩

theorem sendable_toClient (h : Wire.Sendable f) : (⟨cl, sv, [], [f], w, n, m, l⟩ : Config σ τ).Sendable :=
  ⟨fun _ hf => absurd hf List.not_mem_nil, List.forall_mem_singleton.2 h⟩

end

/-! ## What each loop makes of a frame -/

section
variable (c : Config σ τ)

/-- The end of `arpc_invoke` on the reply to its request. -/
theorem transact_reply (id : Nat) (rq : Req) (k : Reply → ClientProg τ) (stk : List (CFrame τ))
    (a : Answer) :
    transact env c (toI64 id) rq k stk (some (frame (replyFrame (toI64 id) a.1))) =
      { c with client := .run (k (Res.reply a.1)) stk
               log := c.log ++ [.invoked rq (Res.reply a.1)] } := by
  have hcb : ajMember (some (replyFrame (toI64 id) a.1)) (lit "cb") = none := by
    obtain ⟨res, hres⟩ := a
    cases res <;> rfl
  have hid : ajMember (some (replyFrame (toI64 id) a.1)) (lit "id") = some (.num (toI64 id)) := by
    obtain ⟨res, hres⟩ := a
    cases res <;> rfl
  have hrep : replyOf (replyFrame (toI64 id) a.1) = Res.reply a.1 := by
    obtain ⟨res, hres⟩ := a
    cases res with
    | fail code msg =>
      show Reply.error code (cstr msg) = Reply.error code msg
      rw [cstr_eq hres.2]
    | ok ret outs => rfl
  rw [transact, Option.bind_some, parse_reply]
  dsimp only
  rw [hcb, hid, hrep, if_neg (by simp), if_neg (by simp [ajI64])]

/-- `transact` on a callback frame. -/
theorem transact_callback (id : Int) (rq : Req) (k : Reply → ClientProg τ) (stk : List (CFrame τ))
    (seq : Nat) (cb : Cb) :
    transact env c id rq k stk (some (frame (callbackFrame (toI64 seq) cb))) =
      { c with client := .run (env.dispatch c.world.cl cb.kind cb.handle (some cb.args))
                 (.cb (toI64 seq) :: .wait id rq k :: stk) } := by
  have hcb : ajMember (some (callbackFrame (toI64 seq) cb)) (lit "cb") = some (.str cb.kind) := rfl
  have hseq : ajMember (some (callbackFrame (toI64 seq) cb)) (lit "seq") =
    some (.num (toI64 seq)) := rfl
  have hh : ajMember (some (callbackFrame (toI64 seq) cb)) (lit "handle") =
    some (.num (toI64 cb.handle)) := rfl
  have ha : ajMember (some (callbackFrame (toI64 seq) cb)) (lit "args") = some cb.args := rfl
  have hkind : (ajStr (some (.str cb.kind)) none).getD [] = cb.kind := by
    show cstr cb.kind = cb.kind
    exact cstr_eq cb.kind_ok
  rw [transact, Option.bind_some, parse_callback]
  dsimp only
  rw [hcb, hseq, hh, ha, if_pos (by simp), hkind]
  simp only [ajI64, toU64_toI64 cb.handle_lt]

theorem arpcHandleParsed_request (id : Nat) (rq : Req) (stk : List (SFrame σ)) :
    arpcHandleParsed env c stk (requestFrame (toI64 id) rq.method rq.params) =
      { c with server := .run (env.handler rq.method (some (.arr rq.params)))
                 (.req (toI64 id) :: stk) } := by
  have hm : ajStr (ajMember (some (requestFrame (toI64 id) rq.method rq.params)) (lit "method"))
      none = some rq.method := by
    show some (cstr rq.method) = some rq.method
    rw [cstr_eq rq.method_ok]
  have hi : ajMember (some (requestFrame (toI64 id) rq.method rq.params)) (lit "id") =
    some (.num (toI64 id)) := rfl
  have hp : ajMember (some (requestFrame (toI64 id) rq.method rq.params)) (lit "params") =
    some (.arr rq.params) := rfl
  rw [arpcHandleParsed, hm, hi, hp]
  rfl

theorem arpcConnExchange_answer (seq : Nat) (cb : Cb) (dflt : Int) (k : Int → ServerProg σ)
    (stk : List (SFrame σ)) (v : Value) :
    arpcConnExchange env c (toI64 seq) cb dflt k stk (some (frame (answerFrame (toI64 seq) v.1))) =
      { c with server := .run (k v.1) stk, log := c.log ++ [.answered cb v.1] } := by
  have hm : ajMember (some (answerFrame (toI64 seq) v.1)) (lit "method") = none := rfl
  have hr : cbReply (toI64 seq) dflt (some (answerFrame (toI64 seq) v.1)) = v.1 := by
    have hs : ajMember (some (answerFrame (toI64 seq) v.1)) (lit "cbseq") =
      some (.num (toI64 seq)) := rfl
    have hv : ajMember (some (answerFrame (toI64 seq) v.1)) retKey = some (.num v.1) := rfl
    rw [cbReply, hs, hv, if_pos (by simp [ajI64])]
    rfl
  rw [arpcConnExchange, Option.bind_some, parse_answer]
  dsimp only
  rw [hm, hr, if_neg (by simp)]

end

/-! ## Reachable configurations -/

/-- The stacks when the client is to move: for each callback the client is in, the server waits for
its answer, inside the request the client waits on. -/
inductive Ready : List (CFrame τ) → List (SFrame σ) → Prop
  | base : Ready [] []
  | cb {cs : List (CFrame τ)} {ss : List (SFrame σ)} (id seq : Nat) (rq : Req)
      (k : Reply → ClientProg τ) (cb : Cb) (dflt : Int) (k' : Int → ServerProg σ) :
      Ready cs ss → Ready (.cb (toI64 seq) :: .wait (toI64 id) rq k :: cs)
        (.wait (toI64 seq) cb dflt k' :: .req (toI64 id) :: ss)

/-- What a configuration can be: one side runs, or one frame is in flight. -/
inductive Form : Config σ τ → Prop
  | client {p : ClientProg τ} {cs : List (CFrame τ)} {ss : List (SFrame σ)} {w : World σ τ}
      {n m : Nat} {l : List Ev} (h : Ready cs ss) : Form ⟨.run p cs, .recv ss, [], [], w, n, m, l⟩
  | request {cs : List (CFrame τ)} {ss : List (SFrame σ)} {w : World σ τ} {n m : Nat} {l : List Ev}
      {id : Nat} {rq : Req} {k : Reply → ClientProg τ} (h : Ready cs ss) :
      Form ⟨.recv (.wait (toI64 id) rq k :: cs), .recv ss,
        [frame (requestFrame (toI64 id) rq.method rq.params)], [], w, n, m, l⟩
  | server {q : ServerProg σ} {cs : List (CFrame τ)} {ss : List (SFrame σ)} {w : World σ τ}
      {n m : Nat} {l : List Ev} {id : Nat} {rq : Req} {k : Reply → ClientProg τ} (h : Ready cs ss) :
      Form ⟨.recv (.wait (toI64 id) rq k :: cs), .run q (.req (toI64 id) :: ss), [], [], w, n, m, l⟩
  | callback {cs : List (CFrame τ)} {ss : List (SFrame σ)} {w : World σ τ} {n m : Nat} {l : List Ev}
      {id seq : Nat} {rq : Req} {k : Reply → ClientProg τ} {cb : Cb} {dflt : Int}
      {k' : Int → ServerProg σ} (h : Ready cs ss) :
      Form ⟨.recv (.wait (toI64 id) rq k :: cs),
        .recv (.wait (toI64 seq) cb dflt k' :: .req (toI64 id) :: ss), [],
        [frame (callbackFrame (toI64 seq) cb)], w, n, m, l⟩
  | answer {cs : List (CFrame τ)} {ss : List (SFrame σ)} {w : World σ τ} {n m : Nat} {l : List Ev}
      {id seq : Nat} {rq : Req} {k : Reply → ClientProg τ} {cb : Cb} {dflt : Int}
      {k' : Int → ServerProg σ} {v : Value} (h : Ready cs ss) :
      Form ⟨.recv (.wait (toI64 id) rq k :: cs),
        .recv (.wait (toI64 seq) cb dflt k' :: .req (toI64 id) :: ss),
        [frame (answerFrame (toI64 seq) v.1)], [], w, n, m, l⟩
  | reply {cs : List (CFrame τ)} {ss : List (SFrame σ)} {w : World σ τ} {n m : Nat} {l : List Ev}
      {id : Nat} {rq : Req} {k : Reply → ClientProg τ} {a : Answer} (h : Ready cs ss) :
      Form ⟨.recv (.wait (toI64 id) rq k :: cs), .recv ss, [],
        [frame (replyFrame (toI64 id) a.1)], w, n, m, l⟩
  | done {v : Value} {w : World σ τ} {n m : Nat} {l : List Ev} :
      Form ⟨.done v, .recv [], [], [], w, n, m, l⟩

section
variable {cs : List (CFrame τ)} {ss : List (SFrame σ)} {w : World σ τ} {n m : Nat} {l : List Ev}
  {cl : Caller τ} {id seq : Nat} {rq : Req} {k : Reply → ClientProg τ} {cb : Cb} {dflt : Int}
  {k' : Int → ServerProg σ}

/-- A server that waits and has no frame cannot move. -/
theorem serverStep_waits (h : Ready cs ss) (fs : List Bytes) :
    serverStep env ⟨cl, .recv ss, [], fs, w, n, m, l⟩ = none := by
  cases h with
  | base => rfl
  | cb => rfl

/-- A waiting server runs the handler of a request, in whichever loop it waits. -/
theorem serverStep_request (h : Ready cs ss) (rq : Req)
    (hs : Wire.Sendable (frame (requestFrame (toI64 id) rq.method rq.params))) :
    serverStep env ⟨cl, .recv ss, [frame (requestFrame (toI64 id) rq.method rq.params)], [], w, n, m,
        l⟩ =
      some ⟨cl, .run (env.handler rq.method (some (.arr rq.params))) (.req (toI64 id) :: ss), [], [],
        w, n, m, l⟩ := by
  cases h with
  | base =>
    show some (serveConnection env ⟨cl, .recv [], unread _ [], [], w, n, m, l⟩ (Wire.delivered _)) = _
    rw [Wire.delivered_eq hs, unread_eq hs, serveConnection]
    dsimp only
    rw [parse_request]
    dsimp only
    rw [arpcHandleParsed_request]
  | cb id' seq' rq' k cb dflt k' h =>
    show some (arpcConnExchange env ⟨cl, _, unread _ [], [], w, n, m, l⟩ _ _ _ _ _ (Wire.delivered _)) = _
    have hm : ajMember (some (requestFrame (toI64 id) rq.method rq.params)) (lit "method") =
      some (.str rq.method) := rfl
    rw [Wire.delivered_eq hs, unread_eq hs, arpcConnExchange, Option.bind_some, parse_request]
    dsimp only
    rw [hm, if_pos (by simp), arpcHandleParsed_request]

theorem serverStep_answer (v : Value) :
    serverStep env ⟨cl, .recv (.wait (toI64 seq) cb dflt k' :: ss),
        [frame (answerFrame (toI64 seq) v.1)], [], w, n, m, l⟩ =
      some ⟨cl, .run (k' v.1) ss, [], [], w, n, m, l ++ [.answered cb v.1]⟩ := by
  have hs := sendable_answer (toI64 seq) v.1
  show some (arpcConnExchange env ⟨cl, _, unread _ [], [], w, n, m, l⟩ _ _ _ _ _ (Wire.delivered _)) = _
  rw [Wire.delivered_eq hs, unread_eq hs, arpcConnExchange_answer]

theorem clientStep_callback {s : Srv σ} (cb : Cb)
    (hs : Wire.Sendable (frame (callbackFrame (toI64 seq) cb))) :
    clientStep env ⟨.recv (.wait (toI64 id) rq k :: cs), s, [],
        [frame (callbackFrame (toI64 seq) cb)], w, n, m, l⟩ =
      some ⟨.run (env.dispatch w.cl cb.kind cb.handle (some cb.args))
        (.cb (toI64 seq) :: .wait (toI64 id) rq k :: cs), s, [], [], w, n, m, l⟩ := by
  show some (transact env ⟨_, s, [], unread _ [], w, n, m, l⟩ _ _ _ _ (Wire.delivered _)) = _
  rw [Wire.delivered_eq hs, unread_eq hs, transact_callback]

theorem clientStep_reply {s : Srv σ} (a : Answer)
    (hs : Wire.Sendable (frame (replyFrame (toI64 id) a.1))) :
    clientStep env ⟨.recv (.wait (toI64 id) rq k :: cs), s, [],
        [frame (replyFrame (toI64 id) a.1)], w, n, m, l⟩ =
      some ⟨.run (k (Res.reply a.1)) cs, s, [], [], w, n, m,
        l ++ [.invoked rq (Res.reply a.1)]⟩ := by
  show some (transact env ⟨_, s, [], unread _ [], w, n, m, l⟩ _ _ _ _ (Wire.delivered _)) = _
  rw [Wire.delivered_eq hs, unread_eq hs, transact_reply]

end

/-- A move in turn: one side moves to `c'`, the other cannot. -/
def Turn (env : Env σ τ) (c c' : Config σ τ) : Prop :=
  (clientStep env c = some c' ∧ serverStep env c = none) ∨
    (clientStep env c = none ∧ serverStep env c = some c')

/-- **Whose turn it is**: where the frames fit, the client has finished, or exactly one side can move, to
a configuration of the list. -/
theorem Form.turn (env : Env σ τ) {c : Config σ τ} (h : Form c) (hs : c.Sendable) :
    (∃ v, c.Finished v ∧ clientStep env c = none ∧ serverStep env c = none) ∨
      ∃ c', Turn env c c' ∧ Form c' := by
  cases h with
  | @client p cs ss w n m l h =>
    refine .inr ?_
    cases p with
    | call f k => exact ⟨_, .inl ⟨rfl, serverStep_waits h []⟩, .request h⟩
    | ret f =>
      cases h with
      | base => exact ⟨_, .inl ⟨rfl, rfl⟩, .done⟩
      | cb id seq rq k cb dflt k' h => exact ⟨_, .inl ⟨rfl, rfl⟩, .answer h⟩
  | request h =>
    have hf := hs.toServer _ List.mem_cons_self
    exact .inr ⟨_, .inr ⟨rfl, serverStep_request h _ hf⟩, .server h⟩
  | @server q cs ss w n m l id rq k h =>
    refine .inr ?_
    cases q with
    | raise f dflt k' => exact ⟨_, .inr ⟨rfl, rfl⟩, .callback h⟩
    | ret f => exact ⟨_, .inr ⟨rfl, rfl⟩, .reply h⟩
  | callback h =>
    have hf := hs.toClient _ List.mem_cons_self
    exact .inr ⟨_, .inl ⟨clientStep_callback _ hf, rfl⟩, .client (.cb _ _ _ _ _ _ _ h)⟩
  | answer h => exact .inr ⟨_, .inr ⟨rfl, serverStep_answer _⟩, .server h⟩
  | reply h =>
    have hf := hs.toClient _ List.mem_cons_self
    exact .inr ⟨_, .inl ⟨clientStep_reply _ hf, serverStep_waits h _⟩, .client h⟩
  | done => exact .inl ⟨_, ⟨rfl, rfl, rfl, rfl⟩, rfl, rfl⟩

theorem Turn.unique {c c' c'' : Config σ τ} (h : Turn env c c') (hm : Move env c c'') :
    c'' = c' := by
  rcases h with ⟨h1, h2⟩ | ⟨h1, h2⟩
  · rcases hm with hm | hm
    · rw [h1] at hm
      exact (Option.some.inj hm).symm
    · rw [h2] at hm
      cases hm
  · rcases hm with hm | hm
    · rw [h1] at hm
      cases hm
    · rw [h2] at hm
      exact (Option.some.inj hm).symm

theorem Form.flight {c : Config σ τ} (h : Form c) : c.toServer.length + c.toClient.length ≤ 1 := by
  cases h <;> simp

theorem Form.inTurn {c : Config σ τ} (h : Form c) (hs : c.Sendable) : c.InTurn env := by
  refine ⟨h.flight, ?_⟩
  rcases h.turn env hs with ⟨v, hv, -⟩ | ⟨c', ht, -⟩
  · exact .inl ⟨v, hv⟩
  · rcases ht with ⟨h1, h2⟩ | ⟨h1, h2⟩
    · exact .inr (.inl ⟨by rw [h1]; rfl, h2⟩)
    · exact .inr (.inr ⟨h1, by rw [h2]; rfl⟩)

/-! ## Following a program -/

/-- `c'` is reached from `c`. -/
def Reaches (env : Env σ τ) : Config σ τ → Config σ τ → Prop := Relation.ReflTransGen (Move env)

/-- And the frames in flight fit on the way. -/
def Follows (env : Env σ τ) : Config σ τ → Config σ τ → Prop :=
  Relation.ReflTransGen fun c c' => Move env c c' ∧ c.Sendable

/-- Over the pipe a client's program that ends ends in the same way, wherever it runs. -/
def EndsClient (env : Env σ τ) (p : ClientProg τ) (w w' : World σ τ) (v : Value)
    (log : List Ev) : Prop :=
  ∀ {cs : List (CFrame τ)} {ss : List (SFrame σ)} (n m : Nat) (l : List Ev), Ready cs ss →
    ∃ f w₁ n' m', Follows env ⟨.run p cs, .recv ss, [], [], w, n, m, l⟩
        ⟨.run (.ret f) cs, .recv ss, [], [], w₁, n', m', l ++ log⟩ ∧
      w'.srv = w₁.srv ∧ f w₁.cl = (w'.cl, v)

/-- And so does a handler. -/
def EndsServer (env : Env σ τ) (q : ServerProg σ) (w w' : World σ τ) (a : Answer)
    (log : List Ev) : Prop :=
  ∀ {cs : List (CFrame τ)} {ss : List (SFrame σ)} (id : Nat) (rq : Req) (k : Reply → ClientProg τ)
    (n m : Nat) (l : List Ev), Ready cs ss →
    ∃ f w₁ n' m', Follows env
        ⟨.recv (.wait (toI64 id) rq k :: cs), .run q (.req (toI64 id) :: ss), [], [], w, n, m, l⟩
        ⟨.recv (.wait (toI64 id) rq k :: cs), .run (.ret f) (.req (toI64 id) :: ss), [], [], w₁, n',
          m', l ++ log⟩ ∧
      w'.cl = w₁.cl ∧ f w₁.srv = (w'.srv, a)

/-- A call over the pipe: the request crosses, its handler ends, and the reply crosses back. -/
theorem ends_call {f : τ → τ × Req} {k : Reply → ClientProg τ} {w w₁ w₂ : World σ τ} {a : Answer}
    {v : Value} {l₁ l₂ : List Ev}
    (hs : EndsServer env (env.handler (f w.cl).2.method (some (.arr (f w.cl).2.params)))
      { w with cl := (f w.cl).1 } w₁ a l₁)
    (hk : EndsClient env (k (Res.reply a.1)) w₁ w₂ v l₂)
    (he : (Ev.invoked (f w.cl).2 (Res.reply a.1)).Sendable) :
    EndsClient env (.call f k) w w₂ v (l₁ ++ .invoked (f w.cl).2 (Res.reply a.1) :: l₂) := by
  intro cs ss n m l hr
  obtain ⟨g, w', n', m', hreach, hcl, hg⟩ := hs n (f w.cl).2 k (n + 1) m l hr
  have hw : ({ w' with srv := (g w'.srv).1 } : World σ τ) = w₁ := by
    cases w₁
    cases hcl
    rw [hg]
  have ha : (g w'.srv).2 = a := by rw [hg]
  obtain ⟨f', w'', n'', m'', hreach', hsrv, hf'⟩ :=
    hk n' m' (l ++ l₁ ++ [.invoked (f w.cl).2 (Res.reply a.1)]) hr
  refine ⟨f', w'', n'', m'', ?_, hsrv, hf'⟩
  have hreq := (he n).1
  have hrep : Wire.Sendable (frame (replyFrame (toI64 n) (g w'.srv).2.1)) := by
    rw [ha, ← Reply.frame_reply]
    exact (he n).2
  -- the request leaves, and the server takes it up
  refine .head ⟨.inl rfl, sendable_none⟩
    (.head ⟨.inr (serverStep_request hr _ hreq), sendable_toServer hreq⟩ (hreach.trans ?_))
  -- the reply leaves, and the client takes it up
  refine .head ⟨.inr rfl, sendable_none⟩
    (.head ⟨.inl (clientStep_reply (g w'.srv).2 hrep), sendable_toClient hrep⟩ ?_)
  have hlog : l ++ l₁ ++ [.invoked (f w.cl).2 (Res.reply a.1)] ++ l₂ =
      l ++ (l₁ ++ .invoked (f w.cl).2 (Res.reply a.1) :: l₂) := by simp
  rw [hlog] at hreach'
  rw [hw, ha]
  exact hreach'

/-- A callback over the pipe. -/
theorem ends_raise {f : σ → σ × Cb} {dflt : Int} {k : Int → ServerProg σ} {w w₁ w₂ : World σ τ}
    {a : Answer} {v : Value} {l₁ l₂ : List Ev}
    (hc : EndsClient env
      (env.dispatch w.cl (f w.srv).2.kind (f w.srv).2.handle (some (f w.srv).2.args))
      { w with srv := (f w.srv).1 } w₁ v l₁)
    (hk : EndsServer env (k v.1) w₁ w₂ a l₂) (he : (Ev.answered (f w.srv).2 v.1).Sendable) :
    EndsServer env (.raise f dflt k) w w₂ a (l₁ ++ .answered (f w.srv).2 v.1 :: l₂) := by
  intro cs ss id rq kc n m l hr
  obtain ⟨g, w', n', m', hreach, hsrv, hg⟩ :=
    hc n (m + 1) l (.cb id m rq kc (f w.srv).2 dflt k hr)
  have hw : ({ w' with cl := (g w'.cl).1 } : World σ τ) = w₁ := by
    cases w₁
    cases hsrv
    rw [hg]
  have hv : (g w'.cl).2 = v := by rw [hg]
  obtain ⟨f', w'', n'', m'', hreach', hcl, hf'⟩ :=
    hk id rq kc n' m' (l ++ l₁ ++ [.answered (f w.srv).2 v.1]) hr
  refine ⟨f', w'', n'', m'', ?_, hcl, hf'⟩
  refine .head ⟨.inr rfl, sendable_none⟩
    (.head ⟨.inl (clientStep_callback _ (he m)), sendable_toClient (he m)⟩ (hreach.trans ?_))
  refine .head ⟨.inl rfl, sendable_none⟩
    (.head ⟨.inr (serverStep_answer (g w'.cl).2), sendable_toServer (sendable_answer _ _)⟩ ?_)
  have hlog : l ++ l₁ ++ [.answered (f w.srv).2 v.1] ++ l₂ =
      l ++ (l₁ ++ .answered (f w.srv).2 v.1 :: l₂) := by simp
  rw [hlog] at hreach'
  rw [hw, hv]
  exact hreach'

/-- **The pipe carries what plain calls do**, by induction on the depth of the activity. -/
theorem ends_direct (n : Nat) :
    (∀ p (w w' : World σ τ) v l, directClient env n p w = some (w', v, l) → (∀ e ∈ l, e.Sendable) →
      EndsClient env p w w' v l) ∧
    (∀ q (w w' : World σ τ) a l, directServer env n q w = some (w', a, l) → (∀ e ∈ l, e.Sendable) →
      EndsServer env q w w' a l) := by
  induction n with
  | zero =>
    refine ⟨fun p w w' v l h hl => ?_, fun q w w' a l h hl => ?_⟩
    · rw [directClient] at h
      cases h
    · rw [directServer] at h
      cases h
  | succ n ih =>
    refine ⟨fun p w w' v l h hl => ?_, fun q w w' a l h hl => ?_⟩
    · cases p with
      | ret f =>
        cases h
        intro cs ss n m l hr
        exact ⟨f, w, n, m, by rw [List.append_nil]; exact .refl, rfl, rfl⟩
      | call f k =>
        rw [directClient] at h
        obtain ⟨⟨w₁, a, l₁⟩, h1, h⟩ := Option.bind_eq_some_iff.1 h
        obtain ⟨⟨w₂, v', l₂⟩, h2, h⟩ := Option.bind_eq_some_iff.1 h
        cases h
        obtain ⟨hl₁, hl₂⟩ := List.forall_mem_append.1 hl
        obtain ⟨he, hl₂⟩ := List.forall_mem_cons.1 hl₂
        exact ends_call (ih.2 _ _ _ _ _ h1 hl₁) (ih.1 _ _ _ _ _ h2 hl₂) he
    · cases q with
      | ret f =>
        cases h
        intro cs ss id rq k n m l hr
        exact ⟨f, w, n, m, by rw [List.append_nil]; exact .refl, rfl, rfl⟩
      | raise f dflt k =>
        rw [directServer] at h
        obtain ⟨⟨w₁, v, l₁⟩, h1, h⟩ := Option.bind_eq_some_iff.1 h
        obtain ⟨⟨w₂, a', l₂⟩, h2, h⟩ := Option.bind_eq_some_iff.1 h
        cases h
        obtain ⟨hl₁, hl₂⟩ := List.forall_mem_append.1 hl
        obtain ⟨he, hl₂⟩ := List.forall_mem_cons.1 hl₂
        exact ends_raise (ih.1 _ _ _ _ _ h1 hl₁) (ih.2 _ _ _ _ _ h2 hl₂) he

theorem Config.Finished.stuck {c : Config σ τ} {v : Value} (h : c.Finished v) : ∀ x, ¬Move env c x := by
  obtain ⟨hcl, hsrv, hto, -⟩ := h
  intro x hx
  obtain hx | hx := hx
  · rw [clientStep, hcl] at hx
    cases hx
  · rw [serverStep, hsrv, hto] at hx
    cases hx

theorem Config.Finished.sendable {c : Config σ τ} {v : Value} (h : c.Finished v) : c.Sendable := by
  obtain ⟨-, -, hto, hfrom⟩ := h
  refine ⟨fun f hf => ?_, fun f hf => ?_⟩
  · rw [hto] at hf
    exact absurd hf List.not_mem_nil
  · rw [hfrom] at hf
    exact absurd hf List.not_mem_nil

theorem Form.one_way {c x y : Config σ τ} (h : Form c) (hs : c.Sendable) (hx : Move env c x)
    (hy : Move env c y) : x = y := by
  obtain ⟨v, hv, -⟩ | ⟨c', ht, -⟩ := h.turn env hs
  · exact absurd hx (hv.stuck x)
  · rw [ht.unique hx, ht.unique hy]

theorem Form.move {c c' : Config σ τ} (h : Form c) (hs : c.Sendable) (hm : Move env c c') : Form c' := by
  obtain ⟨v, hv, -⟩ | ⟨c'', ht, hf⟩ := h.turn env hs
  · exact absurd hm (hv.stuck c')
  · rw [ht.unique hm]
    exact hf

/-- Moves are in turn, so a run that can reach the end has no other way to go. -/
theorem follows_end {s c e : Config σ τ} (hs : Form s) (he : Follows env s e)
    (hend : ∀ x, ¬Move env e x) (hr : Reaches env s c) : Form c ∧ Follows env c e := by
  induction hr with
  | refl => exact ⟨hs, he⟩
  | @tail b b' _ hm ih =>
    obtain ⟨hb, hbe⟩ := ih
    rcases Relation.ReflTransGen.cases_head hbe with rfl | ⟨x, ⟨hx, hsend⟩, hxe⟩
    · exact absurd hm (hend _)
    · rw [hb.one_way hsend hm hx]
      exact ⟨hb.move hsend hx, hxe⟩

/-- The frame loops end where plain calls do, by their one way. -/
theorem start_ends {depth : Nat} {p : ClientProg τ} {w w' : World σ τ} {v : Value} {log : List Ev}
    (h : directClient env depth p w = some (w', v, log)) (hlog : ∀ e ∈ log, e.Sendable)
    (nextId nextSeq : Nat) :
    ∃ e, e.Finished v ∧ e.world = w' ∧ e.log = log ∧
      ∀ c, Reaches env (start p w nextId nextSeq) c → Form c ∧ c.Sendable ∧ Reaches env c e := by
  obtain ⟨f, w₁, n', m', hreach, hsrv, hf⟩ := (ends_direct depth).1 p w w' v log h hlog nextId nextSeq
    [] Ready.base
  have hw : ({ w₁ with cl := (f w₁.cl).1 } : World σ τ) = w' := by
    cases w'
    cases hsrv
    rw [hf]
  have hv : (f w₁.cl).2 = v := by rw [hf]
  let e : Config σ τ :=
    ⟨.done (f w₁.cl).2, .recv [], [], [], { w₁ with cl := (f w₁.cl).1 }, n', m', [] ++ log⟩
  have hfin : e.Finished v := ⟨by rw [← hv], rfl, rfl, rfl⟩
  have hfollows : Follows env (start p w nextId nextSeq) e := hreach.tail ⟨.inl rfl, sendable_none⟩
  refine ⟨e, hfin, hw, rfl, fun c hc => ?_⟩
  obtain ⟨hform, hce⟩ := follows_end (.client .base) hfollows hfin.stuck hc
  refine ⟨hform, ?_, Relation.ReflTransGen.mono (fun a b hab => hab.1) _ _ hce⟩
  obtain rfl | ⟨x, ⟨-, hsend⟩, -⟩ := Relation.ReflTransGen.cases_head hce
  · exact hfin.sendable
  · exact hsend

/-- **Nested calls and callbacks never cross answers.** Take a client's program whose activity is
finite and of which no request, reply or callback is larger than a frame may be: made as plain calls, it
ends with `v`, in `w'`, after the calls and callbacks `log`. Over the pipe every configuration it reaches
has at most one frame in flight and one side to move; every run can only go on to the one end, where the
program has returned `v` in `w'`, both pipes are empty, and every `arpc_invoke` and `arpc_cb_send`
returned what the plain call did. -/
theorem nested_calls_in_step (env : Env σ τ) {depth : Nat} {p : ClientProg τ} {w w' : World σ τ}
    {v : Value} {log : List Ev} (h : directClient env depth p w = some (w', v, log))
    (hlog : ∀ e ∈ log, e.Sendable) (nextId nextSeq : Nat) :
    (∀ c, Reaches env (start p w nextId nextSeq) c → c.InTurn env) ∧
      ∃ e, e.Finished v ∧ e.world = w' ∧ e.log = log ∧
        ∀ c, Reaches env (start p w nextId nextSeq) c → Reaches env c e := by
  obtain ⟨e, hfin, hworld, hl, hall⟩ := start_ends h hlog nextId nextSeq
  refine ⟨fun c hc => ?_, e, hfin, hworld, hl, fun c hc => (hall c hc).2.2⟩
  obtain ⟨hform, hsend, -⟩ := hall c hc
  exact hform.inTurn hsend

/-- A request with one number. -/
def numReq (method : Bytes) (h : NulFree method) (id : Int) (hid : I64 id) : Req :=
  ⟨method, [.num id], h, fun _ hp => List.mem_singleton.1 hp ▸ .num hid⟩

theorem five_lt_word : 5 < 2 ^ 64 := by decide

/-- A commit that asks a question; the caller's function looks a name up before it answers. -/
def commitEnv : Env Nat Nat where
  methods m :=
    if m = lit "alpm_trans_commit" then
      some fun _ => .raise
        (fun s => (s + 1, ⟨lit "questioncb", 5, .num 3, by decide, five_lt_word, .num (by decide)⟩)) 0
        fun v => .ret fun s =>
          (s + 1, ⟨.fail (if v = 1 then 7 else 8) (lit "failed"), by split <;> decide, by decide⟩)
    else if m = lit "alpm_pkg_get_name" then
      some fun _ => .ret fun s => (s + 1, ⟨.ok (.str (lit "pacman")) [], .str (by decide), by simp⟩)
    else none
  kinds := [lit "questioncb"]
  fns _ _ _ := some fun _ =>
    .call (fun t => (t + 1, numReq (lit "alpm_pkg_get_name") (by decide) 9 (by decide))) fun _ =>
      .ret fun t => (t + 1, ⟨1, i64_one⟩)

def commitProg : ClientProg Nat :=
  .call (fun t => (t, numReq (lit "alpm_trans_commit") (by decide) 5 (by decide))) fun r =>
    .ret fun t => (t, match r with | .error _ _ => ⟨-1, by decide⟩ | .result _ => ⟨0, i64_zero⟩)

theorem commit_sendable : ∀ w₀ log w v, directClient commitEnv 4 commitProg w₀ = some (w, v, log) →
    ∀ e ∈ log, e.Sendable := by
  intro w₀ log w v h
  cases h
  refine List.forall_mem_cons.2 ⟨fun id => ⟨?_, ?_⟩, List.forall_mem_cons.2 ⟨fun seq => ?_,
    List.forall_mem_singleton.2 fun id => ⟨?_, ?_⟩⟩⟩
  all_goals exact sendable_obj (Nat.le_of_ble_eq_true rfl)

theorem nested_calls_in_step_commit :
    ∃ log, directClient commitEnv 4 commitProg ⟨0, 0⟩ = some (⟨3, 2⟩, ⟨-1, by decide⟩, log) ∧
      (∀ c, Reaches commitEnv (start commitProg ⟨0, 0⟩ 1 1) c → c.InTurn commitEnv) ∧
        ∃ e, e.Finished ⟨-1, by decide⟩ ∧ e.world = ⟨3, 2⟩ ∧ e.log = log ∧
          ∀ c, Reaches commitEnv (start commitProg ⟨0, 0⟩ 1 1) c → Reaches commitEnv c e := by
  have h : directClient commitEnv 4 commitProg ⟨0, 0⟩ = some (⟨3, 2⟩, ⟨-1, by decide⟩, _) := rfl
  exact ⟨_, h, nested_calls_in_step commitEnv h (commit_sendable _ _ _ _ h) 1 1⟩

/-! ## Frames that do not fit -/

def letters (n : Nat) : Bytes := List.replicate n (ch 'a')

theorem letters_nulFree (n : Nat) : NulFree (letters n) := fun b hb => by
  rw [List.eq_of_mem_replicate hb]
  decide

/-- A string of `n` letters. -/
def longAnswer (n : Nat) : Answer :=
  ⟨.ok (.str (letters n)) [], .str (letters_nulFree n), fun _ hm => absurd hm List.not_mem_nil⟩

/-- Every method answers so. -/
def longEnv (n : Nat) : Env Unit Unit where
  methods _ := some fun _ => .ret fun s => (s, longAnswer n)
  kinds := []
  fns _ _ _ := none

def longReq : Req := numReq (lit "alpm_pkg_get_desc") (by decide) 5 (by decide)

def longProg : ClientProg Unit := .call (fun t => (t, longReq)) fun _ => .ret fun t => (t, ⟨0, i64_zero⟩)

theorem longProg_direct (n : Nat) : directClient (longEnv n) 2 longProg ⟨(), ()⟩ =
    some (⟨(), ()⟩, ⟨0, i64_zero⟩, [.invoked longReq (Res.reply (longAnswer n).1)]) := rfl

theorem longFrame_length (id : Int) (n : Nat) :
    n ≤ (frame (replyFrame id (longAnswer n).1)).length ∧
      (frame (replyFrame id (longAnswer n).1)).length ≤ 6 * n + 200 := by
  have hlen : (letters n).length = n := List.length_replicate
  constructor
  · have hesc := length_le_escaped (cstr (letters n))
    rw [cstr_eq (letters_nulFree n), hlen] at hesc
    simp only [frame, longAnswer, replyFrame, resultFrame, ajwTree, ajwMembers, ajwObjEnd, wclose, ajwStr,
      wstrEscaped, wput, cstr_eq (letters_nulFree n), List.length_append, List.length_cons]
    omega
  · have hroom := ajwTree_length {} (replyFrame id (longAnswer n).1)
    have hkeys : (lit "id").length = 2 ∧ (lit "result").length = 6 ∧ retKey.length = 4 := by decide
    simp only [longAnswer, replyFrame, resultFrame, room, membersRoom, hlen, hkeys] at hroom
    simp only [frame, longAnswer, replyFrame, resultFrame]
    simp only [List.length_nil] at hroom
    omega

/-- The client gives the connection up when the answer does not fit a frame. -/
theorem longProg_breaks {n : Nat} (hn : Wire.maxFrame < n) (hmax : n ≤ 2 ^ 29) :
    ∃ c, Reaches (longEnv n) (start longProg ⟨(), ()⟩ 1 1) c ∧ c.client = .broken ∧ c.log = [] ∧
      ¬c.InTurn (longEnv n) := by
  have hreq : Wire.Sendable (frame (requestFrame (toI64 1) longReq.method longReq.params)) :=
    sendable_obj (Nat.le_of_ble_eq_true rfl)
  obtain ⟨hlow, hhigh⟩ := longFrame_length (toI64 1) n
  generalize hf : frame (replyFrame (toI64 1) (longAnswer n).1) = f at hlow hhigh
  have hmod : f.length % 2 ^ 32 = f.length := Nat.mod_eq_of_lt (by omega)
  have hrefused : Wire.delivered f = none := by
    rw [Wire.delivered, hmod]
    exact if_pos (.inr (by omega))
  let c : Config Unit Unit := ⟨.broken, .recv [], [], unread f [], ⟨(), ()⟩, 2, 1, []⟩
  have hlast : clientStep (longEnv n) ⟨.recv [.wait (toI64 1) longReq fun _ => .ret fun t =>
      (t, ⟨0, i64_zero⟩)], .recv [], [], [f], ⟨(), ()⟩, 2, 1, []⟩ = some c := by
    show some (transact (longEnv n) ⟨_, .recv [], [], unread f [], ⟨(), ()⟩, 2, 1, []⟩ _ _ _ _
      (Wire.delivered f)) = _
    rw [hrefused]
    rfl
  refine ⟨c, ?_, rfl, rfl, fun h => ?_⟩
  · refine .head (.inl rfl) (.head (.inr (serverStep_request .base longReq hreq)) ?_)
    refine .head (.inr rfl) (.single (.inl ?_))
    rw [← hlast, ← hf]
    rfl
  · obtain ⟨v, hv⟩ | ⟨hc, -⟩ | ⟨-, hs⟩ := h.2
    · cases hv.1
    · cases hc
    · cases hs

/-- **An answer of more than 64 MiB is out of step**: as a plain call the program ends. -/
theorem long_answer_refused :
    directClient (longEnv (2 ^ 26 + 1)) 2 longProg ⟨(), ()⟩ =
        some (⟨(), ()⟩, ⟨0, i64_zero⟩, [.invoked longReq (Res.reply (longAnswer (2 ^ 26 + 1)).1)]) ∧
      ∃ c, Reaches (longEnv (2 ^ 26 + 1)) (start longProg ⟨(), ()⟩ 1 1) c ∧ c.client = .broken ∧
        c.log = [] ∧ ¬c.InTurn (longEnv (2 ^ 26 + 1)) :=
  ⟨longProg_direct _, longProg_breaks (by decide) (by decide)⟩

end Session
