import Mathlib.Data.List.Induction
import AlpmRpc.Server.Reply

/-!
# Every frame is answered

`arpcHandleFrame_reply`: whatever bytes come in, what goes out is one JSON object with the request's
id and either an error or a result. The builders write the text of `replyFrame` (`replyError_eq`,
`replyRes_fail`, `replyRes_sets`), and that text parses as the tree it is of.
-/

set_option autoImplicit false

namespace Server

open Json

variable {σ : Type}

/-! ## What the handlers may do and what the request says -/

/-- The deepest value a handler can write, under the frame and its result. -/
def valueDepth : Nat := maxDepth - 2

/-- The calls of a handler that set a return value, or none, and then the out-values. -/
def setOps (ret : Option Tree) (outs : List (Bytes × Tree)) : List ResOp :=
  ret.toList.map .ret ++ outs.map fun m => .out m.1 m.2

/-- A handler calls `arpc_fail`, or sets the return at most once and before the out-values. -/
inductive Orderly : List ResOp → Prop where
  | fails {ops : List ResOp} (h : ∃ code msg, .fail code msg ∈ ops)
      (hc : ∀ code msg, .fail code msg ∈ ops → I64 code) : Orderly ops
  | sets {ret : Option Tree} {outs : List (Bytes × Tree)} (hr : ∀ v, ret = some v → Fits valueDepth v)
      (ho : ∀ m ∈ outs, NulFree m.1 ∧ m.1 ≠ retKey ∧ Fits valueDepth m.2) :
      Orderly (setOps ret outs)

def Methods.Orderly (tab : Methods σ) : Prop :=
  ∀ method fn, tab.find method = some fn → ∀ s params, Server.Orderly (fn s params).2

/-- The id of a request: its first member of that name, when it is an integer or a boolean. -/
def requestId : Option Tree → Int
  | some (.obj ms) =>
    match ms.find? fun m => cstr m.1 = lit "id" with
    | some (_, .num v) => v
    | some (_, .bool b) => if b then 1 else 0
    | _ => 0
  | _ => 0

/-- The method of a request, when it is a string. -/
def requestMethod (d : Tree) : Option Bytes := ajStr (ajMember (some d) (lit "method")) none

def requestParams (d : Tree) : Option Tree := ajMember (some d) (lit "params")

/-- The calls the handler `fn` makes for a request. -/
def opsOf (tab : Methods σ) (s : ServerState σ) (fn : Handler σ) (d : Tree) : List ResOp :=
  (fn (tab.follow (requestParams d) s.app) (requestParams d)).2

/-- What each request is answered with. -/
inductive Answered (tab : Methods σ) (s : ServerState σ) : Option Tree → Res → Prop where
  | malformed : Answered tab s none (.fail eParse (lit "malformed JSON"))
  | noMethod {d : Tree} (h : requestMethod d = none) :
      Answered tab s (some d) (.fail eInvalidReq (lit "missing method"))
  | shutdown {d : Tree} (h : requestMethod d = some (lit "arpc.shutdown")) :
      Answered tab s (some d) (.ok (.num 0) [])
  | unknown {d : Tree} {method : Bytes} (h : requestMethod d = some method)
      (hs : method ≠ lit "arpc.shutdown") (hf : tab.find method = none) :
      Answered tab s (some d)
        (.fail eNoMethod (snprintf256 (lit "no such method: " ++ method)))
  | fails {d : Tree} {method : Bytes} {fn : Handler σ} {code : Int} {m : Option Bytes}
      (h : requestMethod d = some method) (hs : method ≠ lit "arpc.shutdown")
      (hf : tab.find method = some fn) (hc : .fail code m ∈ opsOf tab s fn d) :
      Answered tab s (some d) (.fail code (snprintf256 (cstr (m.getD (lit "error")))))
  | sets {d : Tree} {method : Bytes} {fn : Handler σ} {ret : Option Tree}
      {outs : List (Bytes × Tree)} (h : requestMethod d = some method)
      (hs : method ≠ lit "arpc.shutdown") (hf : tab.find method = some fn)
      (ho : opsOf tab s fn d = setOps ret outs) (hn : ∀ m ∈ outs, m.1 ≠ retKey) :
      Answered tab s (some d) (.ok (ret.getD .null) outs)

/-- The readers of `arpc_arg_*`, as far as they look at the argument only; `id` is `arpc_arg_id` and
`arpc_arg_handle`, before the lookup. -/
inductive ArgReader where
  | str
  | i64
  | id

def ArgReader.marksBad (params : Option Tree) (i : Nat) : ArgReader → Bool
  | .str => (arpcArgStr params i).2
  | .i64 => arpcArgI64Bad params i
  | .id => (ajElem params i).isNone

/-- An argument of another type than the reader's; the readers of ids take any. -/
def ArgReader.IllTyped (v : Tree) : ArgReader → Prop
  | .str => v ≠ .null ∧ ∀ s, v ≠ .str s
  | .i64 => (∀ n, v ≠ .num n) ∧ ∀ b, v ≠ .bool b
  | .id => False

/-- The handler reads these arguments, and fails when a reader has marked the request bad. -/
def Checks (fn : Handler σ) (args : List (ArgReader × Nat)) : Prop :=
  ∀ s params, (∃ a ∈ args, a.1.marksBad params a.2 = true) → ∃ code m, .fail code m ∈ (fn s params).2

/-- One of the arguments is missing or ill-typed. -/
def Refused (params : Option Tree) (args : List (ArgReader × Nat)) : Prop :=
  ∃ a ∈ args, ∀ v, ajElem params a.2 = some v → a.1.IllTyped v

theorem ArgReader.marksBad_of_illTyped {params : Option Tree} {i : Nat} {r : ArgReader}
    (h : ∀ v, ajElem params i = some v → r.IllTyped v) : r.marksBad params i = true := by
  cases hv : ajElem params i with
  | none => cases r <;> simp [ArgReader.marksBad, arpcArgStr, arpcArgI64Bad, hv]
  | some v =>
    have hill := h v hv
    cases r with
    | str =>
      obtain ⟨hnull, hstr⟩ := hill
      cases v with
      | null => exact absurd rfl hnull
      | str s => exact absurd rfl (hstr s)
      | _ => simp [ArgReader.marksBad, arpcArgStr, hv, ajIsNull, ajStr]
    | i64 =>
      obtain ⟨hnum, hbool⟩ := hill
      cases v with
      | num n => exact absurd rfl (hnum n)
      | bool b => exact absurd rfl (hbool b)
      | _ => simp [ArgReader.marksBad, arpcArgI64Bad, hv]
    | id => exact hill.elim

/-! ## The builders -/

theorem ajwTree_text {v : Tree} (h : Fits maxDepth v) : (ajwTree {} v).buf = text v := by
  rw [ajwTree_eq h {}]
  rfl

theorem replyError_eq (id code : Int) (msg : Bytes) :
    replyError id code msg = (ajwTree {} (errorFrame id code msg)).buf := by
  simp [replyError, errorFrame, ajwTree, ajwMembers]

theorem replyShutdown_eq (id : Int) :
    replyShutdown id = (ajwTree {} (resultFrame id (.num 0) [])).buf := by
  simp [replyShutdown, resultFrame, ajwTree, ajwMembers]

theorem ajwMembers_append (w : Writer) (ms : List (Bytes × Tree)) (k : Bytes) (v : Tree) :
    ajwMembers w (ms ++ [(k, v)]) = ajwTree (ajwKey (ajwMembers w ms) k) v := by
  induction ms generalizing w with
  | nil => rfl
  | cons m ms ih =>
    obtain ⟨k', v'⟩ := m
    rw [List.cons_append, ajwMembers, ajwMembers, ih]

/-- A result that has the return value `ret` and the out-values `outs` so far. -/
def built (ret : Tree) (outs : List (Bytes × Tree)) : ArpcRes :=
  { out := some (ajwMembers (ajwObjBegin {}) ((retKey, ret) :: outs)), hasRet := true }

theorem arpcRet_empty (v : Tree) : arpcRet {} v = built v [] := rfl

theorem arpcOut_built (ret : Tree) (outs : List (Bytes × Tree)) (name : Bytes) (v : Tree) :
    arpcOut (built ret outs) name v = built ret (outs ++ [(name, v)]) := by
  rw [built, built, ← List.cons_append, ajwMembers_append]
  rfl

theorem arpcOut_empty (name : Bytes) (v : Tree) : arpcOut {} name v = built .null [(name, v)] := rfl

theorem foldl_outs (ret : Tree) (before outs : List (Bytes × Tree)) :
    (outs.map fun m => ResOp.out m.1 m.2).foldl ResOp.apply (built ret before) =
      built ret (before ++ outs) := by
  induction outs generalizing before with
  | nil => rw [List.append_nil]; rfl
  | cons m outs ih =>
    rw [List.map_cons, List.foldl_cons, ResOp.apply, arpcOut_built, ih, List.append_assoc]
    rfl

/-- The result once the end of `arpc_handle_parsed` has seen to the return value. -/
theorem finish_sets (ret : Option Tree) (outs : List (Bytes × Tree)) :
    let rs := ensureObj ((setOps ret outs).foldl ResOp.apply {})
    ((setOps ret outs).foldl ResOp.apply {}).failed = false ∧
      (if rs.hasRet then rs else arpcRet rs .null) = built (ret.getD .null) outs := by
  cases ret with
  | some v =>
    have hf : (setOps (some v) outs).foldl ResOp.apply {} = built v outs := by
      rw [setOps, Option.toList_some, List.map_singleton, List.singleton_append, List.foldl_cons,
        ResOp.apply, arpcRet_empty, foldl_outs]
      rfl
    rw [hf]
    exact ⟨rfl, rfl⟩
  | none =>
    cases outs with
    | nil => exact ⟨rfl, rfl⟩
    | cons m outs =>
      have hf : (setOps none (m :: outs)).foldl ResOp.apply {} = built .null (m :: outs) := by
        rw [setOps, Option.toList_none, List.map_nil, List.nil_append, List.map_cons,
          List.foldl_cons, ResOp.apply, arpcOut_empty, foldl_outs]
        rfl
      rw [hf]
      exact ⟨rfl, rfl⟩

/-- The handler's object is spliced in as if it had been written in place. -/
theorem replyRes_sets {id : Int} {ret : Option Tree} {outs : List (Bytes × Tree)}
    (h : Fits maxDepth (resultFrame id (ret.getD .null) outs)) :
    replyRes id ((setOps ret outs).foldl ResOp.apply {}) =
      text (resultFrame id (ret.getD .null) outs) := by
  obtain ⟨hfailed, hret⟩ := finish_sets ret outs
  have hobj : Fits (maxDepth - 1) (.obj ((retKey, ret.getD .null) :: outs)) := by
    cases h with
    | obj _ h => exact h _ (List.mem_cons_of_mem _ List.mem_cons_self)
  have hout : (ajwObjEnd ((built (ret.getD .null) outs).out.getD {})).buf =
      text (.obj ((retKey, ret.getD .null) :: outs)) := by
    rw [← ajwTree_text (hobj.mono (by decide)), ajwTree]
    rfl
  rw [replyRes, hfailed]
  simp only [Bool.false_eq_true, if_false]
  rw [hret, hout]
  simp [resultFrame, text, membersText, ajwObjBegin, ajwObjEnd, ajwKey, ajwI64, ajwRaw, wopen,
    wclose, wput, wsep_eq, wstrEscaped_eq, sepText]

/-- A result that records the call `arpc_fail(code, m)`. -/
def Records (rs : ArpcRes) (code : Int) (m : Option Bytes) : Prop :=
  rs.failed = true ∧ rs.code = code ∧ rs.msg = snprintf256 (cstr (m.getD (lit "error")))

theorem ensureObj_records {rs : ArpcRes} {code : Int} {m : Option Bytes} (h : Records rs code m) :
    Records (ensureObj rs) code m := by
  unfold ensureObj
  split
  · exact h
  · exact h

/-- Values written after `arpc_fail` do not undo it. -/
theorem apply_records {rs : ArpcRes} {code : Int} {m : Option Bytes} (h : Records rs code m)
    (op : ResOp) (hop : ∀ c m', op ≠ .fail c m') : Records (op.apply rs) code m := by
  cases op with
  | ret v => exact ensureObj_records h
  | out name v =>
    have h1 := ensureObj_records h
    unfold ResOp.apply arpcOut
    dsimp only
    split
    · exact h1
    · exact ensureObj_records h1
  | fail c m' => exact absurd rfl (hop c m')

/-- The last `arpc_fail` of a handler counts. -/
theorem foldl_fails {ops : List ResOp} (h : ∃ code m, .fail code m ∈ ops) :
    ∃ code m, .fail code m ∈ ops ∧ Records (ops.foldl ResOp.apply {}) code m := by
  induction ops using List.reverseRecOn with
  | nil =>
    obtain ⟨_, _, h⟩ := h
    cases h
  | append_singleton ops op ih =>
    rw [List.foldl_append, List.foldl_cons, List.foldl_nil]
    by_cases hop : ∃ c m, op = .fail c m
    · obtain ⟨c, m, rfl⟩ := hop
      exact ⟨c, m, List.mem_append_right _ List.mem_cons_self, rfl, rfl, rfl⟩
    · have hmem : ∃ code m, .fail code m ∈ ops := by
        obtain ⟨c, m, hc⟩ := h
        rcases List.mem_append.1 hc with hc | hc
        · exact ⟨c, m, hc⟩
        · exact absurd ⟨c, m, (List.mem_singleton.1 hc).symm⟩ hop
      obtain ⟨c, m, hc, hrec⟩ := ih hmem
      exact ⟨c, m, List.mem_append_left _ hc,
        apply_records hrec op fun c m he => hop ⟨c, m, he⟩⟩

/-! ## The request's id -/

theorem requestId_eq (d : Option Tree) : ajI64 (ajMember d (lit "id")) 0 = requestId d := by
  unfold requestId
  split
  · rename_i ms
    rw [ajMember]
    split
    · rename_i h; rw [h]; rfl
    · rename_i h; rw [h]; rfl
    · rename_i h1 h2
      cases hf : ms.find? fun m => cstr m.1 = lit "id" with
      | none => rfl
      | some m =>
        obtain ⟨k, v⟩ := m
        cases v with
        | num v => exact absurd hf (h1 k v)
        | bool b => exact absurd hf (h2 k b)
        | null => rfl
        | str s => rfl
        | arr es => rfl
        | obj ms => rfl
  · rename_i h
    cases d with
    | none => rfl
    | some t =>
      cases t with
      | obj ms => exact absurd rfl (h ms)
      | null => rfl
      | bool b => rfl
      | num v => rfl
      | str s => rfl
      | arr es => rfl

theorem requestId_range (s : Bytes) : I64 (requestId (ajParse s)) := by
  unfold requestId
  split
  · rename_i ms h
    split
    · rename_i k v hf
      exact member_range h (List.mem_of_find?_eq_some hf)
    · rename_i b _
      cases b <;> decide
    · decide
  · decide

/-! ## Every frame is answered -/

theorem snprintf256_nulFree {s : Bytes} (h : NulFree s) : NulFree (snprintf256 s) :=
  fun c hc => h c (List.mem_of_mem_take hc)

theorem requestMethod_nulFree {d : Tree} {method : Bytes} (h : requestMethod d = some method) :
    NulFree method := by
  unfold requestMethod ajStr at h
  split at h
  · cases h
    exact cstr_nulFree _
  · cases h

/-- A reply whose bytes are the text of the frame is read as the frame. -/
theorem ajParse_reply {id : Int} {res : Res} {reply : Bytes}
    (h : reply = (ajwTree {} (replyFrame id res)).buf) (hf : Fits maxDepth (replyFrame id res)) :
    ajParse reply = some (replyFrame id res) := by
  rw [h]
  exact ajParse_ajwTree hf

theorem ajParse_replyError {id code : Int} {msg : Bytes} (hid : I64 id) (hc : I64 code)
    (hm : NulFree msg) : ajParse (replyError id code msg) = some (replyFrame id (.fail code msg)) :=
  ajParse_reply (replyError_eq id code msg) ((fits_error hid hc hm).mono (by decide))

theorem fits_sets {id : Int} (hid : I64 id) {ret : Option Tree} {outs : List (Bytes × Tree)}
    (hr : ∀ v, ret = some v → Fits valueDepth v)
    (ho : ∀ m ∈ outs, NulFree m.1 ∧ m.1 ≠ retKey ∧ Fits valueDepth m.2) :
    Fits maxDepth (resultFrame id (ret.getD .null) outs) := by
  refine fits_result hid ?_ (fun m hm => (ho m hm).1) fun m hm => (ho m hm).2.2
  cases ret with
  | none => exact .null
  | some v => exact hr v rfl

/-- The reply to a request with a known method. -/
theorem replyRes_answered {tab : Methods σ} {s : ServerState σ} {d : Tree} {method : Bytes}
    {fn : Handler σ} {id : Int} (hid : I64 id) (h : requestMethod d = some method)
    (hs : method ≠ lit "arpc.shutdown") (hf : tab.find method = some fn)
    (hops : Orderly (opsOf tab s fn d)) :
    ∃ res, ajParse (replyRes id ((opsOf tab s fn d).foldl ResOp.apply {})) =
        some (replyFrame id res) ∧ Answered tab s (some d) res := by
  generalize he : opsOf tab s fn d = ops at hops
  cases hops with
  | fails hfail hc =>
    obtain ⟨code, m, hmem, hrec⟩ := foldl_fails hfail
    refine ⟨_, ?_, .fails h hs hf (by rw [he]; exact hmem)⟩
    rw [replyRes, if_pos hrec.1, hrec.2.1, hrec.2.2]
    exact ajParse_replyError hid (hc code m hmem) (snprintf256_nulFree (cstr_nulFree _))
  | @sets ret outs hr ho =>
    have hfit := fits_sets hid hr ho
    refine ⟨_, ?_, .sets h hs hf he fun m hm => (ho m hm).2.1⟩
    rw [replyRes_sets hfit, ← ajwTree_text hfit]
    exact ajParse_ajwTree hfit

theorem answered_fails {tab : Methods σ} {s : ServerState σ} {d : Tree} {method : Bytes}
    {fn : Handler σ} {res : Res} (h : Answered tab s (some d) res) (hm : requestMethod d = some method)
    (hs : method ≠ lit "arpc.shutdown") (hf : tab.find method = some fn)
    (hfail : ∃ code m, .fail code m ∈ opsOf tab s fn d) : ∃ code msg, res = .fail code msg := by
  cases h with
  | noMethod hm' =>
    rw [hm] at hm'
    cases hm'
  | shutdown hm' =>
    rw [hm] at hm'
    exact absurd (Option.some.inj hm') hs
  | unknown hm' hs' hf' => exact ⟨_, _, rfl⟩
  | fails hm' hs' hf' hc => exact ⟨_, _, rfl⟩
  | sets hm' hs' hf' ho hn =>
    obtain rfl := Option.some.inj (hm.symm.trans hm')
    obtain rfl := Option.some.inj (hf.symm.trans hf')
    obtain ⟨code, m, hmem⟩ := hfail
    rw [ho, setOps] at hmem
    simp at hmem

/-- The reply, before the arguments are looked at. -/
theorem arpcHandleFrame_answered (tab : Methods σ) (htab : tab.Orderly) (s : ServerState σ)
    (req : Bytes) :
    ∃ res, ajParse (arpcHandleFrame tab s req).2 =
        some (replyFrame (requestId (ajParse req)) res) ∧ Answered tab s (ajParse req) res := by
  have hid := requestId_range req
  unfold arpcHandleFrame
  cases hp : ajParse req with
  | none => exact ⟨_, ajParse_replyError (by decide) (by decide) (by decide), .malformed⟩
  | some d =>
    rw [hp] at hid
    unfold arpcHandleParsed
    dsimp only
    rw [requestId_eq]
    cases hm : ajStr (ajMember (some d) (lit "method")) none with
    | none => exact ⟨_, ajParse_replyError hid (by decide) (by decide), .noMethod hm⟩
    | some method =>
      dsimp only
      split
      · rename_i hs
        subst hs
        refine ⟨_, ajParse_reply (replyShutdown_eq _) ?_, .shutdown hm⟩
        exact (fits_result (d := 0) hid (.num (by decide)) (by simp) (by simp)).mono (by decide)
      · rename_i hs
        cases hf : tab.find method with
        | none =>
          refine ⟨_, ajParse_replyError hid (by decide) (snprintf256_nulFree fun c hc => ?_),
            .unknown hm hs hf⟩
          rcases List.mem_append.1 hc with hc | hc
          · exact (by decide : NulFree (lit "no such method: ")) c hc
          · exact requestMethod_nulFree hm c hc
        | some fn => exact replyRes_answered hid hm hs hf (htab method fn hf _ _)

/-- **Every frame gets one well-formed reply with its id**: an error with a code and a message, or a
result with one return value and the handler's out-values; an error where the method is known and its
handler checks an argument that is missing or ill-typed. -/
theorem arpcHandleFrame_reply (tab : Methods σ) (htab : tab.Orderly) (s : ServerState σ)
    (req : Bytes) :
    ∃ res, ajParse (arpcHandleFrame tab s req).2 =
        some (replyFrame (requestId (ajParse req)) res) ∧ Answered tab s (ajParse req) res ∧
      ∀ d method fn args, ajParse req = some d → requestMethod d = some method →
        method ≠ lit "arpc.shutdown" → tab.find method = some fn → Checks fn args →
        Refused (requestParams d) args → ∃ code msg, res = .fail code msg := by
  obtain ⟨res, hres, hans⟩ := arpcHandleFrame_answered tab htab s req
  refine ⟨res, hres, hans, fun d method fn args hd hm hs hf hc hr => ?_⟩
  obtain ⟨a, ha, hill⟩ := hr
  rw [hd] at hans
  exact answered_fails hans hm hs hf (hc _ _ ⟨a, ha, a.1.marksBad_of_illTyped hill⟩)

/-- One method that returns `1` and an out-value. -/
def oneMethod : Methods Unit where
  builtins := [(lit "m", fun s _ => (s, [.ret (.num 1), .out (lit "n") .null]))]
  generated := fun _ => none
  follow := fun _ s => s

theorem oneMethod_orderly : oneMethod.Orderly := by
  intro method fn h s params
  have hfn : fn = fun s _ => (s, [.ret (.num 1), .out (lit "n") .null]) := by
    simp only [Methods.find, oneMethod, List.find?_cons, List.find?_nil] at h
    split at h
    · rename_i hk
      split at hk
      · cases hk
        cases h
        rfl
      · cases hk
    · cases h
  rw [hfn]
  change Server.Orderly (setOps (some (.num 1)) [(lit "n", .null)])
  refine .sets (fun v hv => ?_) fun m hm => ?_
  · cases hv
    exact .num (by decide)
  · rw [List.mem_singleton.1 hm]
    exact ⟨by decide, by decide, .null⟩

/-- A request for it. -/
def oneRequest : Bytes := (ajwTree {} (requestFrame 7 (lit "m") [])).buf

theorem arpcHandleFrame_reply_oneMethod :
    ∃ res, ajParse (arpcHandleFrame oneMethod ⟨(), false⟩ oneRequest).2 =
        some (replyFrame (requestId (ajParse oneRequest)) res) ∧
      Answered oneMethod ⟨(), false⟩ (ajParse oneRequest) res ∧
      ∀ d method fn args, ajParse oneRequest = some d → requestMethod d = some method →
        method ≠ lit "arpc.shutdown" → oneMethod.find method = some fn → Checks fn args →
        Refused (requestParams d) args → ∃ code msg, res = .fail code msg :=
  arpcHandleFrame_reply oneMethod oneMethod_orderly _ _

/-- The first member `id` of a request that is an integer or a boolean. -/
def firstIntegerId : Option Tree → Int
  | some (.obj ms) =>
    ((ms.filter fun m => cstr m.1 = lit "id").findSome? fun m =>
      match m.2 with
      | .num v => some v
      | .bool b => some (if b then 1 else 0)
      | _ => none).getD 0
  | _ => 0

/-- `{"id":"x","id":5}` -/
def twoIds : Tree := .obj [(lit "id", .str (lit "x")), (lit "id", .num 5)]

theorem twoIds_fits : Fits maxDepth twoIds := by
  refine .obj (by decide) fun m hm => ?_
  simp only [List.mem_cons, List.not_mem_nil, or_false] at hm
  rcases hm with rfl | rfl
  · exact .str (by decide)
  · exact .num (by decide)

/-- Only the first `id` is looked at, and one that is a string counts as none. -/
theorem second_id_ignored :
    oneMethod.Orderly ∧ firstIntegerId (ajParse (ajwTree {} twoIds).buf) = 5 ∧
    ¬∃ body, ajParse (arpcHandleFrame oneMethod ⟨(), false⟩ (ajwTree {} twoIds).buf).2 =
      some (.obj [(lit "id", .num (firstIntegerId (ajParse (ajwTree {} twoIds).buf))), body]) := by
  have hp : ajParse (ajwTree {} twoIds).buf = some twoIds := ajParse_ajwTree twoIds_fits
  have hfive : firstIntegerId (some twoIds) = 5 := by decide
  refine ⟨oneMethod_orderly, by rw [hp, hfive], fun ⟨body, hbody⟩ => ?_⟩
  have hreply : (arpcHandleFrame oneMethod ⟨(), false⟩ (ajwTree {} twoIds).buf).2 =
      replyError 0 eInvalidReq (lit "missing method") := by
    rw [arpcHandleFrame, hp]
    rfl
  rw [hreply, ajParse_replyError (by decide) (by decide) (by decide), hp, hfive] at hbody
  cases hbody

/-- The reply to a request for a known method whose handler fails nowhere. -/
theorem ajParse_sets {tab : Methods σ} {s : ServerState σ} {d : Tree} (method : Bytes) {fn : Handler σ}
    (ret : Option Tree) (outs : List (Bytes × Tree)) (hd : Fits maxDepth d)
    (hm : requestMethod d = some method) (hs : method ≠ lit "arpc.shutdown")
    (hf : tab.find method = some fn) (hops : opsOf tab s fn d = setOps ret outs)
    (hfit : Fits maxDepth (resultFrame (requestId (some d)) (ret.getD .null) outs)) :
    ajParse (arpcHandleFrame tab s (ajwTree {} d).buf).2 =
      some (resultFrame (requestId (some d)) (ret.getD .null) outs) := by
  have hreply : (arpcHandleFrame tab s (ajwTree {} d).buf).2 =
      replyRes (requestId (some d)) ((opsOf tab s fn d).foldl ResOp.apply {}) := by
    rw [arpcHandleFrame, ajParse_ajwTree hd]
    unfold arpcHandleParsed
    dsimp only
    rw [show ajStr (ajMember (some d) (lit "method")) none = some method from hm, requestId_eq]
    dsimp only
    rw [if_neg hs, hf]
    rfl
  rw [hreply, hops, replyRes_sets hfit, ← ajwTree_text hfit]
  exact ajParse_ajwTree hfit

/-- A function with one handle argument, which answers `1`. -/
def oneHandle : Handler Table := fun t params =>
  match (arpcArgHandle params 0 .handle).run t with
  | some (t, _, false) => (t, [.ret (.num 1)])
  | _ => (t, [.fail invalidParams (some (lit "m: bad arguments"))])

def oneHandleMethod : Methods Table where
  builtins := [(lit "m", oneHandle)]
  generated := fun _ => none
  follow := fun _ t => t

theorem oneHandle_cases (t : Table) (params : Option Tree) :
    (oneHandle t params).2 = setOps (some (.num 1)) [] ∨
      (oneHandle t params).2 = [.fail invalidParams (some (lit "m: bad arguments"))] := by
  unfold oneHandle
  split
  · exact .inl rfl
  · exact .inr rfl

theorem oneHandle_orderly : oneHandleMethod.Orderly := by
  intro method fn h t params
  have hfn : fn = oneHandle := by
    simp only [Methods.find, oneHandleMethod, List.find?_cons, List.find?_nil] at h
    split at h
    · rename_i hk
      split at hk
      · cases hk
        cases h
        rfl
      · cases hk
    · cases h
  rw [hfn]
  rcases oneHandle_cases t params with hops | hops
  · rw [hops]
    refine .sets (fun v hv => ?_) fun m hm => absurd hm List.not_mem_nil
    cases hv
    exact .num (by decide)
  · rw [hops]
    refine .fails ⟨_, _, List.mem_cons_self⟩ fun code m hm => ?_
    cases List.mem_singleton.1 hm
    decide

theorem oneHandle_checks : Checks oneHandle [(.id, 0)] := by
  intro t params h
  obtain ⟨a, ha, hbad⟩ := h
  have hnone : (ajElem params 0).isNone = true := by
    rw [List.mem_singleton.1 ha] at hbad
    exact hbad
  have hrun : (arpcArgHandle params 0 .handle).run t = some (t, 0, true) := by
    rw [arpcArgHandle, if_pos hnone]
    rfl
  refine ⟨invalidParams, some (lit "m: bad arguments"), ?_⟩
  rw [oneHandle, hrun]
  exact List.mem_cons_self

/-- `{"id":7,"method":"m","params":["abc"]}` -/
def stringParam : Tree := requestFrame 7 (lit "m") [.str (lit "abc")]

theorem stringParam_fits : Fits maxDepth stringParam :=
  fits_request (by decide) (by decide) fun p hp => by
    rw [List.mem_singleton.1 hp]
    exact .str (by decide)

/-- A string where an id belongs is read as `NULL`, and the call succeeds. -/
theorem string_is_null :
    oneHandleMethod.Orderly ∧ Checks oneHandle [(.id, 0)] ∧
      ajParse (arpcHandleFrame oneHandleMethod ⟨{}, false⟩ (ajwTree {} stringParam).buf).2 =
        some (resultFrame 7 (.num 1) []) :=
  ⟨oneHandle_orderly, oneHandle_checks, ajParse_sets (lit "m") (some (.num 1)) [] stringParam_fits
    (by decide) (by decide) rfl rfl
    ((fits_result (d := 0) (by decide) (.num (by decide)) (by simp) (by simp)).mono (by decide))⟩

/-- A method that sets the return and then an out-value `@ret`. -/
def retOut : Methods Unit where
  builtins := [(lit "m", fun s _ => (s, setOps (some (.num 1)) [(retKey, .null)]))]
  generated := fun _ => none
  follow := fun _ s => s

/-- An out-value `@ret` is a second member of that name. -/
theorem two_returns :
    ajParse (arpcHandleFrame retOut ⟨(), false⟩ oneRequest).2 =
      some (.obj [(lit "id", .num 7), (lit "result", .obj [(retKey, .num 1), (retKey, .null)])]) := by
  refine @ajParse_sets _ retOut ⟨(), false⟩ (requestFrame 7 (lit "m") []) (lit "m") _ (some (.num 1))
    [(retKey, .null)] (fits_request (by decide) (by decide) (by simp)) (by decide) (by decide) rfl rfl ?_
  refine (fits_result (d := 0) (by decide) (.num (by decide)) (fun m hm => ?_) fun m hm => ?_).mono
    (by decide)
  · rw [List.mem_singleton.1 hm]
    exact (by decide : NulFree retKey)
  · rw [List.mem_singleton.1 hm]
    exact .null

/-- **Where a reply is not what a request may expect**: a second `id`, a string where an id belongs, an
out-value with the return's name. -/
theorem reply_exceptions :
    (oneMethod.Orderly ∧ firstIntegerId (ajParse (ajwTree {} twoIds).buf) = 5 ∧
      ¬∃ body, ajParse (arpcHandleFrame oneMethod ⟨(), false⟩ (ajwTree {} twoIds).buf).2 =
        some (.obj [(lit "id", .num (firstIntegerId (ajParse (ajwTree {} twoIds).buf))), body])) ∧
      (oneHandleMethod.Orderly ∧ Checks oneHandle [(.id, 0)] ∧
        ajParse (arpcHandleFrame oneHandleMethod ⟨{}, false⟩ (ajwTree {} stringParam).buf).2 =
          some (resultFrame 7 (.num 1) [])) ∧
      ajParse (arpcHandleFrame retOut ⟨(), false⟩ oneRequest).2 =
        some (.obj [(lit "id", .num 7), (lit "result", .obj [(retKey, .num 1), (retKey, .null)])]) :=
  ⟨second_id_ignored, string_is_null, two_returns⟩

end Server
