import AlpmRpc.Common.Proof.RoundTrip

/-!
# Requests and replies

The frames of a call as trees. `arpc_begin` and `arpc_invoke` write a request; `arpc_handle_parsed`
and `reply_error` write a reply, whose result is an object with the return value under
`ARPC_RET_KEY` first and the out-values after it. `sent` is a frame written, and parsed where it
arrives.
-/

set_option autoImplicit false

namespace Json

/-- `ARPC_RET_KEY` -/
def retKey : Bytes := lit "@ret"

def requestFrame (id : Int) (method : Bytes) (params : List Tree) : Tree :=
  .obj [(lit "id", .num id), (lit "method", .str method), (lit "params", .arr params)]

def resultFrame (id : Int) (ret : Tree) (outs : List (Bytes × Tree)) : Tree :=
  .obj [(lit "id", .num id), (lit "result", .obj ((retKey, ret) :: outs))]

def errorFrame (id code : Int) (message : Bytes) : Tree :=
  .obj [(lit "id", .num id),
    (lit "error", .obj [(lit "code", .num code), (lit "message", .str message)])]

/-- A frame as the other side parses it. -/
def sent (frame : Tree) : Option Tree := ajParse (ajwTree {} frame).buf

/-- `arpc_ret_node` -/
def retNode (rsp : Option Tree) : Option Tree := ajMember (ajMember rsp (lit "result")) retKey

/-- `arpc_out_node` -/
def outNode (rsp : Option Tree) (name : Bytes) : Option Tree :=
  ajMember (ajMember rsp (lit "result")) name

/-- `arpc_arg_node` -/
def argNode (req : Option Tree) (i : Nat) : Option Tree := ajElem (ajMember req (lit "params")) i

theorem Fits.mono {d e : Nat} {v : Tree} (h : Fits d v) (hde : d ≤ e) : Fits e v := by
  induction h generalizing e with
  | null => exact .null
  | num h => exact .num h
  | str h => exact .str h
  | arr h ih =>
    obtain ⟨e, rfl⟩ : ∃ e', e = e' + 1 := ⟨e - 1, by omega⟩
    exact .arr fun v hv => ih v hv (by omega)
  | obj hk h ih =>
    obtain ⟨e, rfl⟩ : ∃ e', e = e' + 1 := ⟨e - 1, by omega⟩
    exact .obj hk fun m hm => ih m hm (by omega)

theorem sent_eq {v : Tree} {d : Nat} (h : Fits d v) (hd : d ≤ maxDepth) : sent v = some v :=
  ajParse_ajwTree (h.mono hd)

theorem fits_request {d : Nat} {id : Int} {method : Bytes} {params : List Tree} (hid : I64 id)
    (hm : NulFree method) (hp : ∀ p ∈ params, Fits d p) :
    Fits (d + 2) (requestFrame id method params) := by
  refine .obj (fun m hm' => ?_) fun m hm' => ?_ <;>
    simp only [List.mem_cons, List.not_mem_nil, or_false] at hm' <;> rcases hm' with rfl | rfl | rfl
  · exact (by decide : NulFree (lit "id"))
  · exact (by decide : NulFree (lit "method"))
  · exact (by decide : NulFree (lit "params"))
  · exact .num hid
  · exact .str hm
  · exact .arr hp

theorem fits_result {d : Nat} {id : Int} {ret : Tree} {outs : List (Bytes × Tree)} (hid : I64 id)
    (hr : Fits d ret) (hk : ∀ m ∈ outs, NulFree m.1) (ho : ∀ m ∈ outs, Fits d m.2) :
    Fits (d + 2) (resultFrame id ret outs) := by
  refine .obj (fun m hm => ?_) fun m hm => ?_ <;>
    simp only [List.mem_cons, List.not_mem_nil, or_false] at hm <;> rcases hm with rfl | rfl
  · exact (by decide : NulFree (lit "id"))
  · exact (by decide : NulFree (lit "result"))
  · exact .num hid
  · refine .obj (fun m hm => ?_) fun m hm => ?_
    · rcases List.mem_cons.1 hm with rfl | hm
      · exact (by decide : NulFree retKey)
      · exact hk m hm
    · rcases List.mem_cons.1 hm with rfl | hm
      · exact hr
      · exact ho m hm

theorem fits_error {id code : Int} {msg : Bytes} (hid : I64 id) (hc : I64 code)
    (hm : NulFree msg) : Fits 2 (errorFrame id code msg) := by
  refine .obj (fun m hm => ?_) fun m hm' => ?_
  · simp only [List.mem_cons, List.not_mem_nil, or_false] at hm
    rcases hm with rfl | rfl
    · exact (by decide : NulFree (lit "id"))
    · exact (by decide : NulFree (lit "error"))
  · simp only [List.mem_cons, List.not_mem_nil, or_false] at hm'
    rcases hm' with rfl | rfl
    · exact .num hid
    · refine .obj (fun m hm => ?_) fun m hm' => ?_
      · simp only [List.mem_cons, List.not_mem_nil, or_false] at hm
        rcases hm with rfl | rfl
        · exact (by decide : NulFree (lit "code"))
        · exact (by decide : NulFree (lit "message"))
      · simp only [List.mem_cons, List.not_mem_nil, or_false] at hm'
        rcases hm' with rfl | rfl
        · exact .num hc
        · exact .str hm

theorem argNode_request (id : Int) (method : Bytes) (params : List Tree) (i : Nat) :
    argNode (some (requestFrame id method params)) i = params[i]? := by
  rfl

theorem retNode_result (id : Int) (ret : Tree) (outs : List (Bytes × Tree)) :
    retNode (some (resultFrame id ret outs)) = some ret := by
  rfl

/-- The first member of a name is the one found. -/
theorem ajMember_first {before after : List (Bytes × Tree)} {name : Bytes} {v : Tree}
    (hn : NulFree name) (hb : ∀ m ∈ before, cstr m.1 ≠ name) :
    ajMember (some (.obj (before ++ (name, v) :: after))) name = some v := by
  rw [ajMember, List.find?_append, List.find?_eq_none.2 fun m hm => by simpa using hb m hm]
  simp [cstr_eq hn]

end Json
