import AlpmRpc.Client.Call
import AlpmRpc.Common.Proof.Base64
import AlpmRpc.Server.Proof.Reply

/-!
# Bytes across the pipe

`arpc_put_bytes`, `arpc_arg_bytes`, `arpc_ret_bytes` and `arpc_out_bytes` of both sides: a buffer travels
as the base64 text of its bytes, and a `NULL` buffer as `null`. A buffer is known by its bytes, which
say how long it is; `none` is `NULL`.
-/

set_option autoImplicit false

open Json

namespace Client

/-- `arpc_put_bytes` -/
def putBytes (w : Writer) : Option Bytes → Writer
  | none => ajwNull w
  | some b => ajwStr w (some (b64Encode b))

/-- The frame of a call: `arpc_begin`, what the stub puts, and the end of the parameters in
`arpc_invoke`. -/
def requestWith (id : Int) (method : Bytes) (puts : Writer → Writer) : Bytes :=
  let w := ajwObjBegin {}
  let w := ajwI64 (ajwKey w (lit "id")) id
  let w := ajwStr (ajwKey w (lit "method")) (some method)
  let w := ajwArrBegin (ajwKey w (lit "params"))
  (ajwObjEnd (ajwArrEnd (puts w))).buf

/-- `arpc_out_bytes` of the client: the buffer and its length; `arpc_ret_bytes` for `ARPC_RET_KEY`. -/
def arpcOutBytes (result : Option Tree) (name : Bytes) : Option Bytes × Nat :=
  match ajStr (ajMember result name) none with
  | none => (none, 0)
  | some s => b64Decode (some s)

def arpcRetBytes (result : Option Tree) : Option Bytes × Nat := arpcOutBytes result retKey

end Client

namespace Server

/-- `arpc_arg_bytes`: the buffer and its length, and whether the request is bad. -/
def arpcArgBytes (params : Option Tree) (i : Nat) : (Option Bytes × Nat) × Bool :=
  match arpcArgStr params i with
  | (none, bad) => ((none, 0), bad)
  | (some s, bad) => (b64Decode (some s), bad || (b64Decode (some s)).1.isNone)

/-- `arpc_ret_bytes` of the server. -/
def arpcRetBytes (rs : ArpcRes) (b : Option Bytes) : ArpcRes :=
  (setRet rs).write (ajwStr · (b.map b64Encode))

/-- `arpc_out_bytes` of the server. -/
def arpcOutBytes (rs : ArpcRes) (name : Bytes) (b : Option Bytes) : ArpcRes :=
  let rs := ensureObj rs
  let rs := if rs.hasRet then rs else arpcRet rs .null
  (rs.write (ajwKey · name)).write (ajwStr · (b.map b64Encode))

end Server

namespace Session

open Client Server

/-- What a buffer is on the wire. -/
def bytesTree : Option Bytes → Tree
  | none => .null
  | some b => .str (b64Encode b)

/-- A buffer and its length, as a reader returns them. -/
def arrived : Option Bytes → Option Bytes × Nat
  | none => (none, 0)
  | some b => (some b, b.length)

theorem putBytes_eq (w : Writer) (b : Option Bytes) : putBytes w b = ajwTree w (bytesTree b) := by
  cases b <;> rfl

theorem ajwStr_bytes (w : Writer) (b : Option Bytes) :
    ajwStr w (b.map b64Encode) = ajwTree w (bytesTree b) := by
  cases b <;> rfl

theorem arpcRetBytes_eq (rs : ArpcRes) (b : Option Bytes) :
    Server.arpcRetBytes rs b = ResOp.apply rs (.ret (bytesTree b)) := by
  simp only [Server.arpcRetBytes, ajwStr_bytes, ResOp.apply, arpcRet]

theorem arpcOutBytes_eq (rs : ArpcRes) (name : Bytes) (b : Option Bytes) :
    Server.arpcOutBytes rs name b = ResOp.apply rs (.out name (bytesTree b)) := by
  simp only [Server.arpcOutBytes, ajwStr_bytes, ResOp.apply, arpcOut]

theorem fits_bytes (d : Nat) (b : Option Bytes) : Fits d (bytesTree b) := by
  cases b with
  | none => exact .null
  | some b => exact .str (b64Encode_nulFree b)

/-- The text of a buffer is read back as its bytes. -/
theorem ajStr_bytes (b : Option Bytes) :
    ajStr (some (bytesTree b)) none = b.map b64Encode := by
  cases b with
  | none => rfl
  | some b =>
    rw [bytesTree, ajStr, cstr_eq (b64Encode_nulFree b)]
    rfl

/-! ## From the client to the server -/

theorem requestWith_eq (id : Int) (method : Bytes) (before after : List Tree) (b : Option Bytes) :
    requestWith id method (fun w => ajwElems (putBytes (ajwElems w before) b) after) =
      (ajwTree {} (requestFrame id method (before ++ bytesTree b :: after))).buf := by
  have helems : ∀ (w : Writer), ajwElems (putBytes (ajwElems w before) b) after =
      ajwElems w (before ++ bytesTree b :: after) := by
    intro w
    induction before generalizing w with
    | nil => rw [ajwElems, List.nil_append, ajwElems, putBytes_eq]
    | cons v vs ih => rw [ajwElems, ih, List.cons_append, ajwElems]
  simp only [requestWith, helems, requestFrame, ajwTree, ajwMembers]

/-- The other arguments of a stub: numbers of 64 bits, C strings, and lists of them. -/
def Puttable (params : List Tree) : Prop := ∀ p ∈ params, Fits (maxDepth - 2) p

theorem arpcArgBytes_arrived {params : Option Tree} {i : Nat} {b : Option Bytes}
    (h : ajElem params i = some (bytesTree b)) : arpcArgBytes params i = (arrived b, false) := by
  have hstr : arpcArgStr params i = (b.map b64Encode, false) := by
    rw [arpcArgStr, h]
    dsimp only
    rw [ajStr_bytes]
    cases b <;> rfl
  rw [arpcArgBytes, hstr]
  cases b with
  | none => rfl
  | some b => simp [b64Decode_encode, arrived]

/-- What the server takes of a buffer that was put between other arguments. -/
def argTaken (id : Int) (method : Bytes) (before after : List Tree) (b : Option Bytes) :
    (Option Bytes × Nat) × Bool :=
  let req := requestWith id method fun w => ajwElems (putBytes (ajwElems w before) b) after
  arpcArgBytes (ajMember (ajParse req) (lit "params")) before.length

theorem arg_bytes_cross {id : Int} (hid : I64 id) {method : Bytes} (hm : NulFree method)
    {before after : List Tree} (hb : Puttable before) (ha : Puttable after) (b : Option Bytes) :
    argTaken id method before after b = (arrived b, false) := by
  have hfits : ∀ p ∈ before ++ bytesTree b :: after, Fits (maxDepth - 2) p := by
    intro p hp
    rcases List.mem_append.1 hp with hp | hp
    · exact hb p hp
    · rcases List.mem_cons.1 hp with rfl | hp
      · exact fits_bytes _ b
      · exact ha p hp
  have hparse := sent_eq (fits_request hid hm hfits) (Nat.le_refl _)
  rw [sent] at hparse
  rw [argTaken, requestWith_eq, hparse]
  refine arpcArgBytes_arrived ?_
  have helem : ajElem (ajMember (some (requestFrame id method (before ++ bytesTree b :: after)))
      (lit "params")) before.length = (before ++ bytesTree b :: after)[before.length]? := rfl
  rw [helem, List.getElem?_append_right (Nat.le_refl _), Nat.sub_self]
  rfl

/-! ## From the server to the client -/

theorem arpcOutBytes_arrived {result : Option Tree} {name : Bytes} {b : Option Bytes}
    (h : ajMember result name = some (bytesTree b)) :
    Client.arpcOutBytes result name = arrived b := by
  rw [Client.arpcOutBytes, h, ajStr_bytes]
  cases b with
  | none => rfl
  | some b => simp only [Option.map_some, b64Decode_encode, arrived]

/-- The calls that write out-values. -/
def writeOuts (rs : ArpcRes) (outs : List (Bytes × Tree)) : ArpcRes :=
  (outs.map fun m => ResOp.out m.1 m.2).foldl ResOp.apply rs

/-- What the client has of the reply to its request `id`. -/
def resultOf (id : Int) (rs : ArpcRes) : Option Tree := arpcInvoke id (ajParse (replyRes id rs))

/-- Out-values that fit a reply, none of them under the key of the return value. -/
def Outs (outs : List (Bytes × Tree)) : Prop :=
  ∀ m ∈ outs, NulFree m.1 ∧ m.1 ≠ retKey ∧ Fits valueDepth m.2

/-- What the client has of a reply without a failure. -/
theorem resultOf_sets {id : Int} (hid : I64 id) {ret : Option Tree} {outs : List (Bytes × Tree)}
    (hr : ∀ v, ret = some v → Fits valueDepth v) (ho : Outs outs) :
    resultOf id ((setOps ret outs).foldl ResOp.apply {}) =
      some (.obj ((retKey, ret.getD .null) :: outs)) := by
  have hfits := fits_sets hid hr ho
  rw [resultOf, replyRes_sets hfits, ← ajwTree_text hfits, ajParse_ajwTree hfits]
  exact arpcInvoke_reply id (.ok (ret.getD .null) outs)

/-- What the client takes of a buffer returned before the out-values. -/
def retTaken (id : Int) (outs : List (Bytes × Tree)) (b : Option Bytes) : Option Bytes × Nat :=
  Client.arpcRetBytes (resultOf id (writeOuts (Server.arpcRetBytes {} b) outs))

theorem ret_bytes_cross {id : Int} (hid : I64 id) {outs : List (Bytes × Tree)} (ho : Outs outs)
    (b : Option Bytes) : retTaken id outs b = arrived b := by
  have hops : writeOuts (Server.arpcRetBytes {} b) outs =
      (setOps (some (bytesTree b)) outs).foldl ResOp.apply {} := by
    rw [writeOuts, arpcRetBytes_eq, setOps, Option.toList_some, List.map_singleton,
      List.singleton_append, List.foldl_cons]
  rw [retTaken, hops, resultOf_sets hid (fun v hv => by cases hv; exact fits_bytes _ b) ho]
  exact arpcOutBytes_arrived rfl

/-- What the client takes of a buffer between other out-values, after the return value or without
one. -/
def outTaken (id : Int) (ret : Option Tree) (before after : List (Bytes × Tree)) (name : Bytes)
    (b : Option Bytes) : Option Bytes × Nat :=
  let rs := writeOuts (ret.elim {} (arpcRet {})) before
  Client.arpcOutBytes (resultOf id (writeOuts (Server.arpcOutBytes rs name b) after)) name

theorem out_bytes_cross {id : Int} (hid : I64 id) {ret : Option Tree}
    (hr : ∀ v, ret = some v → Fits valueDepth v) {before after : List (Bytes × Tree)}
    (hb : Outs before) (ha : Outs after) {name : Bytes} (hn : NulFree name) (hk : name ≠ retKey)
    (hfirst : ∀ m ∈ before, m.1 ≠ name) (b : Option Bytes) :
    outTaken id ret before after name b = arrived b := by
  have hops : writeOuts (Server.arpcOutBytes (writeOuts (ret.elim {} (arpcRet {})) before) name b)
      after = (setOps ret (before ++ (name, bytesTree b) :: after)).foldl ResOp.apply {} := by
    have hret : ret.elim {} (arpcRet {}) = (ret.toList.map ResOp.ret).foldl ResOp.apply {} := by
      cases ret <;> rfl
    rw [hret, setOps, writeOuts, writeOuts, arpcOutBytes_eq, List.map_append, List.map_cons,
      List.foldl_append, List.foldl_append, List.foldl_cons]
  have houts : Outs (before ++ (name, bytesTree b) :: after) := by
    intro m hm
    rcases List.mem_append.1 hm with hm | hm
    · exact hb m hm
    · rcases List.mem_cons.1 hm with rfl | hm
      · exact ⟨hn, hk, fits_bytes _ b⟩
      · exact ha m hm
  rw [outTaken, hops, resultOf_sets hid hr houts]
  refine arpcOutBytes_arrived ?_
  rw [← List.cons_append]
  refine ajMember_first hn fun m hm => ?_
  rcases List.mem_cons.1 hm with rfl | hm
  · rw [cstr_eq (by decide : NulFree retKey)]
    exact hk.symm
  · rw [cstr_eq (hb m hm).1]
    exact hfirst m hm

/-- **Bytes cross as bytes**: in an argument, in the return value and in an out-value. -/
theorem bytes_cross {id : Int} (hid : I64 id) {method : Bytes} (hm : NulFree method)
    {args args' : List Tree} (ha : Puttable args) (ha' : Puttable args') {ret : Option Tree}
    (hr : ∀ v, ret = some v → Fits valueDepth v) {outs outs' : List (Bytes × Tree)}
    (ho : Outs outs) (ho' : Outs outs') {name : Bytes} (hn : NulFree name) (hk : name ≠ retKey)
    (hfirst : ∀ m ∈ outs, m.1 ≠ name) :
    (∀ b, b64Decode (some (b64Encode b)) = (some b, b.length)) ∧
      ∀ b, argTaken id method args args' b = (arrived b, false) ∧
        retTaken id outs b = arrived b ∧ outTaken id ret outs outs' name b = arrived b := by
  refine ⟨b64Decode_encode, fun b => ⟨?_, ?_, ?_⟩⟩
  · exact arg_bytes_cross hid hm ha ha' b
  · exact ret_bytes_cross hid ho b
  · exact out_bytes_cross hid hr ho ho' hn hk hfirst b

/-- A buffer with a NUL in it, as the second argument and as the second out-value. -/
theorem bytes_cross_nul :
    argTaken 1 (lit "alpm_decode_signature") [.null] [] (some [0, 255, 0]) =
        ((some [0, 255, 0], 3), false) ∧
      outTaken 1 (some (.num 0)) [(lit "len", .num 3)] [] (lit "data") (some []) = (some [], 0) := by
  have h := @bytes_cross 1 (by decide) (lit "alpm_decode_signature") (by decide) [.null] []
    (List.forall_mem_singleton.2 .null) (List.forall_mem_nil _) (some (.num 0))
    (fun v hv => by cases hv; exact .num (by decide)) [(lit "len", .num 3)] []
    (List.forall_mem_singleton.2 ⟨by decide, by decide, .num (by decide)⟩) (List.forall_mem_nil _)
    (lit "data") (by decide) (by decide) (List.forall_mem_singleton.2 (by decide))
  exact ⟨(h.2 (some [0, 255, 0])).1, (h.2 (some [])).2.2⟩

end Session
