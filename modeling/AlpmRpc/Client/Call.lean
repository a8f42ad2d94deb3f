import AlpmRpc.Common.Frame
import AlpmRpc.Server.Request

/-!
# A call from the client

The cycle `arpc_begin`, `arpc_invoke` of `src/client/arpc_client.c` over a pipe that does not fail,
for a call whose handler raises no callback.
-/

set_option autoImplicit false

namespace Client

open Json Server

/-- The end of `arpc_invoke`: the result node, or nothing when the reply is out of step or an
error. -/
def arpcInvoke (id : Int) (rsp : Option Tree) : Option Tree :=
  if ajI64 (ajMember rsp (lit "id")) (-1) ≠ id then none
  else if (ajMember rsp (lit "error")).isSome then none
  else ajMember rsp (lit "result")

/-- Request `id` for `handler`, run by the server on its table `t` and its libalpm. -/
def exchange {L : Type} (id : Int) (req : Tree) (handler : Option Tree → TProg (Res × L))
    (t : Table) : Option (Table × L × Option Tree) := do
  let doc := sent req
  let (t, res, l) ← (handler (ajMember doc (lit "params"))).run t
  return (t, l, arpcInvoke id (sent (replyFrame (ajI64 (ajMember doc (lit "id")) 0) res)))

/-- A refusal fits the wire, and so does an answer of plain values. -/
def Sendable : Res → Prop
  | .fail code msg => I64 code ∧ NulFree msg
  | .ok ret outs => Fits 0 ret ∧ ∀ m ∈ outs, NulFree m.1 ∧ Fits 0 m.2

theorem fits_reply {id : Int} (hid : I64 id) {res : Res} (hs : Sendable res) :
    Fits 2 (replyFrame id res) := by
  cases res with
  | fail code msg => exact fits_error hid hs.1 hs.2
  | ok ret outs => exact fits_result hid hs.1 (fun m hm => (hs.2 m hm).1) fun m hm => (hs.2 m hm).2

/-- What the client makes of a reply in step. -/
theorem arpcInvoke_reply (id : Int) (res : Res) :
    arpcInvoke id (some (replyFrame id res)) = res.result := by
  have hstep : ∀ f : Tree, ajI64 (ajMember (some f) (lit "id")) (-1) = id →
      arpcInvoke id (some f) = if (ajMember (some f) (lit "error")).isSome then none
        else ajMember (some f) (lit "result") := by
    intro f hf
    rw [arpcInvoke, if_neg (by simpa using hf)]
  cases res with
  | fail code msg => rw [hstep _ rfl]; rfl
  | ok ret outs => rw [hstep _ rfl]; rfl

/-- **One exchange**: the handler's answer reaches the client, and the table is the handler's. -/
theorem exchange_eq {L : Type} {id : Int} (hid : I64 id) {method : Bytes} (hm : NulFree method)
    {params : List Tree} (hp : ∀ p ∈ params, Fits 0 p) {handler : Option Tree → TProg (Res × L)}
    {t t' : Table} {res : Res} {l : L}
    (hrun : (handler (some (.arr params))).run t = some (t', res, l)) (hs : Sendable res) :
    exchange id (requestFrame id method params) handler t = some (t', l, res.result) := by
  have hdoc : sent (requestFrame id method params) = some (requestFrame id method params) :=
    sent_eq (fits_request hid hm hp) (by decide)
  have hpar : ajMember (some (requestFrame id method params)) (lit "params") =
      some (.arr params) := rfl
  have hidn : ajI64 (ajMember (some (requestFrame id method params)) (lit "id")) 0 = id := rfl
  have hrep : sent (replyFrame id res) = some (replyFrame id res) :=
    sent_eq (fits_reply hid hs) (by decide)
  simp only [exchange, hdoc, hpar, hidn, hrun, hrep, arpcInvoke_reply, Option.bind_eq_bind,
    Option.bind_some, Option.pure_def]

end Client
