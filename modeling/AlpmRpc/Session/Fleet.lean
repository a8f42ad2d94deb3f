import AlpmRpc.Lib.Run
import AlpmRpc.Server.Proof.TableRun
import Mathlib.Logic.Function.Basic

/-!
# Clients and servers

Any number of client and server processes. A server (`serve_connection` in `src/server/main.c`) serves
one connection at a time and keeps its handle table from one to the next; a client
(`ensure_connected` in `src/client/arpc_client.c`) connects to whichever server listens, and sends
the ids it was given, by whomever. What is served is seen as the calls of the handle table it makes.
A server goes on with a call whose client is gone until it notices.
-/

set_option autoImplicit false

namespace Session

open Server

structure Fleet where
  /-- the server processes so far are those below -/
  started : Nat := 0
  /-- each server's handle table -/
  tables : Nat → Table := fun _ => {}
  /-- the client whose connection a server is in -/
  serves : Nat → Option Nat := fun _ => none
  /-- the ids in the requests of that connection -/
  asked : Nat → List Nat := fun _ => []
  /-- the server a client's pipe leads to -/
  conn : Nat → Option Nat := fun _ => none
  /-- the ids a client was given -/
  held : Nat → List Nat := fun _ => []
  /-- the ids a server has given out in a client's connections -/
  issued : Nat → Nat → List Nat := fun _ _ => []
  /-- the clients that are no more -/
  left : List Nat := []

namespace Fleet

inductive Event where
  /-- a server process starts -/
  | start
  | connect (c s : Nat)
  /-- a client sends a request that has these ids in it -/
  | request (c : Nat) (ids : List Nat)
  /-- a server, in a request, calls its handle table -/
  | exec (s : Nat) (op : Op)
  /-- a client's pipe breaks, or is closed -/
  | lost (c : Nat)
  /-- a server finds its pipe broken -/
  | noticed (s : Nat)
  /-- a client process ends, whatever handles it has -/
  | leave (c : Nat)

/-- A handler resolves the ids of the request. -/
def MayExec (w : Fleet) (s : Nat) : Op → Prop
  | .get id _ => id ∈ w.asked s
  | _ => True

instance (w : Fleet) (s : Nat) (op : Op) : Decidable (w.MayExec s op) := by
  cases op <;> unfold MayExec <;> infer_instance

/-- What a put answers goes to the client, if its pipe still leads here. -/
def give (w : Fleet) (s c : Nat) (op : Op) (r : Nat) : Fleet :=
  if op.object.isSome then
    { w with
      issued := Function.update w.issued s (Function.update (w.issued s) c (r :: w.issued s c))
      held := if w.conn c = some s then Function.update w.held c (r :: w.held c) else w.held }
  else w

def step (w : Fleet) : Event → Option Fleet
  | .start => some { w with started := w.started + 1 }
  | .connect c s =>
    if s < w.started ∧ w.serves s = none ∧ w.conn c = none ∧ c ∉ w.left then
      some { w with
        serves := Function.update w.serves s (some c)
        asked := Function.update w.asked s []
        conn := Function.update w.conn c (some s) }
    else none
  | .request c ids =>
    match w.conn c with
    | some s =>
      if ∀ id ∈ ids, id ∈ w.held c then
        some { w with asked := Function.update w.asked s (ids ++ w.asked s) }
      else none
    | none => none
  | .exec s op =>
    match w.serves s with
    | some c =>
      if w.MayExec s op then do
        let (t, r) ← Server.exec (w.tables s) op
        return { w with tables := Function.update w.tables s t }.give s c op r
      else none
    | none => none
  | .lost c => some { w with conn := Function.update w.conn c none }
  | .noticed s =>
    match w.serves s with
    | some c =>
      if w.conn c = some s then none
      else some { w with serves := Function.update w.serves s none }
    | none => none
  | .leave c => some { w with conn := Function.update w.conn c none, left := c :: w.left }

/-- The id is of an object. -/
def Live (t : Table) (id : Nat) : Prop := ∃ tag p, p ≠ 0 ∧ arpcHandleGet t id tag = some p

/-- An id that a server resolves to an object is one it gave to the client that sent it. -/
def OwnIds (w : Fleet) (e : Event) (_ : Fleet) : Prop :=
  ∀ s c id tag p, e = .exec s (.get id tag) → w.serves s = some c → p ≠ 0 →
    arpcHandleGet (w.tables s) id tag = some p → id ∈ w.issued s c

/-- A client that connects has no id that is live there and is not from there; and no server runs out
of sequence numbers. -/
def NoStrangers (w : Fleet) (e : Event) (_ : Fleet) : Prop :=
  (∀ c s, e = .connect c s → ∀ id ∈ w.held c, Live (w.tables s) id → id ∈ w.issued s c) ∧
    ∀ s op, e = .exec s op → (w.tables s).nextSeq < 2 ^ 40

theorem live_iff_tags {t : Table} {id : Nat} :
    Live t id ↔ ∃ tag ∈ [HandleTag.none, .changelog, .db, .handle, .pkg],
      ∃ p ∈ arpcHandleGet t id tag, p ≠ 0 := by
  constructor
  · rintro ⟨tag, p, hp, hg⟩
    exact ⟨tag, by cases tag <;> decide, p, hg, hp⟩
  · rintro ⟨tag, -, p, hg, hp⟩
    exact ⟨tag, p, hp, hg⟩

instance (t : Table) (id : Nat) : Decidable (Live t id) := decidable_of_iff' _ live_iff_tags

theorem noStrangers_connect {w w' : Fleet} {c s : Nat} : NoStrangers w (.connect c s) w' ↔
    ∀ id ∈ w.held c, Live (w.tables s) id → id ∈ w.issued s c := by
  refine ⟨fun h => h.1 c s rfl, fun h => ⟨?_, nofun⟩⟩
  rintro _ _ ⟨⟩
  exact h

theorem noStrangers_exec {w w' : Fleet} {s : Nat} {op : Op} :
    NoStrangers w (.exec s op) w' ↔ (w.tables s).nextSeq < 2 ^ 40 := by
  refine ⟨fun h => h.2 s op rfl, fun h => ⟨nofun, ?_⟩⟩
  rintro _ _ ⟨⟩
  exact h

instance (w w' : Fleet) (e : Event) : Decidable (NoStrangers w e w') :=
  match e with
  | .connect _ _ => decidable_of_iff' _ noStrangers_connect
  | .exec _ _ => decidable_of_iff' _ noStrangers_exec
  | .start | .request _ _ | .lost _ | .noticed _ | .leave _ => isTrue ⟨nofun, nofun⟩

end Fleet

end Session
