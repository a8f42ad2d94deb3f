import AlpmRpc.Lib.Turns
import AlpmRpc.Session.Transit

/-!
# Threads of one client

The caller's threads over the one pipe of `Session/Transit.lean`. A generated stub holds `g_lock` from
`arpc_enter` to `arpc_leave`; the callbacks of its call are its thread's, and the stubs that their
functions call enter the lock a second time, so they are part of the stub's program. The server moves
whoever has the lock.
-/

set_option autoImplicit false

namespace Session

variable {σ τ : Type}

/-- What is left of a thread: the stubs it calls, one after another, each by what came of those before. -/
inductive Thread (τ : Type) where
  | done
  | stub (p : ClientProg τ) (k : Value → Thread τ)

namespace Thread

/-- `arpc_enter`, where the lock is free. -/
def enter : Thread τ → Line σ τ → Option (Line σ τ)
  | done, _ => none
  | stub p _, l => some { l with sides := { l.sides with client := .run p [], log := [] } }

/-- `arpc_leave`, once the stub has what it returns. -/
def leave : Thread τ → Line σ τ → Option (Thread τ × Line σ τ)
  | done, _ => none
  | stub _ k, l =>
    match l.sides.client with
    | .done v => some (k v, l)
    | _ => none

/-- Each stub's activity is finite, and its frames are within `ARPC_MAX_FRAME`. -/
def Finite (env : Env σ τ) : Thread τ → Prop
  | done => True
  | stub p k =>
    (∀ w, ∃ depth w' v log, directClient env depth p w = some (w', v, log) ∧ ∀ e ∈ log, e.Sendable) ∧
      ∀ v, (k v).Finite env

end Thread

def threads (env : Env σ τ) (cap : Nat) : Turns.Sections (Thread τ) (Line σ τ) where
  enter := Thread.enter
  step := LineMove env cap
  leave := Thread.leave

abbrev Threads (T σ τ : Type) := Turns.State T (Thread τ) (Line σ τ)

/-- Threads about to begin, over a connection with nothing on the way. -/
def threadsStart {T : Type} (ts : T → Thread τ) (w : World σ τ) (nextId nextSeq : Nat) :
    Threads T σ τ where
  parties := ts
  shared := { sides := { client := .recv [], server := .recv [], world := w, nextId, nextSeq } }

def ThreadsReach {T : Type} [DecidableEq T] (env : Env σ τ) (cap : Nat) :
    Threads T σ τ → Threads T σ τ → Prop :=
  Relation.ReflTransGen (Turns.Next (threads env cap))

/-- One thread's stub, of plain calls. -/
def StubCall {T : Type} [DecidableEq T] (env : Env σ τ) (a b : (T → Thread τ) × World σ τ) : Prop :=
  ∃ t p k depth v log, a.1 t = .stub p k ∧ directClient env depth p a.2 = some (b.2, v, log) ∧
    b.1 = Function.update a.1 t (k v)

end Session
