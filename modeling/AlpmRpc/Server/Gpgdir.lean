import AlpmRpc.Lib.Run
import AlpmRpc.Server.Request
import Mathlib.Logic.Function.Basic

/-!
# Each handle's keyring

`src/server/arpc_gpgdir.c`, and where `arpc_handle_parsed` calls it: before each call the dispatcher
points gpgme at the gpgdir of the handle the call is for (`req_handle`). gpgme has one engine home for
the whole process. A call of libalpm may be waiting in a callback while the client's further requests
are served (`arpc_conn_exchange` in `src/server/main.c`); what libalpm, gpgme and the allocator do is
the action.
-/

set_option autoImplicit false

namespace Server

open Json

/-- `req_handle`: the handle the first argument belongs to, `0` for none. -/
def reqHandle (a : Reg) (params : Option Tree) : Nat :=
  match ajElem params 0 with
  | some (.num v) => a.get (a.ancestor (toU64 v) .handle) .handle
  | _ => 0

/-- Of a handle of libalpm: its gpgdir, and whether an error is pending. -/
structure LibHandle where
  gpgdir : Option Bytes
  err : Bool
  deriving DecidableEq, Repr

/-- Which of the allocations and of the gpgme call in `arpc_gpgdir_follow` succeed. -/
structure Given where
  /-- `calloc` of an entry of `g_seen` -/
  entry : Bool := true
  /-- the copy kept in the entry -/
  seen : Bool := true
  /-- `gpgme_set_engine_info` -/
  engine : Bool := true
  /-- the copy kept in `g_gpgdir` -/
  pointed : Bool := true
  deriving DecidableEq, Repr

structure Keyring where
  /-- libalpm's handles, by address -/
  lib : Nat → Option LibHandle := fun _ => none
  /-- `g_seen`: each handle's gpgdir, as last read -/
  seen : Nat → Option (Option Bytes) := fun _ => none
  /-- `g_gpgdir`, when `g_pointed` -/
  pointed : Option (Option Bytes) := none
  /-- gpgme's engine home -/
  engine : Option Bytes := none
  /-- libalpm has set up gpgme itself -/
  checked : Bool := false
  /-- the handles of the calls that have not returned, the innermost first; `0` for none -/
  calls : List Nat := []
  /-- the innermost call is executing, rather than waiting in a callback -/
  running : Bool := false
  /-- the gpgdir that the handle of the last call had when the call was dispatched -/
  last : Option (Option Bytes) := none

namespace Keyring

/-- The end of `gpgdir_of`: the entry of `h`, which holds `old`, is brought up to date. -/
def refresh (k : Keyring) (h : Nat) (old now : Option Bytes) (copied : Bool) :
    Keyring × Option (Option Bytes) :=
  if old = now then (k, some old)
  else if now.isNone || copied then
    ({ k with seen := Function.update k.seen h (some now) }, some now)
  else (k, none)

/-- `gpgdir_of`: the entry's gpgdir, or `none` for no entry. -/
def gpgdirOf (k : Keyring) (h : Nat) (l : LibHandle) (g : Given) :
    Keyring × Option (Option Bytes) :=
  -- `alpm_option_get_gpgdir` would clear the error
  if l.err then (k, k.seen h)
  else
    match k.seen h with
    | some old => k.refresh h old l.gpgdir g.seen
    | none =>
      if g.entry then
        { k with seen := Function.update k.seen h (some none) }.refresh h none l.gpgdir g.seen
      else (k, none)

/-- The end of `arpc_gpgdir_follow`: gpgme is pointed at `d`, unless it is already. -/
def point (k : Keyring) (d : Option Bytes) (g : Given) : Keyring :=
  if k.pointed = some d then k
  else if !g.engine then k
  else if d.isNone || g.pointed then { k with engine := d, pointed := some d }
  else { k with engine := d }

/-- `arpc_gpgdir_follow` for the handle `l` at `h` -/
def arpcGpgdirFollow (k : Keyring) (h : Nat) (l : LibHandle) (g : Given) : Keyring :=
  match k.gpgdirOf h l g with
  | (k', none) => k'
  | (k', some d) => k'.point d g

/-- What a call of libalpm has done when it returns. -/
inductive Effect where
  /-- nothing to any gpgdir -/
  | plain
  /-- `alpm_option_set_gpgdir` succeeded -/
  | setGpgdir (d : Option Bytes)
  /-- `alpm_initialize` made a handle at `a` -/
  | created (a : Nat) (d : Option Bytes)
  /-- `alpm_release` -/
  | released
  deriving DecidableEq, Repr

inductive Event where
  /-- a request arrives and is dispatched, with the handle table as it is -/
  | dispatch (a : Reg) (params : Option Tree) (g : Given)
  /-- libalpm sets or clears the error of the running call's handle -/
  | errno (pending : Bool)
  /-- libalpm checks a signature -/
  | sigCheck
  /-- libalpm runs a callback -/
  | raise
  /-- the callback has its answer -/
  | answer
  /-- the running call returns -/
  | ret (e : Effect)

/-- No allocation and no call of gpgme fails. -/
def Event.Granted : Event → Prop
  | .dispatch _ _ g => g = {}
  | _ => True

def setLib (k : Keyring) (h : Nat) (l : Option LibHandle) : Keyring :=
  { k with lib := Function.update k.lib h l }

/-- What the return of a call for `h` leaves; `none` when libalpm cannot have done that. A handle is
not freed under a call of its own: libalpm has no behaviour then. -/
def leave (k : Keyring) (h : Nat) : Effect → Option Keyring
  | .plain => some k
  | .setGpgdir d => if (k.lib h).isSome then some (k.setLib h (some ⟨d, false⟩)) else none
  | .created a d => if a ≠ 0 ∧ k.lib a = none then some (k.setLib a (some ⟨d, false⟩)) else none
  | .released => if h ∈ k.calls then none else some (k.setLib h none)

/-- One event; `none` when it cannot happen. -/
def step (k : Keyring) : Event → Option Keyring
  | .dispatch a params g =>
    if k.running then none
    else
      let h := reqHandle a params
      let k' := { k with calls := h :: k.calls, running := true }
      if h = 0 then some k'
      else
        match k.lib h with
        | some l => some { k'.arpcGpgdirFollow h l g with last := some l.gpgdir }
        | none => none
  | .errno pending =>
    match k.running, k.calls with
    | true, h :: _ =>
      match k.lib h with
      | some l => some (k.setLib h (some { l with err := pending }))
      | none => none
    | _, _ => none
  | .sigCheck =>
    match k.running, k.calls with
    | true, h :: _ =>
      match k.lib h with
      | some l => some (if k.checked then k else { k with engine := l.gpgdir, checked := true })
      | none => none
    | _, _ => none
  | .raise =>
    if k.running then some { k with running := false } else none
  | .answer =>
    if !k.running && !k.calls.isEmpty then some { k with running := true } else none
  | .ret e =>
    match k.running, k.calls with
    | true, h :: rest => { k with calls := rest, running := false }.leave h e
    | _, _ => none

/-! ## What a run of calls should keep -/

/-- While libalpm executes a call for a handle, signatures are checked against that handle's
keyring. -/
def OwnKeyring (k : Keyring) : Prop :=
  k.running = true → ∀ h ∈ k.calls.head?, ∀ l ∈ k.lib h, k.engine = l.gpgdir

/-- The steps the dispatcher is right about: its allocations and `gpgme_set_engine_info` succeed; a
handle that a call is dispatched for with an error pending has the gpgdir that was last read; and a
call that goes on after a callback is for a handle with the gpgdir of the last call's. -/
def Followed (k : Keyring) : Event → Prop
  | .dispatch a params g => g = {} ∧ ∀ l ∈ k.lib (reqHandle a params), l.err = true →
    ∀ d ∈ k.seen (reqHandle a params), d = l.gpgdir
  | .answer => ∀ h ∈ k.calls.head?, ∀ l ∈ k.lib h, k.last = some l.gpgdir
  | _ => True

instance (k : Keyring) : Decidable k.OwnKeyring := by
  unfold OwnKeyring
  infer_instance

instance (k : Keyring) (e : Event) : Decidable (k.Followed e) := by
  unfold Followed
  split <;> infer_instance

end Keyring

end Server
