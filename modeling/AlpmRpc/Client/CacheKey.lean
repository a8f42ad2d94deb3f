import AlpmRpc.Client.Cache
import AlpmRpc.Gen.Invalidate
import AlpmRpc.Gen.Types

/-!
# One borrowed result for each argument

A getter with a borrowed result looks into the cache before its call and stores the result after it,
under the key that `cache_key_code` of `tools/gen/emit.py` has it format (`cacheKey`). What is stored
says what it was fetched for; `β` is the result.
-/

set_option autoImplicit false

namespace Client.Keyed

open Wire Json Gen

/-- The kind of a parameter that `cache_key_code` accepts. An enum is its C type. -/
inductive KeyKind where
  | string
  | scalar (ty : CInt)
  | handle
  deriving DecidableEq, Repr

/-- A function with a borrowed result: its name, and its parameters but for the first handle. -/
structure Getter where
  name : Bytes
  extra : List KeyKind
  deriving DecidableEq, Repr

/-- What the caller passes; a handle is its id. -/
inductive Arg where
  | string (s : Option Bytes)
  | scalar (v : Int)
  | handle (id : Nat)
  deriving DecidableEq, Repr

/-- What the caller can pass for a parameter of the kind. -/
inductive Arg.Typed : KeyKind → Arg → Prop where
  | null : Typed .string (.string none)
  | string {s : Bytes} (h : NulFree s) : Typed .string (.string (some s))
  | scalar {ty : CInt} {v : Int} (h : ty.InRange .client v) : Typed (.scalar ty) (.scalar v)
  | handle {id : Nat} (h : id < 2 ^ 64) : Typed .handle (.handle id)

/-- What is passed to `snprintf` for it. -/
def Arg.keyArg : Arg → KeyArg
  | .string s => .string s
  | .scalar v => .scalar (toI64 v)
  | .handle id => .handle id

def Getter.key (g : Getter) (args : List Arg) : Bytes := cacheKey g.name (args.map Arg.keyArg)

/-- The arguments are of the parameters' kinds. -/
def Getter.Takes (g : Getter) (args : List Arg) : Prop := List.Forall₂ Arg.Typed g.extra args

/-- A letter, a digit or an underscore. -/
def isIdent (c : UInt8) : Bool :=
  ch 'a' ≤ c && c ≤ ch 'z' || ch 'A' ≤ c && c ≤ ch 'Z' || isDigit c || c = ch '_'

/-- The getters of the API: C identifiers, and no name twice. -/
structure Getters where
  all : List Getter
  ident : ∀ g ∈ all, ∀ c ∈ g.name, isIdent c = true
  nodup : (all.map (·.name)).Nodup

/-- `alpm_db_get_group`, one group per name. -/
def getGroup : Getter := ⟨lit "alpm_db_get_group", [.string]⟩

/-! ## Calls -/

/-- A result, with what it was fetched for. -/
structure Fetched (β : Type) where
  getter : Getter
  args : List Arg
  result : β

/-- What the client does to its cache. A getter's `store` comes after its `lookup` and its call, and
anything can happen in between. -/
inductive Event (β : Type) where
  | lookup (g : Getter) (owner : Nat) (args : List Arg)
  | store (g : Getter) (owner : Nat) (args : List Arg) (result : β) (release : Nat)
  | intern (owner : Nat) (key : Bytes) (value : Option Bytes)
  | detach (owner : Nat) (wholeRoot : Bool) (keys : List Bytes)
  | purgeOwner (owner : Nat)
  | purgeRoot (handle : Nat)
  | register (ids : List Nat)
  | pkgGroup (id : Nat)

def Event.op {β : Type} : Event β → Cache.Op (Fetched β)
  | .lookup g owner args => .cached owner (g.key args)
  | .store g owner args r release => .cache owner (g.key args) ⟨g, args, r⟩ release
  | .intern owner key value => .intern owner key value
  | .detach owner wholeRoot keys => .detach owner wholeRoot keys
  | .purgeOwner owner => .purgeOwner owner
  | .purgeRoot handle => .purgeRoot handle
  | .register ids => .register ids
  | .pkgGroup id => .pkgGroup id

/-- The getter, owner and arguments of a call that the cache may answer. -/
def Event.asks {β : Type} : Event β → Option (Getter × Nat × List Arg)
  | .lookup g owner args => some (g, owner, args)
  | .store g owner args _ _ => some (g, owner, args)
  | _ => none

/-- The cache and the last answer. -/
abbrev Answered (β : Type) := Cache (Fetched β) × Option Nat

def event {β : Type} (c : Answered β) (ev : Event β) : Option (Answered β) := Cache.step c.1 ev.op

/-! ## What was meant -/

/-- An answer is the result that was fetched for exactly these arguments. -/
def FetchedFor {β : Type} (_ : Answered β) (ev : Event β) (c : Answered β) : Prop :=
  ∀ g owner args, ev.asks = some (g, owner, args) → ∀ n, c.2 = some n →
    ∃ e ∈ c.1.owned, e.num = n ∧ e.owner = owner ∧ ∃ r, e.value = .obj ⟨g, args, r⟩

/-- What `snprintf` would write with all the room it needs. -/
def Getter.line (g : Getter) (args : List Arg) : Bytes :=
  g.name ++ args.flatMap fun a => ch ':' :: a.keyArg.text

/-- A call whose key says all: no `NULL`, no colon but in strings of the parameter `free`, and room
for every byte. -/
structure Getter.Told (g : Getter) (free : Nat) (args : List Arg) : Prop where
  notNull : .string none ∉ args
  clear : ∀ i s, args[i]? = some (.string (some s)) → i ≠ free → ch ':' ∉ s
  fits : args ≠ [] → (g.line args).length < 512

/-- The call is of a getter of the API, and its key says all. -/
def Asks {β : Type} (gs : Getters) (free : Getter → Nat) (_ : Answered β) (ev : Event β)
    (_ : Answered β) : Prop :=
  ∀ g owner args, ev.asks = some (g, owner, args) → g ∈ gs.all ∧ g.Takes args ∧ g.Told (free g) args

end Client.Keyed
