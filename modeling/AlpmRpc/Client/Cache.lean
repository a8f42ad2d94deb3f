import AlpmRpc.Client.Columns

/-!
# The client's cache of borrowed results

`src/client/arpc_client.c`: what libalpm hands back as borrowed is kept under the id of its owner
and the getter's name, live in `g_owned` or detached in `g_detached`, until the owner goes. Every
value has a number, the copies `intern` makes and the values given to `arpc_cache` alike; `released`
is the log of the release functions called. `g_owned` is a uthash table, a list in the order of
insertion; `none` stands for a second entry under one key, which uthash is not made for. `α` is
what a list or a struct holds. Allocations succeed.
-/

set_option autoImplicit false

namespace Client

open Wire Json

/-- `value`, by `is_str` -/
inductive Payload (α : Type) where
  | str (s : Option Bytes)
  | obj (x : α)
  deriving DecidableEq

def Payload.isStr {α : Type} : Payload α → Bool
  | .str _ => true
  | .obj _ => false

/-- `owned` -/
structure Owned (α : Type) where
  owner : Nat
  /-- the function name in `k`, with the arguments after a colon -/
  key : Bytes
  num : Nat
  value : Payload α
  release : Nat
  deriving DecidableEq

/-- `g_owned`, `g_detached`, the groups, the release calls made, and how many values there were. -/
structure Cache (α : Type) where
  owned : List (Owned α) := []
  detached : List (Owned α) := []
  groups : Groups := {}
  released : List (Nat × Nat) := []
  next : Nat := 0

namespace Cache

variable {α : Type}

/-- Does an entry of this key answer for this getter? -/
def keyNames (key getter : Bytes) : Bool :=
  getter.isPrefixOf key && (key.length == getter.length || key[getter.length]? == some (ch ':'))

def findOwned (c : Cache α) (owner : Nat) (key : Bytes) : Option (Owned α) :=
  c.owned.find? fun e => e.owner = owner ∧ e.key = key

/-- `HASH_ADD_KEYPTR` -/
def hashAdd (c : Cache α) (e : Owned α) : Option (Cache α) :=
  if (c.findOwned e.owner e.key).isSome then none else some { c with owned := c.owned ++ [e] }

/-- `HASH_DEL`, and onto the detached list. -/
def detachOne (c : Cache α) (e : Owned α) : Cache α :=
  { c with owned := c.owned.filter (·.num ≠ e.num), detached := e :: c.detached }

/-- `free` -/
def libcFree : Nat := 0

/-- The end of `intern`: a new entry with a copy of the string. -/
def internNew (c : Cache α) (owner : Nat) (key : Bytes) (value : Option Bytes) :
    Option (Cache α × Option Nat) := do
  let e : Owned α := { owner, key, num := c.next, value := .str value, release := libcFree }
  return (← hashAdd { c with next := c.next + 1 } e, some e.num)

/-- A detached string of this owner and key with this value. -/
def takesBack (owner : Nat) (key : Bytes) (value : Option Bytes) (q : Owned α) : Bool :=
  match q.value, value with
  | .str (some s), some v => q.owner = owner ∧ q.key = key ∧ s = v
  | _, _ => false

/-- The loop of `intern` over the detached list, and its end. -/
def internTake (c : Cache α) (owner : Nat) (key : Bytes) (value : Option Bytes) :
    Option (Cache α × Option Nat) :=
  match c.detached.find? (takesBack owner key value) with
  | some q => do
    return (← hashAdd { c with detached := c.detached.eraseP (takesBack owner key value) } q,
      some q.num)
  | none => internNew c owner key value

/-- `intern`; the answer is the number of the string, `NULL` strings being values too. -/
def intern (c : Cache α) (owner : Nat) (key : Bytes) (value : Option Bytes) :
    Option (Cache α × Option Nat) :=
  match c.findOwned owner key with
  | some p =>
    match p.value with
    | .str s =>
      if value.isSome ∧ s = value then some (c, some p.num)
      else internTake (c.detachOne p) owner key value
    | .obj _ => internTake c owner key value
  | none => internTake c owner key value

/-- The number of the value, `none` when nothing is cached. -/
def arpcCached (c : Cache α) (owner : Nat) (key : Bytes) : Option Nat :=
  match c.findOwned owner key with
  | some p => if p.value.isStr then none else some p.num
  | none => none

/-- The value given gets the next number; it goes at once when another is cached already. -/
def arpcCache (c : Cache α) (owner : Nat) (key : Bytes) (value : α) (release : Nat) :
    Option (Cache α × Option Nat) :=
  match arpcCached c owner key with
  | some v =>
    some ({ c with released := c.released ++ [(release, c.next)], next := c.next + 1 }, some v)
  | none => do
    let e : Owned α := { owner, key, num := c.next, value := .obj value, release }
    return (← hashAdd { c with next := c.next + 1 } e, some e.num)

/-- `purge_where` -/
def purgeWhere (c : Cache α) (drop : Owned α → Bool) : Cache α :=
  { c with
    owned := c.owned.filter fun e => !drop e
    detached := c.detached.filter fun e => !drop e
    released := c.released ++
      (c.owned.filter drop ++ c.detached.filter drop).map fun e => (e.release, e.num) }

def arpcPurgeOwner (c : Cache α) (owner : Nat) : Cache α := c.purgeWhere fun e => e.owner = owner

/-- `arpc_purge_root`; the callbacks' part is `arpcCallbacksPurge`. -/
def arpcPurgeRoot (c : Cache α) (handle : Nat) : Cache α :=
  let c := c.purgeWhere fun e => arpcRoot e.owner = arpcRoot handle
  { c with groups := c.groups.freeGroupsOf (arpcRoot handle) }

/-- Does `arpc_detach` take an entry of owner `o` and this key off the table? -/
def inScope (owner : Nat) (wholeRoot : Bool) (keys : List Bytes) (o : Nat) (key : Bytes) : Bool :=
  (if wholeRoot then arpcRoot o = arpcRoot owner else o = owner) && keys.any (keyNames key)

def arpcDetach (c : Cache α) (owner : Nat) (wholeRoot : Bool) (keys : List Bytes) : Cache α :=
  { c with
    owned := c.owned.filter fun e => !inScope owner wholeRoot keys e.owner e.key
    detached := (c.owned.filter fun e => inScope owner wholeRoot keys e.owner e.key).reverse ++
      c.detached }

/-! ## Runs -/

/-- One call of the cache. -/
inductive Op (α : Type) where
  | intern (owner : Nat) (key : Bytes) (value : Option Bytes)
  | cached (owner : Nat) (key : Bytes)
  | cache (owner : Nat) (key : Bytes) (value : α) (release : Nat)
  | detach (owner : Nat) (wholeRoot : Bool) (keys : List Bytes)
  | purgeOwner (owner : Nat)
  | purgeRoot (handle : Nat)
  | register (ids : List Nat)
  /-- a field of a package, as far as groups are made for it -/
  | pkgGroup (id : Nat)

/-- The call and the number of the value it hands out. -/
def step (c : Cache α) : Op α → Option (Cache α × Option Nat)
  | .intern owner key value => intern c owner key value
  | .cached owner key => some (c, arpcCached c owner key)
  | .cache owner key value release => arpcCache c owner key value release
  | .detach owner wholeRoot keys => some (arpcDetach c owner wholeRoot keys, none)
  | .purgeOwner owner => some (arpcPurgeOwner c owner, none)
  | .purgeRoot handle => some (arpcPurgeRoot c handle, none)
  | .register ids => some ({ c with groups := c.groups.arpcPkgGroupRegister ids }, none)
  | .pkgGroup id => some ({ c with groups := (c.groups.groupForPkg id).1 }, none)

def run (c : Cache α) : List (Op α) → Option (Cache α)
  | [] => some c
  | op :: ops => do
    let (c, _) ← step c op
    run c ops

/-- The owner a call hands out a value of. -/
def Op.handsOut : Op α → Option Nat
  | .intern owner _ _ => some owner
  | .cached owner _ => some owner
  | .cache owner _ _ _ => some owner
  | _ => none

/-- The calls that end the life of what `o` owns. -/
def Op.Ends (o : Nat) : Op α → Prop
  | .purgeOwner owner => owner = o
  | .purgeRoot handle => arpcRoot handle = arpcRoot o
  | _ => False

/-- One kind of value for each key, and the packages of a list are of one root. -/
def Op.Allowed (isStr : Nat → Bytes → Bool) : Op α → Prop
  | .intern owner key _ => isStr owner key = true
  | .cache owner key _ _ => isStr owner key = false
  | .register ids => ∀ id ∈ ids, ∀ id' ∈ ids, arpcRoot id = arpcRoot id'
  | _ => True

/-! ## What the cache promises -/

/-- The entries, live and detached. -/
def held (c : Cache α) : List (Owned α) := c.owned ++ c.detached

/-- Nothing is released, and the named getters' entries in scope are the ones that stop answering. -/
structure Detaches (c c' : Cache α) (owner : Nat) (wholeRoot : Bool) (keys : List Bytes) : Prop where
  released : c'.released = c.released
  lookups : ∀ o key, c'.findOwned o key =
    if inScope owner wholeRoot keys o key then none else c.findOwned o key

/-- Nothing of the root is left, and what is of other roots is as it was. -/
structure Purges (c c' : Cache α) (root : Nat) : Prop where
  owned : ∀ e, e ∈ c'.owned ↔ e ∈ c.owned ∧ arpcRoot e.owner ≠ root
  detached : ∀ e, e ∈ c'.detached ↔ e ∈ c.detached ∧ arpcRoot e.owner ≠ root
  groups : ∀ g, g ∈ c'.groups.groups ↔ g ∈ c.groups.groups ∧ ∀ id ∈ g.ids, arpcRoot id ≠ root
  slots : ∀ p, p ∈ c'.groups.slots ↔ p ∈ c.groups.slots ∧ arpcRoot p.id ≠ root

/-! ## Pointers of strings -/

/-- What `intern` returns for a value: `NULL` for `NULL`, and else the string of this number. -/
def pointer (value : Option Bytes) (n : Option Nat) : Option Nat := value.bind fun _ => n

/-- What is at a pointer. -/
def textAt (c : Cache α) (p : Option Nat) : Option Bytes := do
  let e ← c.held.find? (·.num = (← p))
  match e.value with
  | .str s => s
  | .obj _ => none

/-- The entry of this owner and key with this text. -/
def HasText (o : Nat) (k s : Bytes) (e : Owned α) : Prop :=
  e.owner = o ∧ e.key = k ∧ e.value = .str (some s)

/-- No text is held twice under one owner and key, be it live or detached. -/
def OneEach (c : Cache α) : Prop :=
  ∀ o k s, ∀ e ∈ c.held, ∀ e' ∈ c.held, HasText o k s e → HasText o k s e' → e = e'

end Cache

end Client
