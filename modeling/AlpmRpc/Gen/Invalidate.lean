import AlpmRpc.Common.Json
import Mathlib.Data.List.Sort

/-!
# What a call detaches

`rules.invalidates` of `tools/gen/overlay.json` and `invalidation_of` of `tools/gen/emit.py`: for each
function that changes something, the getters whose cached results are detached after it, and under
which owners. The functions of the header are a parameter. `none` is a build that fails.
-/

set_option autoImplicit false

namespace Gen

open Json

/-- What the rules ask of the header. -/
structure Header where
  /-- `GENERATED` -/
  generated : List Bytes
  /-- the batched package fields that are numbers -/
  numericFields : List Bytes
  /-- the parameters of a function that are lists of handles -/
  handleLists : Bytes → List Bytes
  short : ∀ g ∈ generated, g.length < 500
  /-- "libalpm has no getter for it", the overlay says -/
  noTimeout : ∀ g ∈ generated, g ≠ lit "alpm_option_get_disable_dl_timeout" ∧
    g ≠ lit "alpm_option_get_disable_dl_timeouts"

/-- Where the entries live: `self`, `root`, or the elements of a list argument. -/
inductive Under where
  | self
  | root
  | each (param : Bytes)
  deriving DecidableEq, Repr

/-- An entry of the rules, and what becomes of it. -/
structure Entry where
  under : Under := .self
  keys : List Bytes := []
  columns : List Bytes := []
  deriving DecidableEq, Repr

/-! ## The rules -/

/-- `\w` -/
def isWord (c : UInt8) : Bool :=
  (ch 'a' ≤ c && c ≤ ch 'z') || (ch 'A' ≤ c && c ≤ ch 'Z') || (ch '0' ≤ c && c ≤ ch '9') || c == ch '_'

/-- The group of `^pre(\w+)$`. -/
def wordAfter (pre n : Bytes) : Option Bytes :=
  if pre.isPrefixOf n && n.length != pre.length && (n.drop pre.length).all isWord then
    some (n.drop pre.length)
  else none

/-- The last group of `^head(set|add|remove)_(\w+)$`. -/
def setterOf (head n : Bytes) : Option Bytes :=
  ((wordAfter (head ++ lit "set_") n).or (wordAfter (head ++ lit "add_") n)).or
    (wordAfter (head ++ lit "remove_") n)

/-- The names `match` spells out. -/
def changingNames : List Bytes :=
  [lit "alpm_add_pkg", lit "alpm_remove_pkg", lit "alpm_db_unregister", lit "alpm_db_update",
    lit "alpm_pkg_set_reason", lit "alpm_register_syncdb", lit "alpm_trans_init",
    lit "alpm_trans_prepare", lit "alpm_trans_commit", lit "alpm_trans_interrupt",
    lit "alpm_trans_release", lit "alpm_unregister_all_syncdbs"]

/-- `match` -/
def changes (n : Bytes) : Bool :=
  changingNames.contains n || (setterOf (lit "alpm_db_") n).isSome ||
    (setterOf (lit "alpm_option_") n).isSome

def transKeys : List Bytes := [lit "alpm_trans_get_add", lit "alpm_trans_get_remove"]

def dbKeys : List Bytes :=
  [lit "alpm_db_get_pkgcache", lit "alpm_db_get_groupcache", lit "alpm_db_get_group"]

/-- The entries by name. -/
def invalidates : List (Bytes × Entry) :=
  [(lit "alpm_option_set_disable_dl_timeout", {}),
    (lit "alpm_register_syncdb", { keys := [lit "alpm_get_syncdbs"] }),
    (lit "alpm_db_unregister", { under := .root, keys := [lit "alpm_get_syncdbs"] }),
    (lit "alpm_unregister_all_syncdbs",
      { under := .root, keys := [lit "alpm_get_syncdbs", lit "^alpm_db_get_"] }),
    (lit "alpm_db_update", { under := .each (lit "dbs"), keys := dbKeys }),
    (lit "alpm_trans_init", { keys := transKeys }),
    (lit "alpm_trans_prepare", { keys := transKeys }),
    (lit "alpm_trans_interrupt", { keys := transKeys }),
    (lit "alpm_trans_release", { keys := transKeys }),
    (lit "alpm_add_pkg", { keys := transKeys }),
    (lit "alpm_remove_pkg", { keys := transKeys }),
    (lit "alpm_trans_commit", { under := .root, keys := transKeys ++ dbKeys }),
    (lit "alpm_pkg_set_reason", { columns := [lit "alpm_pkg_get_reason"] })]

/-- The getters of option `x`, as a `derive` rule expands them. -/
def gettersOf (get x : Bytes) : List Bytes := [get ++ x, get ++ x ++ lit "s"]

/-- `derive` -/
def derive (n : Bytes) : Option Entry :=
  match setterOf (lit "alpm_option_") n with
  | some x => some { keys := gettersOf (lit "alpm_option_get_") x }
  | none => (setterOf (lit "alpm_db_") n).map fun x => { keys := gettersOf (lit "alpm_db_get_") x }

/-! ## `invalidation_of` -/

/-- The generated functions a key names; one that starts with a caret, those that start with the
rest. -/
def expandKey (h : Header) (k : Bytes) : List Bytes :=
  if k.head? = some (ch '^') then
    (h.generated.filter fun g => k.tail.isPrefixOf g).insertionSort (· ≤ ·)
  else if k ∈ h.generated then [k] else []

/-- The loop over the keys, after `acc`. -/
def expandKeys (h : Header) (derived : Bool) : List Bytes → List Bytes → Option (List Bytes)
  | acc, [] => some acc
  | acc, k :: ks =>
    let found := expandKey h k
    if found = [] ∧ derived = false then none
    else expandKeys h derived (acc ++ found.filter (· ∉ acc)) ks

/-- The entry of a function, and whether it is derived. -/
def entryOf (n : Bytes) : Option (Entry × Bool) :=
  match invalidates.lookup n with
  | some e => some (e, false)
  | none => (derive n).map fun e => (e, true)

/-- `under` names a parameter there is. -/
def underOk (h : Header) (n : Bytes) : Under → Bool
  | .each p => (h.handleLists n).contains p
  | _ => true

/-- `invalidation_of`; the inner `none` for a function that changes nothing. -/
def invalidationOf (h : Header) (n : Bytes) : Option (Option Entry) :=
  if changes n then do
    let (e, derived) ← entryOf n
    let keys ← expandKeys h derived [] e.keys
    if e.keys ≠ [] ∧ keys = [] then none
    else if e.columns.all (h.numericFields.contains ·) && underOk h n e.under then
      some (some { e with keys })
    else none
  else if (invalidates.lookup n).isSome then none
  else some none

/-! ## `cache_key_code` -/

/-- An argument of a getter besides its owner. -/
inductive KeyArg where
  | string (s : Option Bytes)
  | scalar (v : Int)
  | handle (id : Nat)
  deriving DecidableEq

/-- `%s`, `%lld` or `%llu` -/
def KeyArg.text : KeyArg → Bytes
  | .string s => s.getD []
  | .scalar v => lit (toString v)
  | .handle id => lit (toString id)

/-- The key of a borrowed result: the function's name, with the arguments in `arpc_key[512]`. -/
def cacheKey (fn : Bytes) (extra : List KeyArg) : Bytes :=
  if extra = [] then fn
  else (fn ++ ch ':' :: [ch ':'].intercalate (extra.map KeyArg.text)).take 511

end Gen
