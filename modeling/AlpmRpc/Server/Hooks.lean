import AlpmRpc.Server.HandOut
import AlpmRpc.Server.Forest

/-!
# The hooks around a transaction

`src/server/arpc_invalidate.c`, `alpm_trans_release` and `alpm_trans_commit`: a pre hook notes the
packages that may die as pointers, and a post hook drops their ids, or does not. What libalpm holds
when the pre hook asks, and what the call returns and leaves as errno, is a parameter. A package is
its pointer.
-/

set_option autoImplicit false

namespace Server

open Json Gen Chain

/-- `alpm_pkgfrom_t` -/
inductive PkgFrom where
  | file | localdb | syncdb
  deriving DecidableEq, Repr

/-- `alpm_errno_t`, by name where the hooks tell it from others. -/
inductive AlpmErrno where
  | wrongArgs | transNull | transNotPrepared | transNotLocked | transType | retrieve
  | pkgInvalid | pkgInvalidChecksum | pkgInvalidSig | pkgOpen | fileConflicts | diskSpace
  | other (e : Nat)
  deriving DecidableEq, Repr

/-- `touched_nothing` -/
def touchedNothing : AlpmErrno → Bool
  | .wrongArgs | .transNull | .transNotPrepared | .transNotLocked | .transType | .retrieve
  | .pkgInvalid | .pkgInvalidChecksum | .pkgInvalidSig | .pkgOpen | .fileConflicts | .diskSpace => true
  | .other _ => false

/-- What libalpm holds for a handle. -/
structure Trans where
  /-- `alpm_trans_get_add`, `alpm_trans_get_remove` -/
  add : List Nat := []
  remove : List Nat := []
  /-- `alpm_get_localdb` -/
  localdb : Nat := 0
  /-- its `alpm_db_get_pkgcache`, which has one package of a name -/
  cache : List Nat := []
  /-- `alpm_pkg_get_name`, `alpm_pkg_get_origin` -/
  name : Nat → Bytes := fun _ => []
  origin : Nat → PkgFrom := fun _ => .syncdb
  names : (cache.map name).Nodup := by simp

/-- `alpm_pkg_find` in the local cache -/
def Trans.alpmPkgFind (l : Trans) (needle : Bytes) : Nat :=
  (l.cache.find? fun p => l.name p = needle).getD 0

/-- `note` -/
def note (d : List Nat) (p : Nat) : List Nat := if p = 0 then d else d ++ [p]

/-- `handle_arg` -/
def handleArg (params : Option Tree) : TProg Nat := do
  let (h, _) ← arpcArgHandle params 0 .handle
  return h

section

variable (lib : Nat → Trans) (params : Option Tree)

/-- `arpc_hook_alpm_trans_release_pre` -/
def transReleasePre : TProg (List Nat) := do
  let h ← handleArg params
  if h = 0 then
    return []
  let d := (lib h).add.foldl (fun d p => if (lib h).origin p = .file then note d p else d) []
  return (lib h).remove.foldl note d

/-- `arpc_hook_alpm_trans_release_post` -/
def transReleasePost (state : List Nat) (rc : Int) : TProg Unit :=
  if rc = 0 then dropAll .pkg state else .ret ()

/-- `arpc_hook_alpm_trans_commit_pre` -/
def transCommitPre : TProg (List Nat) := do
  let h ← handleArg params
  if h = 0 ∨ (lib h).localdb = 0 then
    return []
  let noteFound := fun d p => note d ((lib h).alpmPkgFind ((lib h).name p))
  return (lib h).remove.foldl noteFound ((lib h).add.foldl noteFound [])

/-- `arpc_hook_alpm_trans_commit_post`; `errno` is what `alpm_errno` reads. -/
def transCommitPost (state : List Nat) (rc : Int) (errno : Nat → AlpmErrno) : TProg Unit := do
  let h ← handleArg params
  if rc = 0 ∨ h = 0 ∨ touchedNothing (errno h) = false then dropAll .pkg state else return ()

end

/-! ## What died -/

/-- The handle that the request's first argument is of; `0` when there is none. -/
def handleAt (t : Table) (params : Option Tree) : Nat :=
  match (handleArg params).run t with
  | some (_, h) => h
  | none => 0

/-- `p` was in the local cache under the name of a target. -/
def Trans.Installed (l : Trans) (p : Nat) : Prop :=
  l.localdb ≠ 0 ∧ p ∈ l.cache ∧ ∃ q ∈ l.add ++ l.remove, l.name p = l.name q

/-- `p` was to be added and came from a file, or was to be removed. -/
def Trans.Owned (l : Trans) (p : Nat) : Prop :=
  (p ∈ l.add ∧ l.origin p = .file) ∨ p ∈ l.remove

/-- The ids of the packages `dead`, and what is under them. -/
def Doomed (t : Table) (dead : Nat → Prop) (id : Nat) : Prop :=
  ∃ v p, dead p ∧ p ≠ 0 ∧ arpcHandleGet t v .pkg = some p ∧ (id = v ∨ Above t.up id v)

/-- No id resolves to a package of `dead`; those that did and what is under them are gone, and every
other id resolves as before. -/
structure DropsDead (dead : Nat → Prop) (t t' : Table) : Prop where
  none : ∀ id p, dead p → p ≠ 0 → arpcHandleGet t' id .pkg ≠ some p
  removes : Removes t t' (Doomed t dead)

/-- The errno of the handle is one after which nothing was touched. -/
def Untouched (t : Table) (params : Option Tree) (errno : Nat → AlpmErrno) : Prop :=
  handleAt t params ≠ 0 ∧ touchedNothing (errno (handleAt t params)) = true

instance (t : Table) (params : Option Tree) (errno : Nat → AlpmErrno) :
    Decidable (Untouched t params errno) := inferInstanceAs (Decidable (_ ∧ _))

/-- The commit's pre hook runs at `t₀`, its post hook at `t`. -/
def CommitDropsDead (lib : Nat → Trans) (params : Option Tree) (rc : Int) (errno : Nat → AlpmErrno)
    (t₀ t : Table) : Prop :=
  ∃ d t', (transCommitPre lib params).run t₀ = some (t₀, d) ∧
    (transCommitPost params d rc errno).run t = some (t', ()) ∧
    (rc = 0 ∨ ¬Untouched t params errno →
      DropsDead (fun p => handleAt t₀ params ≠ 0 ∧ (lib (handleAt t₀ params)).Installed p) t t') ∧
    (rc ≠ 0 → Untouched t params errno → t' = t)

/-- The release's pre hook runs at `t₀`, its post hook at `t`. -/
def ReleaseDropsDead (lib : Nat → Trans) (params : Option Tree) (rc : Int) (t₀ t : Table) : Prop :=
  ∃ d t', (transReleasePre lib params).run t₀ = some (t₀, d) ∧
    (transReleasePost d rc).run t = some (t', ()) ∧
    (rc = 0 →
      DropsDead (fun p => handleAt t₀ params ≠ 0 ∧ (lib (handleAt t₀ params)).Owned p) t t') ∧
    (rc ≠ 0 → t' = t)

end Server
