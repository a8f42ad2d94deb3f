import AlpmRpc.Server.Request

/-!
# Where a generated handler files an object

`ownerExpr` is `owner_expr` of `tools/gen/emit.py`: from a function's parameters, the expression a
handler evaluates for the owner of what it hands out. The functions whose handlers hand out
packages and dbs are here with their parameters.
-/

set_option autoImplicit false

namespace Gen

open Json Server

/-- A parameter, as far as a handler reads it. -/
inductive ParamKind where
  | handle (tag : HandleTag)
  | handles (tag : HandleTag)
  | string
  | strings
  | scalar
  deriving DecidableEq, Repr

/-- A function that hands out dbs or packages, by its return or through a pointer. -/
structure Fn where
  name : Bytes
  params : List ParamKind
  tag : HandleTag
  tag_ok : tag = .db ∨ tag = .pkg

/-- `PARENT_TAG` -/
def parentTag : HandleTag → Option HandleTag
  | .pkg => some .db
  | .db => some .handle
  | .changelog => some .pkg
  | _ => none

/-- An owner, as a handler computes it. -/
inductive OwnerExpr where
  | argId (i : Nat)
  | listOwner (i : Nat)
  | ancestorArg (i : Nat) (level : HandleTag)
  | ancestorList (i : Nat) (level : HandleTag)
  | nobody
  deriving DecidableEq, Repr

/-- The handle parameters, with their places. -/
def handleParams (ps : List ParamKind) : List (Nat × HandleTag) :=
  ps.zipIdx.filterMap fun
    | (.handle tag, i) => some (i, tag)
    | _ => none

/-- The handle-list parameters, with their places. -/
def listParams (ps : List ParamKind) : List (Nat × HandleTag) :=
  ps.zipIdx.filterMap fun
    | (.handles tag, i) => some (i, tag)
    | _ => none

/-- `owner_expr`; a record's `for_tag` is the one of the packages in it. -/
def ownerExpr (fn : Fn) : OwnerExpr :=
  let want := parentTag fn.tag
  match (handleParams fn.params).find? fun p => some p.2 = want with
  | some p => .argId p.1
  | none =>
    match (listParams fn.params).find? fun p => some p.2 = want with
    | some p => .listOwner p.1
    | none =>
      match (handleParams fn.params).head? with
      | some p => .ancestorArg p.1 (want.getD .none)
      | none =>
        match (listParams fn.params).head? with
        | some p => .ancestorList p.1 (want.getD .none)
        | none => .nobody

/-- The id an owner expression is about. -/
def OwnerExpr.start (params : Option Tree) : OwnerExpr → Nat
  | .argId i => arpcArgId params i
  | .listOwner i => arpcListOwner params i
  | .ancestorArg i _ => arpcArgId params i
  | .ancestorList i _ => arpcListOwner params i
  | .nobody => 0

def OwnerExpr.eval (params : Option Tree) (e : OwnerExpr) : TProg Nat :=
  match e with
  | .ancestorArg _ level => .op (.ancestor (e.start params) level)
  | .ancestorList _ level => .op (.ancestor (e.start params) level)
  | _ => .ret (e.start params)

/-! ## The functions -/

def alpmGetSyncdbs : Fn := ⟨lit "alpm_get_syncdbs", [.handle .handle], .db, .inl rfl⟩

def alpmPkgGetDb : Fn := ⟨lit "alpm_pkg_get_db", [.handle .pkg], .db, .inl rfl⟩

def alpmDbGetPkg : Fn := ⟨lit "alpm_db_get_pkg", [.handle .db, .string], .pkg, .inr rfl⟩

def alpmFindGroupPkgs : Fn :=
  ⟨lit "alpm_find_group_pkgs", [.handles .db, .string], .pkg, .inr rfl⟩

def alpmFindDbsSatisfier : Fn :=
  ⟨lit "alpm_find_dbs_satisfier", [.handle .handle, .handles .db, .string], .pkg, .inr rfl⟩

def alpmSyncGetNewVersion : Fn :=
  ⟨lit "alpm_sync_get_new_version", [.handle .pkg, .handles .db], .pkg, .inr rfl⟩

def alpmPkgFind : Fn := ⟨lit "alpm_pkg_find", [.handles .pkg, .string], .pkg, .inr rfl⟩

def alpmTransGetAdd : Fn := ⟨lit "alpm_trans_get_add", [.handle .handle], .pkg, .inr rfl⟩

/-- A package goes under the db the call names, the first of a list when it names several; with no
db among the arguments, under the db or handle above the first argument. -/
example : [alpmDbGetPkg, alpmFindGroupPkgs, alpmFindDbsSatisfier, alpmSyncGetNewVersion,
    alpmPkgFind, alpmTransGetAdd, alpmPkgGetDb].map ownerExpr =
    [.argId 0, .listOwner 0, .listOwner 1, .listOwner 1, .ancestorList 0 .db, .ancestorArg 0 .db,
      .ancestorArg 0 .handle] := by
  decide

end Gen
