import AlpmRpc.Client.Cache
import AlpmRpc.Gen.Invalidate
import AlpmRpc.Lib.Run
import AlpmRpc.Server.Proof.Forest

/-!
# The client's cache and libalpm

The stubs of the borrowed results, which answer from the cache when they can, and of the calls after
which results are detached (`emit_client` of `tools/gen/emit.py`), against one server: libalpm, which
is a parameter, and the handle table. What the other stubs make the server do is the action. A getter
lists objects, which cross as ids, and has strings and fields. Columns are in `Session/Columns.lean`.
-/

set_option autoImplicit false

namespace Session

namespace Coherence

open Json Gen Server Client Wire

/-- What libalpm has for its getters; `σ` is all that it depends on. -/
structure Libalpm (σ δ : Type) where
  /-- the objects a getter lists for an object, and the strings and fields -/
  get : σ → Nat → Bytes → List KeyArg → List Nat × δ
  /-- the kind of a getter's first argument -/
  tag : Bytes → HandleTag
  /-- the kind of the objects it lists -/
  objTag : Bytes → HandleTag

/-- A borrowed list or struct on the client, with the request it was the answer to. -/
structure Copy (δ : Type) where
  fn : Bytes
  extra : List KeyArg
  ids : List Nat
  rest : δ
  deriving DecidableEq

deriving instance DecidableEq for Cache

structure World (σ δ : Type) where
  lib : σ
  reg : Reg := {}
  cache : Cache (Copy δ) := {}
  deriving DecidableEq

/-- A call that is no borrowed getter's. -/
structure Stub where
  fn : Bytes
  /-- the first handle argument, of a function that has one -/
  first : Option Nat
  /-- the ids in its list arguments, by the parameter's name -/
  lists : Bytes → List Nat := fun _ => []

inductive Event (σ : Type) where
  /-- the stub of a borrowed list or struct; the server files what it lists under `under` -/
  | read (fn : Bytes) (owner : Nat) (extra : List KeyArg) (under : Nat) (answered : Bool)
  /-- any other stub: what libalpm has then, the calls of the handle table that were made, and
  whether the client has the reply -/
  | call (c : Stub) (lib : σ) (ops : List Op) (answered : Bool)
  /-- the stub of a borrowed string -/
  | str (owner : Nat) (key : Bytes) (value : Option Bytes)

variable {σ δ : Type}

/-! ## The server -/

/-- The calls of the table, in order, with what they answer. -/
def execs (a : Reg) : List Op → Reg × List Nat
  | [] => (a, [])
  | op :: ops =>
    let (a, r) := a.exec op
    let (a, rs) := execs a ops
    (a, r :: rs)

/-- The handler of a getter, for an owner that is live: its answer, and the table then. -/
def fresh (V : Libalpm σ δ) (w : World σ δ) (fn : Bytes) (owner : Nat) (extra : List KeyArg)
    (under : Nat) : Option (Copy δ × Reg) :=
  let p := w.reg.get owner (V.tag fn)
  if p = 0 then none
  else
    let (objs, rest) := V.get w.lib p fn extra
    let (reg, ids) := execs w.reg (objs.map fun q => .put q (V.objTag fn) under)
    some (⟨fn, extra, ids, rest⟩, reg)

/-! ## The client -/

/-- `destroys` of the overlay -/
def destroys : List (Bytes × HandleTag) :=
  [(lit "alpm_release", .handle), (lit "alpm_pkg_free", .pkg), (lit "alpm_db_unregister", .db)]

/-- What a stub detaches. -/
def detach (c : Cache (Copy δ)) (first : Nat) (lists : Bytes → List Nat) (inv : Entry) :
    Cache (Copy δ) :=
  match inv.under with
  | .self => c.arpcDetach first false inv.keys
  | .root => c.arpcDetach first true inv.keys
  | .each p => (lists p).foldl (fun c id => c.arpcDetach id false inv.keys) c

/-- `after_call`; `none` for a build that fails. -/
def afterCall (h : Header) (c : Cache (Copy δ)) (s : Stub) : Option (Cache (Copy δ)) :=
  match s.first with
  | none => some c
  | some first =>
    if destroys.lookup s.fn = some .handle then some (c.arpcPurgeRoot first)
    else
      let c := if (destroys.lookup s.fn).isSome then c.arpcPurgeOwner first else c
      match invalidationOf h s.fn with
      | none => none
      | some none => some c
      | some (some inv) => some (detach c first s.lists inv)

def step (h : Header) (V : Libalpm σ δ) (w : World σ δ) : Event σ → Option (World σ δ)
  | .read fn owner extra under answered =>
    if fn ∉ h.generated then none
    else if (w.cache.arpcCached owner (cacheKey fn extra)).isSome then some w
    else
      match fresh V w fn owner extra under with
      | none => some w
      | some (copy, reg) =>
        if answered then
          (w.cache.arpcCache owner (cacheKey fn extra) copy 1).map fun r =>
            { w with reg, cache := r.1 }
        else some { w with reg }
  | .call c lib ops answered =>
    (if answered then afterCall h w.cache c else some w.cache).map fun cache =>
      { lib, reg := (execs w.reg ops).1, cache }
  | .str owner key value => (w.cache.intern owner key value).map fun r => { w with cache := r.1 }

/-! ## What is assumed of libalpm -/

def sysupgrades : List Bytes := [lit "alpm_sync_sysupgrade", lit "alpm_sync_sysupgrade_core"]

def transCalls : List Bytes :=
  [lit "alpm_add_pkg", lit "alpm_remove_pkg", lit "alpm_trans_init", lit "alpm_trans_prepare",
    lit "alpm_trans_commit", lit "alpm_trans_interrupt", lit "alpm_trans_release"]

/-- The call may change what the getter `g` has for the object of `id`: its footprint. -/
inductive Touches (a : Reg) (c : Stub) (id : Nat) (g : Bytes) : Prop where
  /-- the lists of the transaction of the handle -/
  | trans (hf : c.fn ∈ transCalls ∨ c.fn ∈ sysupgrades) (hg : g ∈ transKeys)
      (ho : c.first = some id)
  /-- the packages of any db of the handle -/
  | commit (hf : c.fn = lit "alpm_trans_commit") (hg : g ∈ dbKeys)
      (ho : c.first = some (a.ancestor id .handle))
  /-- the packages of the dbs passed -/
  | update (first : Nat) (hf : c.fn = lit "alpm_db_update") (hg : g ∈ dbKeys)
      (hc : c.first = some first) (ho : id ∈ c.lists (lit "dbs"))
  /-- the sync dbs of the handle -/
  | syncdbs (hf : c.fn = lit "alpm_register_syncdb" ∨ c.fn = lit "alpm_unregister_all_syncdbs")
      (hg : g = lit "alpm_get_syncdbs") (ho : c.first = some id)
  /-- the sync dbs of the db's handle -/
  | unregister (db : Nat) (hf : c.fn = lit "alpm_db_unregister") (hg : g = lit "alpm_get_syncdbs")
      (hc : c.first = some db) (ho : a.ancestor db .handle = id)
  /-- an option of a handle -/
  | option (x : Bytes) (hf : setterOf (lit "alpm_option_") c.fn = some x)
      (hg : g ∈ gettersOf (lit "alpm_option_get_") x) (ho : c.first = some id)
  /-- an option of a db -/
  | dbOption (x : Bytes) (hf : setterOf (lit "alpm_db_") c.fn = some x)
      (hg : g ∈ gettersOf (lit "alpm_db_get_") x) (ho : c.first = some id)

/-- libalpm changes nothing else that it has for an object that stays. -/
def KeepsTo (V : Libalpm σ δ) (w : World σ δ) : Event σ → Prop
  | .call c lib ops _ => ∀ id p g extra, w.reg.Has id p (V.tag g) →
    (execs w.reg ops).1.Has id p (V.tag g) → ¬Touches w.reg c id g →
      V.get lib p g extra = V.get w.lib p g extra
  | _ => True

/-! ## What the handle table is asked -/

/-- The calls are ones the generated code makes, and there are ids left for them. -/
def AllowedAll (a : Reg) : List Op → Prop
  | [] => True
  | op :: ops => a.Allowed op ∧ a.nextSeq + a.issues op ≤ 2 ^ 40 ∧ AllowedAll (a.exec op).1 ops

def Regular (V : Libalpm σ δ) (w : World σ δ) : Event σ → Prop
  | .read fn owner extra under _ => AllowedAll w.reg
    ((V.get w.lib (w.reg.get owner (V.tag fn)) fn extra).1.map fun q => .put q (V.objTag fn) under)
  | .call _ _ ops _ => AllowedAll w.reg ops
  | .str _ _ _ => True

/-! ## What is wanted, and when it holds -/

/-- The results in the cache. -/
def Caches (c : Cache (Copy δ)) (owner : Nat) (copy : Copy δ) : Prop :=
  ∃ e ∈ c.owned, e.owner = owner ∧ e.value = .obj copy

/-- What a stub answers from the cache, for an owner that is live, is what the server would answer
now: the same ids, strings and fields. -/
def Current (V : Libalpm σ δ) (w : World σ δ) : Event σ → Prop
  | .read fn owner extra under _ => ∀ e copy,
    w.cache.findOwned owner (cacheKey fn extra) = some e → e.value = .obj copy →
    w.reg.get owner (V.tag fn) ≠ 0 →
      (fresh V w fn owner extra under).map (fun r => (r.1.ids, r.1.rest)) = some (copy.ids, copy.rest)
  | _ => True

/-- The steps that the cache is told of.

A read: the result under its key was fetched for the same request. A call: what may change a result
has a reply; a sysupgrade finds neither list of the transaction in the cache; and a cached result
loses the id of an object it lists only when the call may change it, or its owner goes. -/
def Told (V : Libalpm σ δ) (w : World σ δ) : Event σ → Prop
  | .read fn owner extra _ _ => ∀ e copy,
    w.cache.findOwned owner (cacheKey fn extra) = some e → e.value = .obj copy →
      copy.fn = fn ∧ copy.extra = extra
  | .call c _ ops answered =>
    (answered = false → ∀ id g, ¬Touches w.reg c id g) ∧
    (c.fn ∈ sysupgrades → ∀ id copy, Caches w.cache id copy → copy.fn ∈ transKeys →
      c.first ≠ some id) ∧
    ∀ id copy, Caches w.cache id copy → ¬Touches w.reg c id copy.fn →
      (∃ p, (execs w.reg ops).1.Has id p (V.tag copy.fn)) →
      ∀ i ∈ copy.ids, ∀ q, w.reg.Has i q (V.objTag copy.fn) →
        (execs w.reg ops).1.Has i q (V.objTag copy.fn)
  | .str _ _ _ => True

end Coherence

end Session
