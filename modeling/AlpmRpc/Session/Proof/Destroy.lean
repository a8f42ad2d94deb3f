import AlpmRpc.Session.Destroy
import AlpmRpc.Session.Proof.RefCount
import AlpmRpc.Server.Forest

/-!
# Ids and cached values after a call that destroys

`destroy_cases` is what the stub and the handler do, whatever libalpm did: the request is refused, or
the id and all under it are dropped and what the client has cached under it is released. So a call
that destroyed nothing leaves everything in place only when it had nothing to take.
-/

set_option autoImplicit false

namespace Session

open Json Server Client Gen Wire

/-! ## The handler -/

namespace Destroy

variable (d : Destroy) (objs : List Nat) (id : Word)

/-- The end of the handler, for the object `p`. -/
def finish (p : Nat) : TProg (Res × List Nat) :=
  .call (.dropOwner id.1) fun _ => .ret (.ok (.num (toI64 (d.lib objs p).1)) [], (d.lib objs p).2)

theorem handler_null (h0 : id.1 = 0) :
    d.handler objs (releaseParams id) = d.finish objs id 0 := by
  simp only [handler, argHandle_null id d.tag h0, argId_release, TProg.ret_bind, TProg.op_bind,
    TProg.pure_eq, Bool.false_eq_true, if_false]
  rfl

theorem handler_id (h0 : id.1 ≠ 0) : d.handler objs (releaseParams id) =
    .call (.get id.1 d.tag) fun p =>
      if p = 0 then .ret (badArguments d.name, objs) else d.finish objs id p := by
  simp only [handler, argHandle_id id d.tag h0, argId_release, TProg.call_bind, TProg.ret_bind,
    TProg.op_bind, TProg.pure_eq, beq_iff_eq]
  rfl

theorem sendable_refusal : Sendable (badArguments d.name) := by
  cases d with
  | alpmPkgFree _ =>
    exact ⟨by decide, (by decide : NulFree (lit "alpm_pkg_free" ++ lit ": bad arguments"))⟩
  | alpmDbUnregister _ =>
    exact ⟨by decide, (by decide : NulFree (lit "alpm_db_unregister" ++ lit ": bad arguments"))⟩

theorem nulFree_name : NulFree d.name := by
  cases d with
  | alpmPkgFree _ => exact (by decide : NulFree (lit "alpm_pkg_free"))
  | alpmDbUnregister _ => exact (by decide : NulFree (lit "alpm_db_unregister"))

/-! ## The cache -/

variable {α : Type} (c : Cache α)

/-- What a stub leaves in the cache, live or detached. -/
theorem mem_held_afterCall {e : Owned α} {o : Nat} :
    e ∈ (d.afterCall c o).held ↔ e ∈ c.held ∧ e.owner ≠ o := by
  have hpurge : e ∈ (c.arpcPurgeOwner o).held ↔ e ∈ c.held ∧ e.owner ≠ o := by
    simp only [Cache.held, Cache.arpcPurgeOwner, Cache.purgeWhere, List.mem_append,
      List.mem_filter, Bool.not_eq_eq_eq_not, Bool.not_true, decide_eq_false_iff_not]
    rw [or_and_right]
  cases d with
  | alpmPkgFree _ => exact hpurge
  | alpmDbUnregister _ =>
    rw [← hpurge]
    simp only [afterCall, Cache.held, Cache.arpcDetach, List.mem_append, List.mem_reverse,
      List.mem_filter]
    cases Cache.inScope o true [lit "alpm_get_syncdbs"] e.owner e.key <;> simp

theorem released_afterCall (o : Nat) : ∃ calls, (d.afterCall c o).released = c.released ++ calls := by
  cases d with
  | alpmPkgFree _ => exact ⟨_, rfl⟩
  | alpmDbUnregister _ => exact ⟨_, rfl⟩

end Destroy

/-! ## The call -/

theorem fits_idParam (id : Word) : ∀ p ∈ [Tree.num (toI64 id.1)], Fits 0 p := by
  intro p hp
  cases List.mem_singleton.1 hp
  exact .num (toI64_range _)

variable {α : Type}

/-- A call that is refused changes nothing. -/
theorem destroy_refused (d : Destroy) {rid : Int} (hrid : I64 rid) {id : Word} (s : Sides α) {a : Reg}
    (h : Rep s.table a) (h0 : id.1 ≠ 0) (hg : a.get id.1 d.tag = 0) :
    destroy d rid id s = some s := by
  have hrun : (d.handler s.objs (some (.arr [.num (toI64 id.1)]))).run s.table =
      some (s.table, badArguments d.name, s.objs) := by
    have heq := d.handler_id s.objs id h0
    unfold releaseParams at heq
    rw [heq]
    simp [TProg.run, exec, h.get, hg]
  have hex := exchange_eq hrid d.nulFree_name (fits_idParam id) hrun d.sendable_refusal
  rw [destroy, hex]
  rfl

/-- Any other call drops and purges, whatever libalpm did. -/
theorem destroy_done (d : Destroy) {rid : Int} (hrid : I64 rid) {id : Word} (s : Sides α) {a : Reg}
    (h : Rep s.table a) (hg : id.1 = 0 ∨ a.get id.1 d.tag ≠ 0) :
    ∃ t', Rep t' (a.dropOwner id.1) ∧
      destroy d rid id s = some ⟨t', (d.lib s.objs (a.get id.1 d.tag)).2, d.afterCall s.cache id.1⟩ := by
  obtain ⟨t', ht', hrep⟩ := h.dropOwner id.1
  refine ⟨t', hrep, ?_⟩
  have hfin : ∀ p, (d.finish s.objs id p).run s.table =
      some (t', .ok (.num (toI64 (d.lib s.objs p).1)) [], (d.lib s.objs p).2) := by
    intro p
    simp [Destroy.finish, TProg.run, exec, ht']
  have hrun : (d.handler s.objs (some (.arr [.num (toI64 id.1)]))).run s.table =
      some (t', .ok (.num (toI64 (d.lib s.objs (a.get id.1 d.tag)).1)) [],
        (d.lib s.objs (a.get id.1 d.tag)).2) := by
    by_cases h0 : id.1 = 0
    · have heq := d.handler_null s.objs id h0
      unfold releaseParams at heq
      have hz : a.get id.1 d.tag = 0 := by
        rw [h0, Reg.get, Reg.find_zero h.wf]
      rw [heq, hz, hfin]
    · have hp : a.get id.1 d.tag ≠ 0 := hg.resolve_left h0
      have heq := d.handler_id s.objs id h0
      unfold releaseParams at heq
      rw [heq, TProg.run]
      simp only [exec, h.get, Option.bind_eq_bind, Option.bind_some, Option.pure_def, hp, if_false,
        hfin]
  have hex := exchange_eq hrid d.nulFree_name (fits_idParam id) hrun ⟨.num (toI64_range _), by simp⟩
  rw [destroy, hex]
  rfl

theorem get_dropOwner_self (a : Reg) {id : Nat} (h0 : id ≠ 0) (tag : HandleTag) :
    (a.dropOwner id).get id tag = 0 := by
  have hnone : (a.dropOwner id).find id = none := by
    rw [Reg.find_eq_none, Reg.dropOwner, if_neg h0]
    intro sl hsl he
    have hkeep := (Reg.mem_filter.1 hsl).2
    rw [he] at hkeep
    simp [Reg.under, Reg.underLoop, h0] at hkeep
  rw [Reg.get, hnone]

/-- **When a call that destroys nothing does no harm.** libalpm kept the object; the call leaves every
id and every cached value alone exactly when the id it was made with is of no object of its kind,
and, for `NULL`, nothing is cached under `NULL`. -/
theorem unharmed_iff (d : Destroy) (hd : d.frees = false) (rid : Int) (hrid : I64 rid) (id : Word)
    (s : Sides α) (a : Reg) (h : Rep s.table a) :
    ∃ s', destroy d rid id s = some s' ∧ s'.objs = s.objs ∧
      (Unharmed s s' id.1 ↔ arpcHandleGet s.table id.1 d.tag = some 0 ∧
        (id.1 = 0 → ∀ e ∈ s.cache.held, e.owner ≠ 0)) := by
  by_cases hg : id.1 = 0 ∨ a.get id.1 d.tag ≠ 0
  · obtain ⟨t', h', hs'⟩ := destroy_done d hrid s h hg
    refine ⟨_, hs', ?_, ?_⟩
    · unfold Destroy.lib
      split
      · rfl
      · simp [hd]
    · by_cases h0 : id.1 = 0
      · have hsame : a.dropOwner id.1 = a := by
          rw [Reg.dropOwner, if_pos h0]
        rw [hsame] at h'
        have hz : a.get id.1 d.tag = 0 := by
          rw [h0, Reg.get, Reg.find_zero h.wf]
        rw [h.get, hz]
        refine ⟨fun hu => ⟨rfl, fun _ e he ho => ?_⟩, fun hr => ?_⟩
        · have hin := hu.values e he (ho.trans h0.symm)
          exact ((d.mem_held_afterCall s.cache).1 hin).2 (ho.trans h0.symm)
        · obtain ⟨calls, hcalls⟩ := d.released_afterCall s.cache id.1
          have hno : ∀ e ∈ s.cache.held, e.owner ≠ id.1 := by
            rw [h0]
            exact hr.2 h0
          refine ⟨fun x tag p _ hx => ?_, fun e he ho => absurd ho (hno e he),
            calls, hcalls, fun e he ho => absurd ho (hno e he)⟩
          rw [h'.get]
          rw [h.get] at hx
          exact hx
      · have hp : a.get id.1 d.tag ≠ 0 := hg.resolve_left h0
        refine iff_of_false (fun hu => ?_) fun hr => ?_
        · have hres := hu.ids id.1 d.tag _ hp (h.get _ _)
          rw [h'.get, get_dropOwner_self a h0] at hres
          exact hp (Option.some_inj.1 hres).symm
        · rw [h.get] at hr
          exact hp (Option.some_inj.1 hr.1)
  · obtain ⟨h0, hz⟩ := not_or.1 hg
    rw [not_not] at hz
    refine ⟨s, destroy_refused d hrid s h h0 hz, rfl, iff_of_true ?_ ?_⟩
    · exact ⟨fun _ _ _ _ hx => hx, fun _ he _ => he, [], by simp, by simp⟩
    · rw [h.get, hz]
      exact ⟨rfl, fun he => absurd he h0⟩

/-- A handle, a db of it, and a package of the db. -/
def dbOps : List Op := [.put 16 .handle 0, .put 32 .db (mkId 1 1), .put 48 .pkg (mkId 1 2)]

/-- The db and the package have ids, and the client has the db's package list. -/
def dbInUse : Sides Unit where
  table := (runTable {} dbOps).getD {}
  objs := [16, 32, 48]
  cache := { owned := [{ owner := mkId 1 2, key := lit "alpm_db_get_pkgcache", num := 0,
                         value := .obj (), release := 1 }], next := 1 }

theorem dbId_lt : mkId 1 2 < 2 ^ 64 := by decide +kernel

def dbId : Word := ⟨mkId 1 2, dbId_lt⟩

theorem dbInUse_rep : ∃ a, Rep dbInUse.table a := by
  obtain ⟨t₁, e₁, h₁⟩ := Rep.empty.exec (.put 16 .handle 0) (by decide +kernel)
  obtain ⟨t₂, e₂, h₂⟩ := h₁.exec (.put 32 .db (mkId 1 1)) (by decide +kernel)
  obtain ⟨t₃, e₃, h₃⟩ := h₂.exec (.put 48 .pkg (mkId 1 2)) (by decide +kernel)
  have hrun : runTable {} dbOps = some t₃ := by
    simp only [runTable, dbOps, e₁, e₂, e₃, Option.bind_eq_bind, Option.bind_some]
  have htable : dbInUse.table = t₃ := by
    unfold dbInUse
    rw [hrun]
    rfl
  rw [htable]
  exact ⟨_, h₃⟩

theorem unharmed_iff_dbInUse :
    ∃ s', destroy (.alpmDbUnregister (-1)) 7 dbId dbInUse = some s' ∧ s'.objs = dbInUse.objs ∧
      (Unharmed dbInUse s' dbId.1 ↔ arpcHandleGet dbInUse.table dbId.1 .db = some 0 ∧
        (dbId.1 = 0 → ∀ e ∈ dbInUse.cache.held, e.owner ≠ 0)) := by
  obtain ⟨a, h⟩ := dbInUse_rep
  exact unharmed_iff (.alpmDbUnregister (-1)) rfl 7 (by decide) dbId dbInUse a h

/-- An `alpm_db_unregister` that libalpm refuses: the db is there, its id and its package's are not,
and the list the client handed out is freed. -/
theorem refused_unregister_harms :
    (destroy (.alpmDbUnregister (-1)) 7 dbId dbInUse).map (fun s' =>
      (s'.objs, arpcHandleGet s'.table dbId.1 .db, arpcHandleGet s'.table (mkId 1 3) .pkg,
        s'.cache.released)) = some ([16, 32, 48], some 0, some 0, [(1, 0)]) ∧
    arpcHandleGet dbInUse.table dbId.1 .db = some 32 ∧
    arpcHandleGet dbInUse.table (mkId 1 3) .pkg = some 48 ∧
    ∀ s', destroy (.alpmDbUnregister (-1)) 7 dbId dbInUse = some s' →
      ¬Unharmed dbInUse s' dbId.1 := by
  have hbefore : arpcHandleGet dbInUse.table dbId.1 .db = some 32 := by decide +kernel
  have hafter : (destroy (.alpmDbUnregister (-1)) 7 dbId dbInUse).map (fun s' =>
      (s'.objs, arpcHandleGet s'.table dbId.1 .db, arpcHandleGet s'.table (mkId 1 3) .pkg,
        s'.cache.released)) = some ([16, 32, 48], some 0, some 0, [(1, 0)]) := by
    decide +kernel
  refine ⟨hafter, hbefore, by decide +kernel, fun s' hs' hu => ?_⟩
  have hkept := hu.ids dbId.1 .db 32 (by decide) hbefore
  rw [hs', Option.map_some, Option.some_inj, hkept] at hafter
  simp at hafter

end Session
