import AlpmRpc.Session.Fleet

/-!
# Whose object an id reaches

While a client is connected, an id it holds that is live at its server is one the server gave it:
this is so when it connects, and a server's table gets new ids only by giving them out
(`live_exec`).
-/

set_option autoImplicit false

namespace Session

open Server Run Wire

namespace Fleet

variable {w w' : Fleet}

structure Inv (w : Fleet) : Prop where
  rep : ∀ s, ∃ a, Rep (w.tables s) a
  conn : ∀ c s, w.conn c = some s → w.serves s = some c
  asked : ∀ s c, w.serves s = some c → ∀ id ∈ w.asked s, Live (w.tables s) id → id ∈ w.issued s c
  held : ∀ c s, w.conn c = some s → ∀ id ∈ w.held c, Live (w.tables s) id → id ∈ w.issued s c

theorem Inv.empty : Inv {} where
  rep _ := ⟨_, Rep.empty⟩
  conn := by rintro c s ⟨⟩
  asked := by rintro s c ⟨⟩
  held := by rintro c s ⟨⟩

theorem live_iff {t : Table} {a : Reg} (h : Rep t a) {id : Nat} :
    Live t id ↔ ∃ tag p, a.Has id p tag := by
  constructor
  · rintro ⟨tag, p, hp, hg⟩
    rw [h.get, Option.some_inj] at hg
    exact ⟨tag, p, (Reg.get_eq_iff h.wf hp).1 hg⟩
  · rintro ⟨tag, p, hh⟩
    have hp := hh.ptr_ne h.wf
    exact ⟨tag, p, hp, by rw [h.get, (Reg.get_eq_iff h.wf hp).2 hh]⟩

/-- **A call of the table**: what is live after it was live before, or is what a put answered. -/
theorem live_exec {t t' : Table} {a : Reg} {op : Op} {r : Nat} (h : Rep t a)
    (hb : t.nextSeq < 2 ^ 40) (he : exec t op = some (t', r)) :
    (∃ a', Rep t' a') ∧
      ∀ id, Live t' id → Live t id ∨ (op.object.isSome = true ∧ id = r) := by
  have hone := a.issues_le op
  rw [h.nextSeq] at hb
  obtain ⟨t₁, ht₁, h'⟩ := h.exec op (by omega)
  rw [ht₁] at he
  cases he
  refine ⟨⟨_, h'⟩, fun id hl => ?_⟩
  obtain ⟨tag, p, hh⟩ := (live_iff h').1 hl
  rcases (h.has_exec op (hh.ptr_ne h'.wf)).1 hh with ⟨ho, hr⟩ | ⟨hold, -⟩
  · exact .inr ⟨by rw [ho]; rfl, hr.symm⟩
  · exact .inl ((live_iff h).2 ⟨tag, p, hold⟩)

/-! ## Steps -/

theorem mem_give {s c s' c' id r : Nat} {op : Op} (h : id ∈ w.issued s' c') :
    id ∈ (w.give s c op r).issued s' c' := by
  unfold give
  split
  · by_cases hs : s' = s
    · subst hs
      by_cases hc : c' = c
      · subst hc
        simp [h]
      · simpa [hc] using h
    · simpa [hs] using h
  · exact h

theorem mem_give_self {s c r : Nat} {op : Op} (ho : op.object.isSome = true) :
    r ∈ (w.give s c op r).issued s c := by
  simp [give, ho]

theorem give_tables (w : Fleet) (s c : Nat) (op : Op) (r : Nat) :
    (w.give s c op r).tables = w.tables ∧ (w.give s c op r).serves = w.serves ∧
      (w.give s c op r).asked = w.asked ∧ (w.give s c op r).conn = w.conn := by
  unfold give
  split <;> exact ⟨rfl, rfl, rfl, rfl⟩

/-- The ids a client has after a put: its pipe leads to the server that made it. -/
theorem mem_held_give {s c c' id r : Nat} {op : Op} (h : id ∈ (w.give s c op r).held c') :
    id ∈ w.held c' ∨ (op.object.isSome = true ∧ c' = c ∧ w.conn c = some s ∧ id = r) := by
  unfold give at h
  split at h
  · rename_i ho
    dsimp only at h
    split at h
    · rename_i hc
      by_cases hcc : c' = c
      · subst hcc
        rw [Function.update_self] at h
        rcases List.mem_cons.1 h with rfl | h
        · exact .inr ⟨ho, rfl, hc, rfl⟩
        · exact .inl h
      · rw [Function.update_of_ne hcc] at h
        exact .inl h
    · exact .inl h
  · exact .inl h

/-- What a server's call of its table does. -/
theorem step_exec {s : Nat} {op : Op} (h : step w (.exec s op) = some w') :
    ∃ c t r, w.serves s = some c ∧ w.MayExec s op ∧ Server.exec (w.tables s) op = some (t, r) ∧
      w' = { w with tables := Function.update w.tables s t }.give s c op r := by
  rw [step] at h
  split at h
  · rename_i c hs
    split at h
    · rename_i hmay
      obtain ⟨⟨t, r⟩, he, hr⟩ := Option.bind_eq_some_iff.1 h
      exact ⟨c, t, r, hs, hmay, he, (Option.some_inj.1 hr).symm⟩
    · cases h
  · cases h

/-- A server's call of its table. -/
theorem Inv.exec (h : Inv w) {s c r : Nat} {op : Op} {t : Table} (hs : w.serves s = some c)
    (hb : (w.tables s).nextSeq < 2 ^ 40) (he : Server.exec (w.tables s) op = some (t, r)) :
    Inv ({ w with tables := Function.update w.tables s t }.give s c op r) := by
  obtain ⟨a, ha⟩ := h.rep s
  obtain ⟨hrep, hlive⟩ := live_exec ha hb he
  obtain ⟨htab, hsrv, hask, hconn⟩ :=
    give_tables { w with tables := Function.update w.tables s t } s c op r
  -- an id that may be used at `s'` stays one, and a new one is `c`'s
  have hkeep : ∀ s' c' id, w.serves s' = some c' → (Live (w.tables s') id → id ∈ w.issued s' c') →
      Live (Function.update w.tables s t s') id →
      id ∈ ({ w with tables := Function.update w.tables s t }.give s c op r).issued s' c' := by
    intro s' c' id hs' hold hl
    by_cases hss : s' = s
    · subst hss
      rw [Function.update_self] at hl
      rcases hlive id hl with hl | ⟨ho, rfl⟩
      · exact mem_give (w := { w with tables := Function.update w.tables s' t }) (hold hl)
      · rw [hs'] at hs
        cases hs
        exact mem_give_self ho
    · rw [Function.update_of_ne hss] at hl
      exact mem_give (w := { w with tables := Function.update w.tables s t }) (hold hl)
  refine ⟨fun s' => ?_, ?_, ?_, ?_⟩
  · rw [htab]
    show ∃ a, Rep (Function.update w.tables s t s') a
    by_cases hss : s' = s
    · subst hss
      rw [Function.update_self]
      exact hrep
    · rw [Function.update_of_ne hss]
      exact h.rep s'
  · rw [hsrv, hconn]
    exact h.conn
  · rw [htab, hsrv, hask]
    intro s' c' hs' id hid hl
    exact hkeep s' c' id hs' (h.asked s' c' hs' id hid) hl
  · rw [htab, hconn]
    intro c' s' hc' id hid hl
    rcases mem_held_give hid with hid | ⟨ho, rfl, hc, rfl⟩
    · exact hkeep s' c' id (h.conn c' s' hc') (h.held c' s' hc' id hid) hl
    · rw [hc] at hc'
      cases hc'
      exact mem_give_self ho

/-- A client without a pipe. -/
theorem Inv.hangUp (h : Inv w) (c : Nat) {left : List Nat} :
    Inv { w with conn := Function.update w.conn c none, left := left } := by
  have hconn : ∀ c' s, Function.update w.conn c none c' = some s → w.conn c' = some s := by
    intro c' s hc'
    by_cases hcc : c' = c
    · subst hcc
      rw [Function.update_self] at hc'
      cases hc'
    · rwa [Function.update_of_ne hcc] at hc'
  exact ⟨h.rep, fun c' s hc' => h.conn c' s (hconn c' s hc'), h.asked,
    fun c' s hc' => h.held c' s (hconn c' s hc')⟩

/-- A new connection. -/
theorem Inv.connect (h : Inv w) {c s : Nat} (hs : w.serves s = none)
    (hown : ∀ id ∈ w.held c, Live (w.tables s) id → id ∈ w.issued s c) :
    Inv { w with
      serves := Function.update w.serves s (some c)
      asked := Function.update w.asked s []
      conn := Function.update w.conn c (some s) } := by
  refine ⟨h.rep, fun c' s' hc' => ?_, fun s' c' hs' id hid => ?_, fun c' s' hc' => ?_⟩
  · dsimp only at hc' ⊢
    by_cases hcc : c' = c
    · subst hcc
      rw [Function.update_self] at hc'
      cases hc'
      rw [Function.update_self]
    · rw [Function.update_of_ne hcc] at hc'
      have hold := h.conn c' s' hc'
      have hss : s' ≠ s := by
        rintro rfl
        rw [hs] at hold
        cases hold
      rw [Function.update_of_ne hss]
      exact hold
  · dsimp only at hs' hid ⊢
    by_cases hss : s' = s
    · subst hss
      rw [Function.update_self] at hid
      cases hid
    · rw [Function.update_of_ne hss] at hs' hid
      exact h.asked s' c' hs' id hid
  · dsimp only at hc' ⊢
    by_cases hcc : c' = c
    · subst hcc
      rw [Function.update_self] at hc'
      cases hc'
      exact hown
    · rw [Function.update_of_ne hcc] at hc'
      exact h.held c' s' hc'

theorem Inv.request (h : Inv w) {c s : Nat} {ids : List Nat} (hc : w.conn c = some s)
    (hids : ∀ id ∈ ids, id ∈ w.held c) :
    Inv { w with asked := Function.update w.asked s (ids ++ w.asked s) } := by
  refine ⟨h.rep, h.conn, fun s' c' hs' id hid hl => ?_, h.held⟩
  dsimp only at hid
  by_cases hss : s' = s
  · subst hss
    rw [Function.update_self] at hid
    rcases List.mem_append.1 hid with hid | hid
    · have hcc : c' = c := Option.some_inj.1 (hs'.symm.trans (h.conn c s' hc))
      subst hcc
      exact h.held c' s' hc id (hids id hid) hl
    · exact h.asked s' c' hs' id hid hl
  · rw [Function.update_of_ne hss] at hid
    exact h.asked s' c' hs' id hid hl

theorem Inv.noticed (h : Inv w) {c s : Nat} (hs : w.serves s = some c) (hc : w.conn c ≠ some s) :
    Inv { w with serves := Function.update w.serves s none } := by
  refine ⟨h.rep, fun c' s' hc' => ?_, fun s' c' hs' => ?_, h.held⟩
  · have hold := h.conn c' s' hc'
    have hss : s' ≠ s := by
      rintro rfl
      rw [hs] at hold
      cases hold
      exact hc hc'
    dsimp only
    rw [Function.update_of_ne hss]
    exact hold
  · dsimp only at hs' ⊢
    by_cases hss : s' = s
    · subst hss
      rw [Function.update_self] at hs'
      cases hs'
    · rw [Function.update_of_ne hss] at hs'
      exact h.asked s' c' hs'

/-- **Every event keeps the invariant**, if no stranger's id comes with it. -/
theorem Inv.step (h : Inv w) {e : Event} (hstep : step w e = some w') (hok : NoStrangers w e w') :
    Inv w' := by
  cases e with
  | start =>
    cases hstep
    exact ⟨h.rep, h.conn, h.asked, h.held⟩
  | connect c s =>
    rw [Fleet.step] at hstep
    split at hstep
    · rename_i hfree
      cases hstep
      exact h.connect hfree.2.1 (hok.1 c s rfl)
    · cases hstep
  | request c ids =>
    rw [Fleet.step] at hstep
    split at hstep
    · rename_i s hc
      split at hstep
      · rename_i hids
        cases hstep
        exact h.request hc hids
      · cases hstep
    · cases hstep
  | exec s op =>
    obtain ⟨c, t, r, hs, -, he, rfl⟩ := step_exec hstep
    exact h.exec hs (hok.2 s op rfl) he
  | lost c =>
    cases hstep
    exact h.hangUp c
  | noticed s =>
    rw [Fleet.step] at hstep
    split at hstep
    · rename_i c hs
      split at hstep
      · cases hstep
      · rename_i hc
        cases hstep
        exact h.noticed hs hc
    · cases hstep
  | leave c =>
    cases hstep
    exact h.hangUp c

theorem Inv.ownIds (h : Inv w) {e : Event} (hstep : Fleet.step w e = some w') : OwnIds w e w' := by
  rintro s c id tag p rfl hs hp hg
  obtain ⟨-, -, -, -, hasked, -⟩ := step_exec hstep
  exact h.asked s c hs id hasked ⟨tag, p, hp, hg⟩

/-- **An id reaches only what its server gave its client**, in every run in which no client connects
with an id that is live there and is not from there, and no server runs out of sequence numbers. -/
theorem own_ids (es : List Event) (h : Along step NoStrangers {} es) : Along step OwnIds {} es := by
  refine Along.of_inv (fun w e w' hI hstep hok => ?_) Inv.empty h
  exact ⟨hI.ownIds hstep, hI.step hstep hok⟩

/-- The first id a server gives a handle. -/
def firstId : Nat := mkId 1 1

/-- Two servers, each with a client that made a handle. The first client loses its pipe and comes back
with its handle's id; when its server is gone and the second has dropped its own handle of that id, it
comes there, and makes another. -/
def backAndForth : List Event :=
  [.start, .start, .connect 0 0, .exec 0 (.put 16 .handle 0), .connect 1 1,
   .exec 1 (.put 32 .handle 0), .lost 0, .noticed 0, .connect 0 0, .request 0 [firstId],
   .exec 0 (.get firstId .handle), .request 1 [firstId], .exec 1 (.dropOwner firstId), .leave 1,
   .noticed 1, .lost 0, .connect 0 1, .request 0 [firstId], .exec 1 (.get firstId .handle),
   .exec 1 (.put 48 .handle 0), .request 0 [mkId 2 2], .exec 1 (.get (mkId 2 2) .handle)]

theorem own_ids_backAndForth :
    (backAndForth.foldlM step {}).map (fun w => (w.held 0, w.issued 0 0, w.issued 1 0, w.issued 1 1)) =
      some ([mkId 2 2, firstId], [firstId], [mkId 2 2], [firstId]) ∧
    Along step OwnIds {} backAndForth :=
  ⟨by decide +kernel, own_ids backAndForth (by decide +kernel)⟩

/-- Two servers, each with a client that made a handle. The second client goes without releasing its
handle; the first loses its server and comes to the second's. -/
def twoServers : List Event :=
  [.start, .start, .connect 0 0, .exec 0 (.put 16 .handle 0), .connect 1 1,
   .exec 1 (.put 32 .handle 0), .leave 1, .noticed 1, .lost 0, .connect 0 1, .request 0 [firstId]]

/-- The first client's handle is now the second client's. -/
theorem stale_id_resolves :
    (twoServers.foldlM step {}).map (fun w => (w.serves 1, w.issued 1 0, w.issued 1 1,
      arpcHandleGet (w.tables 1) firstId .handle)) = some (some 0, [], [firstId], some 32) ∧
    ¬Along step OwnIds {} (twoServers ++ [.exec 1 (.get firstId .handle)]) := by
  have hrun : (twoServers.foldlM step {}).map (fun w => (w.serves 1, w.issued 1 0, w.issued 1 1,
      arpcHandleGet (w.tables 1) firstId .handle)) = some (some 0, [], [firstId], some 32) := by
    decide +kernel
  have hlast : ((twoServers.foldlM step {}).bind
      fun w => step w (.exec 1 (.get firstId .handle))).isSome = true := by
    decide +kernel
  refine ⟨hrun, fun h => ?_⟩
  obtain ⟨w, hw, hfacts⟩ := Option.map_eq_some_iff.1 hrun
  rw [hw, Option.bind_some] at hlast
  obtain ⟨w', hw'⟩ := Option.isSome_iff_exists.1 hlast
  simp only [Prod.mk.injEq] at hfacts
  obtain ⟨hserves, hissued, -, hget⟩ := hfacts
  have hin := h.last hw hw' 1 0 firstId .handle 32 rfl hserves (by decide) hget
  rw [hissued] at hin
  cases hin

end Fleet

end Session
