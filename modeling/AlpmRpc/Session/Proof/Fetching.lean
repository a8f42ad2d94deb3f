import AlpmRpc.Client.Proof.Groups
import AlpmRpc.Session.Fetching

/-!
# What reentrant fetches keep

Every event grows the groups, answers a read, stores a column or drops one (`Moves`, `moves_of_step`).
`Base` holds in every run. `Inv`, which says what `Single` says and that the strings returned are still
there, needs that no column is stored beside another of its field (`Inv.moves`), and it is lost where
one is (`Moves.unshared`). Storing and dropping are one operation on a group's columns, `recolumn`.
-/

set_option autoImplicit false

namespace Session

open Wire Json Client Run

namespace Fetching

variable {isStr : Bytes → Bool} {w w' : Fetching}

/-! ## What an event does -/

/-- A fetch is for a package that has a slot. -/
def Slotted (s : Groups) : Pending → Prop
  | .fetch id g slot _ _ => ⟨id, g, slot⟩ ∈ s.slots
  | _ => True

/-- The columns are the groups' ones. -/
structure Base (w : Fetching) : Prop where
  wf : w.groups.Wf
  sync : ∀ x ∈ w.groups.groups, x.cols = (w.kept x.num).map (·.col)
  fresh : ∀ g, w.groups.nextGroup ≤ g → w.kept g = []
  frames : ∀ f ∈ w.stack, Slotted w.groups f

/-- Other columns for a group. -/
def recolumn (w : Fetching) (g : Nat) (ks : List Kept) : Fetching :=
  { w with
    groups := w.groups.setCols g (ks.map (·.col))
    kept := Function.update w.kept g ks }

/-- The column that `fetch_column` makes of what the server read. -/
def fetchedColumn (isStr : Bytes → Bool) (w : Fetching) (x : PkgGroup) (field : Bytes)
    (got : List (Tree × Nat)) : Kept where
  col := ⟨field, Groups.fetchCells (isStr field) x.ids.length (got.map (·.1))⟩
  num := w.made
  read := got.map (·.2)

/-- What an event does to the client. -/
inductive Moves (isStr : Bytes → Bool) (w : Fetching) : Event → Fetching → Prop
  /-- packages get slots, and something is entered or left -/
  | grow {e : Event} {groups : Groups} {stack : List Pending} {sets : Nat} (hu : w.Unshared e)
      (hext : w.groups.Extends groups) (hwf : groups.Wf) (hs : ∀ f ∈ stack, Slotted groups f) :
      Moves isStr w e { w with groups, stack, sets }
  | answer {field : Bytes} {groups : Groups} {p : PkgSlot} (hext : w.groups.Extends groups)
      (hwf : groups.Wf) (hp : p ∈ groups.slots) :
      Moves isStr w (.read p.id field) ({ w with groups }.answer p.id p.g p.slot field)
  | store {p : PkgSlot} {x : PkgGroup} {field : Bytes} {got : List (Tree × Nat)}
      {rest : List Pending} (hstack : w.stack = .fetch p.id p.g p.slot field got :: rest)
      (hp : p ∈ w.groups.slots) (hx : x ∈ w.groups.groups) (hxp : x.num = p.g) :
      Moves isStr w .reply
        ({ w with stack := rest, made := w.made + 1 }.recolumn x.num
          (w.fetchedColumn isStr x field got :: w.kept x.num) |>.answer p.id p.g p.slot field)
  /-- no slot, no column -/
  | setNone {id : Nat} {effect : Option Nat} {rest : List Pending}
      (hstack : w.stack = .setReason id effect :: rest) (hp : ∀ p ∈ w.groups.slots, p.id ≠ id) :
      Moves isStr w .reply { w with
        stack := rest
        settled := effect.elim w.settled (Function.update w.settled id) }
  | setDrop {p : PkgSlot} {x : PkgGroup} {effect : Option Nat} {rest : List Pending}
      (hstack : w.stack = .setReason p.id effect :: rest) (hp : p ∈ w.groups.slots)
      (hx : x ∈ w.groups.groups) (hxp : x.num = p.g) :
      Moves isStr w .reply
        { { w with stack := rest }.recolumn x.num
            ((w.kept x.num).eraseP (·.col.field = reasonField)) with
          settled := effect.elim w.settled (Function.update w.settled p.id) }

/-- Something is entered or left. -/
theorem Moves.enter (h : w.Base) {e : Event} (hu : w.Unshared e) {stack : List Pending} {sets : Nat}
    (hs : ∀ f ∈ stack, Slotted w.groups f) : Moves isStr w e { w with stack, sets } :=
  .grow hu (.refl _) h.wf hs

theorem Base.rest (h : w.Base) {f : Pending} {rest : List Pending} (hst : w.stack = f :: rest) :
    ∀ f ∈ rest, Slotted w.groups f := by
  intro f' hf
  exact h.frames f' (by rw [hst]; exact List.mem_cons_of_mem _ hf)

theorem Base.frames_extend (h : w.Base) {groups : Groups} (hext : w.groups.Extends groups) :
    ∀ f ∈ w.stack, Slotted groups f := by
  intro f hf
  have hslot := h.frames f hf
  cases f with
  | fetch => exact hext.old _ hslot
  | _ => trivial

/-- The slot of the package that a fetch is for, and its group. -/
theorem Base.fetch_group (h : w.Base) {id g slot : Nat} {field : Bytes}
    {got : List (Tree × Nat)} {rest : List Pending}
    (hst : w.stack = .fetch id g slot field got :: rest) :
    ⟨id, g, slot⟩ ∈ w.groups.slots ∧ ∃ x ∈ w.groups.groups, x.num = g ∧ w.groups.deref g = some x := by
  have hp : ⟨id, g, slot⟩ ∈ w.groups.slots :=
    h.frames (.fetch id g slot field got) (by rw [hst]; exact List.mem_cons_self)
  obtain ⟨x, hx, hxp, -⟩ := h.wf.slots _ hp
  have hd := h.wf.deref_eq hx
  rw [hxp] at hd
  exact ⟨hp, x, hx, hxp, hd⟩

theorem Base.moves_read (h : w.Base) {id : Nat} {field : Bytes} (hs : w.read id field = some w') :
    Moves isStr w (.read id field) w' := by
  unfold read at hs
  split at hs
  · cases hs
    exact .enter (e := .read id field) h trivial h.frames
  · obtain ⟨groups, p, hg, hwf, hext, hp, rfl⟩ := h.wf.groupForPkg_slot id
    obtain ⟨x, hx, hxp, -⟩ := hwf.slots p hp
    have hd := hwf.deref_eq hx
    rw [hxp] at hd
    simp only [hg, hd, Option.bind_eq_bind, Option.bind_some] at hs
    split at hs
    · cases hs
      exact .answer hext hwf hp
    · cases hs
      exact .grow trivial hext hwf
        (List.forall_mem_cons.2 ⟨hp, h.frames_extend hext⟩)

theorem reply_setReason {isStr : Bytes → Bool} {id : Nat} {effect : Option Nat}
    {rest : List Pending} (hst : w.stack = .setReason id effect :: rest) :
    w.reply isStr = (({ w with stack := rest } : Fetching).dropColumn id reasonField).map fun w₁ =>
      { w₁ with settled := effect.elim w₁.settled (Function.update w₁.settled id) } := by
  simp only [reply, hst]
  cases dropColumn { w with stack := rest } id reasonField with
  | none => rfl
  | some w₁ => cases effect <;> rfl

theorem Base.moves_reply (h : w.Base) (hs : w.reply isStr = some w') :
    Moves isStr w .reply w' := by
  have hreply := hs
  unfold reply at hs
  split at hs
  · rename_i id g slot field got rest hst
    obtain ⟨hp, x, hx, rfl, hd⟩ := h.fetch_group hst
    simp only [hd, Option.bind_eq_bind, Option.bind_some] at hs
    split at hs
    · cases hs
      have hm := @Moves.store isStr w ⟨id, x.num, slot⟩ x field got rest hst hp hx rfl
      unfold store
      rw [h.sync x hx]
      exact hm
    · cases hs
  · rename_i id effect rest hst
    rw [reply_setReason hst] at hreply
    unfold dropColumn Groups.dropColumn at hreply
    cases hf : w.groups.findSlot id with
    | none =>
      simp only [hf] at hreply
      cases hreply
      exact .setNone hst (Groups.findSlot_none.1 hf)
    | some p =>
      obtain ⟨hp, rfl⟩ := Groups.findSlot_some hf
      obtain ⟨x, hx, hxp, -⟩ := h.wf.slots p hp
      have hd := h.wf.deref_eq hx
      rw [hxp] at hd
      simp only [hf, hd, Option.bind_eq_bind, Option.bind_some] at hreply
      cases hreply
      have hcols : x.cols.eraseP (·.field = reasonField) =
          ((w.kept x.num).eraseP (·.col.field = reasonField)).map (·.col) := by
        rw [h.sync x hx, List.eraseP_map]
        rfl
      have hm := @Moves.setDrop isStr w p x effect rest hst hp hx hxp
      unfold recolumn at hm
      rw [hcols, ← hxp]
      exact hm
  · rename_i rest hst
    cases hs
    refine .enter h ?_ (h.rest hst)
    unfold Unshared
    rw [hst]
    trivial
  · cases hs

theorem Base.moves (h : w.Base) {e : Event} (hs : step isStr w e = some w') :
    Moves isStr w e w' := by
  cases e with
  | register ids =>
    rw [step] at hs
    split at hs
    · rename_i hr
      cases hs
      have hext := h.wf.register_extends ids
      exact .grow trivial hext (h.wf.register hr.2) (h.frames_extend hext)
    · cases hs
  | read id field =>
    rw [step] at hs
    split at hs
    · exact h.moves_read hs
    · cases hs
  | setReason id =>
    rw [step] at hs
    split at hs
    · cases hs
      exact .enter (e := .setReason id) h trivial (List.forall_mem_cons.2 ⟨trivial, h.frames⟩)
    · cases hs
  | other =>
    rw [step] at hs
    split at hs
    · cases hs
      exact .enter (e := .other) h trivial (List.forall_mem_cons.2 ⟨trivial, h.frames⟩)
    · cases hs
  | serve v =>
    rw [step] at hs
    split at hs
    · rename_i hst
      cases hs
      have hp := (h.fetch_group hst).1
      exact .enter (e := .serve v) h trivial (List.forall_mem_cons.2 ⟨hp, h.rest hst⟩)
    · cases hs
  | effect =>
    rw [step] at hs
    split at hs
    · rename_i hst
      cases hs
      exact .enter (e := .effect) h trivial (List.forall_mem_cons.2 ⟨trivial, h.rest hst⟩)
    · cases hs
  | refuse =>
    rw [step] at hs
    split at hs
    · rename_i hst
      cases hs
      exact .enter (e := .refuse) h trivial (h.rest hst)
    · cases hs
  | callback =>
    rw [step] at hs
    split at hs
    · cases hs
    · cases hs
      exact .enter (e := .callback) h trivial (List.forall_mem_cons.2 ⟨trivial, h.frames⟩)
  | return_ =>
    rw [step] at hs
    split at hs
    · rename_i hst
      cases hs
      exact .enter (e := .return_) h trivial (h.rest hst)
    · cases hs
  | reply => exact h.moves_reply hs

/-! ## In every run -/

@[simp]
theorem answer_groups (w : Fetching) (id g slot : Nat) (field : Bytes) :
    (w.answer id g slot field).groups = w.groups := by
  unfold answer
  split <;> rfl

@[simp]
theorem answer_kept (w : Fetching) (id g slot : Nat) (field : Bytes) :
    (w.answer id g slot field).kept = w.kept := by
  unfold answer
  split <;> rfl

@[simp]
theorem answer_stack (w : Fetching) (id g slot : Nat) (field : Bytes) :
    (w.answer id g slot field).stack = w.stack := by
  unfold answer
  split <;> rfl

@[simp]
theorem answer_settled (w : Fetching) (id g slot : Nat) (field : Bytes) :
    (w.answer id g slot field).settled = w.settled := by
  unfold answer
  split <;> rfl

theorem Base.init : Base {} :=
  ⟨.empty, nofun, fun _ _ => rfl, nofun⟩

theorem Base.grow (h : w.Base) {groups : Groups} {stack : List Pending} {sets : Nat}
    (hext : w.groups.Extends groups) (hwf : groups.Wf) (hs : ∀ f ∈ stack, Slotted groups f) :
    Base { w with groups, stack, sets } where
  wf := hwf
  sync x hx := by
    rcases hext.groups x hx with hx | ⟨hnum, hcols⟩
    · exact h.sync x hx
    · rw [hcols, h.fresh x.num hnum]
      rfl
  fresh g hg := h.fresh g (hext.next.trans hg)
  frames := hs

theorem Base.answer (h : w.Base) (id g slot : Nat) (field : Bytes) :
    (w.answer id g slot field).Base := by
  constructor
  · simpa using h.wf
  · simpa using h.sync
  · simpa using h.fresh
  · simpa using h.frames

theorem Base.recolumn (h : w.Base) {x : PkgGroup} (hx : x ∈ w.groups.groups) (ks : List Kept) :
    (w.recolumn x.num ks).Base where
  wf := h.wf.setCols _ _
  sync y hy := by
    obtain ⟨z, hz, rfl⟩ := Groups.mem_setCols.1 hy
    show _ = (Function.update w.kept x.num ks _).map (·.col)
    split
    · rename_i hzx
      rw [hzx, Function.update_self]
    · rename_i hzx
      rw [Function.update_of_ne hzx]
      exact h.sync z hz
  fresh g hg := by
    have hlt : x.num < g := (h.wf.num_lt x hx).trans_le hg
    show Function.update w.kept x.num ks g = []
    rw [Function.update_of_ne hlt.ne']
    exact h.fresh g hg
  frames f hf := by
    have hslot := h.frames f hf
    cases f with
    | fetch => exact hslot
    | _ => trivial

theorem Base.step (h : w.Base) {e : Event} (hm : Moves isStr w e w') : w'.Base := by
  cases hm with
  | grow hu hext hwf hs => exact h.grow hext hwf hs
  | answer hext hwf hp =>
    exact (h.grow hext hwf (h.frames_extend hext)).answer _ _ _ _
  | @store p x field got rest hst hp hx hxp =>
    have hb : Base { w with stack := rest, made := w.made + 1 } := ⟨h.wf, h.sync, h.fresh, h.rest hst⟩
    exact (hb.recolumn hx _).answer _ _ _ _
  | setNone hst hp => exact ⟨h.wf, h.sync, h.fresh, h.rest hst⟩
  | @setDrop p x effect rest hst hp hx hxp =>
    have hb : Base { w with stack := rest } := ⟨h.wf, h.sync, h.fresh, h.rest hst⟩
    obtain ⟨hwf, hsync, hfresh, hframes⟩ := hb.recolumn hx
      ((w.kept x.num).eraseP (·.col.field = reasonField))
    exact ⟨hwf, hsync, hfresh, hframes⟩

/-- A column that is stored beside another of its field, or too late, is seen at once. -/
theorem Moves.unshared {e : Event} (hm : Moves isStr w e w') (hs : Single isStr w') :
    w.Unshared e := by
  cases hm with
  | grow hu => exact hu
  | answer => trivial
  | setNone hst =>
    unfold Unshared
    rw [hst]
    trivial
  | setDrop hst =>
    unfold Unshared
    rw [hst]
    trivial
  | @store p x field got rest hst hp hx hxp =>
    unfold Unshared
    rw [hst]
    set k := w.fetchedColumn isStr x field got with hk
    refine ⟨fun k' hk' hf => ?_, fun hf q hq hqg => ?_⟩
    · have hmem : { x with cols := (k :: w.kept x.num).map (·.col) } ∈
          (w.groups.setCols x.num ((k :: w.kept x.num).map (·.col))).groups :=
        Groups.mem_setCols.2 ⟨x, hx, (if_pos rfl).symm⟩
      have hn := hs.columns _ (by simpa [Fetching.recolumn] using hmem)
      rw [List.map_cons, List.nodup_cons] at hn
      apply hn.1
      rw [← hxp] at hk'
      exact List.mem_map.2 ⟨k'.col, List.mem_map_of_mem hk', hf⟩
    · have hmem : k ∈ Function.update w.kept x.num (k :: w.kept x.num) q.g := by
        rw [hqg, ← hxp, Function.update_self]
        exact List.mem_cons_self
      have hc := hs.current q (by simpa [Fetching.recolumn, Groups.setCols] using hq) k
        (by simpa [Fetching.recolumn] using hmem) hf
      rw [answer_settled] at hc
      exact hc

/-! ## While no column is stored beside another -/

/-- What `Single` says, and that every string returned is still in its column. -/
structure Inv (isStr : Bytes → Bool) (w : Fetching) : Prop where
  base : w.Base
  once : ∀ g, ((w.kept g).map (·.col.field)).Nodup
  there : ∀ r ∈ w.reads, isStr r.field = true → ∃ p ∈ w.groups.slots, p.id = r.id ∧
    ∃ k ∈ w.kept p.g, k.col.field = r.field ∧ k.ptr p.slot = r.ptr
  reasons : ∀ r ∈ w.reads, r.field = reasonField → r.due ≤ r.time
  current : ∀ p ∈ w.groups.slots, ∀ k ∈ w.kept p.g, k.col.field = reasonField →
    w.settled p.id ≤ k.time p.slot

theorem Inv.init (isStr : Bytes → Bool) : Inv isStr {} :=
  ⟨.init, fun _ => List.nodup_nil, nofun, nofun, nofun⟩

theorem Inv.single (h : Inv isStr w) : Single isStr w where
  columns x hx := by
    have hn := h.once x.num
    rw [h.base.sync x hx, List.map_map]
    exact hn
  pointers r hr r' hr' hstr hid hfield := by
    obtain ⟨p, hp, hpid, k, hk, hkf, hkp⟩ := h.there r hr hstr
    obtain ⟨q, hq, hqid, k', hk', hkf', hkp'⟩ := h.there r' hr' (hfield ▸ hstr)
    have hpq : p = q := by
      apply List.inj_on_of_nodup_map h.base.wf.slotIds hp hq
      rw [hpid, hqid, hid]
    subst hpq
    have hkk : k = k' := by
      apply List.inj_on_of_nodup_map (h.once p.g) hk hk'
      rw [hkf, hkf', hfield]
    rw [← hkp, ← hkp', hkk]
  reasons := h.reasons
  current := h.current

theorem Inv.grow (h : Inv isStr w) {groups : Groups} {stack : List Pending} {sets : Nat}
    (hext : w.groups.Extends groups) (hwf : groups.Wf) (hs : ∀ f ∈ stack, Slotted groups f) :
    Inv isStr { w with groups, stack, sets } where
  base := h.base.grow hext hwf hs
  once := h.once
  there r hr hstr := by
    obtain ⟨p, hp, hpr⟩ := h.there r hr hstr
    exact ⟨p, hext.old p hp, hpr⟩
  reasons := h.reasons
  current p hp k hk hf := by
    rcases hext.slots p hp with hp | hg
    · exact h.current p hp k hk hf
    · -- a new group has no columns
      rw [show w.kept p.g = [] from h.base.fresh p.g hg] at hk
      cases hk

theorem Inv.answer (h : Inv isStr w) {p : PkgSlot} (hp : p ∈ w.groups.slots) (field : Bytes) :
    Inv isStr (w.answer p.id p.g p.slot field) := by
  have hb := h.base.answer p.id p.g p.slot field
  unfold Fetching.answer at hb ⊢
  split at hb
  · rename_i k hk
    obtain ⟨hkm, hkf⟩ := Keyed.of_find? hk
    refine ⟨hb, h.once, fun r hr hstr => ?_, fun r hr hf => ?_, h.current⟩
    · rcases List.mem_cons.1 hr with rfl | hr
      · exact ⟨p, hp, rfl, k, hkm, hkf, rfl⟩
      · exact h.there r hr hstr
    · rcases List.mem_cons.1 hr with rfl | hr
      · exact h.current p hp k hkm (hkf.trans hf)
      · exact h.reasons r hr hf
  · exact h

/-- Other columns for a group, the strings among them. -/
theorem Inv.recolumn (h : Inv isStr w) {x : PkgGroup} (hx : x ∈ w.groups.groups) (ks : List Kept)
    (hn : (ks.map (·.col.field)).Nodup)
    (hstr : ∀ k ∈ w.kept x.num, isStr k.col.field = true → k ∈ ks)
    (hc : ∀ p ∈ w.groups.slots, p.g = x.num → ∀ k ∈ ks, k.col.field = reasonField →
      w.settled p.id ≤ k.time p.slot) :
    Inv isStr (w.recolumn x.num ks) where
  base := h.base.recolumn hx ks
  once g := by
    by_cases hg : g = x.num
    · subst hg
      simpa [Fetching.recolumn] using hn
    · simpa [Fetching.recolumn, hg] using h.once g
  there r hr hrs := by
    obtain ⟨p, hp, hpid, k, hk, hkf, hkp⟩ := h.there r hr hrs
    refine ⟨p, hp, hpid, k, ?_, hkf, hkp⟩
    by_cases hg : p.g = x.num
    · rw [hg] at hk
      simpa [Fetching.recolumn, hg] using hstr k hk (hkf ▸ hrs)
    · simpa [Fetching.recolumn, hg] using hk
  reasons := h.reasons
  current p hp k hk hf := by
    by_cases hg : p.g = x.num
    · exact hc p hp hg k (by simpa [Fetching.recolumn, hg] using hk) hf
    · exact h.current p hp k (by simpa [Fetching.recolumn, hg] using hk) hf

/-- A setting of a package's reason returns, and no reason is kept in the package's group. -/
theorem Inv.settle (h : Inv isStr w) {id : Nat} (effect : Option Nat)
    (hno : ∀ p ∈ w.groups.slots, p.id = id → ∀ k ∈ w.kept p.g, k.col.field ≠ reasonField) :
    Inv isStr { w with settled := effect.elim w.settled (Function.update w.settled id) } := by
  refine ⟨⟨h.base.wf, h.base.sync, h.base.fresh, h.base.frames⟩, h.once, h.there, h.reasons,
    fun p hp k hk hf => ?_⟩
  have hne : p.id ≠ id := fun hid => hno p hp hid k hk hf
  have hsame : effect.elim w.settled (Function.update w.settled id) p.id = w.settled p.id := by
    cases effect with
    | none => rfl
    | some n => exact Function.update_of_ne hne _ _
  exact hsame.trans_le (h.current p hp k hk hf)

theorem Inv.leave (h : Inv isStr w) {f : Pending} {rest : List Pending} (hst : w.stack = f :: rest) :
    Inv isStr { w with stack := rest } :=
  h.grow (.refl _) h.base.wf (h.base.rest hst)

/-- **One event** keeps the invariant, unless it stores a column beside another of its field, or a
reason from before a setting that has returned. -/
theorem Inv.moves (hr : isStr reasonField = false) (h : Inv isStr w) {e : Event}
    (hm : Moves isStr w e w') (hu : w.Unshared e) : Inv isStr w' := by
  cases hm with
  | grow _ hext hwf hs => exact h.grow hext hwf hs
  | answer hext hwf hp =>
    exact (h.grow hext hwf (h.base.frames_extend hext)).answer hp _
  | @store p x field got rest hst hp hx hxp =>
    unfold Unshared at hu
    rw [hst] at hu
    obtain ⟨hnew, hlate⟩ := hu
    have hi : Inv isStr { w with stack := rest, made := w.made + 1 } :=
      ⟨⟨h.base.wf, h.base.sync, h.base.fresh, h.base.rest hst⟩, h.once, h.there, h.reasons, h.current⟩
    have hrec := hi.recolumn hx (w.fetchedColumn isStr x field got :: w.kept x.num) ?_ ?_ ?_
    · exact hrec.answer hp field
    · rw [List.map_cons, List.nodup_cons]
      refine ⟨fun hf => ?_, h.once x.num⟩
      obtain ⟨k, hk, hkf⟩ := List.mem_map.1 hf
      exact hnew k (hxp ▸ hk) hkf
    · exact fun k hk _ => List.mem_cons_of_mem _ hk
    · intro q hq hqx k hk hf
      rcases List.mem_cons.1 hk with rfl | hk
      · exact hlate hf q hq (hqx.trans hxp)
      · exact h.current q hq k (hqx ▸ hk) hf
  | setNone hst hp =>
    exact (h.leave hst).settle _ fun p hpm hid => absurd hid (hp p hpm)
  | @setDrop p x effect rest hst hp hx hxp =>
    have hrec := (h.leave hst).recolumn hx
      ((w.kept x.num).eraseP (·.col.field = reasonField)) ?_ ?_ ?_
    · refine hrec.settle effect fun q hq hqp k hk => ?_
      have hqp : q = p := List.inj_on_of_nodup_map h.base.wf.slotIds hq hp hqp
      subst hqp
      apply Keyed.ne_of_mem_eraseP (h.once x.num)
      simpa [Fetching.recolumn, hxp] using hk
    · exact (h.once x.num).sublist (List.eraseP_sublist.map _)
    · intro k hk hstr
      refine (List.mem_eraseP_of_neg ?_).2 hk
      intro hf
      have hf : k.col.field = reasonField := by simpa using hf
      rw [hf, hr] at hstr
      cases hstr
    · exact fun q hq hqx k hk => h.current q hq k (hqx ▸ List.mem_of_mem_eraseP hk)

end Fetching

/-! ## Whole runs -/

/-- **Reentrant fetches**: no group has two columns of a field, reads of a string return one pointer,
and no reason is older than a setting that has returned, in the runs in which no column is stored
beside another of its field or after such a setting, and in no others. -/
theorem reentrant_fetches (isStr : Bytes → Bool) (hr : isStr reasonField = false)
    (es : List Fetching.Event) :
    Along (Fetching.step isStr) (fun _ _ w => w.Single isStr) {} es ↔
      Along (Fetching.step isStr) (fun w e _ => w.Unshared e) {} es := by
  constructor
  · refine Along.of_inv (I := Fetching.Base) (fun w e w' h hs hsingle => ?_) .init
    have hm := h.moves hs
    exact ⟨hm.unshared hsingle, h.step hm⟩
  · refine Along.of_inv (I := Fetching.Inv isStr) (fun w e w' h hs hu => ?_) (.init isStr)
    have hi := h.moves hr (h.base.moves hs) hu
    exact ⟨hi.single, hi⟩

def nameField : Bytes := lit "alpm_pkg_get_name"

/-- A name and a reason are fetched for a list of two, with a callback that reads another field and
sets the reason in between. -/
def quiet : List Fetching.Event :=
  [.register [513, 514], .read 513 nameField, .callback, .read 514 reasonField, .serve (.num 0),
    .serve (.num 1), .reply, .setReason 514, .effect, .reply, .return_, .serve (.str (lit "bash")),
    .serve (.str (lit "zsh")), .reply, .read 514 nameField, .read 514 reasonField, .serve (.num 0),
    .serve (.num 0), .reply]

theorem reentrant_fetches_quiet :
    (quiet.foldlM (Fetching.step (· = nameField)) {}).isSome = true ∧
      Along (Fetching.step (· = nameField)) (fun _ _ w => w.Single (· = nameField)) {} quiet :=
  ⟨by decide +kernel,
    (reentrant_fetches (· = nameField) (by decide +kernel) quiet).2 (by decide +kernel)⟩

/-- A callback reads the name that is being fetched. -/
def nameTwice : List Fetching.Event :=
  [.read 513 nameField, .callback, .read 513 nameField, .serve (.str (lit "bash")), .reply, .return_,
    .serve (.str (lit "bash")), .reply]

/-- A callback sets the reason that is being fetched, which the server has read. -/
def reasonLate : List Fetching.Event :=
  [.read 513 reasonField, .serve (.num 1), .callback, .setReason 513, .effect, .reply, .return_, .reply]

theorem not_reentrant_fetches :
    ¬ Along (Fetching.step (· = nameField)) (fun _ _ w => w.Single (· = nameField)) {} nameTwice ∧
      ¬ Along (Fetching.step (· = nameField)) (fun _ _ w => w.Single (· = nameField)) {} reasonLate := by
  -- two columns and two pointers in the first run, an older reason in the second
  have hweak : ∀ es, Along (Fetching.step (· = nameField)) (fun _ _ w => w.Single (· = nameField)) {} es →
      Along (Fetching.step (· = nameField)) (fun _ _ w =>
        (∀ x ∈ w.groups.groups, (x.cols.map (·.field)).Nodup) ∧
          ∀ r ∈ w.reads, r.field = reasonField → r.due ≤ r.time) {} es :=
    fun es => Along.of_inv (I := fun _ => True)
      (fun _ _ _ _ _ hs => ⟨⟨hs.columns, hs.reasons⟩, trivial⟩) trivial
  constructor
  · intro h
    exact absurd (hweak _ h) (by decide +kernel)
  · intro h
    exact absurd (hweak _ h) (by decide +kernel)

end Session
