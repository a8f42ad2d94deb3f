import AlpmRpc.Client.Proof.Groups
import AlpmRpc.Session.Columns

/-!
# Batched reads are right

`Columns.Inv` is the invariant of a run: a column's cell at a package's own slot is a right answer
for that package. Members of a group that have their slot elsewhere are not read through it, so
their cells may be out of date. `fetchReply_eq` says that the reply of `arpc.pkg_fields` lines up
with the ids asked for.
-/

set_option autoImplicit false

namespace Session

open Json Server Client Gen

variable {fields : Bytes → Option FieldKind} {srv : Pkgs} {s : Columns}

/-! ## The packages -/

theorem Pkgs.get_zero (srv : Pkgs) : srv.get 0 = 0 := by
  by_contra h
  exact (srv.issued_lt 0 (srv.get_issued 0 h)).2 rfl

theorem Pkgs.Known.lt {id : Nat} (h : srv.Known id) : id < 2 ^ 64 := by
  rcases h with rfl | h
  · decide
  · exact (srv.issued_lt id h).1

theorem Pkgs.Evolves.known {srv' : Pkgs} (h : srv.Evolves srv') {id : Nat} (hid : srv.Known id) :
    srv'.Known id := hid.imp_right (h.issued id)

theorem Pkgs.Evolves.get_cases {srv' : Pkgs} (h : srv.Evolves srv') {id : Nat}
    (hid : srv.Known id) : srv'.get id = 0 ∨ srv'.get id = srv.get id := by
  rcases hid with rfl | hid
  · exact .inl srv'.get_zero
  · exact h.get id hid

theorem Pkgs.Evolves.value_eq {srv' : Pkgs} (h : srv.Evolves srv') {id : Nat}
    (h0 : srv.get id ≠ 0) (he : srv'.get id = srv.get id) (k : FieldKind) (f : Bytes) :
    srv'.value k f id = srv.value k f id := by
  unfold value
  rw [he]
  cases k with
  | str => exact congrArg FieldVal.str (h.str id h0 he f)
  | num => exact congrArg FieldVal.num (h.num id h0 he f)

/-! ## Fetching a column -/

theorem pkgFieldElem_fits (srv : Pkgs) (k : FieldKind) (f : Bytes) (id : Nat) :
    Fits 0 (pkgFieldElem srv k f id) := by
  unfold pkgFieldElem pkgFieldPut
  split
  · exact .null
  · cases k with
    | str => exact strTree_fits _
    | num => exact .num (srv.num_range f _)

/-- The handler's answer, element by element. -/
theorem hArpcPkgFields_eq {k : FieldKind} {f : Bytes} (hk : fields f = some k) (hf : NulFree f)
    {ids : List Nat} (hids : ∀ id ∈ ids, id < 2 ^ 64) :
    hArpcPkgFields fields srv (some (.arr (Groups.fetchParams ids f))) =
      .ok (.arr (ids.map (pkgFieldElem srv k f))) [] := by
  have hstr : arpcArgStr (some (.arr (Groups.fetchParams ids f))) 1 = (some f, false) := by
    show ((some (cstr f) : Option Bytes), (some (cstr f)).isNone) = _
    rw [cstr_eq hf]
    rfl
  have hel : ajElem (some (.arr (Groups.fetchParams ids f))) 0 =
      some (.arr (ids.map fun id : Nat => .num (toI64 id))) := rfl
  have helems : ((ids.map fun id : Nat => Tree.num (toI64 id)).map fun e =>
      pkgFieldElem srv k f (toU64 (ajI64 (some e) 0))) = ids.map (pkgFieldElem srv k f) := by
    rw [List.map_map]
    refine List.map_congr_left fun id hid => ?_
    rw [Function.comp_apply, ajI64, toU64_toI64 (hids id hid)]
  unfold hArpcPkgFields
  rw [hel, hstr, Option.bind_some, hk]
  simp only [Bool.false_eq_true, if_false, Option.getD_some, children]
  rw [helems]

/-- **The reply lines up with the ids asked for.** -/
theorem fetchReply_eq {k : FieldKind} {f : Bytes} (hk : fields f = some k) (hf : NulFree f)
    {ids : List Nat} (hids : ∀ id ∈ ids, id < 2 ^ 64) (rid : { v : Int // I64 v }) :
    fetchReply fields srv rid f ids =
      some (some (.arr (ids.map (pkgFieldElem srv k f)))) := by
  have hp : ∀ p ∈ Groups.fetchParams ids f, Fits 1 p := by
    intro p hp
    rcases List.mem_cons.1 hp with rfl | hp
    · refine .arr fun v hv => ?_
      obtain ⟨id, -, rfl⟩ := List.mem_map.1 hv
      exact .num (toI64_range _)
    · rw [List.mem_singleton.1 hp]
      exact .str hf
  have hdoc := sent_eq (fits_request rid.2 (by decide : NulFree (lit "arpc.pkg_fields")) hp)
    (by decide)
  have hret : Fits 1 (.arr (ids.map (pkgFieldElem srv k f))) := by
    refine .arr fun v hv => ?_
    obtain ⟨id, -, rfl⟩ := List.mem_map.1 hv
    exact pkgFieldElem_fits srv k f id
  have hrep : sent (replyFrame rid.1 (.ok (.arr (ids.map (pkgFieldElem srv k f))) [])) =
      some (replyFrame rid.1 (.ok (.arr (ids.map (pkgFieldElem srv k f))) [])) :=
    sent_eq (fits_result rid.2 hret nofun nofun) (by decide)
  unfold fetchReply
  rw [hdoc]
  have hparams : ajMember (some (requestFrame rid.1 (lit "arpc.pkg_fields")
      (Groups.fetchParams ids f))) (lit "params") = some (.arr (Groups.fetchParams ids f)) := rfl
  have hid : ajI64 (ajMember (some (requestFrame rid.1 (lit "arpc.pkg_fields")
      (Groups.fetchParams ids f))) (lit "id")) 0 = rid.1 := rfl
  dsimp only
  rw [hparams, hid, hArpcPkgFields_eq hk hf hids, hrep, arpcInvoke_reply]
  rfl

/-- The cell of a column at a place. -/
def cellVal : Cells → Nat → FieldVal
  | .str cells, i => .str cells[i]?.join
  | .num cells, i => .num (cells[i]?.getD 0)

/-- The kind of a column. -/
def cellsKind : Cells → FieldKind
  | .str _ => .str
  | .num _ => .num

/-- The cells `fetch_column` makes of the reply. -/
def fetched (srv : Pkgs) (k : FieldKind) (f : Bytes) (ids : List Nat) : Cells :=
  Groups.fetchCells (k = .str) ids.length (ids.map (pkgFieldElem srv k f))

theorem fetched_kind (k : FieldKind) (f : Bytes) (ids : List Nat) :
    cellsKind (fetched srv k f ids) = k := by
  cases k <;> rfl

theorem fetched_cell {k : FieldKind} {f : Bytes} {ids : List Nat} {i id : Nat}
    (hi : ids[i]? = some id) :
    cellVal (fetched srv k f ids) i =
      if srv.get id = 0 then k.blank else srv.value k f id := by
  obtain ⟨hlt, -⟩ := List.getElem?_eq_some_iff.1 hi
  have hr : (List.range ids.length)[i]? = some i := by
    rw [List.getElem?_range hlt]
  have he : (ids.map (pkgFieldElem srv k f))[i]? = some (pkgFieldElem srv k f id) := by
    rw [List.getElem?_map, hi]
    rfl
  cases k with
  | str =>
    show FieldVal.str (((List.range ids.length).map _)[i]?).join = _
    rw [List.getElem?_map, hr, Option.map_some, he, Option.join_some]
    unfold pkgFieldElem
    split
    · rfl
    · show FieldVal.str ((ajStr (some (strTree _)) none).map CStr.dup) = _
      unfold Pkgs.value
      cases srv.str f (srv.get id) with
      | none => rfl
      | some x =>
        show FieldVal.str (some (CStr.dup (cstr x.1))) = .str (some x)
        rw [cstr_eq x.2, CStr.dup_eq]
  | num =>
    show FieldVal.num (((List.range ids.length).map _)[i]?.getD 0) = _
    rw [List.getElem?_map, hr, Option.map_some, he, Option.getD_some]
    unfold pkgFieldElem
    split
    · rfl
    · rfl

/-! ## The invariant -/

/-- A column's cell at a package's own slot is a right answer for that package. -/
structure Columns.Inv (fields : Bytes → Option FieldKind) (s : Columns) : Prop where
  wf : s.groups.Wf
  known : ∀ g ∈ s.groups.groups, ∀ id ∈ g.ids, s.srv.Known id
  once : ∀ g ∈ s.groups.groups, (g.cols.map (·.field)).Nodup
  kinds : ∀ g ∈ s.groups.groups, ∀ c ∈ g.cols, fields c.field = some (cellsKind c.cells)
  right : ∀ p ∈ s.groups.slots, ∀ g ∈ s.groups.groups, g.num = p.g → ∀ c ∈ g.cols,
    RightAnswer s p.id c.field (cellsKind c.cells) (cellVal c.cells p.slot)

namespace Columns

theorem Inv.empty (srv : Pkgs) : Inv fields { srv } := by
  refine ⟨Groups.Wf.empty, ?_, ?_, ?_, ?_⟩ <;> simp

theorem Inv.slot_known (h : s.Inv fields) {p : PkgSlot} (hp : p ∈ s.groups.slots) :
    s.srv.Known p.id := by
  obtain ⟨g, hg, -, hx⟩ := h.wf.slots p hp
  exact h.known g hg p.id (List.mem_of_getElem? hx)

/-- A group is made. -/
theorem Inv.groupNew (h : s.Inv fields) {ids : List Nat} (hne : ids ≠ [])
    (hk : ∀ id ∈ ids, s.srv.Known id)
    (hr : ∀ id ∈ ids, ∀ id' ∈ ids, Wire.arpcRoot id = Wire.arpcRoot id') :
    Inv fields { s with groups := (s.groups.groupNew ids).1 } := by
  have hwf := h.wf.groupNew hne hr
  rcases h.wf.groupNew_cases ids with ⟨he, -⟩ | ⟨new, he, hnew, -⟩
  · rw [he]
    exact h
  · rw [he] at hwf ⊢
    refine ⟨hwf, fun g hg => ?_, fun g hg => ?_, fun g hg => ?_, fun p hp g hg hpg c hc => ?_⟩
    · rcases List.mem_cons.1 hg with rfl | hg
      · exact hk
      · exact h.known g hg
    · rcases List.mem_cons.1 hg with rfl | hg
      · exact List.nodup_nil
      · exact h.once g hg
    · rcases List.mem_cons.1 hg with rfl | hg
      · exact nofun
      · exact h.kinds g hg
    · rcases List.mem_cons.1 hg with rfl | hg
      · cases hc
      · rcases List.mem_append.1 hp with hp | hp
        · exact h.right p hp g hg hpg c hc
        · -- an old group has another number than the new slots' one
          have hlt := h.wf.num_lt g hg
          rw [hpg, (hnew p hp).1] at hlt
          exact absurd hlt (Nat.lt_irrefl _)

/-- The columns of one group are replaced. -/
theorem Inv.setCols (h : s.Inv fields) (x : PkgGroup) {cols : List Column} (hn : (cols.map (·.field)).Nodup)
    (hk : ∀ c ∈ cols, fields c.field = some (cellsKind c.cells))
    (hr : ∀ p ∈ s.groups.slots, p.g = x.num → ∀ c ∈ cols,
      RightAnswer s p.id c.field (cellsKind c.cells) (cellVal c.cells p.slot)) :
    Inv fields { s with groups := s.groups.setCols x.num cols } := by
  refine ⟨h.wf.setCols _ _, fun y hy => ?_, fun y hy => ?_, fun y hy => ?_,
    fun p hp y hy hpy c hc => ?_⟩ <;> obtain ⟨z, hz, rfl⟩ := Groups.mem_setCols.1 hy
  · split
    · exact h.known z hz
    · exact h.known z hz
  · split
    · exact hn
    · exact h.once z hz
  · split
    · exact hk
    · exact h.kinds z hz
  · split at hpy
    · rename_i hzx
      rw [if_pos hzx] at hc
      exact hr p hp (hpy.symm.trans hzx) c hc
    · rename_i hzx
      rw [if_neg hzx] at hc
      exact h.right p hp z hz hpy c hc

/-! ## A read -/

/-- The package's slot, made when it has none. -/
theorem Inv.groupForPkg (h : s.Inv fields) {id : Nat} (hid : s.srv.Known id) :
    ∃ groups p x, s.groups.groupForPkg id = (groups, some (p.g, p.slot)) ∧
      Inv fields { s with groups } ∧ p ∈ groups.slots ∧ p.id = id ∧ x ∈ groups.groups ∧
      x.num = p.g ∧ x.ids[p.slot]? = some id := by
  obtain ⟨groups, p, he, hwf, -, hp, rfl⟩ := h.wf.groupForPkg_slot id
  obtain ⟨x, hx, hxp, hxi⟩ := hwf.slots p hp
  have hinv : Inv fields { s with groups := (s.groups.groupForPkg p.id).1 } := by
    unfold Groups.groupForPkg
    split
    · exact h
    · exact h.groupNew (List.cons_ne_nil _ _) (by simpa using hid) (by simp)
  rw [he] at hinv
  exact ⟨groups, p, x, he, hinv, hp, rfl, hx, hxp, hxi⟩

/-- A column is there or is fetched, and its cell at the package's slot is right. -/
theorem Inv.columnFor (h : s.Inv fields) {f : Bytes} {k : FieldKind} (hk : fields f = some k)
    (hf : NulFree f) (rid : { v : Int // I64 v }) {p : PkgSlot} (hp : p ∈ s.groups.slots)
    {x : PkgGroup} (hx : x ∈ s.groups.groups) (hxp : x.num = p.g) :
    ∃ groups c, s.groups.columnFor p.g f (k = .str) (fetchReply fields s.srv rid f) =
        some (groups, some c) ∧ Inv fields { s with groups } ∧ cellsKind c.cells = k ∧
      RightAnswer s p.id f k (cellVal c.cells p.slot) := by
  unfold Groups.columnFor
  rw [← hxp, h.wf.deref_eq hx]
  simp only [Option.bind_eq_bind, Option.bind_some]
  cases hc : x.cols.find? (·.field = f) with
  | some c =>
    obtain ⟨hm, hcf⟩ := Keyed.of_find? hc
    have hck : cellsKind c.cells = k := by
      have hkinds := h.kinds x hx c hm
      rw [hcf, hk] at hkinds
      exact (Option.some_inj.1 hkinds).symm
    refine ⟨s.groups, c, rfl, h, hck, ?_⟩
    have hright := h.right p hp x hx hxp c hm
    rwa [hcf, hck] at hright
  | none =>
    have hids : ∀ id ∈ x.ids, id < 2 ^ 64 := fun id hid => (h.known x hx id hid).lt
    dsimp only
    rw [fetchReply_eq hk hf hids rid]
    have hcell : ∀ q ∈ s.groups.slots, q.g = x.num →
        RightAnswer s q.id f k (cellVal (fetched s.srv k f x.ids) q.slot) := by
      intro q hq hqx
      obtain ⟨y, hy, hyq, hyi⟩ := h.wf.slots q hq
      have hyx : y = x := List.inj_on_of_nodup_map h.wf.nums hy hx (hyq.trans hqx)
      rw [hyx] at hyi
      rw [fetched_cell hyi]
      refine ⟨fun hlive => if_neg hlive, fun hdead => ?_⟩
      rw [if_pos hdead]
      exact .inl rfl
    refine ⟨_, ⟨f, fetched s.srv k f x.ids⟩, rfl, h.setCols x ?_ ?_ ?_, fetched_kind k f x.ids,
      hcell p hp hxp.symm⟩
    · refine List.nodup_cons.2 ⟨fun hm => ?_, h.once x hx⟩
      obtain ⟨c, hcm, hcf⟩ := List.mem_map.1 hm
      exact Keyed.find?_none_iff.1 hc c hcm hcf
    · intro c hcm
      rcases List.mem_cons.1 hcm with rfl | hcm
      · exact hk.trans (congrArg some (fetched_kind k f x.ids).symm)
      · exact h.kinds x hx c hcm
    · intro q hq hqx c hcm
      rcases List.mem_cons.1 hcm with rfl | hcm
      · show RightAnswer s q.id f (cellsKind (fetched s.srv k f x.ids)) _
        rw [fetched_kind]
        exact hcell q hq hqx
      · exact h.right q hq x hx hqx.symm c hcm

theorem rightAnswer_zero (s : Columns) (f : Bytes) (k : FieldKind) : RightAnswer s 0 f k k.blank :=
  ⟨fun h0 => absurd s.srv.get_zero h0, fun _ => .inl rfl⟩

theorem Inv.fieldStr (h : s.Inv fields) {id : Nat} (hid : s.srv.Known id) {f : Bytes}
    (hk : fields f = some .str) (hf : NulFree f) (rid : { v : Int // I64 v }) :
    ∃ groups r, s.groups.arpcPkgFieldStr id f (fetchReply fields s.srv rid f) = some (groups, r) ∧
      Inv fields { s with groups } ∧ RightAnswer s id f .str (.str r) := by
  unfold Groups.arpcPkgFieldStr
  by_cases h0 : id = 0
  · subst h0
    exact ⟨s.groups, none, if_pos rfl, h, rightAnswer_zero s f .str⟩
  obtain ⟨groups, p, x, hg, hinv, hp, rfl, hx, hxp, -⟩ := h.groupForPkg hid
  obtain ⟨groups', ⟨f', cells⟩, hc, hinv', hck, hright⟩ := hinv.columnFor hk hf rid hp hx hxp
  rw [if_neg h0, hg]
  simp only [decide_true] at hc
  cases cells with
  | num cells => cases hck
  | str cells =>
    refine ⟨groups', cells[p.slot]?.join, ?_, hinv', hright⟩
    simp only [hc, Option.bind_eq_bind, Option.bind_some]
    rfl

theorem Inv.fieldI64 (h : s.Inv fields) {id : Nat} (hid : s.srv.Known id) {f : Bytes}
    (hk : fields f = some .num) (hf : NulFree f) (rid : { v : Int // I64 v }) :
    ∃ groups r, s.groups.arpcPkgFieldI64 id f (fetchReply fields s.srv rid f) = some (groups, r) ∧
      Inv fields { s with groups } ∧ RightAnswer s id f .num (.num r) := by
  unfold Groups.arpcPkgFieldI64
  by_cases h0 : id = 0
  · subst h0
    exact ⟨s.groups, 0, if_pos rfl, h, rightAnswer_zero s f .num⟩
  obtain ⟨groups, p, x, hg, hinv, hp, rfl, hx, hxp, -⟩ := h.groupForPkg hid
  obtain ⟨groups', ⟨f', cells⟩, hc, hinv', hck, hright⟩ := hinv.columnFor hk hf rid hp hx hxp
  rw [if_neg h0, hg]
  simp only [reduceCtorEq, decide_false] at hc
  cases cells with
  | str cells => cases hck
  | num cells =>
    refine ⟨groups', cells[p.slot]?.getD 0, ?_, hinv', hright⟩
    simp only [hc, Option.bind_eq_bind, Option.bind_some]
    rfl

/-- A batched accessor's stub. -/
theorem Inv.read (h : s.Inv fields) {id : Nat} (hid : s.srv.Known id) {f : Bytes} {k : FieldKind}
    (hk : fields f = some k) (hf : NulFree f) (rid : { v : Int // I64 v }) :
    ∃ groups v, columnStep fields s (.read id f k rid) = some ({ s with groups }, some v) ∧
      Inv fields { s with groups } ∧ RightAnswer s id f k v := by
  cases k with
  | str =>
    obtain ⟨groups, r, hs, hinv, hr⟩ := h.fieldStr hid hk hf rid
    exact ⟨groups, .str r, by rw [columnStep, hs]; rfl, hinv, hr⟩
  | num =>
    obtain ⟨groups, r, hs, hinv, hr⟩ := h.fieldI64 hid hk hf rid
    exact ⟨groups, .num r, by rw [columnStep, hs]; rfl, hinv, hr⟩

/-! ## The other events -/

theorem libSetReason_get (srv : Pkgs) (p : Nat) (reason : { v : Int // I64 v }) (ok : Bool) :
    (libSetReason srv p reason ok).get = srv.get := by
  unfold libSetReason
  split <;> rfl

theorem libSetReason_known (srv : Pkgs) (p : Nat) (reason : { v : Int // I64 v }) (ok : Bool)
    {id : Nat} (h : srv.Known id) : (libSetReason srv p reason ok).Known id := by
  unfold libSetReason
  split <;> exact h

/-- Only the reason of that package changes. -/
theorem libSetReason_value (srv : Pkgs) (p : Nat) (reason : { v : Int // I64 v }) (ok : Bool)
    {id : Nat} {f : Bytes} (h : f = reasonField → p ≠ 0 → srv.get id ≠ p) (k : FieldKind) :
    (libSetReason srv p reason ok).value k f id = srv.value k f id := by
  unfold libSetReason
  split
  · rfl
  · rename_i hp
    rw [not_or] at hp
    cases k with
    | str => rfl
    | num =>
      refine congrArg FieldVal.num (if_neg ?_)
      rintro ⟨hf, hq⟩
      exact h hf hp.1 hq

/-- A right answer stays one while its accessor does. -/
theorem rightAnswer_congr {s s' : Columns} {id : Nat} {f : Bytes} {k : FieldKind} {v : FieldVal}
    (hg : s'.srv.get id = s.srv.get id) (hv : s'.srv.value k f id = s.srv.value k f id)
    (hl : s'.last = s.last) (h : RightAnswer s id f k v) : RightAnswer s' id f k v := by
  unfold RightAnswer
  rw [hg, hv, hl]
  exact h

/-- A reason is set: the column of that package goes, in the group it is read through. -/
theorem Inv.setReason (h : s.Inv fields) {id : Nat} (reason : { v : Int // I64 v }) (ok : Bool) :
    ∃ s', columnStep fields s (.setReason id reason ok) = some (s', none) ∧ s'.Inv fields := by
  rw [columnStep]
  by_cases hid : id ≠ 0 ∧ s.srv.get id = 0
  · rw [if_pos hid]
    exact ⟨s, rfl, h⟩
  rw [if_neg hid]
  -- what is left to show once the column is dropped
  have hsrv : ∀ groups : Groups, Inv fields { s with groups } →
      (∀ p ∈ groups.slots, p.id = id → ∀ g ∈ groups.groups, g.num = p.g → ∀ c ∈ g.cols,
        c.field ≠ reasonField) →
      Inv fields { s with groups, srv := libSetReason s.srv (s.srv.get id) reason ok } := by
    intro groups hI hdrop
    refine ⟨hI.wf, fun g hg x hx => libSetReason_known _ _ _ _ (hI.known g hg x hx), hI.once,
      hI.kinds, fun p hp g hg hpg c hc => ?_⟩
    refine rightAnswer_congr (s := { s with groups }) ?_ ?_ rfl (hI.right p hp g hg hpg c hc)
    · exact congrFun (libSetReason_get _ _ _ _) p.id
    · refine libSetReason_value _ _ _ _ (fun hf h0 he => ?_) _
      have hpid : id = p.id := s.srv.get_inj id p.id h0 he.symm
      exact hdrop p hp hpid.symm g hg hpg c hc hf
  unfold Groups.dropColumn
  cases hf : s.groups.findSlot id with
  | none =>
    refine ⟨_, rfl, hsrv s.groups h fun p hp hpi => ?_⟩
    exact absurd hpi (Groups.findSlot_none.1 hf p hp)
  | some p =>
    obtain ⟨hp, rfl⟩ := Groups.findSlot_some hf
    obtain ⟨x, hx, hxp, -⟩ := h.wf.slots p hp
    have hd := h.wf.deref_eq hx
    rw [hxp] at hd
    simp only [hd, Option.bind_eq_bind, Option.bind_some]
    refine ⟨_, rfl, hsrv _ ?_ ?_⟩
    · rw [← hxp]
      refine h.setCols x ?_ ?_ ?_
      · exact (h.once x hx).sublist (List.eraseP_sublist.map _)
      · exact fun c hc => h.kinds x hx c (List.mem_of_mem_eraseP hc)
      · exact fun q hq hqx c hc => h.right q hq x hx hqx.symm c (List.mem_of_mem_eraseP hc)
    · intro q hq hqi g hg hgq c hc
      have hqp : q = p := List.inj_on_of_nodup_map h.wf.slotIds hq hp hqi
      subst hqp
      obtain ⟨z, hz, rfl⟩ := Groups.mem_setCols.1 hg
      by_cases hzq : z.num = q.g
      · rw [if_pos hzq] at hc
        exact Keyed.ne_of_mem_eraseP (h.once x hx) hc
      · rw [if_neg hzq] at hgq
        exact absurd hgq hzq

/-- The server issues and drops ids. -/
theorem Inv.server (h : s.Inv fields) {srv' : Pkgs} (he : s.srv.Evolves srv') :
    ∃ s', columnStep fields s (.server srv') = some (s', none) ∧ s'.Inv fields := by
  refine ⟨_, rfl, h.wf, fun g hg id hid => he.known (h.known g hg id hid), h.once, h.kinds,
    fun p hp g hg hpg c hc => ?_⟩
  obtain ⟨hlive, hdead⟩ := h.right p hp g hg hpg c hc
  have hcases := he.get_cases (h.slot_known hp)
  refine ⟨fun h0 => ?_, fun h0 => ?_⟩
  · have heq := hcases.resolve_left h0
    have h0' : s.srv.get p.id ≠ 0 := heq ▸ h0
    exact (hlive h0').trans (he.value_eq h0' heq _ _).symm
  · by_cases h0' : s.srv.get p.id = 0
    · refine (hdead h0').imp_right fun hl => ?_
      simpa [h0'] using hl
    · refine .inr ?_
      simpa [h0'] using hlive h0'

theorem Inv.purgeRoot (h : s.Inv fields) (root : Nat) :
    Inv fields { s with groups := s.groups.freeGroupsOf root } := by
  refine ⟨h.wf.freeGroupsOf root, fun g hg => ?_, fun g hg => ?_, fun g hg => ?_, fun p hp g hg => ?_⟩
  · exact h.known g (List.mem_filter.1 hg).1
  · exact h.once g (List.mem_filter.1 hg).1
  · exact h.kinds g (List.mem_filter.1 hg).1
  · exact h.right p (List.mem_filter.1 hp).1 g (List.mem_filter.1 hg).1

end Columns

/-! ## Whole runs -/

/-- **One event** returns, keeps the invariant and answers right. -/
theorem columnStep_spec (h : s.Inv fields) {e : Event} (he : e.Allowed fields s) :
    ∃ s' r, columnStep fields s e = some (s', r) ∧ s'.Inv fields ∧
      ∀ id f k rid, e = .read id f k rid → ∃ v, r = some v ∧ RightAnswer s id f k v := by
  cases e with
  | register ids =>
    refine ⟨_, _, rfl, ?_, by rintro _ _ _ _ ⟨⟩⟩
    unfold Groups.arpcPkgGroupRegister
    split
    · exact h
    · rename_i hne
      exact h.groupNew hne he.1 he.2
  | read id f k rid =>
    obtain ⟨groups, v, hs, hinv, hr⟩ := h.read he.1 he.2.1 he.2.2 rid
    refine ⟨_, _, hs, hinv, ?_⟩
    rintro _ _ _ _ ⟨⟩
    exact ⟨v, rfl, hr⟩
  | setReason id reason ok =>
    obtain ⟨s', hs, hinv⟩ := h.setReason reason ok
    exact ⟨s', _, hs, hinv, by rintro _ _ _ _ ⟨⟩⟩
  | purgeRoot handle => exact ⟨_, _, rfl, h.purgeRoot _, by rintro _ _ _ _ ⟨⟩⟩
  | server srv =>
    obtain ⟨s', hs, hinv⟩ := h.server he
    exact ⟨s', _, hs, hinv, by rintro _ _ _ _ ⟨⟩⟩

theorem Columns.Inv.run (h : s.Inv fields) (es : List Event) (hok : AllowedEvents fields s es) :
    RightRun fields s es := by
  induction es generalizing s with
  | nil => trivial
  | cons e es ih =>
    obtain ⟨he, hrest⟩ := hok
    obtain ⟨s', r, hs, hinv, hr⟩ := columnStep_spec h he
    exact ⟨s', r, hs, hr, ih hinv (hrest s' r hs)⟩

/-- **A batched read is the accessor's value.** In every run of lists fetched, fields read, reasons
set, handles released and ids issued and dropped, each read of a live package's field returns what
the accessor returns on the server at that moment, and each read of a dropped one's the last such
value or nothing. -/
theorem batched_reads_right (fields : Bytes → Option FieldKind) (srv : Pkgs) (es : List Event)
    (hok : AllowedEvents fields { srv } es) : RightRun fields { srv } es :=
  (Columns.Inv.empty srv).run es hok

/-! ## A run -/

/-- The packages after an event. -/
def Event.pkgs (srv : Pkgs) : Event → Pkgs
  | .setReason id reason ok =>
    if id ≠ 0 ∧ srv.get id = 0 then srv else libSetReason srv (srv.get id) reason ok
  | .server srv' => srv'
  | _ => srv

theorem columnStep_srv {e : Event} {s' : Columns} {r : Option FieldVal}
    (hs : columnStep fields s e = some (s', r)) : s'.srv = e.pkgs s.srv := by
  cases e with
  | register ids =>
    cases hs
    rfl
  | read id f k rid =>
    -- the two kinds differ in the column only
    cases k
    all_goals
      obtain ⟨x, -, hx⟩ := Option.bind_eq_some_iff.1 hs
      cases hx
      rfl
  | setReason id reason ok =>
    rw [columnStep] at hs
    unfold Event.pkgs
    split at hs
    · rename_i hdead
      cases hs
      exact (if_pos hdead).symm
    · rename_i hdead
      obtain ⟨x, -, hx⟩ := Option.bind_eq_some_iff.1 hs
      cases hx
      exact (if_neg hdead).symm
  | purgeRoot handle =>
    cases hs
    rfl
  | server srv =>
    cases hs
    rfl

/-- Every event of a run is allowed by the packages there are. -/
def AllowedPkgs (fields : Bytes → Option FieldKind) (srv : Pkgs) : List Event → Prop
  | [] => True
  | e :: es => e.Allowed fields { srv } ∧ AllowedPkgs fields (e.pkgs srv) es

theorem AllowedPkgs.events {es : List Event} (h : AllowedPkgs fields s.srv es) :
    AllowedEvents fields s es := by
  induction es generalizing s with
  | nil => trivial
  | cons e es ih =>
    obtain ⟨he, hrest⟩ := h
    refine ⟨by cases e <;> exact he, fun s' r hs => ih ?_⟩
    rw [columnStep_srv hs]
    exact hrest

/-- The packages when the id is dropped. -/
def Pkgs.without (srv : Pkgs) (id : Nat) : Pkgs where
  __ := srv
  get x := if x = id then 0 else srv.get x
  get_issued x h := srv.get_issued x fun h0 => h (by rw [h0, ite_self])
  get_inj x y h he := by
    have hx : x ≠ id := fun hx => h (if_pos hx)
    rw [if_neg hx] at h he
    have hy : y ≠ id := fun hy => h (by rw [he, if_pos hy])
    rw [if_neg hy] at he
    exact srv.get_inj x y h he

theorem Pkgs.without_evolves (srv : Pkgs) (id : Nat) : srv.Evolves (srv.without id) where
  issued _ h := h
  get x _ := by
    by_cases hx : x = id
    · exact .inl (if_pos hx)
    · exact .inr (if_neg hx)
  str _ _ _ _ := rfl
  num _ _ _ _ := rfl

/-- A server with two packages, of different install reasons. -/
def twoPkgs : Pkgs where
  get id := if id = 5 then 9 else if id = 6 then 11 else 0
  str _ _ := none
  num _ p := if p = 9 then 1 else 0
  issued id := id = 5 ∨ id = 6
  num_range _ p := by split <;> decide
  get_issued id h := by
    by_contra hne
    rw [not_or] at hne
    exact h (by rw [if_neg hne.1, if_neg hne.2])
  get_inj id id' h he := by grind
  issued_lt id h := by
    rcases h with rfl | rfl <;> decide

/-- And when the first one's reason has been set. -/
def twoDeps : Pkgs := libSetReason twoPkgs 9 ⟨0, i64_zero⟩ true

def readReason (id rid : Nat) : Event := .read id reasonField .num ⟨toI64 rid, toI64_range rid⟩

/-- Two lists with a package in common; the reason of one is set, and the id of the other is dropped. -/
def reasonReads : List Event :=
  [.register [5, 6], readReason 6 1, .register [6], readReason 5 2,
    .setReason 5 ⟨0, i64_zero⟩ true, readReason 5 4, .server (twoDeps.without 6),
    readReason 6 5, readReason 5 6]

theorem batched_reads_right_twoPkgs :
    AllowedEvents (fun _ => some .num) { srv := twoPkgs } reasonReads ∧
      RightRun (fun _ => some .num) { srv := twoPkgs } reasonReads := by
  have hread (srv : Pkgs) (id rid : Nat) (h : srv.Known id) :
      (readReason id rid).Allowed (fun _ => some .num) { srv } := ⟨h, rfl, by decide⟩
  have h5 : twoPkgs.Known 5 := .inr (.inl rfl)
  have h6 : twoPkgs.Known 6 := .inr (.inr rfl)
  have hboth : ∀ id ∈ [5, 6], twoPkgs.Known id :=
    List.forall_mem_cons.2 ⟨h5, List.forall_mem_singleton.2 h6⟩
  have hset : (Event.setReason 5 ⟨0, i64_zero⟩ true).pkgs twoPkgs = twoDeps := by
    rw [Event.pkgs, if_neg (by decide)]
    rfl
  have hok : AllowedPkgs (fun _ => some .num) twoPkgs reasonReads := by
    refine ⟨⟨hboth, by decide⟩, hread _ _ _ h6, ⟨List.forall_mem_singleton.2 h6, by decide⟩,
      hread _ _ _ h5, h5, ?_⟩
    show AllowedPkgs _ ((Event.setReason 5 ⟨0, i64_zero⟩ true).pkgs twoPkgs) _
    rw [hset]
    exact ⟨hread _ _ _ h5, twoDeps.without_evolves 6, hread _ _ _ h6, hread _ _ _ h5, trivial⟩
  exact ⟨AllowedPkgs.events hok, batched_reads_right _ twoPkgs reasonReads (AllowedPkgs.events hok)⟩

end Session
