import AlpmRpc.Session.Refs
import AlpmRpc.Server.Proof.TableRun

/-!
# The connection lives as long as the handles

`Inv` says that the table's slots are libalpm's live handles. `call_cases` is what a call does to
the count, the pipe and the handles; it is the one place that looks at handlers and stubs. From it
`refs_ok_iff`: the count is right after every call of a run exactly when no call of it releases
`NULL`.
-/

set_option autoImplicit false

namespace Session

open Json Server Client Gen Wire

/-- The table has one slot for each live handle and no other. -/
structure Inv (s : State) (a : Reg) : Prop where
  rep : Rep s.table a
  slots : ∀ sl ∈ a.live, sl.tag = .handle ∧ sl.owner = 0
  lib : s.lib.Perm (a.live.map (·.ptr))
  seq : a.nextSeq ≤ s.nextId

theorem Inv.empty : Inv {} {} :=
  ⟨.empty, by simp, by simp, by decide⟩

theorem Inv.mem_lib {s : State} {a : Reg} (h : Inv s a) {p : Nat} :
    p ∈ s.lib ↔ ∃ sl ∈ a.live, sl.ptr = p := by
  rw [h.lib.mem_iff, List.mem_map]

/-! ## The handlers on the registry -/

theorem init_run {s : State} {a : Reg} (h : Inv s a) (hb : s.nextId < 2 ^ 40)
    (root dbpath : Option CStr) (p : Nat) (err : Int) :
    ∃ t', (hAlpmInitialize p err s.lib (some (.arr [strTree root, strTree dbpath]))).run s.table =
        some (t', .ok (.num (toI64 (a.put p .handle 0).2)) [(lit "err", .num (toI64 err))],
          if p = 0 then s.lib else p :: s.lib) ∧ Rep t' (a.put p .handle 0).1 := by
  have hgood : ∀ (x : Option CStr) (l : List Tree) (i : Nat), l[i]? = some (strTree x) →
      (arpcArgStr (some (.arr l)) i).2 = false := by
    intro x l i hi
    unfold arpcArgStr ajElem children
    rw [hi]
    cases x <;> rfl
  have hprog : hAlpmInitialize p err s.lib (some (.arr [strTree root, strTree dbpath])) =
      .call (.put p .handle 0) fun id => .ret (.ok (.num (toI64 id))
        [(lit "err", .num (toI64 err))], if p = 0 then s.lib else p :: s.lib) := by
    rw [hAlpmInitialize, hgood root _ 0 rfl, hgood dbpath _ 1 rfl]
    rfl
  rw [hprog]
  have hseq := h.seq
  have hone := a.issues_le (.put p .handle 0)
  exact TProg.run_rep _ h.rep (by simp only [TProg.issued]; omega)

/-- A slot that nobody owns is only under itself. -/
theorem under_self {a : Reg} (h : a.Wf) (hs : ∀ sl ∈ a.live, sl.tag = .handle ∧ sl.owner = 0)
    {sl : Slot} (hsl : sl ∈ a.live) {id : Nat} (hid : id ≠ 0) :
    a.under sl.id id = true ↔ sl.id = id := by
  have hown : a.ownerOf sl.id = 0 := by
    rw [Reg.ownerOf, (Reg.find_eq_some h).2 ⟨hsl, rfl⟩]
    exact (hs sl hsl).2
  have hne := h.id_ne sl hsl
  by_cases he : sl.id = id
  · simp [Reg.under, Reg.underLoop, he, hid]
  · simp [Reg.under, Reg.underLoop, he, hne, hown]

/-- The registry without the handle `id`. -/
theorem release_live {s : State} {a : Reg} (h : Inv s a) {sl : Slot} (hsl : sl ∈ a.live) :
    (∀ x ∈ (a.dropOwner sl.id).live, x.tag = .handle ∧ x.owner = 0) ∧
      (s.lib.erase sl.ptr).Perm ((a.dropOwner sl.id).live.map (·.ptr)) := by
  have hwf := h.rep.wf
  have hne := hwf.id_ne sl hsl
  have hkeep : (a.dropOwner sl.id).live = a.live.filter fun x => x.id ≠ sl.id := by
    rw [Reg.dropOwner, if_neg hne, Reg.filter]
    refine List.filter_congr fun x hx => ?_
    have hu := under_self hwf h.slots hx hne
    cases hb : a.under x.id sl.id with
    | true => simp [hu.1 hb]
    | false =>
      have hn : x.id ≠ sl.id := by
        intro he
        rw [hu.2 he] at hb
        cases hb
      simp [hn]
  rw [hkeep]
  refine ⟨fun x hx => h.slots x (List.mem_filter.1 hx).1, ?_⟩
  obtain ⟨l₁, l₂, hl⟩ := List.append_of_mem hsl
  have hids := hwf.ids
  rw [hl, List.map_append, List.map_cons] at hids
  have hnot : ∀ x ∈ l₁ ++ l₂, x.id ≠ sl.id := by
    intro x hx he
    have hx' : x.id ∈ l₁.map (·.id) ++ l₂.map (·.id) := by
      rw [← List.map_append]
      exact List.mem_map_of_mem hx
    rw [he] at hx'
    exact (List.nodup_middle.1 hids).notMem hx'
  have hfil : (a.live.filter fun x => x.id ≠ sl.id) = l₁ ++ l₂ := by
    rw [hl, List.filter_append, List.filter_cons, if_neg (by simp), ← List.filter_append]
    exact List.filter_eq_self.2 fun x hx => by simpa using hnot x hx
  have hperm : s.lib.Perm (sl.ptr :: (l₁ ++ l₂).map (·.ptr)) := by
    refine h.lib.trans ?_
    rw [hl, List.map_append, List.map_append, List.map_cons]
    exact List.perm_middle
  rw [hfil]
  refine (hperm.erase sl.ptr).trans ?_
  rw [List.erase_cons_head]

section release

variable {s : State} {a : Reg} (h : Inv s a) (hb : s.nextId < 2 ^ 40) (id : Word) (rc : Int)

/-- The parameters of a release. -/
def releaseParams (id : Word) : Option Tree := some (.arr [.num (toI64 id.1)])

theorem argId_release : arpcArgId (releaseParams id) 0 = id.1 := by
  have hread : arpcArgId (releaseParams id) 0 = toU64 (toI64 id.1) := by
    simp only [releaseParams, arpcArgId, ajElem, children, List.getElem?_cons_zero, ajIsNull, ajI64]
    exact if_neg (by simp)
  rw [hread, toU64_toI64 id.2]

theorem argHandle_null (tag : HandleTag) (h0 : id.1 = 0) :
    arpcArgHandle (releaseParams id) 0 tag = .ret (0, false) := by
  rw [arpcArgHandle, argId_release, h0]
  rfl

theorem argHandle_id (tag : HandleTag) (h0 : id.1 ≠ 0) :
    arpcArgHandle (releaseParams id) 0 tag = .call (.get id.1 tag) fun p => .ret (p, p == 0) := by
  rw [arpcArgHandle, argId_release, if_neg h0]
  rfl

/-- The handler for `NULL`. -/
theorem release_null_eq (h0 : id.1 = 0) : hAlpmRelease rc s.lib (releaseParams id) =
    .call (.dropOwner 0) fun _ =>
      .ret (.ok (.num (toI64 (libRelease rc s.lib 0).1)) [], (libRelease rc s.lib 0).2) := by
  have harg := argId_release id
  rw [h0] at harg
  simp only [hAlpmRelease, argHandle_null id .handle h0, harg, TProg.ret_bind, TProg.op_bind, TProg.pure_eq,
    Bool.false_eq_true, if_false]

/-- The handler for anything else: it goes on when the id is of a handle. -/
theorem release_id_eq (h0 : id.1 ≠ 0) : hAlpmRelease rc s.lib (releaseParams id) =
    .call (.get id.1 .handle) fun p =>
      if p = 0 then .ret (badArguments (lit "alpm_release"), s.lib)
      else .call (.dropOwner id.1) fun _ => .ret (.ok (.num (toI64 rc)) [], s.lib.erase p) := by
  simp only [hAlpmRelease, argHandle_id id .handle h0, argId_release, TProg.call_bind, TProg.ret_bind, TProg.op_bind, TProg.pure_eq,
    beq_iff_eq]
  refine congrArg (TProg.call _) (funext fun p => ?_)
  by_cases hp : p = 0
  · rw [if_pos hp, if_pos hp]
  · rw [if_neg hp, if_neg hp, libRelease, if_neg hp]

end release

/-! ## One call -/

/-- **What a call does**: it makes a handle or fails to, releases a live handle, is refused, or
releases `NULL`. -/
inductive Effect (s s' : State) (closed : Bool) : Call → Prop where
  | made {root dbpath : Option CStr} {p : Nat} {err : Int} (hp : p ≠ 0) (hl : s'.lib = p :: s.lib)
      (hr : s'.refs = s.refs + 1) (hc : closed = false) (hpipe : s'.piped = true) :
      Effect s s' closed (.alpmInitialize root dbpath p err)
  | failed {root dbpath : Option CStr} {err : Int} (hl : s'.lib = s.lib) (hr : s'.refs = s.refs)
      (hc : closed = false) (hpipe : s'.piped = true) :
      Effect s s' closed (.alpmInitialize root dbpath 0 err)
  | refused {id : Word} {rc : Int} (hid : id.1 ≠ 0) (hl : s'.lib = s.lib) (hr : s'.refs = s.refs)
      (hc : closed = false) (hpipe : s'.piped = true) : Effect s s' closed (.alpmRelease id rc)
  | released {id : Word} {rc : Int} {p : Nat} (hid : id.1 ≠ 0) (hp : p ∈ s.lib)
      (hl : s'.lib = s.lib.erase p) (hr : s'.refs = s.refs - 1) (hc : closed = decide (s.refs ≤ 1))
      (hpipe : s'.piped = !closed) : Effect s s' closed (.alpmRelease id rc)
  | null {id : Word} {rc : Int} (hid : id.1 = 0) (hl : s'.lib = s.lib) (hr : s'.refs = s.refs - 1) :
      Effect s s' closed (.alpmRelease id rc)

theorem i64_nextId {s : State} (hb : s.nextId < 2 ^ 40) : I64 (s.nextId : Int) := by
  unfold I64
  omega

/-- The ids the table gives are words. -/
theorem mkId_lt {root seq : Nat} (hs : seq < 2 ^ 40) : mkId root seq < 2 ^ 64 := by
  rw [mkId_eq hs]
  omega

/-- What a new handle does to the table. -/
theorem Inv.put {s : State} {a : Reg} (h : Inv s a) (hb : s.nextId < 2 ^ 40) {p : Nat} (hp : p ≠ 0)
    (hfresh : p ∉ s.lib) : ∃ id root, (a.put p .handle 0).2 = id ∧ id ≠ 0 ∧ id < 2 ^ 64 ∧
      (a.put p .handle 0).1.nextSeq = a.nextSeq + 1 ∧
      (a.put p .handle 0).1.live = a.live ++ [{ id, ptr := p, owner := 0, tag := .handle }] ∧
      id = mkId root a.nextSeq := by
  have hseq : a.nextSeq < 2 ^ 40 := lt_of_le_of_lt h.seq hb
  rcases Reg.put_cases .handle h.rep.wf hp 0 with ⟨sl, hsl, hptr, -⟩ | ⟨-, root, nr, hr, he⟩
  · exact absurd (h.mem_lib.2 ⟨sl, hsl, hptr⟩) hfresh
  · refine ⟨_, root, hr, mkId_ne_zero h.rep.wf.seq_pos hseq, mkId_lt hseq, ?_, ?_, rfl⟩
    · rw [he]
      exact Nat.mod_eq_of_lt (by omega)
    · rw [he]

theorem call_init {s : State} {a : Reg} (h : Inv s a) (hb : s.nextId < 2 ^ 40)
    (root dbpath : Option CStr) {p : Nat} (err : Int) (hfresh : p ∉ s.lib) :
    ∃ s' a', call s (.alpmInitialize root dbpath p err) = some (s', false) ∧ Inv s' a' ∧
      s'.nextId = s.nextId + 1 ∧ Effect s s' false (.alpmInitialize root dbpath p err) := by
  obtain ⟨t', hrun, hrep⟩ := init_run h hb root dbpath p err
  have hparams : ∀ v ∈ [strTree root, strTree dbpath], Fits 0 v := by
    intro v hv
    simp only [List.mem_cons, List.not_mem_nil, or_false] at hv
    rcases hv with rfl | rfl
    · exact strTree_fits root
    · exact strTree_fits dbpath
  have hsend : Sendable (.ok (.num (toI64 (a.put p .handle 0).2)) [(lit "err", .num (toI64 err))]) := by
    refine ⟨.num (toI64_range _), fun m hm => ?_⟩
    cases List.mem_singleton.1 hm
    exact ⟨(by decide : NulFree (lit "err")), .num (toI64_range _)⟩
  have hex := exchange_eq (i64_nextId hb) (show NulFree (lit "alpm_initialize") by decide) hparams
    hrun hsend
  have hret : ∀ id < 2 ^ 64, toU64 (ajI64 (ajMember (some (.obj [(retKey, .num (toI64 (id : Nat))),
      (lit "err", .num (toI64 err))])) retKey) 0) = id := by
    intro id hlt
    have hmem : ajMember (some (.obj [(retKey, .num (toI64 id)), (lit "err", .num (toI64 err))]))
        retKey = some (.num (toI64 id)) := rfl
    rw [hmem, ajI64, toU64_toI64 hlt]
  by_cases hp : p = 0
  · have hput : a.put p .handle 0 = (a, 0) := by rw [Reg.put, if_pos hp]
    rw [hput] at hex hrep
    refine ⟨{ connected s with table := t' }, a, ?_, ⟨hrep, h.slots, h.lib, ?_⟩, rfl, ?_⟩
    · rw [call, hex, if_pos hp]
      simp only [Option.bind_eq_bind, Option.bind_some, Res.result]
      rw [hret 0 (by decide), if_neg (by simp)]
      rfl
    · exact h.seq.trans (Nat.le_succ _)
    · rw [hp]
      exact .failed rfl rfl rfl rfl
  · obtain ⟨id, r, hid, hne, hlt, hseq, hlive, -⟩ := h.put hb hp hfresh
    refine ⟨{ connected s with table := t', lib := p :: s.lib, refs := s.refs + 1 },
      (a.put p .handle 0).1, ?_, ⟨hrep, ?_, ?_, ?_⟩, rfl, .made hp rfl rfl rfl rfl⟩
    · rw [call, hex, if_neg hp]
      simp only [Option.bind_eq_bind, Option.bind_some, Res.result]
      rw [hid, hret id hlt, if_pos hne]
      rfl
    · intro sl hsl
      rw [hlive] at hsl
      rcases List.mem_append.1 hsl with hsl | hsl
      · exact h.slots sl hsl
      · cases List.mem_singleton.1 hsl
        exact ⟨rfl, rfl⟩
    · rw [hlive, List.map_append]
      exact (h.lib.cons p).trans (List.perm_append_singleton p _).symm
    · rw [hseq]
      exact Nat.succ_le_succ h.seq

theorem sendable_bad : Sendable (badArguments (lit "alpm_release")) :=
  ⟨by decide, (by decide : NulFree (lit "alpm_release" ++ lit ": bad arguments"))⟩

theorem sendable_num (v : Int) : Sendable (.ok (.num (toI64 v)) []) :=
  ⟨.num (toI64_range v), by simp⟩

theorem arpcConnUnref_eq (s : State) : arpcConnUnref s =
    ({ s with refs := s.refs - 1, piped := if s.refs ≤ 1 then false else s.piped },
      decide (s.refs ≤ 1)) := by
  unfold arpcConnUnref
  by_cases hr : s.refs ≤ 1
  · rw [if_neg (by omega), if_pos hr, decide_eq_true hr]
  · rw [if_pos (by omega), if_neg hr, decide_eq_false hr]

/-- The exchange of a release, from what its handler does. -/
theorem exchange_release {s : State} (hb : s.nextId < 2 ^ 40) {id : Word} {rc : Int} {t' : Table}
    {res : Res} {l : List Nat}
    (hrun : (hAlpmRelease rc s.lib (releaseParams id)).run s.table = some (t', res, l))
    (hs : Sendable res) :
    exchange (s.nextId : Int) (requestFrame s.nextId (lit "alpm_release") [.num (toI64 id.1)])
      (hAlpmRelease rc s.lib) s.table = some (t', l, res.result) := by
  refine exchange_eq (i64_nextId hb) (show NulFree (lit "alpm_release") by decide) ?_ hrun hs
  intro v hv
  cases List.mem_singleton.1 hv
  exact .num (toI64_range _)

theorem call_release_null {s : State} {a : Reg} (h : Inv s a) (hb : s.nextId < 2 ^ 40) {id : Word}
    (rc : Int) (h0 : id.1 = 0) :
    ∃ s' a' closed, call s (.alpmRelease id rc) = some (s', closed) ∧ Inv s' a' ∧
      s'.nextId = s.nextId + 1 ∧ Effect s s' closed (.alpmRelease id rc) := by
  have hseq := h.seq
  obtain ⟨t', hrun, hrep⟩ := TProg.run_rep (hAlpmRelease rc s.lib (releaseParams id)) h.rep (by
    rw [release_null_eq id rc h0, TProg.issued, TProg.issued, Reg.issues_of_object rfl]
    omega)
  rw [release_null_eq id rc h0] at hrep
  have hrun' := hrun
  rw [show (hAlpmRelease rc s.lib (releaseParams id)).runReg a =
    (a, .ok (.num (toI64 (libRelease rc s.lib 0).1)) [], s.lib) by
      rw [release_null_eq id rc h0]; rfl] at hrun'
  have hex := exchange_release hb hrun' (sendable_num _)
  have hcall : call s (.alpmRelease id rc) = some (arpcConnUnref { connected s with table := t' }) := by
    rw [call, hex]
    rfl
  rw [arpcConnUnref_eq] at hcall
  exact ⟨_, a, _, hcall, ⟨hrep, h.slots, h.lib, h.seq.trans (Nat.le_succ _)⟩, rfl,
    .null h0 rfl rfl⟩

theorem call_release {s : State} {a : Reg} (h : Inv s a) (hb : s.nextId < 2 ^ 40) {id : Word}
    (rc : Int) (h0 : id.1 ≠ 0) :
    ∃ s' a' closed, call s (.alpmRelease id rc) = some (s', closed) ∧ Inv s' a' ∧
      s'.nextId = s.nextId + 1 ∧ Effect s s' closed (.alpmRelease id rc) := by
  have hseq := h.seq
  obtain ⟨t', hrun, hrep⟩ := TProg.run_rep (hAlpmRelease rc s.lib (releaseParams id)) h.rep (by
    rw [release_id_eq id rc h0, TProg.issued, Reg.issues_get, Reg.exec_get]
    by_cases hg : a.get id.1 .handle = 0
    · rw [if_pos hg, TProg.issued]; omega
    · rw [if_neg hg, TProg.issued, TProg.issued, Reg.issues_of_object rfl]; omega)
  have hprog : (hAlpmRelease rc s.lib (releaseParams id)).runReg a =
      if a.get id.1 .handle = 0 then (a, badArguments (lit "alpm_release"), s.lib)
      else (a.dropOwner id.1, .ok (.num (toI64 rc)) [], s.lib.erase (a.get id.1 .handle)) := by
    rw [release_id_eq id rc h0, TProg.runReg, Reg.exec_get]
    by_cases hg : a.get id.1 .handle = 0
    · rw [if_pos hg, if_pos hg]
      rfl
    · rw [if_neg hg, if_neg hg]
      rfl
  rw [hprog] at hrun hrep
  by_cases hg : a.get id.1 .handle = 0
  · rw [if_pos hg] at hrun hrep
    have hex := exchange_release hb hrun sendable_bad
    have hcall : call s (.alpmRelease id rc) = some ({ connected s with table := t' }, false) := by
      rw [call, hex]
      rfl
    exact ⟨_, a, _, hcall, ⟨hrep, h.slots, h.lib, h.seq.trans (Nat.le_succ _)⟩, rfl,
      .refused h0 rfl rfl rfl rfl⟩
  · rw [if_neg hg] at hrun hrep
    obtain ⟨sl, hsl, hid, hptr, -⟩ := (Reg.get_eq_iff h.rep.wf hg).1 rfl
    have hex := exchange_release hb hrun (sendable_num rc)
    have hcall : call s (.alpmRelease id rc) = some (arpcConnUnref
        { connected s with table := t', lib := s.lib.erase (a.get id.1 .handle) }) := by
      rw [call, hex]
      rfl
    obtain ⟨hslots, hperm⟩ := release_live h hsl
    rw [hid] at hslots hperm
    rw [hptr] at hperm
    have hmem : a.get id.1 .handle ∈ s.lib := h.mem_lib.2 ⟨sl, hsl, hptr⟩
    have hnext : (a.dropOwner id.1).nextSeq = a.nextSeq := by
      rw [Reg.dropOwner]
      split <;> rfl
    rw [arpcConnUnref_eq] at hcall
    refine ⟨_, a.dropOwner id.1, _, hcall,
      ⟨hrep, hslots, hperm, hnext.le.trans (h.seq.trans (Nat.le_succ _))⟩, rfl,
      .released h0 hmem rfl rfl rfl ?_⟩
    by_cases hr : s.refs ≤ 1
    · simp [connected, hr]
    · simp [connected, hr]

/-- **One call**: it returns, and does one of five things. -/
theorem call_cases {s : State} {a : Reg} (h : Inv s a) (hb : s.nextId < 2 ^ 40) {c : Call}
    (hf : c.Fresh s) :
    ∃ s' a' closed, call s c = some (s', closed) ∧ Inv s' a' ∧ s'.nextId = s.nextId + 1 ∧
      Effect s s' closed c := by
  cases c with
  | alpmInitialize root dbpath p err =>
    obtain ⟨s', a', hc, hi, hn, he⟩ := call_init h hb root dbpath err hf.1
    exact ⟨s', a', false, hc, hi, hn, he⟩
  | alpmRelease id rc =>
    by_cases h0 : id.1 = 0
    · exact call_release_null h hb rc h0
    · exact call_release h hb rc h0

/-! ## A whole run -/

/-- The call releases `NULL`. -/
def Call.ReleasesNull : Call → Prop
  | .alpmInitialize _ _ _ _ => False
  | .alpmRelease id _ => id.1 = 0

theorem length_erase_pos {p : Nat} {l : List Nat} (hp : p ∈ l) :
    ((l.erase p).length : Int) = l.length - 1 := by
  have hpos : 0 < l.length := List.length_pos_of_mem hp
  rw [List.length_erase_of_mem hp]
  omega

theorem erase_eq_nil_iff {p : Nat} {l : List Nat} (hp : p ∈ l) :
    l.erase p = [] ↔ l.length ≤ 1 := by
  rw [← List.length_eq_zero_iff, List.length_erase_of_mem hp]
  omega

/-- From a right count, a call keeps it right unless it releases `NULL`. -/
theorem step_ok_iff {s s' : State} {closed : Bool} {c : Call} (he : Effect s s' closed c)
    (hr : s.refs = s.lib.length) : (Step.mk s closed s').Ok ↔ ¬c.ReleasesNull := by
  unfold Step.Ok
  dsimp only
  cases he with
  | made hp hl hr' hc hpipe =>
    refine iff_of_true ⟨?_, ?_, fun _ => hpipe⟩ (fun h => h)
    · rw [hr', hl, hr, List.length_cons]
      rfl
    · rw [hc, hl]
      simp
  | failed hl hr' hc hpipe =>
    refine iff_of_true ⟨?_, ?_, fun _ => hpipe⟩ (fun h => h)
    · rw [hr', hl, hr]
    · rw [hc, hl]
      simp
  | refused hid hl hr' hc hpipe =>
    refine iff_of_true ⟨?_, ?_, fun _ => hpipe⟩ hid
    · rw [hr', hl, hr]
    · rw [hc, hl]
      simp
  | released hid hp hl hr' hc hpipe =>
    have hiff := erase_eq_nil_iff hp
    have hne := List.ne_nil_of_mem hp
    refine iff_of_true ⟨?_, ?_, ?_⟩ hid
    · rw [hr', hl, hr, length_erase_pos hp]
    · rw [hc, hl, decide_eq_true_iff, hr, hiff]
      exact ⟨fun h => ⟨hne, by omega⟩, fun h => by omega⟩
    · intro hlive
      rw [hl] at hlive
      have hlen : ¬s.lib.length ≤ 1 := fun h => hlive (hiff.2 h)
      rw [hpipe, hc, hr, Bool.not_eq_true', decide_eq_false_iff_not]
      omega
  | null hid hl hr' =>
    refine iff_of_false (fun h => ?_) (fun h => h hid)
    have h1 := h.1
    rw [hr', hl, hr] at h1
    omega

/-- A run returns, whatever it does to the count. -/
theorem trace_some {s : State} {a : Reg} (h : Inv s a) (cs : List Call)
    (hb : s.nextId + cs.length ≤ 2 ^ 40) (hf : FreshRun cs s) : ∃ l, trace cs s = some l := by
  induction cs generalizing s a with
  | nil => exact ⟨[], rfl⟩
  | cons c cs ih =>
    rw [List.length_cons] at hb
    obtain ⟨s', a', closed, hc, hi, hn, -⟩ := call_cases h (by omega) hf.1
    obtain ⟨l, hl⟩ := ih hi (by omega) (hf.2 s' closed hc)
    exact ⟨⟨s, closed, s'⟩ :: l, by rw [trace, hc]; simp [hl]⟩

/-- From a right count, it stays right through a run exactly when no call releases `NULL`. -/
theorem trace_ok_iff {s : State} {a : Reg} (h : Inv s a) (hr : s.refs = s.lib.length)
    (cs : List Call) (hb : s.nextId + cs.length ≤ 2 ^ 40) (hf : FreshRun cs s) :
    ∃ l, trace cs s = some l ∧ ((∀ st ∈ l, st.Ok) ↔ ∀ c ∈ cs, ¬c.ReleasesNull) := by
  induction cs generalizing s a with
  | nil => exact ⟨[], rfl, by simp⟩
  | cons c cs ih =>
    rw [List.length_cons] at hb
    obtain ⟨s', a', closed, hc, hi, hn, he⟩ := call_cases h (by omega) hf.1
    have hstep := step_ok_iff he hr
    have hf' := hf.2 s' closed hc
    by_cases hnull : c.ReleasesNull
    · obtain ⟨l, hl⟩ := trace_some hi cs (by omega) hf'
      refine ⟨⟨s, closed, s'⟩ :: l, by rw [trace, hc]; simp [hl], iff_of_false ?_ ?_⟩
      · intro hall
        exact hstep.1 (hall _ List.mem_cons_self) hnull
      · intro hall
        exact hall c List.mem_cons_self hnull
    · have hok := hstep.2 hnull
      obtain ⟨l, hl, hiff⟩ := ih hi hok.1 (by omega) hf'
      refine ⟨⟨s, closed, s'⟩ :: l, by rw [trace, hc]; simp [hl], ?_⟩
      rw [List.forall_mem_cons, List.forall_mem_cons, hiff]
      exact and_congr_left fun _ => hstep

/-- **When the connection lives as long as the handles.** In a run of `alpm_initialize` and
`alpm_release` calls, all answered, the count of handles is right and the pipe is closed with the
last of them after every call exactly when no call releases `NULL`. -/
theorem refs_ok_iff (cs : List Call) (hb : cs.length < 2 ^ 40) (hf : FreshRun cs {}) :
    ∃ l, trace cs {} = some l ∧ ((∀ st ∈ l, st.Ok) ↔ ∀ c ∈ cs, ¬c.ReleasesNull) := by
  refine trace_ok_iff Inv.empty rfl cs ?_ hf
  rw [show ({} : State).nextId = 1 from rfl]
  omega

/-- A handle made, then `NULL` released. -/
def makeThenNull : List Call :=
  [.alpmInitialize (some ⟨lit "/", by decide⟩) none 4096 0, .alpmRelease ⟨0, zero_lt_word⟩ 0]

theorem makeThenNull_fresh : FreshRun makeThenNull {} := by
  refine ⟨⟨by simp, by decide⟩, fun s' closed _ => ⟨trivial, fun _ _ _ => trivial⟩⟩

theorem refs_ok_iff_makeThenNull :
    makeThenNull.length < 2 ^ 40 ∧ FreshRun makeThenNull {} ∧ ∃ l, trace makeThenNull {} = some l ∧
      ((∀ st ∈ l, st.Ok) ↔ ∀ c ∈ makeThenNull, ¬c.ReleasesNull) :=
  ⟨by decide, makeThenNull_fresh, refs_ok_iff makeThenNull (by decide) makeThenNull_fresh⟩

/-- The pipe is closed under the live handle. -/
theorem null_release_miscounts :
    ¬∀ cs : List Call, cs.length < 2 ^ 40 → FreshRun cs {} →
      ∃ l, trace cs {} = some l ∧ ∀ st ∈ l, st.Ok := by
  intro hall
  obtain ⟨l, hl, hok⟩ := hall makeThenNull (by decide) makeThenNull_fresh
  obtain ⟨l', hl', hiff⟩ := trace_ok_iff Inv.empty rfl makeThenNull (by decide) makeThenNull_fresh
  rw [hl] at hl'
  cases hl'
  exact hiff.1 hok (.alpmRelease ⟨0, by decide⟩ 0) (by simp [makeThenNull]) rfl

end Session
