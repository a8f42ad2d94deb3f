import AlpmRpc.Session.Callbacks
import AlpmRpc.Lib.Run
import Mathlib.Data.List.Basic

/-!
# Registered on both sides, or on neither

The registries as maps (`lookup_regFor`, `lookup_write`, `lookup_purge`), a bit of a mask
(`isSet_setBit`), and what a registration does by the way it goes (`register_cases`). A step is all
or nothing exactly when it is clean (`step_iff`), as long as both registries know live handles only,
which such a step keeps.
-/

set_option autoImplicit false

namespace Callbacks

open Json

/-! ## Registries -/

namespace Regs

variable {α : Type} {rs rs' : Regs α} {handle h : Nat} {blank : α} {mem : Bool}

theorem lookup_cons (a : α) (rs : Regs α) (handle h : Nat) :
    List.lookup h ((handle, a) :: rs) = if h = handle then some a else rs.lookup h := by
  rw [List.lookup_cons]
  by_cases he : h = handle
  · simp [he]
  · simp [he, beq_false_of_ne he]

theorem lookup_regFor (hr : rs.regFor handle blank mem = some rs') :
    rs'.lookup h = if h = handle then some ((rs.lookup handle).getD blank) else rs.lookup h := by
  unfold regFor at hr
  split at hr
  · rename_i hsome
    cases hr
    obtain ⟨a, ha⟩ := Option.isSome_iff_exists.1 hsome
    split
    · rename_i he
      rw [he, ha]
      rfl
    · rfl
  · rename_i hnone
    split at hr
    · cases hr
      rw [lookup_cons, Option.not_isSome_iff_eq_none.1 hnone]
      rfl
    · cases hr

theorem regFor_eq_none :
    rs.regFor handle blank mem = none ↔ ¬((rs.lookup handle).isSome = true ∨ mem = true) := by
  unfold regFor
  split
  · simp [*]
  · cases mem <;> simp [*]

theorem lookup_write (f : α → α) (rs : Regs α) :
    (rs.write handle f).lookup h = if h = handle then (rs.lookup handle).map f else rs.lookup h := by
  induction rs with
  | nil => simp [write]
  | cons r rs ih =>
    obtain ⟨h₀, a⟩ := r
    unfold write
    by_cases he : h₀ = handle
    · subst he
      rw [if_pos rfl, lookup_cons, lookup_cons, lookup_cons]
      by_cases hh : h = h₀ <;> simp [hh]
    · rw [if_neg he, lookup_cons, lookup_cons, lookup_cons, ih, if_neg (Ne.symm he)]
      by_cases hh : h = h₀
      · simp [hh, he]
      · simp [hh]

theorem lookup_purge (rs : Regs α) :
    (rs.purge handle).lookup h = if h = handle then none else rs.lookup h := by
  induction rs with
  | nil => simp [purge]
  | cons r rs ih =>
    obtain ⟨h₀, a⟩ := r
    unfold purge at ih ⊢
    rw [List.filter_cons]
    by_cases he : h₀ = handle
    · subst he
      simp only [ne_eq, not_true_eq_false, decide_false, Bool.false_eq_true, if_false, ih,
        lookup_cons]
      by_cases hh : h = h₀ <;> simp [hh]
    · simp only [ne_eq, he, not_false_eq_true, decide_true, if_true, lookup_cons, ih]
      by_cases hh : h = h₀
      · simp [hh, he]
      · simp [hh]

end Regs

/-! ## Masks and kinds -/

def isSet (enabled : BitVec slots) (kind : Nat) : Bool := enabled &&& bit kind != 0

theorem isSet_eq (enabled : BitVec slots) {kind : Nat} (hk : kind < slots) :
    isSet enabled kind = enabled.getLsbD kind := by
  have hbit : bit kind = BitVec.twoPow slots kind := rfl
  rw [isSet, hbit, BitVec.and_twoPow]
  cases enabled.getLsbD kind with
  | false => rfl
  | true =>
    rw [if_pos rfl, bne_iff_ne]
    intro h0
    have := congrArg (fun v : BitVec slots => v.getLsbD kind) h0
    simp [hk] at this

/-- A write sets its bit and no other. -/
theorem isSet_setBit (enabled : BitVec slots) {kind j : Nat} (on : Bool) (hk : kind < slots)
    (hj : j < slots) :
    isSet (setBit enabled kind on) j = if j = kind then on else isSet enabled j := by
  have hbit : bit kind = BitVec.twoPow slots kind := rfl
  rw [isSet_eq _ hj, isSet_eq _ hj]
  cases on with
  | true =>
    rw [setBit, if_pos rfl, hbit, BitVec.getLsbD_or, BitVec.getLsbD_twoPow]
    by_cases he : j = kind
    · simp [he, hk]
    · simp [he, Ne.symm he]
  | false =>
    rw [setBit, if_neg Bool.false_ne_true, hbit, BitVec.getLsbD_and, BitVec.getLsbD_not,
      BitVec.getLsbD_twoPow]
    by_cases he : j = kind
    · simp [he, hk]
    · simp [he, Ne.symm he, hj]

theorem kindLoop_of_notMem {which : Bytes} {names : List Bytes} (h : which ∉ names) (i : Nat)
    (kind : Option Nat) : kindLoop which names i kind = kind := by
  induction names generalizing i kind with
  | nil => rfl
  | cons name names ih =>
    rw [List.mem_cons, not_or] at h
    rw [kindLoop, ih h.2, if_neg (Ne.symm h.1)]

theorem kindLoop_getElem {names : List Bytes} (hn : names.Nodup) {j : Nat} {which : Bytes}
    (h : names[j]? = some which) (i : Nat) (kind : Option Nat) :
    kindLoop which names i kind = some (i + j) := by
  induction names generalizing i j kind with
  | nil => cases h
  | cons name names ih =>
    obtain ⟨hnot, hn⟩ := List.nodup_cons.1 hn
    rw [kindLoop]
    cases j with
    | zero =>
      obtain rfl : name = which := by simpa using h
      rw [kindLoop_of_notMem hnot, if_pos rfl, Nat.add_zero]
    | succ j =>
      rw [ih hn (by simpa using h)]
      congr 1
      omega

/-- The server finds the kind the client means, or none. -/
theorem kindLoop_wire (k : Kinds) (kind : Int) : kindLoop (k.wire kind) k.names 0 none =
    if kind.toNat < k.names.length then some kind.toNat else none := by
  split
  · rename_i hlt
    rw [kindLoop_getElem k.nodup (j := kind.toNat) (by simp [Kinds.wire, hlt]), Nat.zero_add]
  · rename_i hge
    have hwire : k.wire kind = [] := by
      rw [Kinds.wire, List.getD_eq_getElem?_getD, List.getElem?_eq_none (by omega)]
      rfl
    exact kindLoop_of_notMem (hwire ▸ k.named) _ _

theorem slotOf_eq_some {kind : Int} {i : Fin slots} (h : slotOf kind = some i) :
    0 ≤ kind ∧ kind < 32 ∧ i.val = kind.toNat := by
  unfold slotOf at h
  split at h
  · rename_i hk
    cases h
    exact ⟨hk.1, hk.2, rfl⟩
  · cases h

theorem slotOf_eq_none {kind : Int} : slotOf kind = none ↔ ¬(0 ≤ kind ∧ kind < 32) := by
  unfold slotOf
  split <;> simp [*]

/-! ## What a registration does -/

variable {k : Kinds} {s : State} {handle : Nat} {kind : Int} {fn ctx : Nat} {env : Env}

/-- The functions and contexts after a write to one entry. -/
theorem held_write (s s' : State) {i : Fin slots} (hi : slotOf kind = some i)
    (hc : ∀ h, s'.client.lookup h = if h = handle then
      some { fn := Function.update ((s.client.lookup handle).getD {}).fn i fn
             ctx := Function.update ((s.client.lookup handle).getD {}).ctx i ctx }
      else s.client.lookup h) (h : Nat) (j : Int) :
    arpcCbFn s' h j = (if h = handle ∧ j = kind then fn else arpcCbFn s h j) ∧
      arpcCbCtx s' h j = if h = handle ∧ j = kind then ctx else arpcCbCtx s h j := by
  unfold arpcCbFn arpcCbCtx
  rw [hc]
  by_cases hh : h = handle
  · subst hh
    by_cases hj : j = kind
    · subst hj
      simp [hi]
    · cases hs : slotOf j with
      | none => cases s.client.lookup h <;> simp [hj]
      | some i' =>
        have hne : i' ≠ i := by
          rintro rfl
          have h₁ := slotOf_eq_some hs
          have h₂ := slotOf_eq_some hi
          omega
        cases s.client.lookup h <;> simp [hj, Function.update_of_ne hne]
  · simp [hh]

/-- A new entry is of no function. -/
theorem held_regFor {rs : Regs Reg} {mem : Bool} (hr : s.client.regFor handle {} mem = some rs)
    (rc : Int) (h : Nat) (j : Int) :
    arpcCbFn { s with client := rs, rc } h j = arpcCbFn s h j ∧
      arpcCbCtx { s with client := rs, rc } h j = arpcCbCtx s h j := by
  unfold arpcCbFn arpcCbCtx
  dsimp only
  rw [Regs.lookup_regFor hr]
  by_cases hh : h = handle
  · subst hh
    rw [if_pos rfl]
    cases s.client.lookup h <;> cases slotOf j <;> simp
  · simp [hh]

theorem arpcCbSet_other (which : Bytes) (enabled : Bool) {h : Nat} (hh : h ≠ handle) :
    (arpcCbSet k s handle which enabled env).1.lookup h = s.server.lookup h := by
  unfold arpcCbSet
  split
  · rfl
  · split
    · rfl
    · split
      · rfl
      · rename_i hr
        rw [Regs.lookup_write, if_neg hh, Regs.lookup_regFor hr, if_neg hh]

theorem setRemote_client (k : Kinds) (s : State) (handle : Nat) (which : Bytes) (enabled : Bool)
    (env : Env) :
    (setRemote k s handle which enabled env).client = s.client ∧
      (setRemote k s handle which enabled env).handles = s.handles := by
  unfold setRemote
  split <;> exact ⟨rfl, rfl⟩

theorem setRemote_other (which : Bytes) (enabled : Bool) {h : Nat} (hh : h ≠ handle) :
    (setRemote k s handle which enabled env).server.lookup h = s.server.lookup h := by
  unfold setRemote
  split
  · exact arpcCbSet_other which enabled hh
  · rfl

/-- The call returns `0` when the whole way succeeds, and then the bit is as asked for. -/
theorem setRemote_rc (k : Kinds) (kind : Int) (env : Env) (hlive : handle ∈ s.handles)
    (enabled : Bool) :
    ((setRemote k s handle (k.wire kind) enabled env).rc = 0 ↔ Succeeds k s handle kind env) ∧
      (Succeeds k s handle kind env → ∀ j, j < slots →
        arpcCbWanted (setRemote k s handle (k.wire kind) enabled env) handle j =
          if j = kind.toNat then enabled else arpcCbWanted s handle j) := by
  unfold setRemote
  by_cases ha : env.arrives = true
  case neg =>
    rw [if_neg ha]
    have hrc : (-1 : Int) ≠ 0 := by decide
    exact ⟨⟨fun h => absurd h hrc, fun h => absurd h.arrives ha⟩, fun h => absurd h.arrives ha⟩
  rw [if_pos ha]
  unfold arpcCbSet
  rw [if_neg (fun h => h.2 hlive), kindLoop_wire]
  by_cases hk : kind.toNat < k.names.length
  case neg =>
    simp only [if_neg hk]
    refine ⟨⟨fun h => ?_, fun h => absurd h.known hk⟩, fun h => absurd h.known hk⟩
    split at h <;> exact absurd h (by decide)
  simp only [if_pos hk]
  cases hr : s.server.regFor handle 0 env.serverMem with
  | none =>
    have hroom := Regs.regFor_eq_none.1 hr
    refine ⟨⟨fun h => ?_, fun h => absurd h.room hroom⟩, fun h => absurd h.room hroom⟩
    dsimp only at h
    split at h <;> exact absurd h (by decide)
  | some rs =>
    have hroom : (s.server.lookup handle).isSome = true ∨ env.serverMem = true := by
      by_contra hno
      rw [Regs.regFor_eq_none.2 hno] at hr
      cases hr
    dsimp only
    refine ⟨⟨fun h => ?_, fun h => by rw [if_pos h.returns]; exact h.answer⟩, fun _ j hj => ?_⟩
    · split at h
      · rename_i hret
        exact ⟨hk, ha, hroom, h, hret⟩
      · exact absurd h (by decide)
    · have hbit := isSet_setBit ((s.server.lookup handle).getD 0) enabled
        (Nat.lt_of_lt_of_le hk k.fit) hj
      unfold arpcCbWanted
      dsimp only
      rw [Regs.lookup_write, if_pos rfl, Regs.lookup_regFor hr, if_pos rfl]
      refine hbit.trans ?_
      cases s.server.lookup handle with
      | none => simp [isSet]
      | some e => rfl

/-- **What a registration does**: without an entry nothing, without a slot next to nothing, and else
the entry is written before the server is asked. -/
theorem register_cases (k : Kinds) (s : State) (handle : Nat) (kind : Int) (fn ctx : Nat) (env : Env) :
    (¬((s.client.lookup handle).isSome = true ∨ env.clientMem = true) ∧
      arpcCbRegister k s handle kind fn ctx env = { s with rc := -1 }) ∨
    ∃ rs, s.client.regFor handle {} env.clientMem = some rs ∧
      ((¬(0 ≤ kind ∧ kind < 32) ∧
          arpcCbRegister k s handle kind fn ctx env = { s with client := rs, rc := -1 }) ∨
        ∃ i client, slotOf kind = some i ∧
          (∀ h, client.lookup h = if h = handle then
            some { fn := Function.update ((s.client.lookup handle).getD {}).fn i fn
                   ctx := Function.update ((s.client.lookup handle).getD {}).ctx i ctx }
            else s.client.lookup h) ∧
          arpcCbRegister k s handle kind fn ctx env =
            setRemote k { s with client } handle (k.wire kind) (fn ≠ 0) env) := by
  unfold arpcCbRegister
  cases hr : s.client.regFor handle {} env.clientMem with
  | none => exact .inl ⟨Regs.regFor_eq_none.1 hr, rfl⟩
  | some rs =>
    refine .inr ⟨rs, rfl, ?_⟩
    cases hi : slotOf kind with
    | none => exact .inl ⟨slotOf_eq_none.1 hi, rfl⟩
    | some i =>
      refine .inr ⟨i, _, rfl, fun h => ?_, rfl⟩
      rw [Regs.lookup_write, Regs.lookup_regFor hr, Regs.lookup_regFor hr, if_pos rfl]
      by_cases hh : h = handle <;> simp [hh]

/-! ## Steps -/

/-- Both registries know live handles only. -/
def Live (s : State) : Prop :=
  ∀ id, id ∉ s.handles → s.client.lookup id = none ∧ s.server.lookup id = none

theorem regFor_of_room {rs : Regs Reg} {mem : Bool} (hr : s.client.regFor handle {} mem = some rs) :
    (s.client.lookup handle).isSome = true ∨ mem = true := by
  by_contra hno
  rw [Regs.regFor_eq_none.2 hno] at hr
  cases hr

theorem register_iff (hI : Live s) :
    AllOrNothing s (.register handle kind fn ctx env) (arpcCbRegister k s handle kind fn ctx env) ↔
      Clean k s (.register handle kind fn ctx env) (arpcCbRegister k s handle kind fn ctx env) := by
  unfold Clean
  rcases register_cases k s handle kind fn ctx env with ⟨hroom, he⟩ | ⟨rs, hr, hcase⟩
  · rw [he]
    have hrc : (-1 : Int) ≠ 0 := by decide
    refine ⟨fun _ h => absurd h hroom, fun _ => ⟨?_, ?_, hI⟩⟩
    · exact fun _ _ _ _ _ _ _ _ _ => ⟨rfl, rfl⟩
    · exact fun _ _ _ _ _ _ h => absurd h hrc
  rcases hcase with ⟨hk, he⟩ | ⟨i, client, hi, hc, he⟩
  · rw [he]
    have hrc : (-1 : Int) ≠ 0 := by decide
    constructor
    · intro h _
      refine ⟨?_, fun hin => absurd hin hk⟩
      by_contra hdead
      have hgone := (h.gone handle hdead).1
      dsimp only at hgone
      rw [Regs.lookup_regFor hr, if_pos rfl] at hgone
      cases hgone
    · intro h
      obtain ⟨hlive, -⟩ := h (regFor_of_room hr)
      refine ⟨fun _ _ _ _ _ _ _ h j => held_regFor hr _ h j, ?_, fun id hid => ?_⟩
      · exact fun _ _ _ _ _ _ h => absurd h hrc
      · dsimp only
        rw [Regs.lookup_regFor hr, if_neg (fun hh : id = handle => hid (hh ▸ hlive))]
        exact hI id hid
  · rw [he]
    obtain ⟨hk₀, hk₁, -⟩ := slotOf_eq_some hi
    obtain ⟨hcl, hha⟩ := setRemote_client k { s with client } handle (k.wire kind)
      (decide (fn ≠ 0)) env
    set s' := setRemote k { s with client } handle (k.wire kind) (decide (fn ≠ 0)) env with hs'
    have hcl : s'.client = client := hcl
    have hheld : ∀ h j, _ ∧ _ := held_write s s' hi (hcl.symm ▸ hc)
    have hself : arpcCbFn s' handle kind = fn ∧ arpcCbCtx s' handle kind = ctx := by
      simpa using hheld handle kind
    constructor
    · intro h _
      have hlive : handle ∈ s.handles := by
        by_contra hdead
        have hgone := (h.gone handle (by rw [hha]; exact hdead)).1
        rw [hcl, hc, if_pos rfl] at hgone
        cases hgone
      refine ⟨hlive, fun _ => ?_⟩
      by_cases hrc : s'.rc = 0
      · have hsucc := (setRemote_rc (s := { s with client }) k kind env hlive (decide (fn ≠ 0))).1.1 hrc
        exact .inr ⟨hsucc.known, hsucc.arrives, hsucc.room, hsucc.answer, hsucc.returns⟩
      · obtain ⟨h₁, h₂⟩ := h.nothing _ _ _ _ _ rfl hrc handle kind
        exact .inl ⟨h₁.symm.trans hself.1, h₂.symm.trans hself.2⟩
    · intro h
      obtain ⟨hlive, hway⟩ := h (regFor_of_room hr)
      obtain ⟨hrc, hbit⟩ := setRemote_rc (s := { s with client }) k kind env hlive
        (decide (fn ≠ 0))
      refine ⟨?_, ?_, fun id hid => ?_⟩
      · rintro _ _ _ _ _ ⟨⟩ hne h j
        rcases hway ⟨hk₀, hk₁⟩ with ⟨hf, hx⟩ | hs
        · refine ⟨(hheld h j).1.trans ?_, (hheld h j).2.trans ?_⟩ <;> split
          · rename_i hj
            rw [hj.1, hj.2, hf]
          · rfl
          · rename_i hj
            rw [hj.1, hj.2, hx]
          · rfl
        · exact absurd (hrc.2 ⟨hs.known, hs.arrives, hs.room, hs.answer, hs.returns⟩) hne
      · rintro _ _ _ _ _ ⟨⟩ h0 -
        have hsucc := hrc.1 h0
        have hlt : kind.toNat < slots := Nat.lt_of_lt_of_le hsucc.known k.fit
        refine ⟨?_, fun h j hj hne => ?_⟩
        · rw [hbit hsucc _ hlt, if_pos rfl, hself.1, decide_eq_true_eq]
        · by_cases hh : h = handle
          · subst hh
            rw [hbit hsucc j hj, if_neg (by omega)]
            rfl
          · unfold arpcCbWanted
            rw [hs', setRemote_other _ _ hh]
      · rw [hha] at hid
        have hh : id ≠ handle := fun hh => hid (hh ▸ hlive)
        obtain ⟨h₁, h₂⟩ := hI id hid
        rw [hcl, hs', setRemote_other _ _ hh]
        exact ⟨by rw [hc, if_neg hh]; exact h₁, h₂⟩

theorem release_iff (hI : Live s) :
    AllOrNothing s (.release handle env) (alpmRelease s handle env) ↔
      Clean k s (.release handle env) (alpmRelease s handle env) := by
  have hothers : (∀ id, id ∉ (alpmRelease s handle env).handles →
      (alpmRelease s handle env).client.lookup id = none ∧
        (alpmRelease s handle env).server.lookup id = none) →
      AllOrNothing s (.release handle env) (alpmRelease s handle env) :=
    fun h => ⟨nofun, nofun, h⟩
  unfold Clean
  refine ⟨fun h hne hlive ha => ?_, fun h => hothers ?_⟩
  · by_contra hno
    rw [not_or, Bool.not_eq_true] at hno
    have hgone := h.gone handle
    unfold alpmRelease at hgone
    rw [if_neg (fun hna => hna ha), if_neg (fun hd => hd.2 hlive), if_neg hne,
      if_neg (by rw [hno.1]; exact Bool.false_ne_true)] at hgone
    exact hno.2 (hgone (by simp)).1
  · unfold alpmRelease
    by_cases ha : env.arrives = true
    case neg =>
      rw [if_pos ha]
      exact hI
    rw [if_neg (fun hna => hna ha)]
    by_cases hdead : handle ≠ 0 ∧ handle ∉ s.handles
    · rw [if_pos hdead]
      exact hI
    rw [if_neg hdead]
    by_cases h0 : handle = 0
    · rw [if_pos h0]
      split
      · intro id hid
        obtain ⟨h₁, h₂⟩ := hI id hid
        dsimp only
        rw [Regs.lookup_purge, h₁]
        exact ⟨ite_self _, h₂⟩
      · exact hI
    · rw [if_neg h0]
      have hlive : handle ∈ s.handles := by
        by_contra hno
        exact hdead ⟨h0, hno⟩
      have hway := h h0 hlive ha
      -- a handle that is not live now was not, or is the one released
      have hside : ∀ id, id ∉ s.handles.filter (· ≠ handle) → id = handle ∨ id ∉ s.handles := by
        intro id hid
        by_cases hh : id = handle
        · exact .inl hh
        · exact .inr fun hin => hid (List.mem_filter.2 ⟨hin, by simpa using hh⟩)
      have hserver : ∀ id, id ∉ s.handles.filter (· ≠ handle) →
          (s.server.purge handle).lookup id = none := by
        intro id hid
        rw [Regs.lookup_purge]
        rcases hside id hid with hh | hh
        · exact if_pos hh
        · rw [(hI id hh).2, ite_self]
      split
      · intro id hid
        refine ⟨?_, hserver id hid⟩
        dsimp only
        rw [Regs.lookup_purge]
        rcases hside id hid with hh | hh
        · exact if_pos hh
        · rw [(hI id hh).1, ite_self]
      · rename_i hret
        intro id hid
        refine ⟨?_, hserver id hid⟩
        rcases hside id hid with rfl | hh
        · exact hway.resolve_left hret
        · exact (hI id hh).1

/-- **A step is all or nothing exactly when it is clean.** -/
theorem step_iff {ev : Event} {s' : State} (hI : Live s) (hs : step k s ev = some s') :
    AllOrNothing s ev s' ↔ Clean k s ev s' := by
  cases ev with
  | create id =>
    rw [step] at hs
    split at hs
    · cases hs
    · cases hs
      refine ⟨fun _ => trivial, fun _ => ⟨nofun, nofun, fun j hj => hI j fun hin => hj ?_⟩⟩
      exact List.mem_cons_of_mem _ hin
  | register handle kind fn ctx env =>
    cases hs
    exact register_iff hI
  | release handle env =>
    cases hs
    exact release_iff hI

/-- **Registration is all or nothing** along a run exactly when every step of it is clean. -/
theorem all_or_nothing_iff (k : Kinds) (evs : List Event) :
    Run.Along (step k) AllOrNothing {} evs ↔ Run.Along (step k) (Clean k) {} evs := by
  have hlive : Live {} := fun _ _ => ⟨rfl, rfl⟩
  refine ⟨fun h => h.of_inv (I := Live) (fun s ev s' hI hs ha => ?_) hlive,
    fun h => h.of_inv (I := Live) (fun s ev s' hI hs hc => ?_) hlive⟩
  · exact ⟨(step_iff hI hs).1 ha, ha.gone⟩
  · have ha := (step_iff hI hs).2 hc
    exact ⟨ha, ha.gone⟩

/-- The log callback is all there is. -/
def logOnly : Kinds := ⟨[lit "log"], by decide, by decide, by decide⟩

/-- A registration whose request is lost leaves the function behind. -/
theorem lost_stays : ¬Run.Along (step logOnly) AllOrNothing {}
    [.create 5, .register 5 0 7 9 { arrives := false }] := by
  intro h
  have hlast := (h _ rfl).2 _ rfl
  have hfn := (hlast.1.nothing _ _ _ _ _ rfl (by decide) 5 0).1
  exact absurd hfn (by decide)

end Callbacks
