import AlpmRpc.Gen.Signature
import AlpmRpc.Lib.Keyed
import Mathlib.Data.List.Perm.Subperm

/-!
# Where stub and handler agree

The names of a handler's arguments are those of the inputs and then those of the out-parameters
(`argNames_eq`), each once. They stand at their declared places exactly when the signature is listed
that way already, and then every input has its slot at its declared place too.
-/

set_option autoImplicit false

namespace Gen

open Json

variable {ov : Overlay} {fn : Signature} {p : Param}

/-- A list that starts a list of the same elements, each once, is that list. -/
theorem eq_of_prefix_of_subset {α : Type} {l m : List α} (h : l <+: m) (hm : m.Nodup)
    (hs : m ⊆ l) : l = m :=
  h.eq_of_length_le (hm.subperm hs).length_le

/-- A list starts one with a doubled element only when that element is its last. -/
theorem prefix_double_iff {α : Type} {names l m : List α} {f : α} (hn : names.Nodup)
    (hnd : (l ++ f :: m).Nodup) (hs : l ++ f :: m ⊆ names) :
    names <+: l ++ f :: f :: m ↔ names = l ++ f :: m ∧ names.getLast? = some f := by
  constructor
  · intro hp
    have hshort : names <+: l ++ [f] := by
      rcases List.prefix_or_prefix_of_prefix hp (⟨f :: m, by simp⟩ : l ++ [f] <+: _) with h | h
      · exact h
      · obtain ⟨r, rfl⟩ := h
        cases r with
        | nil => simp
        | cons x r =>
          have hx : f = x := by
            rw [show l ++ f :: f :: m = l ++ [f] ++ f :: m by simp,
              List.prefix_append_right_inj, List.cons_prefix_cons] at hp
            exact hp.1.symm
          subst hx
          rw [List.append_assoc, List.nodup_append] at hn
          exact absurd List.mem_cons_self (List.nodup_cons.1 hn.2.1).1
    have he : names = l ++ f :: m :=
      eq_of_prefix_of_subset (hshort.trans ⟨m, by simp⟩) hnd hs
    have hm : m = [] := by
      have hlen := hshort.length_le
      rw [he, List.length_append, List.length_append, List.length_cons] at hlen
      exact List.eq_nil_of_length_eq_zero (by simpa using hlen)
    refine ⟨he, ?_⟩
    rw [he, hm]
    simp
  · rintro ⟨he, hl⟩
    rw [he] at hl ⊢
    cases m with
    | nil => exact ⟨[f], by simp⟩
    | cons x m =>
      have hmem : f ∈ x :: m := by
        rw [List.getLast?_append_of_ne_nil _ (by simp), List.getLast?_cons_cons] at hl
        exact List.mem_of_getLast? hl
      rw [List.nodup_append, List.nodup_cons] at hnd
      exact absurd hmem hnd.2.1.1

/-! ## One parameter -/

theorem srvInput_param {r : Option ReadKind × Arg} (h : srvInput ov fn p = some r) :
    r.2.param = p.name ∧ p.name ∉ ov.outParams := by
  unfold srvInput at h
  split at h
  · cases h
  · rename_i ho
    refine ⟨?_, ho⟩
    repeat' split at h
    all_goals first
      | (cases h; rfl)
      | cases h

/-- An input has an argument and a slot, and one that is not read has an empty slot. -/
theorem input_spec (fn : Signature) (hp : paramWhy ov p = none) (ho : p.name ∉ ov.outParams)
    (hv : p.kind ≠ .void) :
    ∃ rd a k, srvInput ov fn p = some (rd, a) ∧ putKind ov p = some k ∧
      (rd = none → k = .null) := by
  unfold srvInput putKind
  rw [if_neg ho]
  unfold paramWhy at hp
  cases hk : p.kind with
  | void => exact absurd hk hv
  | string =>
    dsimp only
    cases ov.byteBuffer p.name with
    | some len => exact ⟨_, _, _, rfl, rfl, nofun⟩
    | none =>
      refine ⟨some (if ov.pathParam p.name then .path else .str), .name p.name,
        if ov.variadicFormat = some p.name then .fmtbuf else .str, ?_, ?_, nofun⟩
      · cases ov.pathParam p.name <;> rfl
      · exact (apply_ite some _ _ _).symm
  | scalar =>
    dsimp only
    cases blenOwner ov fn p.name with
    | some buf => exact ⟨_, _, _, rfl, rfl, nofun⟩
    | none => exact ⟨_, _, _, rfl, rfl, nofun⟩
  | enum =>
    dsimp only
    cases blenOwner ov fn p.name with
    | some buf => exact ⟨_, _, _, rfl, rfl, nofun⟩
    | none => exact ⟨_, _, _, rfl, rfl, nofun⟩
  | handle => exact ⟨_, _, _, rfl, rfl, nofun⟩
  | structPtr => exact ⟨_, _, _, rfl, if_neg ho, nofun⟩
  | list =>
    dsimp only
    split
    · exact ⟨_, _, _, rfl, rfl, nofun⟩
    · exact ⟨_, _, _, rfl, rfl, nofun⟩
  | opaqueVoid =>
    rw [hk] at hp
    dsimp only at hp ⊢
    cases hh : ov.opaqueHandle p.name with
    | some tag => exact ⟨_, _, _, rfl, rfl, nofun⟩
    | none =>
      cases hb : ov.outBuffer p.name with
      | some len => exact ⟨_, _, _, rfl, rfl, fun _ => rfl⟩
      | none => simp [hh, hb] at hp
  | recordValue => simp [hk] at hp
  | callback => simp [hk] at hp
  | foreignHandle => simp [hk] at hp
  | unsupported => simp [hk] at hp
  | ptr k =>
    rw [hk] at hp
    cases k with
    | string => by_cases hb : ov.byteBuffer p.name = none <;> simp [ho, hb] at hp
    | _ => simp [ho] at hp

theorem srvInput_void (h : p.kind = .void) : srvInput ov fn p = none := by
  unfold srvInput
  rw [h]
  split <;> rfl

theorem select_params (h : select ov fn = .gen) (hl : ov.clientLocal = false) :
    ∀ p ∈ fn.params, paramWhy ov p = none := by
  have hw : whyOf ov fn = none := by
    unfold select at h
    simp only [hl, Bool.false_eq_true, if_false] at h
    repeat' split at h
    all_goals first
      | assumption
      | cases h
  unfold whyOf at hw
  rw [Option.or_eq_none_iff, Option.or_eq_none_iff] at hw
  exact List.findSome?_eq_none_iff.1 hw.2.1

/-! ## The names of the arguments -/

theorem outNames_eq :
    (srvOuts ov fn).map Arg.param = ov.outParams.filter (· ∈ fn.params.map (·.name)) := by
  unfold srvOuts
  induction ov.outParams with
  | nil => rfl
  | cons op ops ih =>
    have h1 : ((fn.params.filter (·.name = op)).map fun p => Arg.addr p.name).map Arg.param =
        (fn.params.filter (·.name = op)).map (·.name) := by
      rw [List.map_map]
      rfl
    rw [List.flatMap_cons, List.map_append, h1, Keyed.map_filter fn.names_nodup, ih, List.filter_cons]
    by_cases hm : op ∈ fn.params.map (·.name)
    · simp [hm]
    · simp [hm]

/-- The parameters with an argument of their own. -/
def inputs (ov : Overlay) (fn : Signature) : List Param :=
  fn.params.filter fun p => (srvInput ov fn p).isSome

theorem inNames_eq :
    (fn.params.filterMap fun p => (srvInput ov fn p).map (·.2)).map Arg.param =
      (inputs ov fn).map (·.name) := by
  unfold inputs
  induction fn.params with
  | nil => rfl
  | cons q l ih =>
    rw [List.filterMap_cons, List.filter_cons]
    cases hq : srvInput ov fn q with
    | none => simpa [hq] using ih
    | some r =>
      simp only [Option.map_some, Option.isSome_some, if_true, List.map_cons, ih,
        (srvInput_param hq).1]

theorem argNames_eq :
    (srvArgs ov fn).map Arg.param = (inputs ov fn).map (·.name) ++
      ov.outParams.filter (· ∈ fn.params.map (·.name)) := by
  rw [srvArgs, List.map_append, inNames_eq, outNames_eq]

theorem inputs_not_out (h : p ∈ inputs ov fn) : p ∈ fn.params ∧ p.name ∉ ov.outParams := by
  obtain ⟨hp, hs⟩ := List.mem_filter.1 h
  obtain ⟨r, hr⟩ := Option.isSome_iff_exists.1 hs
  exact ⟨hp, (srvInput_param hr).2⟩

theorem argNames_nodup (ho : ov.outParams.Nodup) : ((srvArgs ov fn).map Arg.param).Nodup := by
  rw [argNames_eq, List.nodup_append]
  refine ⟨fn.names_nodup.sublist (List.filter_sublist.map _), ho.filter _, ?_⟩
  intro x hx y hy hxy
  obtain ⟨q, hq, rfl⟩ := List.mem_map.1 hx
  exact (inputs_not_out hq).2 (hxy ▸ (List.mem_filter.1 hy).1)

theorem argNames_subset : (srvArgs ov fn).map Arg.param ⊆ fn.params.map (·.name) := by
  rw [argNames_eq]
  intro x hx
  rcases List.mem_append.1 hx with hx | hx
  · obtain ⟨q, hq, rfl⟩ := List.mem_map.1 hx
    exact List.mem_map_of_mem (inputs_not_out hq).1
  · simpa using (List.mem_filter.1 hx).2

/-- Unless a parameter is of kind `void`, the inputs are the parameters that are no
out-parameters. -/
theorem inputs_eq (hw : ∀ p ∈ fn.params, paramWhy ov p = none)
    (hv : ∀ p ∈ fn.params, p.name ∉ ov.outParams → p.kind ≠ .void) :
    (inputs ov fn).map (·.name) = (fn.params.map (·.name)).filter (· ∉ ov.outParams) := by
  rw [List.filter_map, inputs]
  congr 1
  refine List.filter_congr fun q hq => ?_
  by_cases ho : q.name ∈ ov.outParams
  · have : srvInput ov fn q = none := by
      unfold srvInput
      rw [if_pos ho]
    simp [this, ho]
  · obtain ⟨rd, a, k, hr, -⟩ := input_spec fn (hw q hq) ho (hv q hq ho)
    simp [hr, ho]

/-! ## The call -/

theorem validates_outs (h : validates ov fn = true) : ov.outParams.Nodup := by
  unfold validates at h
  simp only [Bool.and_eq_true, decide_eq_true_eq] at h
  exact h.2.2

/-- The format that is replaced is a string parameter of its own. -/
theorem name_mem_args (h : validates ov fn = true) {f : Bytes} (hf : ov.variadicFormat = some f) :
    Arg.name f ∈ srvArgs ov fn ↔ formatArg ov = some f := by
  have hstr : ∃ p ∈ fn.params, p.name = f ∧ p.kind = .string := by
    unfold validates at h
    rw [hf] at h
    simp only [Bool.and_eq_true, Option.all_some, List.any_eq_true, beq_iff_eq] at h
    obtain ⟨p, hp, hpf⟩ := h.1.2
    exact ⟨p, hp, hpf⟩
  obtain ⟨p, hp, rfl, hk⟩ := hstr
  have hfa : formatArg ov = some p.name ↔ p.name ∉ ov.outParams ∧ ov.byteBuffer p.name = none := by
    simp [formatArg, hf, Option.filter_some]
  rw [hfa]
  constructor
  · intro hm
    rcases List.mem_append.1 hm with hm | hm
    · obtain ⟨q, hq, hr⟩ := List.mem_filterMap.1 hm
      obtain ⟨r, hr, hra⟩ := Option.map_eq_some_iff.1 hr
      obtain ⟨hn, ho⟩ := srvInput_param hr
      rw [hra] at hn
      have hqp : q = p := List.inj_on_of_nodup_map fn.names_nodup hq hp hn.symm
      subst hqp
      refine ⟨ho, ?_⟩
      unfold srvInput at hr
      rw [if_neg ho, hk] at hr
      by_contra hb
      rw [if_pos hb] at hr
      cases hr
    · unfold srvOuts at hm
      simp at hm
  · rintro ⟨ho, hb⟩
    refine List.mem_append_left _ (List.mem_filterMap.2 ⟨p, hp, ?_⟩)
    unfold srvInput
    rw [if_neg ho, hk, hb]
    simp only [ne_eq, not_true_eq_false, if_false]
    split <;> rfl

/-- The call is the arguments, or has a `"%s"` before the format. -/
theorem srvCall_cases (h : validates ov fn = true) :
    (formatArg ov = none ∧ srvCall ov fn = srvArgs ov fn) ∨
    ∃ f l m, formatArg ov = some f ∧ srvArgs ov fn = l ++ .name f :: m ∧
      srvCall ov fn = l ++ .literalFmt f :: .name f :: m := by
  unfold srvCall
  cases hf : ov.variadicFormat with
  | none => exact .inl ⟨by rw [formatArg, hf]; rfl, rfl⟩
  | some f =>
    dsimp only
    have hsame : ∀ l : List Arg, Arg.name f ∉ l →
        l.flatMap (fun a => if a = .name f then [.literalFmt f, a] else [a]) = l := by
      intro l hl
      induction l with
      | nil => rfl
      | cons a l ih =>
        rw [List.mem_cons, not_or] at hl
        rw [List.flatMap_cons, if_neg (Ne.symm hl.1), ih hl.2]
        rfl
    by_cases hm : Arg.name f ∈ srvArgs ov fn
    · obtain ⟨l, m, hlm⟩ := List.append_of_mem hm
      have hnd : (srvArgs ov fn).Nodup :=
        List.Nodup.of_map Arg.param (argNames_nodup (validates_outs h))
      rw [hlm, List.nodup_append] at hnd
      obtain ⟨-, hm', hd⟩ := hnd
      refine .inr ⟨f, l, m, (name_mem_args h hf).1 hm, hlm, ?_⟩
      rw [hlm, List.flatMap_append, List.flatMap_cons, if_pos rfl,
        hsame l fun hx => hd _ hx _ List.mem_cons_self rfl, hsame m (List.nodup_cons.1 hm').1]
      rfl
    · refine .inl ⟨?_, hsame _ hm⟩
      cases hfa : formatArg ov with
      | none => rfl
      | some f' =>
        have : ov.variadicFormat = some f' := Option.eq_some_of_filter_eq_some hfa
        rw [hf] at this
        cases this
        exact absurd ((name_mem_args h hf).2 hfa) hm

/-- Every parameter at its declared place. -/
theorem call_iff :
    (∀ (i : Nat) (p : Param), fn.params[i]? = some p →
      ((srvCall ov fn)[i]?).map Arg.param = some p.name) ↔
    fn.params.map (·.name) <+: (srvCall ov fn).map Arg.param := by
  rw [List.prefix_iff_getElem?]
  constructor
  · intro h i hi
    rw [List.length_map] at hi
    rw [List.getElem?_map, List.getElem_map]
    exact h i _ (List.getElem?_eq_getElem hi)
  · intro h i p hp
    obtain ⟨hi, rfl⟩ := List.getElem?_eq_some_iff.1 hp
    have := h i (by rwa [List.length_map])
    rwa [List.getElem?_map, List.getElem_map] at this

/-- The arguments stand at their places exactly when they are the parameters, and the format is the
last. -/
theorem prefix_iff (h : validates ov fn = true) :
    fn.params.map (·.name) <+: (srvCall ov fn).map Arg.param ↔
      fn.params.map (·.name) = (srvArgs ov fn).map Arg.param ∧
      ∀ f, formatArg ov = some f → (fn.params.map (·.name)).getLast? = some f := by
  have hnd : ((srvArgs ov fn).map Arg.param).Nodup := argNames_nodup (validates_outs h)
  have hsub : (srvArgs ov fn).map Arg.param ⊆ fn.params.map (·.name) := argNames_subset
  rcases srvCall_cases h with ⟨hf, hc⟩ | ⟨f, l, m, hf, ha, hc⟩
  · rw [hc]
    refine ⟨fun hp => ⟨eq_of_prefix_of_subset hp hnd hsub, ?_⟩, fun hp => hp.1 ▸ List.prefix_rfl⟩
    rw [hf]
    nofun
  · rw [ha, List.map_append, List.map_cons] at hnd hsub ⊢
    rw [hc, List.map_append, List.map_cons, List.map_cons]
    refine (prefix_double_iff fn.names_nodup hnd hsub).trans (and_congr_right fun _ => ?_)
    rw [hf]
    exact ⟨fun hl f' he => by cases he; exact hl, fun hl => hl f rfl⟩

/-! ## The slots -/

/-- A parameter's slot. -/
def slotOf (ov : Overlay) (p : Param) : Option Put := (putKind ov p).map fun k => ⟨p.name, k⟩

/-- The parameters are the inputs, then the out-parameters. -/
theorem OutsLast.split (h : OutsLast ov fn) :
    ∃ ins outs, fn.params = ins ++ outs ∧ (∀ p ∈ ins, p.name ∉ ov.outParams) ∧
      ∀ p ∈ outs, p.name ∈ ov.outParams := by
  obtain ⟨ins, outs, hp, hi, ho⟩ := List.map_eq_append_iff.1 h.last
  refine ⟨ins, outs, hp, fun p hp => ?_, fun p hp => ?_⟩
  · have hm : p.name ∈ ins.map (·.name) := List.mem_map_of_mem hp
    rw [hi] at hm
    simpa using (List.mem_filter.1 hm).2
  · have hm : p.name ∈ outs.map (·.name) := List.mem_map_of_mem hp
    rw [ho] at hm
    exact (List.mem_filter.1 hm).1

/-- The slots of parameters that all have one are at the parameters' places. -/
theorem slots_getElem? {l : List Param} (h : ∀ p ∈ l, (putKind ov p).isSome) (i : Nat) :
    (l.filterMap (slotOf ov))[i]? = l[i]?.bind (slotOf ov) := by
  induction l generalizing i with
  | nil => rfl
  | cons q l ih =>
    obtain ⟨k, hk⟩ := Option.isSome_iff_exists.1 (h q List.mem_cons_self)
    have hq : slotOf ov q = some ⟨q.name, k⟩ := by rw [slotOf, hk]; rfl
    rw [List.filterMap_cons, hq]
    cases i with
    | zero => exact hq.symm
    | succ i => exact ih (fun p hp => h p (List.mem_cons_of_mem _ hp)) i

theorem mem_srvReads {r : Read} :
    r ∈ srvReads ov fn ↔ ∃ p rd a, fn.params[r.index]? = some p ∧
      srvInput ov fn p = some (some rd, a) ∧ r = ⟨r.index, p.name, rd⟩ := by
  unfold srvReads
  rw [List.mem_filterMap]
  constructor
  · rintro ⟨⟨p, i⟩, hm, hr⟩
    rw [List.mem_zipIdx_iff_getElem?] at hm
    obtain ⟨⟨rd, a⟩, hi, hrd⟩ := Option.bind_eq_some_iff.1 hr
    obtain ⟨rd, rfl, rfl⟩ := Option.map_eq_some_iff.1 hrd
    exact ⟨p, rd, a, hm, hi, rfl⟩
  · rintro ⟨p, rd, a, hp, hi, he⟩
    refine ⟨(p, r.index), List.mem_zipIdx_iff_getElem?.2 hp, ?_⟩
    rw [he]
    simp [hi]

/-- The names of a call whose arguments are the parameters. -/
theorem last_iff (hw : ∀ p ∈ fn.params, paramWhy ov p = none) :
    fn.params.map (·.name) = (srvArgs ov fn).map Arg.param ↔
      (∀ p ∈ fn.params, p.name ∉ ov.outParams → p.kind ≠ .void) ∧
      fn.params.map (·.name) = (fn.params.map (·.name)).filter (· ∉ ov.outParams) ++
        ov.outParams.filter (· ∈ fn.params.map (·.name)) := by
  constructor
  · intro he
    have hv : ∀ p ∈ fn.params, p.name ∉ ov.outParams → p.kind ≠ .void := by
      intro p hp ho hk
      have hm : p.name ∈ (srvArgs ov fn).map Arg.param := he ▸ List.mem_map_of_mem hp
      rw [argNames_eq] at hm
      rcases List.mem_append.1 hm with hm | hm
      · obtain ⟨q, hq, hqp⟩ := List.mem_map.1 hm
        have hqp : q = p :=
          List.inj_on_of_nodup_map fn.names_nodup (inputs_not_out hq).1 hp hqp
        have hsome := (List.mem_filter.1 hq).2
        rw [hqp, srvInput_void hk] at hsome
        cases hsome
      · exact ho (List.mem_filter.1 hm).1
    rw [argNames_eq, inputs_eq hw hv] at he
    exact ⟨hv, he⟩
  · rintro ⟨hv, he⟩
    rw [argNames_eq, inputs_eq hw hv]
    exact he

theorem OutsLast.slots (h : OutsLast ov fn) (hw : ∀ p ∈ fn.params, paramWhy ov p = none) {i : Nat}
    {p : Param} (hp : fn.params[i]? = some p) (ho : p.name ∉ ov.outParams) :
    (fn.params.filterMap (slotOf ov))[i]? = slotOf ov p := by
  obtain ⟨ins, outs, he, hi, hout⟩ := h.split
  have hlt : i < ins.length := by
    by_contra hge
    rw [he, List.getElem?_append_right (by omega)] at hp
    exact ho (hout p (List.mem_of_getElem? hp))
  have hsome : ∀ q ∈ ins, (putKind ov q).isSome := by
    intro q hq
    have hqp : q ∈ fn.params := he ▸ List.mem_append_left _ hq
    obtain ⟨_, _, k, -, hk, -⟩ :=
      input_spec fn (hw q hqp) (hi q hq) (h.noVoid q hqp (hi q hq))
    rw [hk]
    rfl
  have hlen : (ins.filterMap (slotOf ov)).length = ins.length := by
    rw [List.filterMap_length_eq_length]
    intro q hq
    rw [slotOf, Option.isSome_map]
    exact hsome q hq
  rw [he, List.getElem?_append_left hlt] at hp
  rw [he, List.filterMap_append, List.getElem?_append_left (by omega), slots_getElem? hsome, hp]
  rfl

/-- A slot of an input is at the input's place. -/
theorem OutsLast.slot_index (h : OutsLast ov fn) (hw : ∀ p ∈ fn.params, paramWhy ov p = none)
    {i : Nat} {w : Put} (hi : (fn.params.filterMap (slotOf ov))[i]? = some w)
    (ho : w.param ∉ ov.outParams) : ∃ p, fn.params[i]? = some p ∧ slotOf ov p = some w := by
  obtain ⟨q, hq, hs⟩ := List.mem_filterMap.1 (List.mem_of_getElem? hi)
  have hname : ∀ {p w}, slotOf ov p = some w → w.param = p.name := by
    intro p w hs
    obtain ⟨k, -, rfl⟩ := Option.map_eq_some_iff.1 hs
    rfl
  rw [hname hs] at ho
  obtain ⟨j, hj⟩ := List.mem_iff_getElem?.1 hq
  have hjs := h.slots hw hj ho
  rw [hs] at hjs
  have hnd : (fn.params.filterMap (slotOf ov)).Nodup := by
    refine List.pairwise_filterMap.2 ((List.pairwise_map.1 fn.names_nodup).imp ?_)
    intro p p' hne w hp w' hp' he
    rw [← he] at hp'
    exact hne ((hname hp).symm.trans (hname hp'))
  have hij : i = j := by
    obtain ⟨hlt, -⟩ := List.getElem?_eq_some_iff.1 hi
    exact (List.getElem?_inj hlt hnd).1 (hi.trans hjs.symm)
  exact ⟨q, hij ▸ hj, hs⟩

/-- **Stub and handler agree on places** exactly when the call is made on the client alone, or the
out-parameters are the last, in the overlay's order. -/
theorem agree_iff (ov : Overlay) (fn : Signature) (h : Accepted ov fn) :
    Agree ov fn ↔ ov.clientLocal = true ∨ OutsLast ov fn := by
  obtain ⟨hsel, hval⟩ := h
  cases hl : ov.clientLocal with
  | true =>
    have hn : emitHandler ov fn = none := by rw [emitHandler, hl]; rfl
    refine ⟨fun _ => .inl rfl, fun _ => ⟨?_, ?_, ?_⟩⟩
    · intro puts h _ he
      rw [hn] at he
      cases he
    · intro puts h _ he
      rw [hn] at he
      cases he
    · intro h he
      rw [hn] at he
      cases he
  | false =>
    have hw := select_params hsel hl
    have hh : emitHandler ov fn = some ⟨srvReads ov fn, srvCall ov fn⟩ := by
      rw [emitHandler, hl]
      rfl
    have hputs : ∀ puts, emitStub ov fn = some puts → puts = fn.params.filterMap (slotOf ov) := by
      intro puts he
      unfold emitStub at he
      split at he
      · cases he
      · exact (Option.some_inj.1 he).symm
    constructor
    · intro hA
      obtain ⟨hargs, hfmt⟩ := (prefix_iff hval).1 (call_iff.1 (hA.call _ hh))
      obtain ⟨hv, hlast⟩ := (last_iff hw).1 hargs
      exact .inr ⟨hlast, hv, hfmt⟩
    · rintro (hc | hO)
      · cases hc
      refine ⟨?_, ?_, ?_⟩
      · intro puts h hs he r hr
        rw [hputs puts hs]
        rw [hh] at he
        cases he
        obtain ⟨p, rd, a, hp, hi, hr⟩ := mem_srvReads.1 hr
        have ho := (srvInput_param hi).2
        rw [hO.slots hw hp ho, hr]
        have hpm := List.mem_of_getElem? hp
        obtain ⟨_, _, k, -, hk, -⟩ :=
          input_spec fn (hw p hpm) ho (hO.noVoid p hpm ho)
        rw [slotOf, hk]
        rfl
      · intro puts h hs he i w hi ho hnull
        rw [hputs puts hs] at hi
        rw [hh] at he
        cases he
        obtain ⟨p, hp, hs⟩ := hO.slot_index hw hi ho
        obtain ⟨k, hk, rfl⟩ := Option.map_eq_some_iff.1 hs
        have hpm := List.mem_of_getElem? hp
        obtain ⟨rd, a, k', hr, hk', hrd⟩ :=
          input_spec fn (hw p hpm) ho (hO.noVoid p hpm ho)
        rw [hk] at hk'
        cases hk'
        cases rd with
        | none => exact absurd (hrd rfl) hnull
        | some rd => exact ⟨⟨i, p.name, rd⟩, mem_srvReads.2 ⟨p, rd, a, hp, hr, rfl⟩, rfl, rfl⟩
      · intro h he
        rw [hh] at he
        cases he
        exact call_iff.2 ((prefix_iff hval).2 ⟨(last_iff hw).2 ⟨hO.noVoid, hO.last⟩, hO.format⟩)

/-- `int alpm_db_get_usage(alpm_db_t *db, int *usage)` -/
def dbGetUsage : Signature where
  name := lit "alpm_db_get_usage"
  retKind := .scalar
  retType := lit "int"
  params := [⟨lit "db", lit "alpm_db_t *", .handle⟩, ⟨lit "usage", lit "int *", .ptr .scalar⟩]
  names_nodup := by decide

theorem agree_iff_dbGetUsage :
    Accepted { outParams := [lit "usage"] } dbGetUsage ∧
      Agree { outParams := [lit "usage"] } dbGetUsage := by
  have hacc : Accepted { outParams := [lit "usage"] } dbGetUsage := by decide
  refine ⟨hacc, (agree_iff _ _ hacc).2 (.inr ⟨by decide, by decide, ?_⟩)⟩
  intro f hf
  exact nomatch hf

/-- The same with an argument after it: `int f(alpm_db_t *db, int *usage, int level)` -/
def usageThenLevel : Signature where
  name := lit "f"
  retKind := .scalar
  retType := lit "int"
  params := [⟨lit "db", lit "alpm_db_t *", .handle⟩, ⟨lit "usage", lit "int *", .ptr .scalar⟩,
    ⟨lit "level", lit "int", .scalar⟩]
  names_nodup := by decide

/-- `level` is written in slot 1 and read from slot 2, and the call is `f(db, level, &usage_v)`. -/
theorem usageThenLevel_disagrees :
    Accepted { outParams := [lit "usage"] } usageThenLevel ∧
      emitStub { outParams := [lit "usage"] } usageThenLevel =
        some [⟨lit "db", .handle⟩, ⟨lit "level", .i64⟩] ∧
      emitHandler { outParams := [lit "usage"] } usageThenLevel =
        some ⟨[⟨0, lit "db", .handle (lit "alpm_db_t *")⟩, ⟨2, lit "level", .i64⟩],
          [.name (lit "db"), .cast (lit "level"), .addr (lit "usage")]⟩ ∧
      ¬Agree { outParams := [lit "usage"] } usageThenLevel := by
  have hstub : emitStub { outParams := [lit "usage"] } usageThenLevel =
      some [⟨lit "db", .handle⟩, ⟨lit "level", .i64⟩] := by decide
  have hhandler : emitHandler { outParams := [lit "usage"] } usageThenLevel =
      some ⟨[⟨0, lit "db", .handle (lit "alpm_db_t *")⟩, ⟨2, lit "level", .i64⟩],
        [.name (lit "db"), .cast (lit "level"), .addr (lit "usage")]⟩ := by decide
  refine ⟨by decide, hstub, hhandler, fun hA => ?_⟩
  have hread := hA.reads _ _ hstub hhandler ⟨2, lit "level", .i64⟩ (by simp)
  exact nomatch hread

end Gen
