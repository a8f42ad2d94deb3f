import AlpmRpc.Gen.Keys
import AlpmRpc.Gen.Proof.Integers
import AlpmRpc.Gen.Proof.Positions
import Mathlib.Data.List.Flatten
import Mathlib.Data.List.Perm.Basic

/-!
# Distinct keys

The members of a result, less the errnos, are out-parameters and the return (`resultObject_perm`); the
members that a trampoline writes for one parameter are among that parameter's names, and each of them is
written at some input (`Piece.write_keys`, `Piece.exists_write`). So the keys differ if and only if the
names are apart (`keys_distinct_iff`).
-/

set_option autoImplicit false

namespace Gen

open Json

/-! ## Results -/

section

variable {ov : Overlay} {fn : Signature}

theorem validates_ret (h : validates ov fn = true) : retKey ∉ ov.outParams := by
  unfold validates at h
  simp only [Bool.and_eq_true, decide_eq_true_eq] at h
  exact h.2.1

theorem errnoKey_inj {op op' : Bytes} (h : errnoKey op = errnoKey op') : op = op' :=
  List.append_cancel_right h

theorem errnoKey_ne_retKey (op : Bytes) : errnoKey op ≠ retKey := by
  intro h
  have hlen := congrArg List.length h
  rw [errnoKey, List.length_append, show (lit ".errno").length = 6 by decide +kernel,
    show retKey.length = 4 by decide +kernel] at hlen
  omega

/-- The out-parameters that are written, the errno-typed lists before the others. -/
def outKeys (ov : Overlay) (fn : Signature) : List Bytes :=
  errLists ov ++ (plainOuts ov fn ++ outLists ov fn)

theorem outKeys_nodup (h : ov.outParams.Nodup) : (outKeys ov fn).Nodup := by
  unfold outKeys
  refine (h.filter _).append ((h.filter _).append (h.filter _) fun op hp hl => ?_) fun op he hr => ?_
  · exact (List.mem_filter.1 hp |>.2 |> of_decide_eq_true).1 hl
  · have hne := (List.mem_filter.1 he).2 |> of_decide_eq_true
    rcases List.mem_append.1 hr with hp | hl
    · exact hne (List.mem_filter.1 hp |>.2 |> of_decide_eq_true).2.1
    · exact hne (List.mem_filter.1 hl |>.2 |> of_decide_eq_true).2

theorem outKeys_subset {op : Bytes} (h : op ∈ outKeys ov fn) : op ∈ ov.outParams := by
  rcases List.mem_append.1 h with he | hr
  · exact List.mem_of_mem_filter he
  · rcases List.mem_append.1 hr with hp | hl
    · exact List.mem_of_mem_filter hp
    · exact List.mem_of_mem_filter hl

/-- The buffer, of an int return. -/
def bufKeys (ov : Overlay) (fn : Signature) : List Bytes :=
  if fn.retKind ∈ [.scalar, .enum] then (outBuf ov fn).toList else []

theorem outBuf_not_out {b : Bytes} (h : outBuf ov fn = some b) : b ∉ ov.outParams := by
  obtain ⟨p, hp, rfl⟩ := Option.map_eq_some_iff.1 h
  have hm := List.mem_filter.1 (List.mem_of_getLast? hp)
  exact (of_decide_eq_true hm.2).1

theorem resultObject_perm : (resultObject ov fn).keys.Perm
    (retKey :: (bufKeys ov fn ++ ((errLists ov).map errnoKey ++ outKeys ov fn))) := by
  have hret : (retMembers ov fn).map (·.1) = retKey :: bufKeys ov fn := by
    unfold retMembers bufKeys
    split
    · cases outBuf ov fn <;> rfl
    · rfl
  have herr : (((errLists ov).flatMap fun op => [(errnoKey op, Source.errno op), (op, .out op)]).map
      (·.1)).Perm ((errLists ov).map errnoKey ++ errLists ov) := by
    have hflat := List.map_append_flatMap_perm (errLists ov) errnoKey fun op => [op]
    rw [List.flatMap_singleton'] at hflat
    rw [List.map_flatMap]
    exact hflat.symm
  have hout : (plainOuts ov fn ++ outLists ov fn).map ((·.1) ∘ fun op => (op, Source.out op)) =
      plainOuts ov fn ++ outLists ov fn := List.map_id _
  unfold Object.keys resultObject outKeys
  rw [List.map_append, List.map_append, List.map_map, hret, hout, List.append_assoc, List.cons_append,
    ← List.append_assoc (List.map errnoKey _)]
  exact (((herr.append_right _).append_left _).cons _)

/-- A result's keys are distinct when the errnos' and the buffer's are apart from the others. -/
theorem resultObject_nodup_iff (h : validates ov fn = true) :
    (resultObject ov fn).keys.Nodup ↔ ResultApart ov fn := by
  have hout := validates_outs h
  rw [resultObject_perm.nodup_iff, List.nodup_cons]
  constructor
  · intro ⟨hret, hn⟩
    rw [List.nodup_append] at hn
    obtain ⟨-, hn, hbuf⟩ := hn
    rw [List.nodup_append] at hn
    refine ⟨fun op hop hm => hn.2.2 _ (List.mem_map_of_mem hop) _ hm rfl, fun hk b hb => ?_⟩
    have hbm : b ∈ bufKeys ov fn := by
      unfold bufKeys
      rw [if_pos hk, hb]
      exact List.mem_singleton.2 rfl
    refine ⟨fun he => hret (he ▸ List.mem_append_left _ hbm), fun op hop => ?_⟩
    exact hbuf b hbm _ (List.mem_append_left _ (List.mem_map_of_mem hop))
  · intro ha
    have hbm : ∀ b ∈ bufKeys ov fn, fn.retKind ∈ [.scalar, .enum] ∧ outBuf ov fn = some b := by
      intro b hb
      unfold bufKeys at hb
      split at hb
      · rename_i hk
        exact ⟨hk, Option.mem_toList.1 hb⟩
      · cases hb
    constructor
    · intro hm
      rcases List.mem_append.1 hm with hb | hm
      · obtain ⟨hk, hb⟩ := hbm _ hb
        exact (ha.buffer hk _ hb).1 rfl
      · rcases List.mem_append.1 hm with he | ho
        · obtain ⟨op, -, he⟩ := List.mem_map.1 he
          exact errnoKey_ne_retKey op he
        · exact validates_ret h (outKeys_subset ho)
    · refine List.Nodup.append ?_ (List.Nodup.append ?_ (outKeys_nodup hout) ?_) ?_
      · unfold bufKeys
        split
        · cases outBuf ov fn <;> simp
        · exact List.nodup_nil
      · exact (hout.filter _).map fun _ _ => errnoKey_inj
      · intro k he ho
        obtain ⟨op, hop, rfl⟩ := List.mem_map.1 he
        exact ha.errno op hop ho
      · intro b hb hm
        obtain ⟨hk, hb⟩ := hbm b hb
        rcases List.mem_append.1 hm with he | ho
        · obtain ⟨op, hop, rfl⟩ := List.mem_map.1 he
          exact (ha.buffer hk _ hb).2 op hop rfl
        · exact outBuf_not_out hb (outKeys_subset ho)

end

/-! ## What a trampoline writes for a parameter -/

/-- `mapM`, when nothing fails. -/
theorem mapM_eq_some {α β : Type} {f : α → Option β} (d : β) : ∀ {l : List α} {r : List β},
    l.mapM f = some r → (∀ a ∈ l, f a = some ((f a).getD d)) ∧ r = l.map fun a => (f a).getD d
  | [], r, h => by
    cases h
    exact ⟨nofun, rfl⟩
  | a :: l, r, h => by
    rw [List.mapM_cons] at h
    obtain ⟨b, hb, h⟩ := Option.bind_eq_some_iff.1 h
    obtain ⟨bs, hbs, h⟩ := Option.bind_eq_some_iff.1 h
    cases h
    obtain ⟨hall, rfl⟩ := mapM_eq_some d hbs
    refine ⟨List.forall_mem_cons.2 ⟨by rw [hb]; rfl, hall⟩, ?_⟩
    rw [List.map_cons, hb]
    rfl

/-- The keys that a switch may write. -/
def caseKeys (cases : List (Bytes × Object)) : List Bytes := cases.flatMap fun c => c.2.keys

/-- Labels differ, and so do the keys of one case. -/
structure CasesWf (cases : List (Bytes × Object)) : Prop where
  labels : (cases.map (·.1)).Nodup
  keys : ∀ c ∈ cases, c.2.keys.Nodup

theorem lookup_of_mem {β : Type} {l : List (Bytes × β)} (hn : (l.map (·.1)).Nodup) {e : Bytes × β}
    (he : e ∈ l) : l.lookup e.1 = some e.2 := by
  obtain ⟨before, after, rfl⟩ := List.append_of_mem he
  refine List.lookup_eq_some_iff.2 ⟨before, after, rfl, fun x hx => ?_⟩
  rw [List.map_append, List.nodup_append] at hn
  have hne := hn.2.2 x.1 (List.mem_map_of_mem hx) e.1 (by simp)
  simpa using hne.symm

theorem mem_of_lookup {β : Type} {l : List (Bytes × β)} {k : Bytes} {v : β}
    (h : l.lookup k = some v) : (k, v) ∈ l := by
  obtain ⟨before, after, rfl, -⟩ := List.lookup_eq_some_iff.1 h
  exact List.mem_append_right _ List.mem_cons_self

/-- What a switch writes is of one case, or nothing. -/
theorem switch_cases (cases : List (Bytes × Object)) (v : Bytes) :
    (cases.lookup v).getD [] = [] ∨ ∃ c ∈ cases, (cases.lookup v).getD [] = c.2 := by
  cases h : cases.lookup v with
  | none => exact .inl rfl
  | some o => exact .inr ⟨(v, o), mem_of_lookup h, rfl⟩

theorem switch_keys {cases : List (Bytes × Object)} {v k : Bytes}
    (h : k ∈ Object.keys ((cases.lookup v).getD [])) : k ∈ caseKeys cases := by
  rcases switch_cases cases v with hs | ⟨c, hc, hs⟩
  · rw [hs] at h
    cases h
  · rw [hs] at h
    exact List.mem_flatMap.2 ⟨c, hc, h⟩

theorem CasesWf.switch_nodup {cases : List (Bytes × Object)} (h : CasesWf cases) (v : Bytes) :
    (Object.keys ((cases.lookup v).getD [])).Nodup := by
  rcases switch_cases cases v with hs | ⟨c, hc, hs⟩
  · rw [hs]
    exact List.nodup_nil
  · rw [hs]
    exact h.keys c hc

theorem CasesWf.exists_switch {cases : List (Bytes × Object)} (h : CasesWf cases) {k : Bytes}
    (hk : k ∈ caseKeys cases) : ∃ v, k ∈ Object.keys ((cases.lookup v).getD []) := by
  obtain ⟨c, hc, hk⟩ := List.mem_flatMap.1 hk
  refine ⟨c.1, ?_⟩
  rw [lookup_of_mem h.labels hc]
  exact hk

namespace Piece

/-- The keys that a piece may write. -/
def names : Piece → List Bytes
  | .plain name => [name]
  | .union tag cases => tag :: caseKeys cases
  | .void cases => caseKeys cases

def Wf : Piece → Prop
  | .plain _ => True
  | .union _ cases => CasesWf cases
  | .void cases => CasesWf cases

/-- The input selects `v`, where the piece looks. -/
def Selects (v : Bytes) (i : CbInput) : Piece → Prop
  | .plain _ => True
  | .union _ _ => i.unionTag = v
  | .void _ => i.tag = v ∧ i.null = false

theorem write_keys {x : Piece} {i : CbInput} {k : Bytes} (h : k ∈ (x.write i).keys) :
    k ∈ x.names := by
  cases x with
  | plain name => exact h
  | union tag cases =>
    rcases List.mem_cons.1 h with rfl | h
    · exact List.mem_cons_self
    · exact List.mem_cons_of_mem _ (switch_keys h)
  | void cases =>
    rw [write] at h
    split at h
    · cases h
    · exact switch_keys h

theorem exists_write {x : Piece} (hw : x.Wf) {k : Bytes} (h : k ∈ x.names) :
    ∃ v, ∀ i, x.Selects v i → k ∈ (x.write i).keys := by
  cases x with
  | plain name => exact ⟨[], fun _ _ => h⟩
  | union tag cases =>
    rcases List.mem_cons.1 h with rfl | h
    · exact ⟨[], fun _ _ => List.mem_cons_self⟩
    · obtain ⟨v, hv⟩ := CasesWf.exists_switch hw h
      refine ⟨v, fun i hi => ?_⟩
      cases hi
      exact List.mem_cons_of_mem _ hv
  | void cases =>
    obtain ⟨v, hv⟩ := CasesWf.exists_switch hw h
    refine ⟨v, fun i hi => ?_⟩
    rw [write, if_neg (by simp [hi.2]), hi.1]
    exact hv

/-- Two switches, on different things. -/
def Independent : Piece → Piece → Prop
  | .union _ _, .union _ _ => False
  | .void _, .void _ => False
  | _, _ => True

/-- One input selects for both. -/
theorem Independent.exists_input {x y : Piece} (h : x.Independent y) (v v' : Bytes) :
    ∃ i, x.Selects v i ∧ y.Selects v' i := by
  cases x <;> cases y
  · exact ⟨⟨[], [], false⟩, trivial, trivial⟩
  · exact ⟨⟨v', [], false⟩, trivial, rfl⟩
  · exact ⟨⟨[], v', false⟩, trivial, rfl, rfl⟩
  · exact ⟨⟨v, [], false⟩, rfl, trivial⟩
  · exact h.elim
  · exact ⟨⟨v, v', false⟩, rfl, rfl, rfl⟩
  · exact ⟨⟨[], v, false⟩, ⟨rfl, rfl⟩, trivial⟩
  · exact ⟨⟨v', v, false⟩, ⟨rfl, rfl⟩, rfl⟩
  · exact h.elim

/-- Two pieces never write one key exactly when they have none in common. -/
theorem disjoint_iff {x y : Piece} (hx : x.Wf) (hy : y.Wf) (hi : x.Independent y) :
    (∀ i, (x.write i).keys.Disjoint (y.write i).keys) ↔ x.names.Disjoint y.names := by
  constructor
  · intro h k hkx hky
    obtain ⟨v, hv⟩ := exists_write hx hkx
    obtain ⟨v', hv'⟩ := exists_write hy hky
    obtain ⟨i, hxi, hyi⟩ := hi.exists_input v v'
    exact h i (hv i hxi) (hv' i hyi)
  · intro h i k hkx hky
    exact h (write_keys hkx) (write_keys hky)

/-- The tag is no key of the union's own switch. -/
def OwnApart : Piece → Prop
  | .union tag cases => tag ∉ caseKeys cases
  | _ => True

theorem nodup_iff {x : Piece} (hw : x.Wf) : (∀ i, (x.write i).keys.Nodup) ↔ x.OwnApart := by
  cases x with
  | plain name => exact iff_of_true (fun _ => List.nodup_singleton name) trivial
  | union tag cases =>
    constructor
    · intro h htag
      obtain ⟨v, hv⟩ := CasesWf.exists_switch hw htag
      exact (List.nodup_cons.1 (h ⟨v, [], false⟩)).1 hv
    · intro h i
      exact List.nodup_cons.2 ⟨fun hm => h (switch_keys hm), CasesWf.switch_nodup hw _⟩
  | void cases =>
    refine iff_of_true (fun i => ?_) trivial
    rw [write]
    split
    · exact List.nodup_nil
    · exact CasesWf.switch_nodup hw _

end Piece

/-! ## A trampoline -/

namespace ApiModel

variable {m : ApiModel} {cb : Callback} {spec : CbSpec} {up : Option Decl} {urec : Option Record}

/-- The cases for the entries of an overlay's object. -/
theorem cases_mapM (d : Dict Bytes) (names : Bytes → Option (List Bytes)) (src : Bytes → Bytes → Source)
    {cases : List (Bytes × Object)} (hn : ∀ x fs, names x = some fs → fs.Nodup)
    (h : (d.entries.mapM fun e => (names e.2).map fun fs => (e.1, fs.map fun f => (f, src e.2 f))) =
      some cases) :
    CasesWf cases ∧ caseKeys cases = d.entries.flatMap fun e => (names e.2).getD [] := by
  have hkeys : ∀ (x : Bytes) (fs : List Bytes),
      Object.keys (fs.map fun f => (f, src x f)) = fs := by
    intro x fs
    unfold Object.keys
    rw [List.map_map]
    exact List.map_id _
  obtain ⟨hall, rfl⟩ := mapM_eq_some ([], []) h
  have hcase : ∀ e ∈ d.entries, ∃ fs, names e.2 = some fs ∧
      ((names e.2).map fun fs => (e.1, fs.map fun f => (f, src e.2 f))).getD ([], []) =
        (e.1, fs.map fun f => (f, src e.2 f)) := by
    intro e he
    obtain ⟨fs, hfs, -⟩ := Option.map_eq_some_iff.1 (hall e he)
    exact ⟨fs, hfs, by rw [hfs]; rfl⟩
  refine ⟨⟨?_, fun c hc => ?_⟩, ?_⟩
  · rw [List.map_map]
    refine (List.map_congr_left fun e he => ?_).symm ▸ d.keys_nodup
    obtain ⟨fs, -, hc⟩ := hcase e he
    rw [Function.comp_apply, hc]
  · obtain ⟨e, he, rfl⟩ := List.mem_map.1 hc
    obtain ⟨fs, hfs, hc⟩ := hcase e he
    rw [hc, hkeys]
    exact hn _ fs hfs
  · unfold caseKeys
    rw [List.flatMap_map]
    refine List.flatMap_congr fun e he => ?_
    obtain ⟨fs, hfs, hc⟩ := hcase e he
    rw [hc, hfs, hkeys]
    rfl

theorem payloadFields_nodup {r : Record} {member : Bytes} {fs : List Bytes}
    (h : m.payloadFields spec r member = some fs) : fs.Nodup := by
  obtain ⟨variant, -, h⟩ := Option.bind_eq_some_iff.1 h
  obtain ⟨skip, -, h⟩ := Option.bind_eq_some_iff.1 h
  cases h
  exact variant.names_nodup.filter _

theorem emitCbUnionPut_eq {r : Record} {x : Piece} (h : m.emitCbUnionPut spec r = some x) :
    ∃ tag cases, r.fields.head? = some tag ∧ x = .union tag.name cases ∧ CasesWf cases ∧
      caseKeys cases = m.unionFields spec r := by
  obtain ⟨tag, htag, h⟩ := Option.bind_eq_some_iff.1 h
  obtain ⟨cases, hcases, h⟩ := Option.bind_eq_some_iff.1 h
  cases h
  obtain ⟨hwf, hkeys⟩ := cases_mapM (spec.members.getD .empty) (m.payloadFields spec r)
    (fun x f => .field x f) (fun _ _ => payloadFields_nodup) hcases
  exact ⟨tag, cases, htag, rfl, hwf, hkeys⟩

theorem emitCbVoidPut_eq {x : Piece} (h : m.emitCbVoidPut spec = some x) :
    ∃ cases, x = .void cases ∧ CasesWf cases ∧ caseKeys cases = m.voidFields spec := by
  obtain ⟨-, -, h⟩ := Option.bind_eq_some_iff.1 h
  obtain ⟨cases, hcases, h⟩ := Option.bind_eq_some_iff.1 h
  cases h
  have hmap : spec.types.entries.mapM (fun e => ((m.findRecord e.2).map (·.fields.map (·.name))).map
      fun fs => (e.1, fs.map fun f => (f, Source.field e.2 f))) = some cases := by
    rw [← hcases]
    congr 1
    funext e
    rw [Option.map_map]
    congr 1
    funext r
    rw [Function.comp_apply, List.map_map]
    rfl
  have hn : ∀ x fs, (m.findRecord x).map (·.fields.map (·.name)) = some fs → fs.Nodup := by
    intro x fs hfs
    obtain ⟨r, -, rfl⟩ := Option.map_eq_some_iff.1 hfs
    exact r.names_nodup
  obtain ⟨hwf, hkeys⟩ := cases_mapM spec.types _ (fun x f => .field x f) hn hmap
  exact ⟨cases, rfl, hwf, hkeys⟩

/-- The parameter that the overlay says carries the union. -/
theorem union_param_iff (hu : m.cbUnionRecord cb spec = some (up, urec)) (p : Decl) :
    up.any (·.name = p.name) = true ↔ spec.unionParam = some p.name := by
  unfold cbUnionRecord at hu
  cases hs : spec.unionParam with
  | none =>
    rw [hs] at hu
    cases hu
    simp
  | some pname =>
    rw [hs] at hu
    obtain ⟨q, hq, he⟩ := Option.map_eq_some_iff.1 hu
    cases he
    have hqn : q.name = pname := by simpa using List.find?_some hq
    simp [hqn]

/-- What is written for a parameter goes under its names. -/
theorem emitCbParam_spec (hu : m.cbUnionRecord cb spec = some (up, urec)) {p : Decl} {x : Piece}
     (h : m.emitCbParam spec up urec p = some x) :
    x.Wf ∧ x.names = m.paramNames cb spec p ∧
      ((spec.unionParam = some p.name ∧ ∃ r tag cases, urec = some r ∧ r.fields.head? = some tag ∧
          x = .union tag.name cases ∧ caseKeys cases = m.unionFields spec r) ∨
        (spec.unionParam ≠ some p.name ∧
          ((spec.payloadParam = some p.name ∧ ∃ cases, x = .void cases) ∨ x = .plain p.name))) := by
  have hrec : m.unionRecord cb spec = urec := by
    unfold unionRecord
    rw [hu]
    rfl
  have hup := union_param_iff hu p
  unfold emitCbParam at h
  unfold paramNames
  rw [hrec]
  split at h
  · rename_i hany
    have hs := hup.1 hany
    obtain ⟨r, rfl, h⟩ := Option.bind_eq_some_iff.1 h
    obtain ⟨tag, cases, htag, rfl, hwf, hkeys⟩ := emitCbUnionPut_eq h
    rw [if_pos hs, Option.elim_some, htag]
    refine ⟨hwf, ?_, .inl ⟨hs, r, tag, cases, rfl, htag, rfl, hkeys⟩⟩
    rw [← hkeys]
    rfl
  · rename_i hany
    have hs := mt hup.2 hany
    rw [if_neg hs]
    split at h
    · rename_i hpay
      obtain ⟨cases, rfl, hwf, hkeys⟩ := emitCbVoidPut_eq h
      rw [if_pos hpay]
      exact ⟨hwf, hkeys, .inr ⟨hs, .inl ⟨hpay, cases, rfl⟩⟩⟩
    · rename_i hpay
      cases h
      rw [if_neg hpay]
      exact ⟨trivial, rfl, .inr ⟨hs, .inr rfl⟩⟩

/-- At most one parameter carries a union, and at most one a payload. -/
theorem emitCbParam_independent (hu : m.cbUnionRecord cb spec = some (up, urec)) {p q : Decl}
    (hne : p.name ≠ q.name) {x y : Piece} (hx : m.emitCbParam spec up urec p = some x) (hy : m.emitCbParam spec up urec q = some y) :
    x.Independent y := by
  obtain ⟨-, -, hx⟩ := emitCbParam_spec hu hx
  obtain ⟨-, -, hy⟩ := emitCbParam_spec hu hy
  rcases hx with ⟨hp, r, t, cs, -, -, rfl, -⟩ | ⟨-, ⟨hp, cs, rfl⟩ | rfl⟩
  · rcases hy with ⟨hq, r', t', cs', -, -, rfl, -⟩ | ⟨-, ⟨-, cs', rfl⟩ | rfl⟩
    · exact absurd (Option.some.inj (hp.symm.trans hq)) hne
    · trivial
    · trivial
  · rcases hy with ⟨-, r', t', cs', -, -, rfl, -⟩ | ⟨-, ⟨hq, cs', rfl⟩ | rfl⟩
    · trivial
    · exact absurd (Option.some.inj (hp.symm.trans hq)) hne
    · trivial
  · rcases hy with ⟨-, r', t', cs', -, -, rfl, -⟩ | ⟨-, ⟨-, cs', rfl⟩ | rfl⟩ <;> trivial

section

variable {piece : Decl → Piece} (hu : m.cbUnionRecord cb spec = some (up, urec))
  (hall : ∀ p ∈ cbParams cb spec, m.emitCbParam spec up urec p = some (piece p))

include hu hall

/-- Two parameters never write one key exactly when their names are apart. -/
theorem pieces_disjoint_iff :
    (∀ i, (cbParams cb spec).Pairwise fun p q =>
        ((piece p).write i).keys.Disjoint ((piece q).write i).keys) ↔
      (cbParams cb spec).Pairwise fun p q =>
        ∀ k ∈ m.paramNames cb spec p, k ∉ m.paramNames cb spec q := by
  have hnames : (cbParams cb spec).Pairwise fun p q => p.name ≠ q.name :=
    (List.pairwise_map.1 cb.names_nodup).sublist
      (List.filter_sublist.trans (List.tail_sublist _))
  simp only [List.pairwise_iff_getElem] at hnames ⊢
  have hpair : ∀ (a b : Nat) (ha : a < (cbParams cb spec).length)
      (hb : b < (cbParams cb spec).length), a < b →
      ((∀ i, ((piece (cbParams cb spec)[a]).write i).keys.Disjoint
          ((piece (cbParams cb spec)[b]).write i).keys) ↔
        ∀ k ∈ m.paramNames cb spec (cbParams cb spec)[a],
          k ∉ m.paramNames cb spec (cbParams cb spec)[b]) := by
    intro a b ha hb hab
    have hxa := hall _ (List.getElem_mem ha)
    have hxb := hall _ (List.getElem_mem hb)
    obtain ⟨hwa, hna, -⟩ := emitCbParam_spec hu hxa
    obtain ⟨hwb, hnb, -⟩ := emitCbParam_spec hu hxb
    have hi := emitCbParam_independent hu (hnames a b ha hb hab) hxa hxb
    rw [Piece.disjoint_iff hwa hwb hi, hna, hnb]
    exact List.disjoint_left
  constructor
  · intro h a b ha hb hab
    exact (hpair a b ha hb hab).1 fun i => h i a b ha hb hab
  · intro h i a b ha hb hab
    exact (hpair a b ha hb hab).2 (h a b ha hb hab) i

/-- No parameter writes a key twice exactly when the union's tag is none of its payload's fields. -/
theorem pieces_nodup_iff :
    (∀ i, ∀ p ∈ cbParams cb spec, ((piece p).write i).keys.Nodup) ↔
      ((∃ p ∈ cbParams cb spec, spec.unionParam = some p.name) →
        ∀ r ∈ m.unionRecord cb spec, ∀ t ∈ r.fields.head?, t.name ∉ m.unionFields spec r) := by
  have hrec : m.unionRecord cb spec = urec := by
    unfold unionRecord
    rw [hu]
    rfl
  rw [hrec]
  constructor
  · rintro h ⟨p, hp, hs⟩ r rfl t ht
    obtain ⟨hw, -, ⟨-, r', t', cases, hr, ht', hx, hcs⟩ | ⟨hs', -⟩⟩ := emitCbParam_spec hu (hall p hp)
    · cases hr
      cases ht.symm.trans ht'
      have ho := (Piece.nodup_iff hw).1 fun i => h i p hp
      rw [hx, Piece.OwnApart, hcs] at ho
      exact ho
    · exact absurd hs hs'
  · intro h i p hp
    obtain ⟨hw, -, hx⟩ := emitCbParam_spec hu (hall p hp)
    refine (Piece.nodup_iff hw).2 ?_ i
    rcases hx with ⟨hs, r, t, cases, hr, ht, hx, hcs⟩ | ⟨-, ⟨-, cases, hx⟩ | hx⟩
    · rw [hx, Piece.OwnApart, hcs]
      exact h ⟨p, hp, hs⟩ r hr t ht
    · rw [hx]
      trivial
    · rw [hx]
      trivial

end

/-- **A trampoline's `args`** have distinct keys at every input when the names of the parameters are
apart. -/
theorem argsObject_nodup_iff {ps : List Piece} (h : m.emitCb cb spec = some ps) :
    (∀ i, (argsObject ps i).keys.Nodup) ↔ m.CbApart cb spec := by
  unfold emitCb at h
  obtain ⟨⟨up, urec⟩, hu, h⟩ := Option.bind_eq_some_iff.1 h
  have hps : (cbParams cb spec).mapM (m.emitCbParam spec up urec) = some ps := by
    dsimp only at h
    split at h
    · obtain ⟨-, -, h⟩ := Option.bind_eq_some_iff.1 h
      obtain ⟨-, -, h⟩ := Option.bind_eq_some_iff.1 h
      exact h
    · obtain ⟨-, -, h⟩ := Option.bind_eq_some_iff.1 h
      exact h
  obtain ⟨hall, rfl⟩ := mapM_eq_some (.void []) hps
  have hkeys : ∀ i, (argsObject ((cbParams cb spec).map fun p =>
        (m.emitCbParam spec up urec p).getD (.void [])) i).keys.Nodup ↔
      (∀ p ∈ cbParams cb spec,
          (((m.emitCbParam spec up urec p).getD (.void [])).write i).keys.Nodup) ∧
        (cbParams cb spec).Pairwise fun p q =>
          (((m.emitCbParam spec up urec p).getD (.void [])).write i).keys.Disjoint
            (((m.emitCbParam spec up urec q).getD (.void [])).write i).keys := by
    intro i
    unfold argsObject Object.keys
    rw [List.map_flatMap, List.flatMap_map, List.nodup_flatMap]
  simp only [hkeys, forall_and, pieces_nodup_iff hu hall, pieces_disjoint_iff hu hall]
  exact ⟨fun ⟨ht, hp⟩ => ⟨hp, ht⟩, fun ⟨hp, ht⟩ => ⟨ht, hp⟩⟩

end ApiModel

/-! ## The whole -/

theorem recordObject_nodup (m : ApiModel) (r : Record) : (m.recordObject r).keys.Nodup := by
  unfold ApiModel.recordObject Object.keys
  rw [List.map_map]
  exact r.names_nodup.sublist (List.filter_sublist.map _)

theorem inputObject_nodup (r : Record) : (inputObject r).keys.Nodup := by
  unfold inputObject Object.keys
  rw [List.map_map]
  exact r.names_nodup

/-- What the emitter makes, list by list. -/
theorem emit_spec {m : ApiModel} {g : Generated} (h : m.emit = some g) :
    ∃ cbs, m.callbacksOf = some cbs ∧
      (∀ f ∈ m.handlers, emitResult f.1 f.2 = some ((emitResult f.1 f.2).getD [])) ∧
      g.results = m.handlers.map (fun f => (emitResult f.1 f.2).getD []) ∧
      (∀ c ∈ cbs, m.emitCb c.1 c.2 = some ((m.emitCb c.1 c.2).getD [])) ∧
      g.trampolines = cbs.map (fun c => (m.emitCb c.1 c.2).getD []) ∧
      ∀ o ∈ g.records, o.keys.Nodup := by
  unfold ApiModel.emit at h
  obtain ⟨cbs, hcbs, h⟩ := Option.bind_eq_some_iff.1 h
  obtain ⟨results, hres, h⟩ := Option.bind_eq_some_iff.1 h
  obtain ⟨trampolines, htr, h⟩ := Option.bind_eq_some_iff.1 h
  cases h
  obtain ⟨hr, rfl⟩ := mapM_eq_some [] hres
  obtain ⟨ht, rfl⟩ := mapM_eq_some [] htr
  refine ⟨cbs, hcbs, hr, rfl, ht, rfl, fun o ho => ?_⟩
  rcases List.mem_append.1 ho with ho | ho
  · obtain ⟨r, -, rfl⟩ := List.mem_map.1 ho
    exact recordObject_nodup m r
  · obtain ⟨r, -, rfl⟩ := List.mem_map.1 ho
    exact inputObject_nodup r

theorem emitResult_spec {ov : Overlay} {fn : Signature} {o : Object} (h : emitResult ov fn = some o) :
    validates ov fn = true ∧ o = resultObject ov fn := by
  unfold emitResult at h
  split at h
  · cases h
  · rename_i hv
    split at h
    · cases h
    · cases h
      exact ⟨by simpa using hv, rfl⟩

/-- **No object carries a key twice**, at any input of any trampoline, exactly when no errno and no
buffer of a result, and no two parameters of a callback, go by one name, nor a payload field and its
union's tag. -/
theorem keys_distinct_iff {m : ApiModel} {g : Generated} (h : m.emit = some g) :
    g.KeysDistinct ↔ m.Apart := by
  obtain ⟨cbs, hcbs, hmade, hres, hsome, htr, hrec⟩ := emit_spec h
  constructor
  · intro hd
    refine ⟨fun f hf => ?_, fun cbs' hcbs' c hc => ?_⟩
    · obtain ⟨hv, ho⟩ := emitResult_spec (hmade f hf)
      rw [← resultObject_nodup_iff hv, ← ho]
      apply hd _ (.result _)
      rw [hres]
      exact List.mem_map_of_mem hf
    · cases hcbs.symm.trans hcbs'
      refine (ApiModel.argsObject_nodup_iff (hsome c hc)).1 fun i => hd _ (.args ?_ i)
      rw [htr]
      exact List.mem_map_of_mem hc
  · intro ha o ho
    cases ho with
    | result ho =>
      rw [hres] at ho
      obtain ⟨f, hf, rfl⟩ := List.mem_map.1 ho
      obtain ⟨hv, ho⟩ := emitResult_spec (hmade f hf)
      rw [ho]
      exact (resultObject_nodup_iff hv).2 (ha.results f hf)
    | args ho i =>
      rw [htr] at ho
      obtain ⟨c, hc, rfl⟩ := List.mem_map.1 ho
      exact (ApiModel.argsObject_nodup_iff (hsome c hc)).2 (ha.callbacks cbs hcbs c hc) i
    | record ho => exact hrec o ho

/-- What a reader finds under a member's key is the member that was meant. -/
theorem member_meant {g : Generated} (hd : g.KeysDistinct) {o : Object} (ho : g.Writes o)
    (hn : ∀ k ∈ o.keys, NulFree k) (val : Source → Tree) {x : Bytes × Source} (hx : x ∈ o) :
    ajMember (some (.obj (o.map fun y => (y.1, val y.2)))) x.1 = some (val x.2) := by
  have hkeys : (o.map fun y => (y.1, val y.2)).map (·.1) = o.keys := List.map_map
  have hm : (x.1, val x.2) ∈ o.map fun y => (y.1, val y.2) := List.mem_map_of_mem hx
  refine ajMember_nodup (by rw [hkeys]; exact hd o ho) (fun y hy => hn y.1 ?_) hm
  rw [← hkeys]
  exact List.mem_map_of_mem hy

/-! ## Some of libalpm -/

/-- The setter of a callback. -/
def cbSetter (name cbname : Bytes) : Overlay × Signature :=
  ({ callbackApi := true },
    { name
      retKind := .scalar
      retType := lit "int"
      params := [⟨lit "handle", lit "alpm_handle_t *", .handle⟩, ⟨lit "cb", cbname, .callback⟩,
        ⟨lit "ctx", lit "void *", .opaqueVoid⟩]
      names_nodup := by
        show [lit "handle", lit "cb", lit "ctx"].Nodup
        decide +kernel })

def alpmTransPrepare : Overlay × Signature :=
  ({ outParams := [lit "data"], outListByErrno := fun op => if op = lit "data" then 3 else 0 },
    { name := lit "alpm_trans_prepare"
      retKind := .scalar
      retType := lit "int"
      params := [⟨lit "handle", lit "alpm_handle_t *", .handle⟩,
        ⟨lit "data", lit "alpm_list_t **", .ptr .list⟩]
      names_nodup := by decide +kernel })

def alpmCbDownload : Callback where
  name := lit "alpm_cb_download"
  params := [⟨lit "ctx", lit "void *", .opaqueVoid, none⟩,
    ⟨lit "filename", lit "const char *", .string, none⟩,
    ⟨lit "event", lit "alpm_download_event_type_t", .enum, some (lit "_alpm_download_event_type_t")⟩,
    ⟨lit "data", lit "void *", .opaqueVoid, none⟩]
  names_nodup := by decide +kernel

def alpmCbQuestion : Callback where
  name := lit "alpm_cb_question"
  params := [⟨lit "ctx", lit "void *", .opaqueVoid, none⟩,
    ⟨lit "question", lit "union _alpm_question_t *", .structPtr, none⟩]
  names_nodup := by decide +kernel

def questionTag : Decl :=
  ⟨lit "type", lit "alpm_question_type_t", .enum, some (lit "_alpm_question_type_t")⟩

def questionRecords : List Record := [
  { name := lit "_alpm_question_t"
    fields := [questionTag, ⟨lit "any", lit "alpm_question_any_t", .recordValue, none⟩,
      ⟨lit "import_key", lit "alpm_question_import_key_t", .recordValue, none⟩]
    names_nodup := by decide +kernel },
  { name := lit "_alpm_question_any_t"
    fields := [questionTag, ⟨lit "answer", lit "int", .scalar, none⟩]
    names_nodup := by decide +kernel },
  { name := lit "_alpm_question_import_key_t"
    fields := [questionTag, ⟨lit "import", lit "int", .scalar, none⟩,
      ⟨lit "uid", lit "const char *", .string, none⟩,
      ⟨lit "fingerprint", lit "const char *", .string, none⟩]
    names_nodup := by decide +kernel }]

/-- libalpm with one kind of download event, of that record. -/
def libalpmWith (completed : Record) : ApiModel where
  functions := [cbSetter (lit "alpm_option_set_dlcb") (lit "alpm_cb_download"),
    cbSetter (lit "alpm_option_set_questioncb") (lit "alpm_cb_question"), alpmTransPrepare]
  records := completed :: questionRecords
  enums := [(lit "_alpm_download_event_type_t", [lit "ALPM_DOWNLOAD_COMPLETED"]),
    (lit "_alpm_question_type_t", [lit "ALPM_QUESTION_IMPORT_KEY"])]
  callbacks := [
    (alpmCbDownload, some {
      tagParam := some (lit "event")
      payloadParam := some (lit "data")
      types := ⟨[(lit "ALPM_DOWNLOAD_COMPLETED", lit "alpm_download_event_completed_t")],
        by decide +kernel⟩ }),
    (alpmCbQuestion, some {
      unionParam := some (lit "question")
      answer := some (lit "answer")
      members := some ⟨[(lit "ALPM_QUESTION_IMPORT_KEY", lit "import_key")], by decide +kernel⟩ })]

def downloadCompleted : Record where
  name := lit "_alpm_download_event_completed_t"
  fields := [⟨lit "total", lit "off_t", .scalar, none⟩, ⟨lit "result", lit "int", .scalar, none⟩]
  names_nodup := by decide +kernel

theorem keys_distinct_iff_libalpm :
    ∃ g, (libalpmWith downloadCompleted).emit = some g ∧ g.KeysDistinct := by
  obtain ⟨g, hg⟩ := Option.isSome_iff_exists.1
    (show (libalpmWith downloadCompleted).emit.isSome = true by decide +kernel)
  exact ⟨g, hg, (keys_distinct_iff hg).2 (by decide +kernel)⟩

/-- The same with the name of the file that was fetched, which is the name of a parameter too. -/
def namedCompleted : Record where
  name := lit "_alpm_download_event_completed_t"
  fields := [⟨lit "total", lit "off_t", .scalar, none⟩,
    ⟨lit "filename", lit "const char *", .string, none⟩, ⟨lit "result", lit "int", .scalar, none⟩]
  names_nodup := by decide +kernel

theorem filename_twice :
    ∃ g, (libalpmWith namedCompleted).emit = some g ∧ ¬ g.KeysDistinct := by
  have hdup : (libalpmWith namedCompleted).emit.any (fun g => g.trampolines.any fun ps =>
      !decide (argsObject ps ⟨[], lit "ALPM_DOWNLOAD_COMPLETED", false⟩).keys.Nodup) = true := by
    decide +kernel
  obtain ⟨g, hg, hdup⟩ := (Option.any_eq_true _ _).1 hdup
  obtain ⟨ps, hps, hdup⟩ := List.any_eq_true.1 hdup
  refine ⟨g, hg, fun hd => ?_⟩
  have hn := hd _ (.args hps ⟨[], lit "ALPM_DOWNLOAD_COMPLETED", false⟩)
  simp [hn] at hdup

end Gen
