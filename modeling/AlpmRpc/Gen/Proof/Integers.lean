import AlpmRpc.Gen.Record

/-!
# Integers across the two toolchains

What arrives of an integer, by itself or in a record. `cross` is the pure effect of sending a value
from one side to the other; reading what was written is `cross` (`getValue_valueTree`), so each
question about the wire becomes one about casts. A value survives exactly when the client's type
has it: `long`, `unsigned long` and `off_t` are 64 bits wide on the server and 32 on the client.
-/

set_option autoImplicit false

namespace Gen

open Json Server

/-! ## The effect of a crossing -/

mutual
/-- A value of `side` as it arrives on `side'`. -/
def Kind.cross (h : Handles) (side side' : Side) : (k : Kind) → k.Val side → k.Val side'
  | .string, s => s
  | .scalar ty, v => scalarOf side' ty (toI64 v.1)
  | .handle tag, p => h.ofId side' tag (h.toId side tag p)
  | .structPtr _, none => none
  | .structPtr fs, some v => some (Fields.cross h side side' fs v)

def Fields.cross (h : Handles) (side side' : Side) : (fs : Fields) → fs.Val side → fs.Val side'
  | .nil, _ => ()
  | .cons _ k fs, (v, vs) => (Kind.cross h side side' k v, Fields.cross h side side' fs vs)
end

theorem wordOf_toI64 (n : Word) : wordOf (toI64 n.1) = n := by
  apply Subtype.ext
  rw [wordOf_val, toU64_toI64 n.2]

/-! A number is read off its node before the casts are looked at: the kernel must not compute with
them. -/

theorem valueTree_scalar (h : Handles) (side : Side) (ty : CInt) (v : { v : Int // ty.InRange side v }) :
    valueTree h side (.scalar ty) v = .num (toI64 v.1) := rfl

theorem getValue_scalar (h : Handles) (side : Side) (ty : CInt) (v : Int) :
    getValue h side (some (.num v)) (.scalar ty) = scalarOf side ty v := rfl

theorem valueTree_handle (h : Handles) (side : Side) (tag : HandleTag) (p : Word) :
    valueTree h side (.handle tag) p = .num (toI64 (h.toId side tag p).1) := rfl

theorem getValue_handle (h : Handles) (side : Side) (tag : HandleTag) (v : Int) :
    getValue h side (some (.num v)) (.handle tag) = h.ofId side tag (wordOf v) := rfl

theorem getValue_valueTree_handle (h : Handles) (side side' : Side) (tag : HandleTag) (p : Word) :
    getValue h side' (some (valueTree h side (.handle tag) p)) (.handle tag) =
      h.ofId side' tag (h.toId side tag p) := by
  rw [valueTree_handle, getValue_handle, wordOf_toI64]

theorem getValue_valueTree_scalar (h : Handles) (side side' : Side) (ty : CInt)
    (v : { v : Int // ty.InRange side v }) :
    getValue h side' (some (valueTree h side (.scalar ty) v)) (.scalar ty) =
      scalarOf side' ty (toI64 v.1) := by
  rw [valueTree_scalar, getValue_scalar]

/-- Distinct keys find their own members. -/
theorem ajMember_nodup {ms : List (Bytes × Tree)} (hn : (ms.map (·.1)).Nodup)
    (hk : ∀ m ∈ ms, NulFree m.1) {m : Bytes × Tree} (hm : m ∈ ms) :
    ajMember (some (.obj ms)) m.1 = some m.2 := by
  obtain ⟨before, after, rfl⟩ := List.append_of_mem hm
  refine ajMember_first (hk m hm) fun m' hm' => ?_
  rw [cstr_eq (hk m' (List.mem_append_left _ hm'))]
  intro he
  rw [List.map_append, List.nodup_append] at hn
  exact hn.2.2 m'.1 (List.mem_map_of_mem hm') m.1 (by simp) he

mutual
/-- **Reading what was written.** -/
theorem getValue_valueTree (h : Handles) (side side' : Side) {d : Nat} :
    (k : Kind) → (v : k.Val side) → k.Wf d →
      getValue h side' (some (valueTree h side k v)) k = k.cross h side side' v
  | .string, none, _ => rfl
  | .string, some s, _ => by
    simp only [getValue, valueTree, ajStr, Kind.cross, Option.map_some]
    rw [cstr_eq s.2, CStr.dup_eq]
  | .scalar ty, v, _ => getValue_valueTree_scalar h side side' ty v
  | .handle tag, p, _ => getValue_valueTree_handle h side side' tag p
  | .structPtr _, none, _ => rfl
  | .structPtr fs, some v, hw => by
    obtain ⟨-, hf, hn⟩ := hw
    obtain ⟨hk, -⟩ := fieldTrees_fits h side fs v hf
    rw [← fieldTrees_names h side fs v] at hn
    have hg := getFields_fieldTrees h side side' fs v hf fun m hm => ajMember_nodup hn hk hm
    simp only [getValue, valueTree, ajIsNull, Kind.cross, hg]
    exact if_neg (by simp)

theorem getFields_fieldTrees (h : Handles) (side side' : Side) {d : Nat} {n : Option Tree} :
    (fs : Fields) → (v : fs.Val side) → fs.Wf d →
      (∀ m ∈ fieldTrees h side fs v, ajMember n m.1 = some m.2) →
      getFields h side' n fs = fs.cross h side side' v
  | .nil, _, _, _ => rfl
  | .cons name k fs, (v, vs), hw, hn => by
    obtain ⟨-, hk, hf⟩ := hw
    have hhead : ajMember n name = some (valueTree h side k v) :=
      hn (name, valueTree h side k v) List.mem_cons_self
    rw [getFields, Fields.cross, hhead, getValue_valueTree h side side' k v hk,
      getFields_fieldTrees h side side' fs vs hf fun m hm => hn m (List.mem_cons_of_mem _ hm)]
end

/-! ## Which values survive -/

mutual
/-- Every integer of the value is one the client's type has. -/
def Kind.ClientHas : (k : Kind) → k.Val .server → Prop
  | .scalar ty, v => ty.InRange .client v.1
  | .structPtr fs, some v => Fields.ClientHas fs v
  | _, _ => True

def Fields.ClientHas : (fs : Fields) → fs.Val .server → Prop
  | .nil, _ => True
  | .cons _ k fs, (v, vs) => Kind.ClientHas k v ∧ Fields.ClientHas fs vs
end

mutual
/-- The client's value is the server's: the same strings, the same integers, the ids of the same
objects. -/
def Kind.Same (h : Handles) : (k : Kind) → k.Val .server → k.Val .client → Prop
  | .string, s, c => s = c
  | .scalar _, v, c => v.1 = c.1
  | .handle tag, p, c => h.idOf tag p = c
  | .structPtr _, none, none => True
  | .structPtr fs, some v, some c => Fields.Same h fs v c
  | _, _, _ => False

def Fields.Same (h : Handles) : (fs : Fields) → fs.Val .server → fs.Val .client → Prop
  | .nil, _, _ => True
  | .cons _ k fs, (v, vs), (c, cs) => Kind.Same h k v c ∧ Fields.Same h fs vs cs
end

mutual
/-- Every object a handle field holds has an id that resolves to it. -/
def Kind.Resolves (h : Handles) : (k : Kind) → k.Val .server → Prop
  | .handle tag, p => h.objOf tag (h.idOf tag p) = p
  | .structPtr fs, some v => Fields.Resolves h fs v
  | _, _ => True

def Fields.Resolves (h : Handles) : (fs : Fields) → fs.Val .server → Prop
  | .nil, _ => True
  | .cons _ k fs, (v, vs) => Kind.Resolves h k v ∧ Fields.Resolves h fs vs
end

mutual
theorem same_cross_iff (h : Handles) :
    (k : Kind) → (v : k.Val .server) → (k.Same h v (k.cross h .server .client v) ↔ k.ClientHas v)
  | .string, _ => by simp [Kind.Same, Kind.cross, Kind.ClientHas]
  | .scalar _, v => eq_comm.trans (cast_toI64_eq_iff .server .client v.2)
  | .handle _, _ => by simp [Kind.Same, Kind.cross, Kind.ClientHas, Handles.ofId, Handles.toId]
  | .structPtr _, none => by simp [Kind.Same, Kind.cross, Kind.ClientHas]
  | .structPtr fs, some v => same_crossFields_iff h fs v

theorem same_crossFields_iff (h : Handles) :
    (fs : Fields) → (v : fs.Val .server) →
      (fs.Same h v (fs.cross h .server .client v) ↔ fs.ClientHas v)
  | .nil, _ => by simp [Fields.Same, Fields.ClientHas]
  | .cons _ k fs, (v, vs) => and_congr (same_cross_iff h k v) (same_crossFields_iff h fs vs)
end

/-- What the client's type has, the server's has. -/
theorem inRange_server {ty : CInt} {v : Int} (h : ty.InRange .client v) : ty.InRange .server v := by
  unfold CInt.InRange at *
  cases ty <;> simp [CInt.isSigned, CInt.width] at h ⊢ <;> omega

/-- An integer comes back when the client's type has it. -/
theorem cast_back_iff {ty : CInt} {v : Int} (h : ty.InRange .server v) :
    cast .server ty (toI64 (cast .client ty (toI64 v))) = v ↔ ty.InRange .client v := by
  have hc := cast_range .client ty (toI64 v)
  have hback := (cast_toI64_eq_iff .client .server hc).2 (inRange_server hc)
  rw [hback, cast_toI64_eq_iff .server .client h]

mutual
theorem cross_cross_iff (h : Handles) :
    (k : Kind) → (v : k.Val .server) → k.Resolves h v →
      (k.cross h .client .server (k.cross h .server .client v) = v ↔ k.ClientHas v)
  | .string, _, _ => by simp [Kind.cross, Kind.ClientHas]
  | .scalar _, v, _ => Subtype.ext_iff.trans (cast_back_iff v.2)
  | .handle tag, p, hr => by
    have hr' : h.objOf tag (h.idOf tag p) = p := hr
    simp [Kind.cross, Kind.ClientHas, Handles.ofId, Handles.toId, hr']
  | .structPtr _, none, _ => iff_of_true rfl trivial
  | .structPtr fs, some v, hr => Option.some_inj.trans (cross_crossFields_iff h fs v hr)

theorem cross_crossFields_iff (h : Handles) :
    (fs : Fields) → (v : fs.Val .server) → fs.Resolves h v →
      (fs.cross h .client .server (fs.cross h .server .client v) = v ↔ fs.ClientHas v)
  | .nil, _, _ => iff_of_true rfl trivial
  | .cons _ k fs, (v, vs), hr =>
    Prod.ext_iff.trans (and_congr (cross_cross_iff h k v hr.1) (cross_crossFields_iff h fs vs hr.2))
end

/-! ## Where a value stands in a reply -/

/-- How a value is carried: as the return value, as the out-value `name`, or as one element of a
returned array (a batched column, a list). -/
inductive Carrier where
  | ret (outs : List (Bytes × Tree))
  | out (ret : Tree) (before : List (Bytes × Tree)) (name : Bytes) (after : List (Bytes × Tree))
  | column (before after : List Tree) (outs : List (Bytes × Tree))

namespace Carrier

/-- The reply with the value `n` in its place. -/
def reply (id : Int) (n : Tree) : Carrier → Tree
  | .ret outs => resultFrame id n outs
  | .out r before name after => resultFrame id r (before ++ (name, n) :: after)
  | .column before after outs => resultFrame id (.arr (before ++ n :: after)) outs

/-- The node the client reads it from. -/
def node (rsp : Option Tree) : Carrier → Option Tree
  | .ret _ => retNode rsp
  | .out _ _ name _ => outNode rsp name
  | .column before _ _ => ajElem (retNode rsp) before.length

/-- What else is in the reply fits the wire, and an out-value's name is its own. -/
def Ok (d : Nat) : Carrier → Prop
  | .ret outs => ∀ m ∈ outs, NulFree m.1 ∧ Fits d m.2
  | .out r before name after => Fits d r ∧ NulFree name ∧ name ≠ retKey ∧
      (∀ m ∈ before, NulFree m.1 ∧ Fits d m.2 ∧ m.1 ≠ name) ∧ ∀ m ∈ after, NulFree m.1 ∧ Fits d m.2
  | .column before after outs => 0 < d ∧ (∀ v ∈ before ++ after, Fits (d - 1) v) ∧
      ∀ m ∈ outs, NulFree m.1 ∧ Fits d m.2

/-- **The client finds the value that was put there.** -/
theorem node_sent {c : Carrier} {d e : Nat} (hc : c.Ok d) {n : Tree} (hn : Fits e n) (he : e < d)
    (hd : d + 2 ≤ maxDepth) {id : Int} (hid : I64 id) : c.node (sent (c.reply id n)) = some n := by
  cases c with
  | ret outs =>
    have hf := fits_result hid (hn.mono (by omega : e ≤ d)) (fun m hm => (hc m hm).1)
      fun m hm => (hc m hm).2
    rw [reply, node, sent_eq hf hd, retNode_result]
  | out r before name after =>
    obtain ⟨hr, hname, hne, hb, ha⟩ := hc
    have hk : ∀ m ∈ before ++ (name, n) :: after, NulFree m.1 ∧ Fits d m.2 := by
      intro m hm
      rcases List.mem_append.1 hm with hm | hm
      · exact ⟨(hb m hm).1, (hb m hm).2.1⟩
      · rcases List.mem_cons.1 hm with rfl | hm
        · exact ⟨hname, hn.mono (by omega)⟩
        · exact ha m hm
    have hf := fits_result hid hr (fun m hm => (hk m hm).1) fun m hm => (hk m hm).2
    rw [reply, node, sent_eq hf hd, outNode]
    have hfirst : ∀ m ∈ (retKey, r) :: before, cstr m.1 ≠ name := by
      intro m hm
      rcases List.mem_cons.1 hm with rfl | hm
      · rw [cstr_eq (by decide : NulFree retKey)]
        exact hne.symm
      · rw [cstr_eq (hb m hm).1]
        exact (hb m hm).2.2
    exact ajMember_first hname hfirst
  | column before after outs =>
    obtain ⟨h0, hv, ho⟩ := hc
    obtain ⟨d, rfl⟩ : ∃ d', d = d' + 1 := ⟨d - 1, by omega⟩
    have harr : Fits (d + 1) (.arr (before ++ n :: after)) := by
      refine .arr fun v hvm => ?_
      rcases List.mem_append.1 hvm with hm | hm
      · exact hv v (List.mem_append_left _ hm)
      · rcases List.mem_cons.1 hm with rfl | hm
        · exact hn.mono (by omega)
        · exact hv v (List.mem_append_right _ hm)
    have hf := fits_result hid harr (fun m hm => (ho m hm).1) fun m hm => (ho m hm).2
    rw [reply, node, sent_eq hf hd, retNode_result]
    simp [ajElem, children]

end Carrier

/-! ## Whole values -/

/-- A record the client has read off what the server wrote. -/
def received (h : Handles) (k : Kind) (v : k.Val .server) : k.Val .client :=
  cliGetValue h (ajParse (srvPutValue h {} k v).buf) k

/-- The same record, sent back and rebuilt by the server. -/
def returned (h : Handles) (k : Kind) (v : k.Val .server) : k.Val .server :=
  srvReadValue h (ajParse (cliPutValue h {} k (received h k v)).buf) k

theorem getValue_putValue (h : Handles) (side side' : Side) {k : Kind} (hk : k.Wf maxDepth)
    (v : k.Val side) :
    getValue h side' (ajParse (putValue h side {} k v).buf) k = k.cross h side side' v := by
  rw [putValue_eq, ajParse_ajwTree (valueTree_fits h side k v hk),
    getValue_valueTree h side side' k v hk]

/-- **When integers survive.** An integer sent as a return value, an out-value or an element of a
column arrives exactly when the client's type has it; a record arrives, and comes back, exactly
when the client's types have all its integers. -/
theorem integers_survive_iff (h : Handles) :
    (∀ (c : Carrier) (d : Nat) (id : Int), c.Ok d → 0 < d → d + 2 ≤ maxDepth → I64 id →
      ∀ (ty : CInt) (v : Int), ty.InRange .server v →
        (cast .client ty (ajI64 (c.node (sent (c.reply id (.num (toI64 v))))) 0) = v ↔
          ty.InRange .client v)) ∧
    ∀ (k : Kind) (v : k.Val .server), k.Wf maxDepth →
      (k.Same h v (received h k v) ↔ k.ClientHas v) ∧
        (k.Resolves h v → (returned h k v = v ↔ k.ClientHas v)) := by
  refine ⟨fun c d id hc h0 hd hid ty v hv => ?_, fun k v hk => ?_⟩
  · have hn : Fits 0 (.num (toI64 v)) := .num (toI64_range v)
    rw [Carrier.node_sent hc hn h0 hd hid, ajI64]
    exact cast_toI64_eq_iff .server .client hv
  · have hr : received h k v = k.cross h .server .client v :=
      getValue_putValue h .server .client hk v
    have hb : returned h k v = k.cross h .client .server (received h k v) :=
      getValue_putValue h .client .server hk (received h k v)
    rw [hb, hr]
    exact ⟨same_cross_iff h k v, cross_cross_iff h k v⟩

/-- Ids that are the addresses themselves; a dependency has no handle in it. -/
def noHandles : Handles := ⟨fun _ p => p, fun _ id => id, fun _ => rfl⟩

theorem one_inRange : CInt.uint.InRange .server 1 := by decide

theorem glibc_nulFree : NulFree (lit "glibc") := by decide

/-- A dependency with the hash `hash` of its name. -/
def dependOn (hash : { v : Int // CInt.ulong.InRange .server v }) :
    (Kind.structPtr alpmDepend).Val .server :=
  some (some ⟨lit "glibc", glibc_nulFree⟩, none, none, hash, ⟨1, one_inRange⟩, ())

theorem alpmDepend_wf : (Kind.structPtr alpmDepend).Wf maxDepth := by
  simp only [Kind.Wf, Fields.Wf, alpmDepend, Fields.names]
  decide

theorem integers_survive_iff_depend :
    (∀ ty v, CInt.InRange .server ty v →
      (cast .client ty (ajI64 ((Carrier.ret []).node
        (sent ((Carrier.ret []).reply 1 (.num (toI64 v))))) 0) = v ↔ ty.InRange .client v)) ∧
    (returned noHandles (.structPtr alpmDepend) (dependOn ⟨5, by decide⟩) =
        dependOn ⟨5, by decide⟩ ↔
      (Kind.structPtr alpmDepend).ClientHas (dependOn ⟨5, by decide⟩)) := by
  obtain ⟨h1, h2⟩ := integers_survive_iff noHandles
  refine ⟨h1 (.ret []) 1 1 (by simp [Carrier.Ok]) (by decide) (by decide) (by decide), ?_⟩
  exact (h2 (.structPtr alpmDepend) (dependOn ⟨5, by decide⟩) alpmDepend_wf).2
    (by simp [Kind.Resolves, Fields.Resolves, dependOn, alpmDepend])

/-- A name's hash of 33 bits: the client reads `0`, and sends that back. -/
theorem name_hash_lost :
    cast .client .ulong (ajI64 ((Carrier.ret []).node
      (sent ((Carrier.ret []).reply 1 (.num (toI64 4294967296))))) 0) ≠ 4294967296 ∧
    ¬(Kind.structPtr alpmDepend).Same noHandles (dependOn ⟨4294967296, by decide⟩)
      (received noHandles _ (dependOn ⟨4294967296, by decide⟩)) ∧
    returned noHandles (.structPtr alpmDepend) (dependOn ⟨4294967296, by decide⟩) ≠
      dependOn ⟨4294967296, by decide⟩ := by
  have hno : ¬CInt.ulong.InRange .client 4294967296 := by decide
  have hnot : ¬(Kind.structPtr alpmDepend).ClientHas (dependOn ⟨4294967296, by decide⟩) :=
    fun hc => hno hc.2.2.2.1
  have hr := getValue_putValue noHandles .server .client alpmDepend_wf
    (dependOn ⟨4294967296, by decide⟩)
  have hb := getValue_putValue noHandles .client .server alpmDepend_wf
    (received noHandles _ (dependOn ⟨4294967296, by decide⟩))
  refine ⟨?_, fun hs => ?_, fun he => ?_⟩
  · have hn : Fits 0 (.num (toI64 4294967296)) := .num (toI64_range _)
    rw [Carrier.node_sent (d := 1) (by simp [Carrier.Ok]) hn (by decide) (by decide) (by decide)]
    decide
  · unfold received cliGetValue srvPutValue at hs
    rw [hr, same_cross_iff] at hs
    exact hnot hs
  · unfold returned srvReadValue cliPutValue at he
    rw [hb] at he
    unfold received cliGetValue srvPutValue at he
    rw [hr, cross_cross_iff noHandles _ _
      (by simp [Kind.Resolves, Fields.Resolves, dependOn, alpmDepend])] at he
    exact hnot he

end Gen
