import AlpmRpc.Server.HandOut
import AlpmRpc.Server.Proof.OwnerTree

/-!
# Packages are filed under their dbs

`Filed` is the invariant of a run that files packages right: every package with an id is one libalpm
has, and one filed under a db belongs to it. `freed_ids_drop_iff`: after such a run a freeing call
drops exactly the ids of the packages it frees if and only if each of them is filed under a db.
-/

set_option autoImplicit false

namespace Server

open Json Gen Wire

/-! ## Programs that issue nothing -/

namespace TProg

variable {α β : Type}

theorem issued_bind (p : TProg α) (f : α → TProg β) (a : Reg) :
    (p >>= f).issued a = p.issued a + (f (p.runReg a).2).issued (p.runReg a).1 := by
  induction p generalizing a with
  | ret x => exact (Nat.zero_add _).symm
  | call o k ih =>
    rw [call_bind, issued, issued, ih]
    exact (Nat.add_assoc _ _ _).symm

theorem nextSeq_runReg (p : TProg α) {a : Reg} (hb : a.nextSeq + p.issued a ≤ 2 ^ 40) :
    (p.runReg a).1.nextSeq = a.nextSeq + p.issued a := by
  induction p generalizing a with
  | ret x => rfl
  | call o k ih =>
    rw [issued] at hb ⊢
    have hn : (a.exec o).1.nextSeq = a.nextSeq + a.issues o := Reg.nextSeq_exec (by omega)
    rw [runReg, ih _ (by omega), hn, Nat.add_assoc]

end TProg

/-! ## Arguments -/

/-- What a good argument stands for. -/
def ArgOk (a : Reg) (params : Option Tree) (i : Nat) (objs : List Nat) : ParamKind → Prop
  | .handle tag => objs = [a.get (arpcArgId params i) tag] ∧
    (arpcArgId params i ≠ 0 → a.get (arpcArgId params i) tag ≠ 0)
  | .handles tag =>
    objs = (children (ajElem params i)).map (fun e => a.get (toU64 (ajI64 (some e) 0)) tag) ∧
    ∀ e ∈ children (ajElem params i), a.get (toU64 (ajI64 (some e) 0)) tag ≠ 0
  | _ => True

section
variable {a : Reg} {params : Option Tree}

theorem Reg.get_zero (h : a.Wf) (tag : HandleTag) : a.get 0 tag = 0 := by
  rw [Reg.get, Reg.find_zero h]

theorem takeHandles_spec (tag : HandleTag) (ns : List Tree) :
    ((takeHandles tag ns).runReg a).1 = a ∧ (takeHandles tag ns).issued a = 0 ∧
      (((takeHandles tag ns).runReg a).2.2 = false →
        ((takeHandles tag ns).runReg a).2.1 =
            ns.map (fun e => a.get (toU64 (ajI64 (some e) 0)) tag) ∧
          ∀ e ∈ ns, a.get (toU64 (ajI64 (some e) 0)) tag ≠ 0) := by
  induction ns with
  | nil => exact ⟨rfl, rfl, fun _ => ⟨rfl, by simp⟩⟩
  | cons n ns ih =>
    obtain ⟨h1, h2, h3⟩ := ih
    simp only [takeHandles, TProg.runReg, TProg.issued, Reg.exec_get,
      Reg.issues_get, Nat.zero_add]
    by_cases hp : a.get (toU64 (ajI64 (some n) 0)) tag = 0
    · simp only [hp, if_true]
      exact ⟨rfl, rfl, fun hc => absurd hc (by simp)⟩
    · simp only [hp, if_false, TProg.runReg_bind, TProg.issued_bind, h1, h2]
      refine ⟨rfl, rfl, fun hc => ?_⟩
      obtain ⟨h4, h5⟩ := h3 hc
      refine ⟨congrArg _ h4, fun e he => ?_⟩
      rcases List.mem_cons.1 he with rfl | he
      · exact hp
      · exact h5 e he

theorem readArg_spec (params : Option Tree) (h : a.Wf) (i : Nat) (k : ParamKind) :
    ((readArg params i k).runReg a).1 = a ∧ (readArg params i k).issued a = 0 ∧
      (((readArg params i k).runReg a).2.2 = false →
        ArgOk a params i ((readArg params i k).runReg a).2.1 k) := by
  cases k with
  | handle tag =>
    simp only [readArg, TProg.runReg_bind, TProg.issued_bind, arpcArgHandle]
    split
    · exact ⟨rfl, rfl, fun hc => absurd hc (by simp)⟩
    · split
      · rename_i h0
        refine ⟨rfl, rfl, fun _ => ⟨?_, fun hc => absurd h0 hc⟩⟩
        rw [h0, Reg.get_zero h]
        rfl
      · refine ⟨rfl, ?_, fun hc => ⟨rfl, fun _ => by simpa [TProg.runReg, Reg.exec_get] using hc⟩⟩
        simp only [TProg.issued, Reg.issues_get]
        rfl
  | handles tag =>
    simp only [readArg]
    split
    · exact ⟨rfl, rfl, fun hc => absurd hc (by simp)⟩
    · split
      · rename_i hn
        have hc : children (ajElem params i) = [] := by
          cases he : ajElem params i with
          | none => rfl
          | some n =>
            rw [he] at hn
            cases n with
            | null => rfl
            | _ => cases hn
        exact ⟨rfl, rfl, fun _ => by simp [ArgOk, hc]⟩
      · exact takeHandles_spec tag _
  | string => exact ⟨rfl, rfl, fun _ => trivial⟩
  | strings => exact ⟨rfl, rfl, fun _ => trivial⟩
  | scalar => exact ⟨rfl, rfl, fun _ => trivial⟩

/-- **The arguments of a request that is not refused.** -/
theorem readArgs_spec (params : Option Tree) (h : a.Wf) (i : Nat) (ks : List ParamKind) :
    ((readArgs params i ks).runReg a).1 = a ∧ (readArgs params i ks).issued a = 0 ∧
      (((readArgs params i ks).runReg a).2.2 = false → ∀ j k, ks[j]? = some k →
        ArgOk a params (i + j) ((((readArgs params i ks).runReg a).2.1).getD j []) k) := by
  induction ks generalizing i with
  | nil => exact ⟨rfl, rfl, fun _ j k hk => absurd hk (by simp)⟩
  | cons k ks ih =>
    obtain ⟨h1, h2, h3⟩ := readArg_spec params h i k
    obtain ⟨h4, h5, h6⟩ := ih (i + 1)
    simp only [readArgs, TProg.runReg_bind, TProg.issued_bind, h1, h2, h4, h5]
    refine ⟨rfl, rfl, fun hc j k' hk => ?_⟩
    obtain ⟨hb, hb'⟩ := Bool.or_eq_false_iff.1 hc
    cases j with
    | zero =>
      injection hk with hk
      subst hk
      exact h3 hb
    | succ j =>
      have := h6 hb' j k' hk
      rwa [Nat.add_right_comm, Nat.add_assoc] at this

end

/-! ## Owners -/

theorem mem_handleParams {ps : List ParamKind} {i : Nat} {tag : HandleTag}
    (h : (i, tag) ∈ handleParams ps) : ps[i]? = some (.handle tag) := by
  obtain ⟨⟨k, j⟩, hm, he⟩ := List.mem_filterMap.1 h
  have hk := List.mem_zipIdx_iff_getElem?.1 hm
  cases k with
  | handle tag' => cases he; exact hk
  | _ => cases he

theorem mem_listParams {ps : List ParamKind} {i : Nat} {tag : HandleTag}
    (h : (i, tag) ∈ listParams ps) : ps[i]? = some (.handles tag) := by
  obtain ⟨⟨k, j⟩, hm, he⟩ := List.mem_filterMap.1 h
  have hk := List.mem_zipIdx_iff_getElem?.1 hm
  cases k with
  | handles tag' => cases he; exact hk
  | _ => cases he

theorem Reg.get_live {a : Reg} (h : a.Wf) {id : Nat} {tag : HandleTag} (hg : a.get id tag ≠ 0) :
    ∃ s ∈ a.live, s.id = id ∧ s.tag = tag := by
  obtain ⟨s, hs, hid, -, ht⟩ := (Reg.get_eq_iff h hg).1 rfl
  exact ⟨s, hs, hid, ht⟩

theorem Reg.get_slot {a : Reg} (h : a.Wf) {s : Slot} (hs : s ∈ a.live) : a.get s.id s.tag = s.ptr :=
  (Reg.get_eq_iff h (h.ptr_ne s hs)).2 ⟨s, hs, rfl, rfl, rfl⟩

/-- The owner as a value. -/
def ownerValue (a : Reg) (fn : Fn) (params : Option Tree) : Nat :=
  (((ownerExpr fn).eval params).runReg a).2

section
variable {a : Reg} {params : Option Tree}

theorem eval_spec (a : Reg) (params : Option Tree) (e : OwnerExpr) :
    ((e.eval params).runReg a).1 = a ∧ (e.eval params).issued a = 0 := by
  cases e with
  | ancestorArg i level => exact ⟨rfl, Reg.issues_of_object rfl⟩
  | ancestorList i level => exact ⟨rfl, Reg.issues_of_object rfl⟩
  | _ => exact ⟨rfl, rfl⟩

theorem arpcListOwner_live (h : a.Wf) {i : Nat} {objs : List Nat} {tag : HandleTag}
    (hok : ArgOk a params i objs (.handles tag)) (hne : arpcListOwner params i ≠ 0) :
    ∃ s ∈ a.live, s.id = arpcListOwner params i ∧ s.tag = tag := by
  unfold arpcListOwner at hne ⊢
  cases hc : children (ajElem params i) with
  | nil => rw [hc] at hne; exact absurd rfl hne
  | cons e es => exact Reg.get_live h (hok.2 e (by simp [hc]))

/-- **The owner a handler computes** is where what it hands out may be filed. -/
theorem ownerValue_places (h : Shape a) {fn : Fn} {args : List (List Nat)}
    (hargs : ∀ j k, fn.params[j]? = some k → ArgOk a params j (args.getD j []) k)
    (hne : (ownerExpr fn).start params ≠ 0) : a.Places (ownerValue a fn params) fn.tag := by
  -- a slot of the parent's tag is such a place
  have hwant : ∀ s ∈ a.live, some s.tag = parentTag fn.tag → a.Places s.id fn.tag := by
    intro s hs hst
    rcases fn.tag_ok with ht | ht
    · rw [ht] at hst ⊢
      injection hst with hst
      exact ⟨s, hs, rfl, hst⟩
    · rw [ht] at hst ⊢
      injection hst with hst
      exact ⟨s, hs, rfl, .inr hst⟩
  have hlevel : (fn.tag = .pkg ∧ (parentTag fn.tag).getD .none = .db) ∨
      (fn.tag = .db ∧ (parentTag fn.tag).getD .none = .handle) := by
    rcases fn.tag_ok with ht | ht
    · exact .inr ⟨ht, by rw [ht]; rfl⟩
    · exact .inl ⟨ht, by rw [ht]; rfl⟩
  unfold ownerValue
  unfold ownerExpr at hne ⊢
  dsimp only at hne ⊢
  cases h1 : (handleParams fn.params).find? fun p => some p.2 = parentTag fn.tag with
  | some p =>
    simp only [h1] at hne ⊢
    have hm := mem_handleParams (List.mem_of_find?_eq_some h1)
    have hw : some p.2 = parentTag fn.tag := by simpa using List.find?_some h1
    obtain ⟨s, hs, hid, hst⟩ := Reg.get_live h.wf ((hargs p.1 _ hm).2 hne)
    show a.Places (arpcArgId params p.1) fn.tag
    rw [← hid]
    exact hwant s hs (by rw [hst]; exact hw)
  | none =>
    simp only [h1] at hne ⊢
    cases h2 : (listParams fn.params).find? fun p => some p.2 = parentTag fn.tag with
    | some p =>
      simp only [h2] at hne ⊢
      have hm := mem_listParams (List.mem_of_find?_eq_some h2)
      have hw : some p.2 = parentTag fn.tag := by simpa using List.find?_some h2
      obtain ⟨s, hs, hid, hst⟩ := arpcListOwner_live h.wf (hargs p.1 _ hm) hne
      show a.Places (arpcListOwner params p.1) fn.tag
      rw [← hid]
      exact hwant s hs (by rw [hst]; exact hw)
    | none =>
      simp only [h2] at hne ⊢
      cases h3 : (handleParams fn.params).head? with
      | some p =>
        simp only [h3] at hne ⊢
        have hm := mem_handleParams (List.mem_of_head? h3)
        obtain ⟨s, hs, hid, -⟩ := Reg.get_live h.wf ((hargs p.1 _ hm).2 hne)
        show a.Places (a.ancestor (arpcArgId params p.1) _) fn.tag
        rw [← hid]
        exact h.ancestor hs hlevel
      | none =>
        simp only [h3] at hne ⊢
        cases h4 : (listParams fn.params).head? with
        | some p =>
          simp only [h4] at hne ⊢
          have hm := mem_listParams (List.mem_of_head? h4)
          obtain ⟨s, hs, hid, -⟩ := arpcListOwner_live h.wf (hargs p.1 _ hm) hne
          show a.Places (a.ancestor (arpcListOwner params p.1) _) fn.tag
          rw [← hid]
          exact h.ancestor hs hlevel
        | none =>
          simp only [h4] at hne
          exact absurd rfl hne

end

/-! ## The invariant -/

/-- The package `p` has an id that is filed under a db. -/
def Reg.HasDb (a : Reg) (p : Nat) : Prop :=
  ∃ s ∈ a.live, s.ptr = p ∧ s.tag = .pkg ∧ ∃ b ∈ a.live, b.id = s.owner ∧ b.tag = .db

/-- Packages with ids are libalpm's, and those filed under a db belong to it. -/
structure Filed (lib : Lib) (a : Reg) : Prop where
  shape : Shape a
  known : ∀ s ∈ a.live, s.tag = .pkg → lib.pkgDb s.ptr ≠ none
  own : ∀ s ∈ a.live, ∀ b ∈ a.live, b.id = s.owner → b.tag = .db →
    lib.pkgDb s.ptr = some (some b.ptr)

/-- Filing `p` under `o` is right: `o` is no db, or `p`'s own, or a db is known for `p`. -/
def RightFor (lib : Lib) (a : Reg) (o p : Nat) : Prop :=
  ∀ b ∈ a.live, b.id = o → b.tag = .db → lib.pkgDb p = some (some b.ptr) ∨ a.HasDb p

section
variable {lib : Lib} {a : Reg} {p o : Nat} {tag : HandleTag}

/-- A put changes no slot but one of its own tag. -/
theorem Shape.put_others (h : Shape a) (ho : a.Places o tag) (hb : a.nextSeq < 2 ^ 40) {x : Slot}
    (hx : x ∈ (a.put p tag o).1.live) (hxt : x.tag ≠ tag) : x ∈ a.live := by
  by_cases hp : p = 0
  · rw [Reg.put, if_pos hp] at hx
    exact hx
  rcases h.put_cases hp ho hb with ⟨he, -⟩ | ⟨rfl, s, hs, -, hst, -, -, he⟩ | ⟨-, id, nr, -, he⟩
  · rwa [he] at hx
  · rw [he] at hx
    obtain ⟨y, hy, rfl⟩ := List.mem_map.1 hx
    split at hxt
    · rename_i hys
      rw [h.wf.id_inj hy hs hys] at hxt
      exact absurd hst hxt
    · rename_i hys
      rwa [if_neg hys]
  · rw [he] at hx
    rcases List.mem_append.1 hx with hx | hx
    · exact hx
    · rw [List.mem_singleton.1 hx] at hxt
      exact absurd rfl hxt

theorem Filed.put (h : Filed lib a) (ho : a.Places o tag) (hb : a.nextSeq < 2 ^ 40)
    (hlib : tag = .pkg → p ≠ 0 → lib.pkgDb p ≠ none)
    (hr : tag = .pkg → p ≠ 0 → RightFor lib a o p) :
    Filed lib (a.put p tag o).1 ∧ ∀ q, a.HasDb q → (a.put p tag o).1.HasDb q := by
  have hshape := h.shape.put ho hb (p := p)
  by_cases hp : p = 0
  · rw [Reg.put, if_pos hp]
    exact ⟨h, fun q hq => hq⟩
  have hk := h.shape.put_keeps hp ho hb
  rcases h.shape.put_cases hp ho hb with ⟨he, -⟩ |
    ⟨rfl, s, hs, rfl, hst, ⟨x, hx, hxo, hxt⟩, ⟨b, hbm, rfl, hbt⟩, he⟩ | ⟨hno, id, nr, hid, he⟩
  · rw [he]
    exact ⟨h, fun q hq => hq⟩
  · -- the package moves from the handle to a db
    have hsh : ¬a.HasDb s.ptr := by
      rintro ⟨s', hs', hsp, hst', y, hy, hyo, hyt⟩
      rw [h.shape.wf.obj_inj hs' hs hsp (hst'.trans hst.symm)] at hyo
      rw [h.shape.wf.id_inj hy hx (hyo.trans hxo.symm), hxt] at hyt
      cases hyt
    have hown : ∀ y ∈ a.live, y.id = b.id → lib.pkgDb s.ptr = some (some y.ptr) := by
      intro y hy hyb
      rw [h.shape.wf.id_inj hy hbm hyb]
      exact (hr rfl hp b hbm rfl hbt).resolve_right hsh
    rw [he] at hshape hk ⊢
    have hdb : ∀ y ∈ (a.modify s.id fun s => { s with owner := b.id }).live, y.tag = .db →
        y ∈ a.live := by
      intro y hy hyt
      obtain ⟨z, hz, rfl⟩ := List.mem_map.1 hy
      split at hyt
      · rename_i hzs
        rw [h.shape.wf.id_inj hz hs hzs] at hyt
        exact absurd (hst.symm.trans hyt) (by simp)
      · rename_i hzs
        rwa [if_neg hzs]
    refine ⟨⟨hshape, fun y hy hyt => ?_, fun y hy z hz hzo hzt => ?_⟩, fun q hq => ?_⟩
    · obtain ⟨z, hz, rfl⟩ := List.mem_map.1 hy
      have hz' : (if z.id = s.id then { z with owner := b.id } else z).ptr = z.ptr ∧
          (if z.id = s.id then { z with owner := b.id } else z).tag = z.tag := by
        split <;> exact ⟨rfl, rfl⟩
      rw [hz'.1]
      exact h.known z hz (hz'.2.symm.trans hyt)
    · have hz' := hdb z hz hzt
      obtain ⟨w, hw, rfl⟩ := List.mem_map.1 hy
      split at hzo
      · rename_i hws
        rw [if_pos hws, h.shape.wf.id_inj hw hs hws]
        exact hown z hz' hzo
      · rename_i hws
        rw [if_neg hws]
        exact h.own w hw z hz' hzo hzt
    · obtain ⟨s', hs', hsp, hst', y, hy, hyo, hyt⟩ := hq
      refine ⟨s', ?_, hsp, hst', y, hk y hy (by simp [hyt]), hyo, hyt⟩
      refine List.mem_map.2 ⟨s', hs', if_neg fun hss => hsh ?_⟩
      rw [← h.shape.wf.id_inj hs' hs hss]
      exact ⟨s', hs', rfl, hst', y, hy, hyo, hyt⟩
  · rw [he] at hshape hk ⊢
    -- the new slot owns nothing yet
    have hnew : ∀ y ∈ a.live, y.owner ≠ id := by
      intro y hy hyo
      have hpl := h.shape.placed y hy
      cases hyt : y.tag with
      | handle =>
        rw [hyt] at hpl
        have : id ≠ 0 := hshape.wf.id_ne _ (List.mem_append_right _ (List.mem_singleton.2 rfl))
        exact this (hyo.symm.trans hpl)
      | db =>
        rw [hyt] at hpl
        obtain ⟨x, hx, hxo, -⟩ := hpl
        exact hid x hx (hxo.trans hyo)
      | pkg =>
        rw [hyt] at hpl
        obtain ⟨x, hx, hxo, -⟩ := hpl
        exact hid x hx (hxo.trans hyo)
      | none => rw [hyt] at hpl; exact hpl.elim
      | changelog => rw [hyt] at hpl; exact hpl.elim
    refine ⟨⟨hshape, fun y hy hyt => ?_, fun y hy z hz hzo hzt => ?_⟩, fun q hq => ?_⟩
    · rcases List.mem_append.1 hy with hy | hy
      · exact h.known y hy hyt
      · rw [List.mem_singleton.1 hy] at hyt ⊢
        exact hlib hyt hp
    · rcases List.mem_append.1 hy with hy | hy
      · rcases List.mem_append.1 hz with hz | hz
        · exact h.own y hy z hz hzo hzt
        · rw [List.mem_singleton.1 hz] at hzo
          exact absurd hzo.symm (hnew y hy)
      · rw [List.mem_singleton.1 hy] at hzo ⊢
        have hyt : tag = .pkg := by
          have := hshape.owner_db (List.mem_append_right _ (List.mem_singleton.2 rfl)) hz hzo hzt
          exact this
        rcases List.mem_append.1 hz with hz | hz
        · refine (hr hyt hp z hz hzo hzt).resolve_right ?_
          rintro ⟨s', hs', hsp, hst', -⟩
          exact hno s' hs' ⟨hsp, hst'.trans hyt.symm⟩
        · rw [List.mem_singleton.1 hz] at hzt
          exact absurd (hyt.symm.trans hzt) (by simp)
    · obtain ⟨s', hs', hsp, hst', y, hy, hyo, hyt⟩ := hq
      exact ⟨s', List.mem_append_left _ hs', hsp, hst', y, List.mem_append_left _ hy, hyo, hyt⟩

end

/-! ## Whole handlers -/

section
variable {lib : Lib} {a : Reg} {tag : HandleTag}

theorem Reg.nextSeq_put (a : Reg) (p : Nat) (tag : HandleTag) (o : Nat) (hb : a.nextSeq < 2 ^ 40) :
    (a.put p tag o).1.nextSeq ≤ a.nextSeq + 1 := by
  rcases a.put_nextSeq p tag o with h | h
  · omega
  · rw [h, Nat.mod_eq_of_lt (by omega)]

theorem issued_putAll (tag : HandleTag) (o : Nat) (ps : List Nat) (a : Reg) :
    (putAll tag o ps).issued a ≤ ps.length := by
  induction ps generalizing a with
  | nil => exact Nat.le_refl 0
  | cons p ps ih =>
    rw [putAll, TProg.issued, TProg.issued_bind, List.length_cons]
    have h1 := a.issues_le (.put p tag o)
    have h2 := ih (a.exec (.put p tag o)).1
    simp only [TProg.pure_eq, TProg.issued]
    omega

/-- **A hand-out** of objects that are right for the owner `o`. -/
theorem Filed.putAll (h : Filed lib a) {o : Nat} {ps : List Nat} (ho : a.Places o tag)
    (hb : a.nextSeq + ps.length ≤ 2 ^ 40)
    (hlib : tag = .pkg → ∀ p ∈ ps, p ≠ 0 → lib.pkgDb p ≠ none)
    (hr : tag = .pkg → ∀ p ∈ ps, p ≠ 0 → RightFor lib a o p) :
    Filed lib ((Server.putAll tag o ps).runReg a).1 := by
  induction ps generalizing a with
  | nil => exact h
  | cons p ps ih =>
    rw [List.length_cons] at hb
    have hlt : a.nextSeq < 2 ^ 40 := by omega
    obtain ⟨h', hmono⟩ := h.put ho hlt (fun ht hp => hlib ht p List.mem_cons_self hp)
      fun ht hp => hr ht p List.mem_cons_self hp
    have hkeep : ∀ x ∈ a.live, x.tag ≠ .pkg → x ∈ (a.put p tag o).1.live := by
      intro x hx hxt
      by_cases hp : p = 0
      · rw [Reg.put, if_pos hp]
        exact hx
      · exact h.shape.put_keeps hp ho hlt x hx hxt
    have hn := a.nextSeq_put p tag o hlt
    rw [Server.putAll, TProg.runReg, TProg.runReg_bind]
    refine ih h' (ho.mono hkeep) (le_trans (Nat.add_le_add_right hn _) (by omega))
      (fun ht q hq hq0 => hlib ht q (List.mem_cons_of_mem _ hq) hq0) fun ht q hq hq0 b hbm hbo hbt => ?_
    have hb' : b ∈ a.live := h.shape.put_others ho hlt hbm (by rw [ht, hbt]; simp)
    rcases hr ht q (List.mem_cons_of_mem _ hq) hq0 b hb' hbo hbt with hq' | hq'
    · exact .inl hq'
    · exact .inr (hmono q hq')

/-- Dropping slots keeps the invariant when the shape stays. -/
theorem Filed.sub {a' : Reg} (h : Filed lib a) (hs : Shape a') (hsub : ∀ s ∈ a'.live, s ∈ a.live) :
    Filed lib a' :=
  ⟨hs, fun s hs' => h.known s (hsub s hs'),
    fun s hs' b hb => h.own s (hsub s hs') b (hsub b hb)⟩

theorem dropPtr_cases (h : Shape a) (p : Nat) (ht : tag ≠ .handle) :
    Shape (a.dropPtr p tag) ∧ (∀ s, s ∈ (a.dropPtr p tag).live ↔ s ∈ a.live ∧
      ∀ b ∈ a.live, b.ptr = p → b.tag = tag → s.id ≠ b.id ∧ s.owner ≠ b.id) := by
  unfold Reg.dropPtr
  split
  · rename_i hp
    refine ⟨h, fun s => ⟨fun hs => ⟨hs, fun b hb hbp => ?_⟩, fun hs => hs.1⟩⟩
    exact absurd (hbp.trans hp) (h.wf.ptr_ne b hb)
  · cases hf : a.findPtr p tag with
    | none =>
      refine ⟨h, fun s => ⟨fun hs => ⟨hs, fun b hb hbp hbt => ?_⟩, fun hs => hs.1⟩⟩
      exact absurd ⟨hbp, hbt⟩ (Reg.findPtr_eq_none.1 hf b hb)
    | some b =>
      obtain ⟨hb, hbp, hbt⟩ := (Reg.findPtr_eq_some h.wf).1 hf
      have hbh : b.tag ≠ .handle := by rw [hbt]; exact ht
      refine ⟨h.dropOwner hb hbh, fun s => ?_⟩
      dsimp only
      rw [h.mem_dropOwner hb hbh]
      refine and_congr_right fun _ => ⟨fun hs b' hb' hbp' hbt' => ?_, fun hs => hs b hb hbp hbt⟩
      rw [h.wf.obj_inj hb' hb (hbp'.trans hbp.symm) (hbt'.trans hbt.symm)]
      exact hs

theorem issued_dropAll (tag : HandleTag) (ps : List Nat) (a : Reg) :
    (dropAll tag ps).issued a = 0 := by
  induction ps generalizing a with
  | nil => rfl
  | cons p ps ih => rw [dropAll, TProg.issued, Reg.issues_of_object rfl, ih]

theorem issued_dropUnderAll (ids : List Nat) (a : Reg) : (dropUnderAll ids).issued a = 0 := by
  induction ids generalizing a with
  | nil => rfl
  | cons p ps ih => rw [dropUnderAll, TProg.issued, Reg.issues_of_object rfl, ih]

/-- `drop_all`: what is filed at or under one of the objects goes. -/
theorem dropAll_spec (h : Shape a) {tag : HandleTag} (ht : tag ≠ .handle) (ps : List Nat) :
    Shape ((dropAll tag ps).runReg a).1 ∧ ∀ s, s ∈ ((dropAll tag ps).runReg a).1.live ↔
      s ∈ a.live ∧ ∀ b ∈ a.live, b.ptr ∈ ps → b.tag = tag → s.id ≠ b.id ∧ s.owner ≠ b.id := by
  induction ps generalizing a with
  | nil => exact ⟨h, fun s => by simp [dropAll]⟩
  | cons p ps ih =>
    obtain ⟨h1, h2⟩ := dropPtr_cases h p ht
    obtain ⟨h3, h4⟩ := ih h1
    refine ⟨h3, fun s => ?_⟩
    rw [dropAll, TProg.runReg, show (a.exec (.dropPtr p tag)).1 = a.dropPtr p tag from rfl, h4, h2]
    refine ⟨fun ⟨⟨hs, hd⟩, hr⟩ => ⟨hs, fun b hb hbp hbt => ?_⟩, fun ⟨hs, hd⟩ => ⟨⟨hs, ?_⟩, ?_⟩⟩
    · rcases List.mem_cons.1 hbp with hbp | hbp
      · exact hd b hb hbp hbt
      · by_cases hbk : b ∈ (a.dropPtr p tag).live
        · exact hr b hbk hbp hbt
        · -- `b` went with `p`: it is `p`'s slot, for nothing of its tag is below another such
          rw [h2, not_and] at hbk
          have hbk := hbk hb
          simp only [not_forall] at hbk
          obtain ⟨c, hc, hcp, hct, hbc⟩ := hbk
          by_cases hid : b.id = c.id
          · rw [hid]
            exact hd c hc hcp hct
          · have ho : c.id = b.owner := by
              by_contra hne
              exact hbc ⟨hid, fun he => hne he.symm⟩
            have hcd : c.tag = .db := (h.owner_tag hb hc ho).resolve_left (by rw [hct]; exact ht)
            have hbp := h.owner_db hb hc ho hcd
            rw [hct, ← hbt, hbp] at hcd
            cases hcd
    · exact fun b hb hbp hbt => hd b hb (by simp [hbp]) hbt
    · exact fun b hb hbp hbt => hd b ((h2 b).1 hb).1 (List.mem_cons_of_mem _ hbp) hbt

/-- The loop over the ids of dbs: what is filed under one of them goes. -/
theorem dropUnderAll_spec (h : Shape a) (ids : List Nat)
    (hids : ∀ id ∈ ids, ∃ b ∈ a.live, b.id = id ∧ b.tag = .db) :
    Shape ((dropUnderAll ids).runReg a).1 ∧ ∀ s, s ∈ ((dropUnderAll ids).runReg a).1.live ↔
      s ∈ a.live ∧ s.owner ∉ ids := by
  induction ids generalizing a with
  | nil => exact ⟨h, fun s => by simp [dropUnderAll]⟩
  | cons id ids ih =>
    obtain ⟨b, hb, rfl, hbt⟩ := hids id List.mem_cons_self
    have hm := fun s : Slot => h.mem_dropUnder hb hbt (s := s)
    have hkeep : ∀ i ∈ ids, ∃ c ∈ (a.dropUnder b.id).live, c.id = i ∧ c.tag = .db := by
      intro i hi
      obtain ⟨c, hc, hci, hct⟩ := hids i (List.mem_cons_of_mem _ hi)
      refine ⟨c, (hm c).2 ⟨hc, fun ho => ?_⟩, hci, hct⟩
      have := h.owner_db hc hb ho.symm hbt
      rw [hct] at this
      cases this
    obtain ⟨h3, h4⟩ := ih (h.dropUnder hb hbt) hkeep
    refine ⟨h3, fun s => ?_⟩
    rw [dropUnderAll, TProg.runReg,
      show (a.exec (.dropUnder b.id)).1 = a.dropUnder b.id from rfl, h4, hm]
    simp only [List.mem_cons, not_or, and_assoc]

end

/-! ## Freeing -/

section
variable {lib : Lib} {a : Reg} {params : Option Tree} {args : List (List Nat)}

theorem Freeing.issued_drop (f : Freeing) : (f.drop lib params args).issued a = 0 := by
  cases f with
  | dbUpdate rc =>
    rw [Freeing.drop]
    split
    · rfl
    · exact issued_dropUnderAll _ a
  | dbUnregister rc =>
    have h : a.issues (.dropOwner (arpcArgId params 0)) = 0 := Reg.issues_of_object rfl
    exact h
  | unregisterAllSyncdbs rc =>
    rw [Freeing.drop]
    split
    · exact issued_dropAll _ _ a
    · rfl

/-- What is left of the slots after `f`'s drops, in terms of the dbs freed. -/
structure Freed (f : Freeing) (dbs : List Nat) (a a' : Reg) : Prop where
  shape : Shape a'
  sub : ∀ s ∈ a'.live, s ∈ a.live
  pkgs : f.Frees → ∀ s ∈ a.live, s.tag = .pkg →
    (s ∈ a'.live ↔ ∀ b ∈ a.live, b.tag = .db → b.id = s.owner → b.ptr ∉ dbs)

/-- **The drops of a freeing call**: the packages filed under the dbs it frees. -/
theorem Freeing.drop_spec (h : Shape a) (f : Freeing)
    (hargs : ∀ j k, f.params[j]? = some k → ArgOk a params j (args.getD j []) k) :
    Freed f (f.frees lib args) a ((f.drop lib params args).runReg a).1 := by
  have hid : ∀ b ∈ a.live, b.tag = .db → ∀ id, a.get id .db = b.ptr → id = b.id := by
    intro b hb hbt id hg
    have hne : a.get id .db ≠ 0 := by rw [hg]; exact h.wf.ptr_ne b hb
    obtain ⟨c, hc, rfl, hcp, hct⟩ := (Reg.get_eq_iff h.wf hne).1 rfl
    rw [h.wf.obj_inj hc hb (hcp.trans hg) (hct.trans hbt.symm)]
  cases f with
  | dbUpdate rc =>
    obtain ⟨ha, hne⟩ := hargs 1 _ rfl
    rw [Freeing.drop, Freeing.frees]
    by_cases hrc : rc = 1
    · rw [if_pos hrc]
      exact ⟨h, fun s hs => hs, fun hf => absurd hrc hf⟩
    · rw [if_neg hrc, if_pos hrc]
      obtain ⟨h1, h2⟩ := dropUnderAll_spec h ((children (ajElem params 1)).map
        fun e => toU64 (ajI64 (some e) 0)) (by
          intro id hi
          obtain ⟨e, he, rfl⟩ := List.mem_map.1 hi
          exact Reg.get_live h.wf (hne e he))
      refine ⟨h1, fun s hs => ((h2 s).1 hs).1, fun _ s hs _ => ?_⟩
      rw [h2, and_iff_right hs, ha]
      refine ⟨fun hno b hb hbt hbo hm => hno ?_, fun hno hm => ?_⟩
      · obtain ⟨e, he, hg⟩ := List.mem_map.1 hm
        rw [← hbo, ← hid b hb hbt _ hg]
        exact List.mem_map_of_mem he
      · obtain ⟨e, he, hso⟩ := List.mem_map.1 hm
        obtain ⟨b, hb, hbi, hbt⟩ := Reg.get_live h.wf (hne e he)
        refine hno b hb hbt (hbi.trans hso) (List.mem_map.2 ⟨e, he, ?_⟩)
        rw [← hbi, ← hbt, Reg.get_slot h.wf hb]
  | dbUnregister rc =>
    obtain ⟨ha, hne⟩ := hargs 0 _ rfl
    rw [Freeing.drop, Freeing.frees]
    show Freed _ _ a (a.dropOwner (arpcArgId params 0))
    by_cases h0 : arpcArgId params 0 = 0
    · rw [h0, Reg.dropOwner, if_pos rfl]
      refine ⟨h, fun s hs => hs, fun hf s hs _ => ⟨fun _ b _ _ _ => ?_, fun _ => hs⟩⟩
      rw [if_pos (show rc = 0 from hf), ha, h0, Reg.get_zero h.wf]
      simp
    · obtain ⟨b, hb, hbi, hbt⟩ := Reg.get_live h.wf (hne h0)
      have hbh : b.tag ≠ .handle := by rw [hbt]; simp
      have hg : a.get (arpcArgId params 0) .db = b.ptr := by
        rw [← hbi, ← hbt, Reg.get_slot h.wf hb]
      rw [← hbi]
      refine ⟨h.dropOwner hb hbh, fun s hs => ((h.mem_dropOwner hb hbh).1 hs).1,
        fun hf s hs hst => ?_⟩
      rw [if_pos (show rc = 0 from hf), ha, hg, h.mem_dropOwner hb hbh, and_iff_right hs]
      have hsb : s.id ≠ b.id := by
        intro he
        rw [h.wf.id_inj hs hb he, hbt] at hst
        cases hst
      refine ⟨fun hn c hc hct hco hm => hn.2 ?_, fun hno => ⟨hsb, fun hso => ?_⟩⟩
      · have hcb : b.ptr = c.ptr := by
          have := List.mem_filter.1 hm
          simpa using (List.mem_singleton.1 this.1).symm
        rw [← hco, h.wf.obj_inj hc hb hcb.symm (hct.trans hbt.symm)]
      · exact hno b hb hbt hso.symm (List.mem_filter.2
          ⟨List.mem_singleton.2 rfl, by simpa using h.wf.ptr_ne b hb⟩)
  | unregisterAllSyncdbs rc =>
    rw [Freeing.drop, Freeing.frees]
    by_cases hrc : rc = 0
    · rw [if_pos hrc, if_pos hrc]
      obtain ⟨h1, h2⟩ := dropAll_spec h (show HandleTag.db ≠ .handle by simp)
        ((args.getD 0 []).flatMap lib.alpmGetSyncdbs)
      refine ⟨h1, fun s hs => ((h2 s).1 hs).1, fun _ s hs hst => ?_⟩
      rw [h2, and_iff_right hs]
      refine ⟨fun hno b hb hbt hbo hm => (hno b hb hm hbt).2 hbo.symm,
        fun hno b hb hm hbt => ⟨fun he => ?_, fun hso => hno b hb hbt hso.symm hm⟩⟩
      rw [h.wf.id_inj hs hb he, hbt] at hst
      cases hst
    · rw [if_neg hrc, if_neg hrc]
      exact ⟨h, fun s hs => hs, fun hf => absurd hf hrc⟩

/-- Every package of `dbs` that has an id is filed under a db. -/
def AllFiled (lib : Lib) (dbs : List Nat) (a : Reg) : Prop :=
  ∀ s ∈ a.live, s.tag = .pkg → lib.Of dbs s.ptr → a.HasDb s.ptr

/-- The slots that stay are the packages of other dbs, exactly when `AllFiled`. -/
theorem Freed.exact_iff {f : Freeing} {dbs : List Nat} {a' : Reg} (h : Filed lib a)
    (hd : Freed f dbs a a') (hf : f.Frees) :
    (∀ s ∈ a.live, s.tag = .pkg → (s ∈ a'.live ↔ ¬lib.Of dbs s.ptr)) ↔ AllFiled lib dbs a := by
  refine ⟨fun hx s hs hst hof => ?_, fun hall s hs hst => ?_⟩
  · have hno : s ∉ a'.live := fun hs' => (hx s hs hst).1 hs' hof
    rw [hd.pkgs hf s hs hst] at hno
    simp only [not_forall] at hno
    obtain ⟨b, hb, hbt, hbo, -⟩ := hno
    exact ⟨s, hs, rfl, hst, b, hb, hbo, hbt⟩
  · rw [hd.pkgs hf s hs hst]
    refine ⟨fun hno hof => ?_, fun hof b hb hbt hbo hm => ?_⟩
    · obtain ⟨s', hs', hsp, hst', b, hb, hbo, hbt⟩ := hall s hs hst hof
      rw [h.shape.wf.obj_inj hs' hs hsp (hst'.trans hst.symm)] at hbo
      obtain ⟨d, hdm, hpd⟩ := hof
      rw [h.own s hs b hb hbo hbt] at hpd
      injection hpd with hpd
      injection hpd with hpd
      exact hno b hb hbt hbo (hpd ▸ hdm)
    · exact hof ⟨b.ptr, hm, h.own s hs b hb hbo hbt⟩

theorem Freeing.frees_nil {f : Freeing} (hf : ¬f.Frees) : f.frees lib args = [] := by
  cases f with
  | dbUpdate rc => exact if_neg hf
  | dbUnregister rc => exact if_neg hf
  | unregisterAllSyncdbs rc => exact if_neg hf

theorem Lib.without_pkgDb {dbs : List Nat} {p : Nat} (h : ¬lib.Of dbs p) :
    (lib.without dbs).pkgDb p = lib.pkgDb p := by
  unfold Lib.without
  dsimp only
  split
  · rename_i d hd
    rw [if_neg fun hm => h ⟨d, hm, hd⟩]
    exact hd.symm
  · rename_i r hr
    rfl

/-- The invariant after a freeing call, of libalpm without what it freed. -/
theorem Filed.freed {f : Freeing} {a' : Reg} (h : Filed lib a)
    (hd : Freed f (f.frees lib args) a a') (hall : AllFiled lib (f.frees lib args) a) :
    Filed (lib.without (f.frees lib args)) a' := by
  have hlive : ∀ s ∈ a'.live, s.tag = .pkg → ¬lib.Of (f.frees lib args) s.ptr := by
    intro s hs hst
    by_cases hf : f.Frees
    · exact ((hd.exact_iff h hf).2 hall s (hd.sub s hs) hst).1 hs
    · rw [Freeing.frees_nil hf]
      rintro ⟨d, hdm, -⟩
      cases hdm
  refine ⟨hd.shape, fun s hs hst => ?_, fun s hs b hb hbo hbt => ?_⟩
  · rw [Lib.without_pkgDb (hlive s hs hst)]
    exact h.known s (hd.sub s hs) hst
  · rw [Lib.without_pkgDb (hlive s hs (hd.shape.owner_db hs hb hbo hbt))]
    exact h.own s (hd.sub s hs) b (hd.sub b hb) hbo hbt

end

/-! ## Runs -/

theorem filedDb_iff {t : Table} {a : Reg} (h : Rep t a) {p : Nat} (hp : p ≠ 0) :
    filedDb t p ≠ 0 ↔ a.HasDb p := by
  obtain ⟨r, hr, hm, -⟩ := h.findPtr hp .pkg
  unfold filedDb
  rw [hr]
  cases r with
  | none =>
    have hno := Reg.findPtr_eq_none.1 hm.symm
    refine ⟨fun hc => absurd rfl hc, fun ⟨s, hs, hsp, hst, _⟩ => ?_⟩
    exact absurd ⟨hsp, hst⟩ (hno s hs)
  | some i =>
    obtain ⟨hs, hsp, hst⟩ := (Reg.findPtr_eq_some h.wf).1 hm.symm
    dsimp only
    rw [h.get, Option.getD_some]
    refine ⟨fun hg => ?_, fun ⟨s', hs', hsp', hst', b, hb, hbo, hbt⟩ => ?_⟩
    · obtain ⟨b, hb, hbo, hbt⟩ := Reg.get_live h.wf hg
      exact ⟨_, hs, hsp, hst, b, hb, hbo, hbt⟩
    · rw [h.wf.obj_inj hs' hs (hsp'.trans hsp.symm) (hst'.trans hst.symm)] at hbo
      rw [← hbo, ← hbt, Reg.get_slot h.wf hb]
      exact h.wf.ptr_ne b hb

theorem namedDb_eq {t : Table} {a : Reg} (h : Rep t a) (hb : a.nextSeq ≤ 2 ^ 40) (fn : Fn)
    (params : Option Tree) : namedDb t fn params = a.get (ownerValue a fn params) .db := by
  obtain ⟨h1, h2⟩ := eval_spec a params (ownerExpr fn)
  obtain ⟨t', ht', h'⟩ := TProg.run_rep ((ownerExpr fn).eval params) h (by omega)
  rw [namedDb, ht']
  dsimp only
  rw [h.get, Option.getD_some]
  rfl

theorem freed_eq {s : State} {a : Reg} (h : Rep s.table a) (hb : a.nextSeq ≤ 2 ^ 40) (f : Freeing)
    (params : Option Tree) : f.freed s params =
      if ((readArgs params 0 f.params).runReg a).2.2 then []
      else f.frees s.lib ((readArgs params 0 f.params).runReg a).2.1 := by
  obtain ⟨h1, h2, -⟩ := readArgs_spec params h.wf 0 f.params
  obtain ⟨t', ht', -⟩ := TProg.run_rep (readArgs params 0 f.params) h (by omega)
  rw [Freeing.freed, ht']
  obtain ⟨args, bad⟩ := ((readArgs params 0 f.params).runReg a).2
  cases bad <;> rfl

/-- The invariant of a run. -/
structure Filing (s : State) (a : Reg) : Prop where
  rep : Rep s.table a
  filed : Filed s.lib a

theorem Filing.empty : Filing {} {} :=
  ⟨.empty, .empty, by simp, by simp⟩

section
variable {s : State} {a : Reg}

theorem Filing.get_pkg (h : Filing s a) {id p : Nat} (hp : p ≠ 0) :
    arpcHandleGet s.table id .pkg = some p ↔ a.Has id p .pkg := by
  rw [h.rep.get, Option.some_inj, Reg.get_eq_iff h.rep.wf hp]

theorem handOut_spec (h : Filing s a) {fn : Fn} {objs : List Nat} {params : Option Tree}
    (hb : a.nextSeq + objs.length ≤ 2 ^ 40) (hl : (Act.handOut fn objs params).LibOk s)
    (hr : (Act.handOut fn objs params).Right s) :
    (Server.handOut fn objs params).issued a ≤ objs.length ∧
      Filed s.lib ((Server.handOut fn objs params).runReg a).1 := by
  have hwf := h.rep.wf
  obtain ⟨h1, h2, h3⟩ := readArgs_spec params hwf 0 fn.params
  obtain ⟨h4, h5⟩ := eval_spec a params (ownerExpr fn)
  simp only [Server.handOut, TProg.runReg_bind, TProg.issued_bind, h1, h2, Nat.zero_add]
  cases hbad : ((readArgs params 0 fn.params).runReg a).2.2 with
  | true => exact ⟨Nat.zero_le _, h.filed⟩
  | false =>
    simp only [Bool.false_eq_true, if_false, TProg.runReg_bind, TProg.issued_bind, h4, h5,
      Nat.zero_add]
    refine ⟨issued_putAll _ _ _ a, ?_⟩
    show Filed s.lib ((putAll fn.tag (ownerValue a fn params) objs).runReg a).1
    by_cases hst : (ownerExpr fn).start params = 0
    · -- nothing is handed out, and nothing put
      have hnull : ∀ ps : List Nat, (∀ p ∈ ps, p = 0) → ∀ o,
          ((putAll fn.tag o ps).runReg a).1 = a := by
        intro ps hps o
        induction ps with
        | nil => rfl
        | cons p ps ih =>
          rw [putAll, TProg.runReg, TProg.runReg_bind, hps p List.mem_cons_self]
          exact ih fun q hq => hps q (List.mem_cons_of_mem _ hq)
      rw [hnull objs (hl.2 hst)]
      exact h.filed
    · have hpl := ownerValue_places h.filed.shape
        (fun j k hk => by simpa using h3 hbad j k hk) hst
      refine h.filed.putAll hpl hb hl.1 fun ht p hp hp0 b hbm hbo hbt => ?_
      have hn : namedDb s.table fn params = b.ptr := by
        rw [namedDb_eq h.rep (by omega), ← hbo, ← hbt, Reg.get_slot hwf hbm]
      have := hr ht (by rw [hn]; exact hwf.ptr_ne b hbm) p hp hp0
      rwa [hn, filedDb_iff h.rep hp0] at this

/-- The registry after a freeing call that is not refused, and the dbs it freed. -/
theorem free_spec (h : Filing s a) (hb : a.nextSeq ≤ 2 ^ 40) (f : Freeing)
    (params : Option Tree) :
    ∃ a' args, (f.handler s.lib params).issued a = 0 ∧
      (f.handler s.lib params).runReg a = (a', f.freed s params) ∧
      ((f.freed s params = f.frees s.lib args ∧ Freed f (f.frees s.lib args) a a') ∨
        (f.freed s params = [] ∧ a' = a)) := by
  obtain ⟨h1, h2, h3⟩ := readArgs_spec params h.rep.wf 0 f.params
  rw [freed_eq h.rep hb]
  simp only [Freeing.handler, TProg.runReg_bind, TProg.issued_bind, h1, h2, Nat.zero_add]
  generalize hargs : ((readArgs params 0 f.params).runReg a).2.1 = args at h3 ⊢
  cases hbad : ((readArgs params 0 f.params).runReg a).2.2 with
  | true => exact ⟨a, args, rfl, rfl, .inr ⟨rfl, rfl⟩⟩
  | false =>
    have hok : ∀ j k, f.params[j]? = some k → ArgOk a params j (args.getD j []) k :=
      fun j k hk => by simpa using h3 hbad j k hk
    refine ⟨((f.drop s.lib params args).runReg a).1, args, ?_, ?_,
      .inl ⟨rfl, Freeing.drop_spec h.filed.shape f hok⟩⟩
    · simp only [Bool.false_eq_true, if_false, TProg.issued_bind, f.issued_drop]
      rfl
    · simp only [Bool.false_eq_true, if_false, TProg.runReg_bind]
      rfl

theorem allFiled_iff (h : Filing s a) {f : Freeing} {params : Option Tree} :
    (Act.free f params).Right s ↔ AllFiled s.lib (f.freed s params) a := by
  refine ⟨fun hr sl hs ht hof => ?_, fun hall id p hp hg hof => ?_⟩
  · have hp := h.rep.wf.ptr_ne sl hs
    rw [← filedDb_iff h.rep hp]
    exact hr sl.id sl.ptr hp ((h.get_pkg hp).2 ⟨sl, hs, rfl, rfl, ht⟩) hof
  · obtain ⟨sl, hs, -, rfl, ht⟩ := (h.get_pkg hp).1 hg
    rw [filedDb_iff h.rep hp]
    exact hall sl hs ht hof

/-- **One action keeps the invariant**, when it files right. -/
theorem Filing.step (h : Filing s a) {c : Act} (hb : a.nextSeq + c.puts ≤ 2 ^ 40)
    (hl : c.LibOk s) (hr : c.Right s) :
    ∃ s' a', c.step s = some s' ∧ Filing s' a' ∧ a'.nextSeq ≤ a.nextSeq + c.puts := by
  have hwf := h.rep.wf
  -- a program on the table that keeps `Filed` and issues at most what the action puts
  have hprog : ∀ {α : Type} (p : TProg α), p.issued a ≤ c.puts →
      ∃ t', p.run s.table = some (t', (p.runReg a).2) ∧ Rep t' (p.runReg a).1 ∧
        (p.runReg a).1.nextSeq ≤ a.nextSeq + c.puts := by
    intro α p hp
    obtain ⟨t', ht', hR⟩ := TProg.run_rep p h.rep (by omega)
    refine ⟨t', ht', hR, ?_⟩
    rw [TProg.nextSeq_runReg p (by omega)]
    omega
  cases c with
  | load lib =>
    refine ⟨_, a, rfl, ⟨h.rep, h.filed.shape, fun sl hs ht => ?_, fun sl hs b hb' hbo hbt => ?_⟩,
      Nat.le_add_right _ _⟩
    · have hp := hwf.ptr_ne sl hs
      dsimp only
      rw [hl sl.id sl.ptr hp ((h.get_pkg hp).2 ⟨sl, hs, rfl, rfl, ht⟩)]
      exact h.filed.known sl hs ht
    · have hp := hwf.ptr_ne sl hs
      have ht := h.filed.shape.owner_db hs hb' hbo hbt
      dsimp only
      rw [hl sl.id sl.ptr hp ((h.get_pkg hp).2 ⟨sl, hs, rfl, rfl, ht⟩)]
      exact h.filed.own sl hs b hb' hbo hbt
  | alpmInitialize p =>
    obtain ⟨t', ht', hR, hn⟩ := hprog (TProg.op (.put p .handle 0)) (a.issues_le _)
    have hlt : a.nextSeq < 2 ^ 40 := hb
    refine ⟨_, _, by simp only [Act.step, ht']; rfl, ⟨hR, ?_⟩, hn⟩
    have hpl : a.Places 0 .handle := rfl
    exact (h.filed.put hpl hlt (fun hc => by cases hc) fun hc => by cases hc).1
  | handOut fn objs params =>
    obtain ⟨h1, h2⟩ := handOut_spec h hb hl hr
    obtain ⟨t', ht', hR, hn⟩ := hprog (Server.handOut fn objs params) h1
    exact ⟨{ s with table := t' }, _, by simp only [Act.step, ht']; rfl, ⟨hR, h2⟩, hn⟩
  | callback ctx pkgs =>
    obtain ⟨t', ht', hR, hn⟩ := hprog (putAll .pkg ctx pkgs) (issued_putAll _ _ _ a)
    have hg : a.get ctx .handle ≠ 0 := by
      have := hl.1
      rwa [h.rep.get, Ne, Option.some_inj] at this
    obtain ⟨x, hx, hxi, hxt⟩ := Reg.get_live hwf hg
    refine ⟨_, _, by simp only [Act.step, ht']; rfl, ⟨hR, ?_⟩, hn⟩
    have hpl : a.Places ctx .pkg := ⟨x, hx, hxi, .inl hxt⟩
    refine h.filed.putAll hpl hb (fun _ => hl.2)
      fun _ p _ _ b hbm hbo hbt => ?_
    rw [hwf.id_inj hbm hx (hbo.trans hxi.symm), hxt] at hbt
    cases hbt
  | callbackEnd pkgs =>
    obtain ⟨t', ht', hR, hn⟩ := hprog (dropAll .pkg pkgs) (by rw [issued_dropAll]; exact Nat.zero_le _)
    obtain ⟨h1, h2⟩ := dropAll_spec h.filed.shape (show HandleTag.pkg ≠ .handle by simp) pkgs
    refine ⟨_, _, by simp only [Act.step, ht']; rfl, ⟨hR, ?_⟩, hn⟩
    exact h.filed.sub h1 fun sl hs => ((h2 sl).1 hs).1
  | free f params =>
    obtain ⟨a', args, hi, hrun, hcase⟩ := free_spec h hb f params
    obtain ⟨t', ht', hR, hn⟩ := hprog (f.handler s.lib params) (by omega)
    rw [hrun] at ht' hR hn
    refine ⟨_, a', by simp only [Act.step, ht']; rfl, ⟨hR, ?_⟩, hn⟩
    have hall := (allFiled_iff h).1 hr
    rcases hcase with ⟨he, hd⟩ | ⟨he, rfl⟩
    · rw [he] at hall ⊢
      exact h.filed.freed hd hall
    · rw [he]
      have hlib : s.lib.without [] = s.lib := by
        unfold Lib.without
        congr 1
        funext p
        cases hp : s.lib.pkgDb p with
        | none => rfl
        | some d => cases d <;> rfl
      dsimp only
      rw [hlib]
      exact h.filed

theorem Filing.run (h : Filing s a) {as : List Act} (hb : a.nextSeq + (as.map Act.puts).sum ≤ 2 ^ 40)
    (hl : Each Act.LibOk as s) (hr : Each Act.Right as s) :
    ∃ s' a', runActs s as = some s' ∧ Filing s' a' ∧ a'.nextSeq ≤ 2 ^ 40 := by
  induction as generalizing s a with
  | nil => exact ⟨s, a, rfl, h, hb⟩
  | cons c as ih =>
    rw [List.map_cons, List.sum_cons] at hb
    obtain ⟨s', a', hs', h', hn⟩ := h.step (c := c) (by omega) hl.1 hr.1
    obtain ⟨s'', a'', hs'', h'', hn'⟩ := ih h' (by omega) (hl.2 s' hs') (hr.2 s' hs')
    refine ⟨s'', a'', ?_, h'', hn'⟩
    rw [runActs, List.foldlM_cons, hs']
    exact hs''

/-- A freeing call drops exactly the ids of the packages it frees when each is filed. -/
theorem Filing.free_exact_iff (h : Filing s a) (hb : a.nextSeq ≤ 2 ^ 40) {f : Freeing} (hf : f.Frees)
    (params : Option Tree) :
    ∃ s', (Act.free f params).step s = some s' ∧
      (DropsExactly (f.freed s params) s s' ↔ (Act.free f params).Right s) := by
  obtain ⟨a', args, hi, hrun, hcase⟩ := free_spec h hb f params
  obtain ⟨t', ht', hR⟩ := TProg.run_rep (f.handler s.lib params) h.rep (by omega)
  rw [hrun] at ht' hR
  refine ⟨_, by simp only [Act.step, ht']; rfl, ?_⟩
  rw [allFiled_iff h]
  have hget : ∀ id p, p ≠ 0 → (arpcHandleGet t' id .pkg = some p ↔ a'.Has id p .pkg) :=
    fun id p hp => by rw [hR.get, Option.some_inj, Reg.get_eq_iff hR.wf hp]
  have hiff : DropsExactly (f.freed s params) s
      { table := t', lib := s.lib.without (f.freed s params) } ↔
      ∀ id p, p ≠ 0 → (a'.Has id p .pkg ↔ a.Has id p .pkg ∧ ¬s.lib.Of (f.freed s params) p) := by
    refine forall_congr' fun id => forall_congr' fun p => imp_congr_right fun hp => ?_
    rw [hget id p hp, h.get_pkg hp]
  refine hiff.trans ?_
  rcases hcase with ⟨he, hd⟩ | ⟨he, rfl⟩
  · rw [he, ← hd.exact_iff h.filed hf]
    refine ⟨fun hx sl hs ht => ?_, fun hx id p hp => ⟨fun ⟨sl, hs, hid, hsp, ht⟩ => ?_,
      fun ⟨⟨sl, hs, hid, hsp, ht⟩, hof⟩ => ?_⟩⟩
    · have := hx sl.id sl.ptr (h.rep.wf.ptr_ne sl hs)
      rw [and_iff_right ⟨sl, hs, rfl, rfl, ht⟩] at this
      rw [← this]
      refine ⟨fun hs' => ⟨sl, hs', rfl, rfl, ht⟩, fun ⟨sl', hs', hid, _⟩ => ?_⟩
      rwa [← h.rep.wf.id_inj (hd.sub sl' hs') hs hid]
    · have hs' := hd.sub sl hs
      exact ⟨⟨sl, hs', hid, hsp, ht⟩, hsp ▸ (hx sl hs' ht).1 hs⟩
    · exact ⟨sl, (hx sl hs ht).2 (hsp.symm ▸ hof), hid, hsp, ht⟩
  · rw [he]
    have hof : ∀ p, ¬s.lib.Of [] p := by
      rintro p ⟨d, hd, -⟩
      cases hd
    simp [hof, AllFiled]

end

/-- **A freed package's id goes, and no other.** After every run in which each hand-out names no db
but a package's own (or the package's db is already known) and each freeing call finds the packages
it frees filed under a db, a freeing call stops exactly the ids of the packages it frees from
resolving if and only if each of those packages is filed under a db. -/
theorem freed_ids_drop_iff (as : List Act) (hb : (as.map Act.puts).sum < 2 ^ 40)
    (hl : Each Act.LibOk as {}) (hr : Each Act.Right as {}) :
    ∃ s, runActs {} as = some s ∧ ∀ f params, f.Frees →
      ∃ s', (Act.free f params).step s = some s' ∧
        (DropsExactly (f.freed s params) s s' ↔ (Act.free f params).Right s) := by
  have hb' : ({} : Reg).nextSeq + (as.map Act.puts).sum ≤ 2 ^ 40 := by
    rw [show ({} : Reg).nextSeq = 1 from rfl]
    omega
  obtain ⟨s, a, hs, h, hn⟩ := Filing.empty.run hb' hl hr
  exact ⟨s, hs, fun f params hf => h.free_exact_iff hn hf params⟩

theorem step_alpmInitialize_lib {s s' : State} {p : Nat}
    (h : (Act.alpmInitialize p).step s = some s') : s'.lib = s.lib := by
  obtain ⟨r, -, hr⟩ := Option.bind_eq_some_iff.1 h
  injection hr with hr
  rw [← hr]

theorem step_handOut_lib {s s' : State} {fn : Fn} {objs : List Nat} {params : Option Tree}
    (h : (Act.handOut fn objs params).step s = some s') : s'.lib = s.lib := by
  obtain ⟨r, -, hr⟩ := Option.bind_eq_some_iff.1 h
  injection hr with hr
  rw [← hr]

/-- A handle with two sync dbs, the second with one package, handed out by `fn`. -/
def handOutOne (fn : Fn) (params : Tree) : List Act :=
  [.load { pkgDb := fun p => if p = 30 then some (some 22) else none },
    .alpmInitialize 10,
    .handOut alpmGetSyncdbs [21, 22] (some (.arr [.num (2 ^ 40 + 1)])),
    .handOut fn [30] (some params)]

theorem handOutOne_libOk {fn : Fn} {params : Tree}
    (h : (ownerExpr fn).start (some params) ≠ 0) : Each Act.LibOk (handOutOne fn params) {} := by
  refine ⟨fun id p hp hg => ?_, fun s1 h1 => ⟨trivial, fun s2 h2 => ⟨?_, fun s3 h3 => ⟨?_, ?_⟩⟩⟩⟩
  · rw [Rep.empty.get] at hg
    injection hg with hg
    exact absurd hg.symm hp
  · refine ⟨fun ht => (by cases ht), fun h0 => absurd h0 (by decide)⟩
  · have hlib : s3.lib = s1.lib := (step_handOut_lib h3).trans (step_alpmInitialize_lib h2)
    injection h1 with h1
    refine ⟨fun _ p hp _ => ?_, fun h0 => absurd h0 h⟩
    rw [List.mem_singleton.1 hp, hlib, ← h1]
    simp
  · exact fun _ _ => trivial

def dbPkgParams : Tree := .arr [.num (2 ^ 40 + 3), .str (lit "base")]

theorem freed_ids_drop_iff_dbGetPkg :
    Each Act.LibOk (handOutOne alpmDbGetPkg dbPkgParams) {} ∧
      Each Act.Right (handOutOne alpmDbGetPkg dbPkgParams) {} ∧
      ∃ s, runActs {} (handOutOne alpmDbGetPkg dbPkgParams) = some s ∧ ∀ f params, f.Frees →
        ∃ s', (Act.free f params).step s = some s' ∧
          (DropsExactly (f.freed s params) s s' ↔ (Act.free f params).Right s) := by
  have hl : Each Act.LibOk (handOutOne alpmDbGetPkg dbPkgParams) {} :=
    handOutOne_libOk (by decide)
  have hr : Each Act.Right (handOutOne alpmDbGetPkg dbPkgParams) {} := by
    refine ⟨trivial, fun s1 h1 => ⟨trivial, fun s2 h2 =>
      ⟨fun ht => (by cases ht), fun s3 h3 => ⟨?_, ?_⟩⟩⟩⟩
    · have hrun : runActs {} ((handOutOne alpmDbGetPkg dbPkgParams).take 3) = some s3 := by
        rw [handOutOne, runActs]
        simp only [List.take_succ_cons, List.take_zero, List.foldlM_cons, List.foldlM_nil, h1, h2,
          h3, Option.bind_eq_bind, Option.bind_some]
        rfl
      have hown : (runActs {} ((handOutOne alpmDbGetPkg dbPkgParams).take 3)).map (fun s =>
          s.lib.pkgDb 30 == some (some (namedDb s.table alpmDbGetPkg (some dbPkgParams)))) =
            some true := by
        decide +kernel
      rw [hrun, Option.map_some, Option.some_inj, beq_iff_eq] at hown
      intro _ _ p hp _
      rw [List.mem_singleton.1 hp]
      exact .inl hown
    · exact fun _ _ => trivial
  exact ⟨hl, hr, freed_ids_drop_iff _ (by decide) hl hr⟩

def groupParams : Tree := .arr [.arr [.num (2 ^ 40 + 2), .num (2 ^ 40 + 3)], .str (lit "base")]

def updateParams : Tree := .arr [.num (2 ^ 40 + 1), .arr [.num (2 ^ 40 + 3)], .num 0]

/-- A package of the second db of a list, handed out by `alpm_find_group_pkgs`, is filed under the
first; `alpm_db_update` of the second frees it and its id goes on resolving. -/
theorem group_pkg_outlives_db :
    ¬∀ as s f params s', (as.map Act.puts).sum < 2 ^ 40 → Each Act.LibOk as {} →
      runActs {} as = some s → f.Frees → (Act.free f params).step s = some s' →
        DropsExactly (f.freed s params) s s' := by
  intro hall
  have hrun : (do
      let s ← runActs {} (handOutOne alpmFindGroupPkgs groupParams)
      let s' ← (Act.free (.dbUpdate 0) (some updateParams)).step s
      return (arpcHandleGet s'.table (2 ^ 40 + 4) .pkg,
        Freeing.freed (.dbUpdate 0) s (some updateParams), s.lib.pkgDb 30)) =
      some (some 30, [22], some (some 22)) := by
    decide +kernel
  obtain ⟨s, hs, hrun⟩ := Option.bind_eq_some_iff.1 hrun
  obtain ⟨s', hs', hrun⟩ := Option.bind_eq_some_iff.1 hrun
  simp only [Option.pure_def, Option.some.injEq, Prod.mk.injEq] at hrun
  obtain ⟨hget, hfreed, hdb⟩ := hrun
  have hx := hall _ s (.dbUpdate 0) (some updateParams) s' (by decide)
    (handOutOne_libOk (by decide)) hs (by simp [Freeing.Frees]) hs'
  rw [hfreed] at hx
  exact ((hx _ 30 (by simp)).1 hget).2 ⟨22, by simp, hdb⟩

end Server
