import AlpmRpc.Server.Proof.TableRun

/-!
# The tree of owners

`Shape` is the invariant of a table that holds handles, dbs under handles, and packages under dbs or
handles. In such a table `under` is decided by a slot's own owner (`under_db_iff`,
`under_pkg_iff`), a put moves a slot only from a handle to one of its dbs (`Shape.put_cases`), and
`arpc_ancestor` finds the place above an argument (`Shape.ancestor`).
-/

set_option autoImplicit false

namespace Server

open Wire

/-- A slot of tag `tag` may have the owner `o`. -/
def Reg.Places (a : Reg) (o : Nat) : HandleTag → Prop
  | .handle => o = 0
  | .db => ∃ x ∈ a.live, x.id = o ∧ x.tag = .handle
  | .pkg => ∃ x ∈ a.live, x.id = o ∧ (x.tag = .handle ∨ x.tag = .db)
  | _ => False

/-- Every slot is filed where its tag says. -/
structure Shape (a : Reg) : Prop where
  wf : a.Wf
  placed : ∀ s ∈ a.live, a.Places s.owner s.tag

theorem Shape.empty : Shape {} := ⟨Reg.Wf.empty, by simp⟩

/-! ## Chains -/

section
variable {a : Reg} {o : Nat}

theorem underLoop_zero (n : Nat) : a.underLoop o n 0 = false := by
  cases n <;> rfl

theorem underLoop_slot (h : a.Wf) {s : Slot} (hs : s ∈ a.live) (n : Nat) :
    a.underLoop o (n + 1) s.id = true ↔ s.id = o ∨ a.underLoop o n s.owner = true := by
  have hown : a.ownerOf s.id = s.owner := by
    rw [Reg.ownerOf, (Reg.find_eq_some h).2 ⟨hs, rfl⟩]
    rfl
  rw [Reg.underLoop, if_neg (h.id_ne s hs), hown]
  by_cases he : s.id = o
  · simp [he]
  · simp [he]

/-- What is filed under a handle's id, reached from the handle. -/
theorem underLoop_handle (h : Shape a) {s : Slot} (hs : s ∈ a.live) (ht : s.tag = .handle)
    (n : Nat) : a.underLoop o (n + 1) s.id = true ↔ s.id = o := by
  have hp := h.placed s hs
  rw [ht] at hp
  rw [underLoop_slot h.wf hs, show s.owner = 0 from hp, underLoop_zero]
  simp

theorem underLoop_db (h : Shape a) {s : Slot} (hs : s ∈ a.live) (ht : s.tag = .db) (n : Nat) :
    a.underLoop o (n + 2) s.id = true ↔ s.id = o ∨ s.owner = o := by
  have hp := h.placed s hs
  rw [ht] at hp
  obtain ⟨x, hx, hxo, hxt⟩ := hp
  rw [underLoop_slot h.wf hs, ← hxo, underLoop_handle h hx hxt]

theorem underLoop_pkg (h : Shape a) {s x : Slot} (hs : s ∈ a.live) (hx : x ∈ a.live)
    (hxo : x.id = s.owner) (ht : x.tag = .handle ∨ x.tag = .db) (n : Nat) :
    a.underLoop o (n + 3) s.id = true ↔ s.id = o ∨ s.owner = o ∨ (x.tag = .db ∧ x.owner = o) := by
  rw [underLoop_slot h.wf hs, ← hxo]
  rcases ht with hxt | hxt
  · rw [underLoop_handle h hx hxt, hxt]
    simp
  · rw [underLoop_db h hx hxt, hxt]
    simp

/-- Nothing but a handle or a db is an owner. -/
theorem Shape.owner_tag (h : Shape a) {s x : Slot} (hs : s ∈ a.live) (hx : x ∈ a.live)
    (hxo : x.id = s.owner) : x.tag = .handle ∨ x.tag = .db := by
  have hp := h.placed s hs
  cases ht : s.tag with
  | handle =>
    rw [ht] at hp
    exact absurd (hxo.trans hp) (h.wf.id_ne x hx)
  | db =>
    rw [ht] at hp
    obtain ⟨y, hy, hyo, hyt⟩ := hp
    rw [h.wf.id_inj hx hy (hxo.trans hyo.symm)]
    exact .inl hyt
  | pkg =>
    rw [ht] at hp
    obtain ⟨y, hy, hyo, hyt⟩ := hp
    rw [h.wf.id_inj hx hy (hxo.trans hyo.symm)]
    exact hyt
  | none => rw [ht] at hp; exact hp.elim
  | changelog => rw [ht] at hp; exact hp.elim

/-- Only a package is filed under a db. -/
theorem Shape.owner_db (h : Shape a) {s x : Slot} (hs : s ∈ a.live) (hx : x ∈ a.live)
    (hxo : x.id = s.owner) (hxt : x.tag = .db) : s.tag = .pkg := by
  have hp := h.placed s hs
  cases ht : s.tag with
  | handle =>
    rw [ht] at hp
    exact absurd (hxo.trans hp) (h.wf.id_ne x hx)
  | db =>
    rw [ht] at hp
    obtain ⟨y, hy, hyo, hyt⟩ := hp
    rw [h.wf.id_inj hx hy (hxo.trans hyo.symm), hyt] at hxt
    cases hxt
  | pkg => rfl
  | none => rw [ht] at hp; exact hp.elim
  | changelog => rw [ht] at hp; exact hp.elim

/-- `under` a db or a package: the slot itself, or one whose owner it is. -/
theorem Shape.under_iff (h : Shape a) {s b : Slot} (hs : s ∈ a.live) (hb : b ∈ a.live)
    (hbt : b.tag ≠ .handle) : a.under s.id b.id = true ↔ s.id = b.id ∨ s.owner = b.id := by
  have hp := h.placed s hs
  cases ht : s.tag with
  | handle =>
    rw [ht] at hp
    rw [Reg.under, underLoop_handle h hs ht, show s.owner = 0 from hp]
    have := h.wf.id_ne b hb
    omega
  | db => rw [Reg.under, underLoop_db h hs ht]
  | pkg =>
    rw [ht] at hp
    obtain ⟨x, hx, hxo, hxt⟩ := hp
    rw [Reg.under, underLoop_pkg h hs hx hxo hxt]
    have hno : ¬(x.tag = .db ∧ x.owner = b.id) := by
      rintro ⟨hxd, hxb⟩
      -- a db's owner is a handle
      have hpx := h.placed x hx
      rw [hxd] at hpx
      obtain ⟨y, hy, hyo, hyt⟩ := hpx
      rw [h.wf.id_inj hb hy (hxb.symm.trans hyo.symm)] at hbt
      exact hbt hyt
    simp [hno]
  | none => rw [ht] at hp; exact hp.elim
  | changelog => rw [ht] at hp; exact hp.elim

/-! ## Ancestors -/

theorem ancestorLoop_slot (h : a.Wf) {s : Slot} (hs : s ∈ a.live) (tag : HandleTag) (n top : Nat) :
    a.ancestorLoop tag (n + 1) s.id top =
      if tag ≠ .none ∧ s.tag = tag then s.id else a.ancestorLoop tag n s.owner s.id := by
  rw [Reg.ancestorLoop, if_neg (h.id_ne s hs), (Reg.find_eq_some h).2 ⟨hs, rfl⟩]

theorem ancestorLoop_zero (tag : HandleTag) (n top : Nat) :
    a.ancestorLoop tag n 0 top = top := by
  cases n <;> rfl

/-- From a slot, `arpc_ancestor` to the level of a parent tag ends where an object of that kind may
be filed. -/
theorem Shape.ancestor (h : Shape a) {s : Slot} (hs : s ∈ a.live) {tag level : HandleTag}
    (hl : (tag = .pkg ∧ level = .db) ∨ (tag = .db ∧ level = .handle)) :
    a.Places (a.ancestor s.id level) tag := by
  have hne : level ≠ .none := by
    rcases hl with ⟨-, rfl⟩ | ⟨-, rfl⟩ <;> simp
  -- a handle is found, or is where the walk ends
  have hhandle : ∀ x ∈ a.live, x.tag = .handle → ∀ n top,
      a.ancestorLoop level (n + 1) x.id top = x.id := by
    intro x hx hxt n top
    have hp := h.placed x hx
    rw [hxt] at hp
    rw [ancestorLoop_slot h.wf hx, show x.owner = 0 from hp, ancestorLoop_zero, ite_self]
  have hdb : ∀ x ∈ a.live, x.tag = .db → ∀ n top,
      a.Places (a.ancestorLoop level (n + 2) x.id top) tag := by
    intro x hx hxt n top
    rw [ancestorLoop_slot h.wf hx]
    rcases hl with ⟨rfl, rfl⟩ | ⟨rfl, rfl⟩
    · rw [if_pos ⟨hne, hxt⟩]
      exact ⟨x, hx, rfl, .inr hxt⟩
    · have hp := h.placed x hx
      rw [hxt] at hp
      obtain ⟨y, hy, hyo, hyt⟩ := hp
      rw [if_neg (by simp [hxt]), ← hyo, hhandle y hy hyt]
      exact ⟨y, hy, rfl, hyt⟩
  have hfiled : ∀ x ∈ a.live, x.tag = .handle → a.Places x.id tag := by
    intro x hx hxt
    rcases hl with ⟨rfl, -⟩ | ⟨rfl, -⟩
    · exact ⟨x, hx, rfl, .inl hxt⟩
    · exact ⟨x, hx, rfl, hxt⟩
  have hp := h.placed s hs
  unfold Reg.ancestor
  cases ht : s.tag with
  | handle => rw [hhandle s hs ht]; exact hfiled s hs ht
  | db => exact hdb s hs ht 6 _
  | pkg =>
    rw [ht] at hp
    obtain ⟨x, hx, hxo, hxt⟩ := hp
    rw [ancestorLoop_slot h.wf hs, if_neg (by rcases hl with ⟨-, rfl⟩ | ⟨-, rfl⟩ <;> simp [ht]),
      ← hxo]
    rcases hxt with hxt | hxt
    · rw [hhandle x hx hxt]
      exact hfiled x hx hxt
    · exact hdb x hx hxt 5 _
  | none => rw [ht] at hp; exact hp.elim
  | changelog => rw [ht] at hp; exact hp.elim

end

/-! ## Puts -/

section
variable {a : Reg} {p o : Nat} {tag : HandleTag}

theorem Reg.put_live (h : a.Wf) {s : Slot} (hs : s ∈ a.live) (o : Nat) :
    (a.put s.ptr s.tag o).1 =
      if o ≠ 0 ∧ o ≠ s.owner ∧ a.under o s.owner = true then
        a.modify s.id fun s => { s with owner := o } else a := by
  rw [Reg.put, if_neg (h.ptr_ne s hs), (Reg.findPtr_eq_some h).2 ⟨hs, rfl, rfl⟩]
  dsimp only
  split <;> rfl

/-- **What a put does**: nothing, or it moves a package from a handle to a db, or it adds a slot. -/
theorem Shape.put_cases (h : Shape a) (hp : p ≠ 0) (ho : a.Places o tag)
    (hb : a.nextSeq < 2 ^ 40) :
    ((a.put p tag o).1 = a ∧ ∃ s ∈ a.live, s.ptr = p ∧ s.tag = tag) ∨
    (tag = .pkg ∧ ∃ s ∈ a.live, s.ptr = p ∧ s.tag = .pkg ∧
      (∃ x ∈ a.live, x.id = s.owner ∧ x.tag = .handle) ∧
      (∃ b ∈ a.live, b.id = o ∧ b.tag = .db) ∧
      (a.put p tag o).1 = a.modify s.id fun s => { s with owner := o }) ∨
    ((∀ s ∈ a.live, ¬(s.ptr = p ∧ s.tag = tag)) ∧ ∃ id nextRoot, (∀ s ∈ a.live, s.id ≠ id) ∧
      (a.put p tag o).1 = { a with
        live := a.live ++ [{ id, ptr := p, owner := o, tag, release := 0 }]
        nextSeq := (a.nextSeq + 1) % 2 ^ 64, nextRoot }) := by
  rcases Reg.put_cases tag h.wf hp o with ⟨s, hs, rfl, rfl, -, -⟩ | ⟨hno, root, nr, -, he⟩
  · rw [Reg.put_live h.wf hs]
    split
    · rename_i hc
      obtain ⟨hne, hno, hu⟩ := hc
      have hps := h.placed s hs
      cases ht : s.tag with
      | handle => rw [ht] at ho; exact absurd ho hne
      | db =>
        rw [ht] at ho hps
        obtain ⟨y, hy, rfl, hyt⟩ := ho
        exact absurd ((underLoop_handle h hy hyt 7).1 hu) hno
      | pkg =>
        rw [ht] at ho hps
        obtain ⟨y, hy, rfl, hyt⟩ := ho
        obtain ⟨x, hx, hxo, hxt⟩ := hps
        rcases hyt with hyt | hyt
        · exact absurd ((underLoop_handle h hy hyt 7).1 hu) hno
        · refine .inr (.inl ⟨rfl, s, hs, rfl, ht, ⟨x, hx, hxo, ?_⟩, ⟨y, hy, rfl, hyt⟩, rfl⟩)
          rcases (underLoop_db h hy hyt 6).1 hu with hys | hys
          · exact absurd hys hno
          · have hpy := h.placed y hy
            rw [hyt] at hpy
            obtain ⟨z, hz, hzo, hzt⟩ := hpy
            rw [h.wf.id_inj hx hz (hxo.trans (hys.symm.trans hzo.symm))]
            exact hzt
      | none => rw [ht] at hps; exact hps.elim
      | changelog => rw [ht] at hps; exact hps.elim
    · exact .inl ⟨rfl, s, hs, rfl, rfl⟩
  · refine .inr (.inr ⟨hno, mkId root a.nextSeq, nr, fun s hs hid => ?_, he⟩)
    have := h.wf.seq s hs
    rw [hid, mkId_mod hb] at this
    exact absurd this (Nat.lt_irrefl _)

theorem Reg.Places.mono {a' : Reg} (hk : ∀ x ∈ a.live, x.tag ≠ .pkg → x ∈ a'.live)
    (hp : a.Places o tag) : a'.Places o tag := by
  cases tag with
  | handle => exact hp
  | db =>
    obtain ⟨x, hx, hxo, hxt⟩ := hp
    exact ⟨x, hk x hx (by simp [hxt]), hxo, hxt⟩
  | pkg =>
    obtain ⟨x, hx, hxo, hxt⟩ := hp
    exact ⟨x, hk x hx (by rcases hxt with hxt | hxt <;> simp [hxt]), hxo, hxt⟩
  | none => exact hp
  | changelog => exact hp

/-- A put leaves the handles and the dbs that were there. -/
theorem Shape.put_keeps (h : Shape a) (hp : p ≠ 0) (ho : a.Places o tag) (hb : a.nextSeq < 2 ^ 40) :
    ∀ x ∈ a.live, x.tag ≠ .pkg → x ∈ (a.put p tag o).1.live := by
  intro x hx hxt
  rcases h.put_cases hp ho hb with ⟨he, -⟩ | ⟨-, s, hs, -, hst, -, -, he⟩ | ⟨-, id, nr, -, he⟩
  · rw [he]; exact hx
  · rw [he, Reg.modify_live]
    refine List.mem_map.2 ⟨x, hx, if_neg fun hid => hxt ?_⟩
    rw [h.wf.id_inj hx hs hid, hst]
  · rw [he]; exact List.mem_append_left _ hx

theorem Shape.put (h : Shape a) (ho : a.Places o tag) (hb : a.nextSeq < 2 ^ 40) :
    Shape (a.put p tag o).1 := by
  by_cases hp : p = 0
  · rw [Reg.put, if_pos hp]; exact h
  have hk := h.put_keeps hp ho hb
  rcases h.put_cases hp ho hb with ⟨he, -⟩ | ⟨rfl, s, hs, -, hst, -, -, he⟩ | ⟨hno, id, nr, hid, he⟩
  · rw [he]; exact h
  · rw [he] at hk ⊢
    refine ⟨h.wf.modify _ (fun _ => rfl) (fun _ => rfl) fun _ => rfl, fun x' hx' => ?_⟩
    obtain ⟨x, hx, rfl⟩ := List.mem_map.1 hx'
    split
    · rename_i hxs
      rw [h.wf.id_inj hx hs hxs]
      dsimp only
      rw [hst]
      exact ho.mono hk
    · exact (h.placed x hx).mono hk
  · rcases Reg.put_cases tag h.wf hp o with ⟨s, hs, hsp, hst, -⟩ | ⟨-, root, nr', -, he'⟩
    · exact absurd ⟨hsp, hst⟩ (hno s hs)
    · have hwf : (a.put p tag o).1.Wf := by rw [he']; exact h.wf.append o root nr' hp hno hb
      refine ⟨hwf, fun x hx => ?_⟩
      rw [he] at hx
      rcases List.mem_append.1 hx with hx | hx
      · exact (h.placed x hx).mono hk
      · rw [List.mem_singleton.1 hx]
        exact ho.mono hk

end

/-! ## Drops -/

section
variable {a : Reg}

/-- Keeping the slots `keep` accepts, when it accepts the owner of each slot it accepts. -/
theorem Shape.filter (h : Shape a) {keep : Slot → Bool}
    (hk : ∀ s ∈ a.live, keep s = true → ∀ x ∈ a.live, x.id = s.owner → keep x = true) :
    Shape (a.filter keep) := by
  refine ⟨h.wf.filter keep, fun s hs => ?_⟩
  obtain ⟨hs, hks⟩ := Reg.mem_filter.1 hs
  have hp := h.placed s hs
  cases ht : s.tag with
  | handle => rw [ht] at hp; exact hp
  | db =>
    rw [ht] at hp
    obtain ⟨x, hx, hxo, hxt⟩ := hp
    exact ⟨x, Reg.mem_filter.2 ⟨hx, hk s hs hks x hx hxo⟩, hxo, hxt⟩
  | pkg =>
    rw [ht] at hp
    obtain ⟨x, hx, hxo, hxt⟩ := hp
    exact ⟨x, Reg.mem_filter.2 ⟨hx, hk s hs hks x hx hxo⟩, hxo, hxt⟩
  | none => rw [ht] at hp; exact hp
  | changelog => rw [ht] at hp; exact hp

theorem Shape.mem_dropOwner (h : Shape a) {b : Slot} (hb : b ∈ a.live) (hbt : b.tag ≠ .handle)
    {s : Slot} : s ∈ (a.dropOwner b.id).live ↔ s ∈ a.live ∧ s.id ≠ b.id ∧ s.owner ≠ b.id := by
  rw [Reg.dropOwner, if_neg (h.wf.id_ne b hb), Reg.mem_filter]
  refine and_congr_right fun hs => ?_
  have hu := h.under_iff hs hb hbt
  cases hx : a.under s.id b.id with
  | true =>
    rw [hx] at hu
    rcases hu.1 rfl with he | he <;> simp [he]
  | false =>
    rw [hx] at hu
    simp only [Bool.not_false, true_iff]
    refine ⟨fun he => ?_, fun he => ?_⟩
    · exact absurd (hu.2 (.inl he)) (by simp)
    · exact absurd (hu.2 (.inr he)) (by simp)

theorem Shape.dropOwner (h : Shape a) {b : Slot} (hb : b ∈ a.live) (hbt : b.tag ≠ .handle) :
    Shape (a.dropOwner b.id) := by
  have hm := fun s : Slot => h.mem_dropOwner hb hbt (s := s)
  simp only [Reg.dropOwner, if_neg (h.wf.id_ne b hb), Reg.mem_filter] at hm ⊢
  refine h.filter fun s hs hks x hx hxo => ?_
  have hs' := (hm s).1 ⟨hs, hks⟩
  refine ((hm x).2 ⟨hx, fun he => hs'.2.2 (hxo.symm.trans he), fun he => ?_⟩).2
  -- an owner that is owned by a db or a package would be a package
  have hbx : b.tag = .db := (h.owner_tag hx hb he.symm).resolve_left hbt
  have hxp := h.owner_db hx hb he.symm hbx
  rcases h.owner_tag hs hx hxo with ht | ht <;> rw [hxp] at ht <;> cases ht

theorem Shape.mem_dropUnder (h : Shape a) {b : Slot} (hb : b ∈ a.live) (hbt : b.tag = .db)
    {s : Slot} : s ∈ (a.dropUnder b.id).live ↔ s ∈ a.live ∧ s.owner ≠ b.id := by
  rw [Reg.dropUnder, if_neg (h.wf.id_ne b hb), Reg.mem_filter]
  refine and_congr_right fun hs => ?_
  have hu := h.under_iff hs hb (by simp [hbt])
  by_cases he : s.id = b.id
  · simp only [he, decide_true, Bool.true_or, true_iff]
    intro ho
    have hsp := h.owner_db hs hb ho.symm hbt
    rw [h.wf.id_inj hs hb he, hbt] at hsp
    cases hsp
  · simp only [he, decide_false, Bool.false_or, false_or] at hu ⊢
    rw [Bool.not_eq_true', ← Bool.not_eq_true, hu]

theorem Shape.dropUnder (h : Shape a) {b : Slot} (hb : b ∈ a.live) (hbt : b.tag = .db) :
    Shape (a.dropUnder b.id) := by
  have hm := fun s : Slot => h.mem_dropUnder hb hbt (s := s)
  simp only [Reg.dropUnder, if_neg (h.wf.id_ne b hb), Reg.mem_filter] at hm ⊢
  refine h.filter fun s hs hks x hx hxo => ?_
  refine ((hm x).2 ⟨hx, fun he => ?_⟩).2
  have hxp := h.owner_db hx hb he.symm hbt
  rcases h.owner_tag hs hx hxo with ht | ht <;> rw [hxp] at ht <;> cases ht

end

end Server
