import AlpmRpc.Client.Columns
import AlpmRpc.Lib.Keyed

/-!
# Groups of packages

`Groups.Wf` is the invariant of the groups: every slot is in its group, at its place, no package has
two slots, and the packages of a group are of one root.
-/

set_option autoImplicit false

namespace Client

open Wire Json

namespace Groups

variable {s : Groups}

/-- Every slot is in its group, at its place; a group's packages are of one root. -/
structure Wf (s : Groups) : Prop where
  slots : ∀ p ∈ s.slots, ∃ g ∈ s.groups, g.num = p.g ∧ g.ids[p.slot]? = some p.id
  slotIds : (s.slots.map (·.id)).Nodup
  nums : (s.groups.map (·.num)).Nodup
  num_lt : ∀ g ∈ s.groups, g.num < s.nextGroup
  ids_ne : ∀ g ∈ s.groups, g.ids ≠ []
  roots : ∀ g ∈ s.groups, ∀ id ∈ g.ids, ∀ id' ∈ g.ids, arpcRoot id = arpcRoot id'

theorem Wf.empty : Wf {} := by
  constructor <;> simp

/-- What `place` adds: a slot at its place for each member that had none. -/
theorem place_spec (g : Nat) (ids : List Nat) (i : Nat) (slots : List PkgSlot)
    (h : (slots.map (·.id)).Nodup) :
    ∃ new, place g ids i slots = slots ++ new ∧ ((slots ++ new).map (·.id)).Nodup ∧
      (∀ p ∈ new, p.g = g ∧ i ≤ p.slot ∧ ids[p.slot - i]? = some p.id) ∧
      ∀ id ∈ ids, id ∈ (slots ++ new).map (·.id) := by
  induction ids generalizing i slots with
  | nil => exact ⟨[], by simp [place], by simpa using h, by simp, by simp⟩
  | cons id ids ih =>
    rw [place]
    by_cases hm : slots.any (·.id = id) = true
    · rw [if_pos hm]
      obtain ⟨new, hp, hn, hs, hall⟩ := ih (i + 1) slots h
      refine ⟨new, hp, hn, fun p hp => ?_, fun x hx => ?_⟩
      · obtain ⟨hg, hi, hx⟩ := hs p hp
        refine ⟨hg, by omega, ?_⟩
        rw [show p.slot - i = p.slot - (i + 1) + 1 by omega]
        exact hx
      · rcases List.mem_cons.1 hx with rfl | hx
        · obtain ⟨p, hp, he⟩ := List.any_eq_true.1 hm
          exact List.mem_map.2 ⟨p, List.mem_append_left _ hp, by simpa using he⟩
        · exact hall x hx
    · rw [if_neg hm]
      have hnew : id ∉ slots.map (·.id) := by
        intro hx
        obtain ⟨p, hp, he⟩ := List.mem_map.1 hx
        exact hm (List.any_eq_true.2 ⟨p, hp, by simpa using he⟩)
      have hnd : ((slots ++ [PkgSlot.mk id g i]).map (·.id)).Nodup := by
        rw [List.map_append]
        exact List.Nodup.append h (by simp) (by simpa using hnew)
      obtain ⟨new, hp, hn, hs, hall⟩ := ih (i + 1) _ hnd
      refine ⟨⟨id, g, i⟩ :: new, by rw [hp]; simp, by simpa using hn, fun p hp => ?_,
        fun x hx => ?_⟩
      · rcases List.mem_cons.1 hp with rfl | hp
        · exact ⟨rfl, Nat.le_refl _, by simp⟩
        · obtain ⟨hg, hi, hx⟩ := hs p hp
          refine ⟨hg, by omega, ?_⟩
          rw [show p.slot - i = p.slot - (i + 1) + 1 by omega]
          exact hx
      · rcases List.mem_cons.1 hx with rfl | hx
        · simp
        · simpa using hall x hx

/-- A new group keeps them. -/
theorem Wf.groupNew (h : s.Wf) {ids : List Nat} (hne : ids ≠ [])
    (hr : ∀ id ∈ ids, ∀ id' ∈ ids, arpcRoot id = arpcRoot id') : (s.groupNew ids).1.Wf := by
  obtain ⟨new, hp, hn, hs, -⟩ := place_spec s.nextGroup ids 0 s.slots h.slotIds
  unfold Groups.groupNew
  dsimp only
  split
  · exact h
  · rw [hp]
    refine ⟨fun p hm => ?_, hn, ?_, ?_, ?_, ?_⟩
    · rcases List.mem_append.1 hm with hm | hm
      · obtain ⟨g, hg, hpg⟩ := h.slots p hm
        exact ⟨g, List.mem_cons_of_mem _ hg, hpg⟩
      · obtain ⟨hg, -, hx⟩ := hs p hm
        exact ⟨_, List.mem_cons_self, hg.symm, hx⟩
    · refine List.nodup_cons.2 ⟨fun hm => ?_, h.nums⟩
      obtain ⟨g, hg, he⟩ := List.mem_map.1 hm
      have hlt := h.num_lt g hg
      rw [he] at hlt
      exact absurd hlt (Nat.lt_irrefl _)
    · intro g hg
      rcases List.mem_cons.1 hg with rfl | hg
      · exact Nat.lt_succ_self _
      · exact Nat.lt_succ_of_lt (h.num_lt g hg)
    · intro g hg
      rcases List.mem_cons.1 hg with rfl | hg
      · exact hne
      · exact h.ids_ne g hg
    · intro g hg
      rcases List.mem_cons.1 hg with rfl | hg
      · exact hr
      · exact h.roots g hg

theorem Wf.register (h : s.Wf) {ids : List Nat}
    (hr : ∀ id ∈ ids, ∀ id' ∈ ids, arpcRoot id = arpcRoot id') :
    (s.arpcPkgGroupRegister ids).Wf := by
  unfold arpcPkgGroupRegister
  split
  · exact h
  · rename_i hne
    exact h.groupNew hne hr

theorem Wf.groupForPkg (h : s.Wf) (id : Nat) : (s.groupForPkg id).1.Wf := by
  unfold Groups.groupForPkg
  cases s.findSlot id with
  | some p => exact h
  | none => exact h.groupNew (by simp) (by simp)

/-- The root of a group is that of each of its packages. -/
theorem Wf.groupRoot_eq (h : s.Wf) {g : PkgGroup} (hg : g ∈ s.groups) {id : Nat}
    (hid : id ∈ g.ids) : groupRoot g = some (arpcRoot id) := by
  unfold groupRoot
  cases hids : g.ids with
  | nil => exact absurd hids (h.ids_ne g hg)
  | cons x xs =>
    rw [List.head?_cons, Option.map_some]
    rw [h.roots g hg x (by rw [hids]; simp) id hid]

theorem Wf.freeGroupsOf (h : s.Wf) (root : Nat) : (s.freeGroupsOf root).Wf where
  slots p hp := by
    obtain ⟨hp, hr⟩ := List.mem_filter.1 hp
    obtain ⟨g, hg, hpg, hx⟩ := h.slots p hp
    refine ⟨g, List.mem_filter.2 ⟨hg, ?_⟩, hpg, hx⟩
    rw [h.groupRoot_eq hg (List.mem_of_getElem? hx)]
    simpa using hr
  slotIds := h.slotIds.sublist (List.filter_sublist.map _)
  nums := h.nums.sublist (List.filter_sublist.map _)
  num_lt g hg := h.num_lt g (List.mem_filter.1 hg).1
  ids_ne g hg := h.ids_ne g (List.mem_filter.1 hg).1
  roots g hg := h.roots g (List.mem_filter.1 hg).1

/-! ## Following pointers -/

theorem Wf.deref_eq (h : s.Wf) {g : PkgGroup} (hg : g ∈ s.groups) : s.deref g.num = some g :=
  Keyed.find?_mem h.nums hg

theorem mem_of_deref {g : Nat} {x : PkgGroup} (h : s.deref g = some x) : x ∈ s.groups ∧ x.num = g :=
  Keyed.of_find? h

theorem findSlot_some {id : Nat} {p : PkgSlot} (h : s.findSlot id = some p) :
    p ∈ s.slots ∧ p.id = id :=
  Keyed.of_find? h

theorem findSlot_none {id : Nat} : s.findSlot id = none ↔ ∀ p ∈ s.slots, p.id ≠ id :=
  Keyed.find?_none_iff

/-- A new group has no columns, and its slots are all it adds. -/
theorem Wf.groupNew_cases (h : s.Wf) (ids : List Nat) :
    (s.groupNew ids = (s, none) ∧ ∀ id ∈ ids, id ∈ s.slots.map (·.id)) ∨
    ∃ new, s.groupNew ids =
        ({ groups := ⟨s.nextGroup, ids, []⟩ :: s.groups, slots := s.slots ++ new,
           nextGroup := s.nextGroup + 1 }, some s.nextGroup) ∧
      (∀ p ∈ new, p.g = s.nextGroup ∧ ids[p.slot]? = some p.id) ∧
      ∀ id ∈ ids, id ∈ (s.slots ++ new).map (·.id) := by
  obtain ⟨new, hp, -, hs, hall⟩ := place_spec s.nextGroup ids 0 s.slots h.slotIds
  unfold Groups.groupNew
  dsimp only
  rw [hp]
  split
  · rename_i hlen
    have hnew : new = [] := by
      rw [List.length_append] at hlen
      exact List.eq_nil_of_length_eq_zero (by omega)
    refine .inl ⟨rfl, fun id hid => ?_⟩
    have hm := hall id hid
    rwa [hnew, List.append_nil] at hm
  · refine .inr ⟨new, rfl, fun p hm => ?_, hall⟩
    obtain ⟨hg, -, hx⟩ := hs p hm
    exact ⟨hg, hx⟩

/-- New groups without columns, with slots of their own. -/
structure Extends (s s' : Groups) : Prop where
  groups : ∀ x ∈ s'.groups, x ∈ s.groups ∨ s.nextGroup ≤ x.num ∧ x.cols = []
  slots : ∀ p ∈ s'.slots, p ∈ s.slots ∨ s.nextGroup ≤ p.g
  old : ∀ p ∈ s.slots, p ∈ s'.slots
  next : s.nextGroup ≤ s'.nextGroup

theorem Extends.refl (s : Groups) : s.Extends s :=
  ⟨fun _ h => .inl h, fun _ h => .inl h, fun _ h => h, Nat.le_refl _⟩

theorem Wf.groupNew_extends (h : s.Wf) (ids : List Nat) : s.Extends (s.groupNew ids).1 := by
  rcases h.groupNew_cases ids with ⟨he, -⟩ | ⟨new, he, hnew, -⟩
  · rw [he]
    exact .refl s
  · rw [he]
    refine ⟨fun x hx => ?_, fun p hp => ?_, fun p hp => List.mem_append_left _ hp, Nat.le_succ _⟩
    · rcases List.mem_cons.1 hx with rfl | hx
      · exact .inr ⟨Nat.le_refl _, rfl⟩
      · exact .inl hx
    · rcases List.mem_append.1 hp with hp | hp
      · exact .inl hp
      · exact .inr (hnew p hp).1.ge

theorem Wf.register_extends (h : s.Wf) (ids : List Nat) :
    s.Extends (s.arpcPkgGroupRegister ids) := by
  unfold arpcPkgGroupRegister
  split
  · exact .refl s
  · exact h.groupNew_extends ids

/-- A package is asked for through its slot, made when it has none. -/
theorem Wf.groupForPkg_slot (h : s.Wf) (id : Nat) :
    ∃ s' p, s.groupForPkg id = (s', some (p.g, p.slot)) ∧ s'.Wf ∧ s.Extends s' ∧ p ∈ s'.slots ∧
      p.id = id := by
  have hwf := h.groupForPkg id
  unfold Groups.groupForPkg at hwf ⊢
  cases hf : s.findSlot id with
  | some p => exact ⟨s, p, rfl, h, .refl s, findSlot_some hf⟩
  | none =>
    rw [hf] at hwf
    have hext := h.groupNew_extends [id]
    rcases h.groupNew_cases [id] with ⟨-, hall⟩ | ⟨new, he, hnew, hall⟩
    · obtain ⟨q, hq, hqi⟩ := List.mem_map.1 (hall id (List.mem_singleton.2 rfl))
      exact absurd hqi (findSlot_none.1 hf q hq)
    · obtain ⟨p, hp, hpi⟩ := List.mem_map.1 (hall id (List.mem_singleton.2 rfl))
      have hpn : p ∈ new :=
        (List.mem_append.1 hp).resolve_left fun hp => findSlot_none.1 hf p hp hpi
      obtain ⟨hg, hx⟩ := hnew p hpn
      have h0 : p.slot = 0 := by
        by_contra hne
        rw [List.getElem?_eq_none (by simp; omega)] at hx
        cases hx
      refine ⟨_, p, ?_, hwf, hext, by rw [he]; exact hp, hpi⟩
      rw [he, hg, h0]
      rfl

theorem mem_setCols {g : Nat} {cols : List Column} {y : PkgGroup} :
    y ∈ (s.setCols g cols).groups ↔
      ∃ x ∈ s.groups, y = if x.num = g then { x with cols } else x := by
  unfold setCols
  simp only [List.mem_map]
  exact ⟨fun ⟨x, hx, he⟩ => ⟨x, hx, he.symm⟩, fun ⟨x, hx, he⟩ => ⟨x, hx, he.symm⟩⟩

theorem Wf.setCols (h : s.Wf) (g : Nat) (cols : List Column) : (s.setCols g cols).Wf := by
  have hsame : ∀ x : PkgGroup, (if x.num = g then { x with cols } else x).num = x.num ∧
      (if x.num = g then { x with cols } else x).ids = x.ids := by
    intro x
    split <;> exact ⟨rfl, rfl⟩
  refine ⟨fun p hp => ?_, h.slotIds, ?_, ?_, ?_, ?_⟩
  · obtain ⟨x, hx, hpx, hid⟩ := h.slots p hp
    refine ⟨_, mem_setCols.2 ⟨x, hx, rfl⟩, ?_, ?_⟩
    · rw [(hsame x).1]
      exact hpx
    · rw [(hsame x).2]
      exact hid
  · have hmap : (s.setCols g cols).groups.map (·.num) = s.groups.map (·.num) := by
      unfold Groups.setCols
      rw [List.map_map]
      exact List.map_congr_left fun x _ => (hsame x).1
    rw [hmap]
    exact h.nums
  · intro y hy
    obtain ⟨x, hx, rfl⟩ := mem_setCols.1 hy
    rw [(hsame x).1]
    exact h.num_lt x hx
  · intro y hy
    obtain ⟨x, hx, rfl⟩ := mem_setCols.1 hy
    rw [(hsame x).2]
    exact h.ids_ne x hx
  · intro y hy
    obtain ⟨x, hx, rfl⟩ := mem_setCols.1 hy
    rw [(hsame x).2]
    exact h.roots x hx

end Groups

end Client
