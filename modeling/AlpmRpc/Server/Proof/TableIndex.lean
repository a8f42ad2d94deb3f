import AlpmRpc.Server.Reg
import Mathlib.Data.List.Nodup
import Mathlib.Data.List.Perm.Subperm

/-!
# The two indexes of the handle table

`Holds tab byptr cap l`: the arrays `tab` and `byptr` of `cap` cells index exactly the slots of the
list `l`, each as an open-addressed table (`Probe.Chained`) and the two in step. Below the load
bound a free cell remains in both (`Holds.free_id`, `Holds.free_ptr`), so both probe loops end, at
the slot or at the cell where it would go (`Holds.slotFor_hit`, `Holds.slotFor_miss`,
`Holds.ptrFor_hit`, `Holds.ptrFor_miss`). `Holds.insert` is the write sequence that
`arpc_handle_put` and `rebuild` share; `Holds.modify` is a write that leaves a slot's keys alone.
-/

set_option autoImplicit false

namespace Server

/-! ## Probe sequences -/

/-- The by-id table's key in cell `i`. -/
def idCell (tab : Nat → Slot) (i : Nat) : Option Nat :=
  if (tab i).id = 0 then none else some (tab i).id

/-- The by-(pointer, tag) table's key in cell `j`. -/
def ptrCell (tab : Nat → Slot) (byptr : Nat → Nat) (j : Nat) : Option (Nat × HandleTag) :=
  if byptr j = 0 then none else some ((tab (byptr j - 1)).ptr, (tab (byptr j - 1)).tag)

def idHome (cap id : Nat) : Nat := mix id (cap - 1)

def ptrHome (cap : Nat) (k : Nat × HandleTag) : Nat := mix (k.1 ^^^ (k.2.val <<< 56)) (cap - 1)

theorem idCell_none {tab : Nat → Slot} {i : Nat} : idCell tab i = none ↔ (tab i).id = 0 := by
  simp [idCell]

theorem idCell_some {tab : Nat → Slot} {i id : Nat} :
    idCell tab i = some id ↔ (tab i).id = id ∧ id ≠ 0 := by
  unfold idCell
  split <;> simp_all
  rintro rfl
  assumption

theorem ptrCell_none {tab : Nat → Slot} {byptr : Nat → Nat} {j : Nat} :
    ptrCell tab byptr j = none ↔ byptr j = 0 := by
  simp [ptrCell]

theorem ptrCell_some {tab : Nat → Slot} {byptr : Nat → Nat} {j p : Nat} {tag : HandleTag} :
    ptrCell tab byptr j = some (p, tag) ↔
      byptr j ≠ 0 ∧ (tab (byptr j - 1)).ptr = p ∧ (tab (byptr j - 1)).tag = tag := by
  unfold ptrCell
  split <;> simp_all

theorem slotFor_eq {tab : Nat → Slot} {cap id : Nat} (h : id ≠ 0) :
    slotFor tab cap id = Probe.lookup (nextCell cap) (idHome cap) cap (idCell tab) id := by
  unfold slotFor Probe.lookup idHome
  congr 1
  funext i
  simp only [Probe.stopAt, idCell_none, idCell_some, h, ne_eq, not_false_eq_true, and_true]
  rfl

theorem ptrFor_eq {tab : Nat → Slot} {byptr : Nat → Nat} {cap p : Nat} {tag : HandleTag} :
    ptrFor tab byptr cap p tag =
      Probe.lookup (nextCell cap) (ptrHome cap) cap (ptrCell tab byptr) (p, tag) := by
  unfold ptrFor Probe.lookup ptrHome
  congr 1
  funext j
  simp only [Probe.stopAt, ptrCell_none, ptrCell_some]
  by_cases h : byptr j = 0
  · simp [h]
  · simp [h, Bool.decide_and, beq_eq_decide]

theorem mix_lt {cap : Nat} (h : 0 < cap) (x : Nat) : mix x (cap - 1) < cap := by
  have := Nat.and_le_right (n := (x * 11400714819323198485 % 2 ^ 64) >>> 32) (m := cap - 1)
  unfold mix
  omega

theorem nextCell_eq {cap : Nat} (h : ∃ k, cap = 2 ^ k) (i : Nat) : nextCell cap i = (i + 1) % cap := by
  obtain ⟨k, rfl⟩ := h
  exact Nat.and_two_pow_sub_one_eq_mod (i + 1) k

theorem iterate_nextCell {cap : Nat} (h : ∃ k, cap = 2 ^ k) {s : Nat} (hs : s < cap) (d : Nat) :
    (nextCell cap)^[d] s = (s + d) % cap := by
  induction d with
  | zero => simp [Nat.mod_eq_of_lt hs]
  | succ d ih =>
    rw [Function.iterate_succ_apply', ih, nextCell_eq h, Nat.mod_add_mod]
    rfl

theorem iterate_lt {cap : Nat} (h : ∃ k, cap = 2 ^ k) {s : Nat} (hs : s < cap) (d : Nat) :
    (nextCell cap)^[d] s < cap := by
  rw [iterate_nextCell h hs]
  exact Nat.mod_lt _ (by omega)

/-- A probe sequence visits every cell. -/
theorem exists_iterate {cap : Nat} (h : ∃ k, cap = 2 ^ k) {s i : Nat} (hs : s < cap) (hi : i < cap) :
    ∃ d < cap, (nextCell cap)^[d] s = i := by
  rcases Nat.lt_or_ge i s with hlt | hge
  · refine ⟨cap + i - s, by omega, ?_⟩
    rw [iterate_nextCell h hs, show s + (cap + i - s) = i + cap by omega, Nat.add_mod_right,
      Nat.mod_eq_of_lt hi]
  · refine ⟨i - s, by omega, ?_⟩
    rw [iterate_nextCell h hs, show s + (i - s) = i by omega, Nat.mod_eq_of_lt hi]

/-! ## Two indexes of one list of slots -/

/-- `tab` and `byptr` index the slots of `l` (module doc). -/
structure Holds (tab : Nat → Slot) (byptr : Nat → Nat) (cap : Nat) (l : List Slot) : Prop where
  pow : ∃ k, cap = 2 ^ k
  idC : Probe.Chained (nextCell cap) (idHome cap) cap (idCell tab)
  ptrC : Probe.Chained (nextCell cap) (ptrHome cap) cap (ptrCell tab byptr)
  mem : ∀ s, s ∈ l ↔ s.id ≠ 0 ∧ ∃ i, tab i = s
  back : ∀ j, byptr j ≠ 0 → (tab (byptr j - 1)).id ≠ 0
  fwd : ∀ i, (tab i).id ≠ 0 → ∃ j, byptr j = i + 1

theorem Holds.empty {cap : Nat} (h : ∃ k, cap = 2 ^ k) :
    Holds (fun _ => {}) (fun _ => 0) cap [] where
  pow := h
  idC := by
    have : idCell (fun _ => {}) = fun _ => none := by funext i; simp [idCell]
    rw [this]; exact .empty
  ptrC := by
    have : ptrCell (fun _ => {}) (fun _ => 0) = fun _ => none := by funext i; simp [ptrCell]
    rw [this]; exact .empty
  mem := by
    intro s
    simp only [List.not_mem_nil, false_iff, not_and, not_exists]
    rintro h _ rfl
    exact h rfl
  back := by simp
  fwd := by simp

namespace Holds

variable {tab : Nat → Slot} {byptr : Nat → Nat} {cap : Nat} {l : List Slot}

theorem pos (h : Holds tab byptr cap l) : 0 < cap := by
  obtain ⟨k, rfl⟩ := h.pow
  exact Nat.two_pow_pos k

/-- A used slot is inside the array. -/
theorem slot_lt (h : Holds tab byptr cap l) {i : Nat} (hi : (tab i).id ≠ 0) : i < cap := by
  obtain ⟨d, -, hd, -⟩ := h.idC.reach i (tab i).id (idCell_some.2 ⟨rfl, hi⟩)
  rw [← hd]
  exact iterate_lt h.pow (mix_lt h.pos _) d

theorem byptr_lt (h : Holds tab byptr cap l) {j : Nat} (hj : byptr j ≠ 0) : j < cap := by
  obtain ⟨d, -, hd, -⟩ := h.ptrC.reach j _ (ptrCell_some.2 ⟨hj, rfl, rfl⟩)
  rw [← hd]
  exact iterate_lt h.pow (mix_lt h.pos _) d

theorem mem_tab (h : Holds tab byptr cap l) {i : Nat} (hi : (tab i).id ≠ 0) : tab i ∈ l :=
  (h.mem _).2 ⟨hi, i, rfl⟩

/-- A slot's id determines its cell. -/
theorem id_inj (h : Holds tab byptr cap l) {i j : Nat} (hi : (tab i).id ≠ 0)
    (hij : (tab i).id = (tab j).id) : i = j :=
  h.idC.inj i j (tab i).id (idCell_some.2 ⟨rfl, hi⟩) (idCell_some.2 ⟨hij.symm, hi⟩)

/-- A slot's (pointer, tag) determines its cell. -/
theorem obj_inj (h : Holds tab byptr cap l) {i i' : Nat} (hi : (tab i).id ≠ 0)
    (hi' : (tab i').id ≠ 0) (hp : (tab i).ptr = (tab i').ptr) (ht : (tab i).tag = (tab i').tag) :
    i = i' := by
  obtain ⟨j, hj⟩ := h.fwd i hi
  obtain ⟨j', hj'⟩ := h.fwd i' hi'
  have e : j = j' := h.ptrC.inj j j' ((tab i).ptr, (tab i).tag)
    (ptrCell_some.2 ⟨by omega, by simp [hj], by simp [hj]⟩)
    (ptrCell_some.2 ⟨by omega, by simp [hj', hp], by simp [hj', ht]⟩)
  subst e
  omega

/-! ## A free cell -/

/-- Cells whose keys are pairwise distinct and among `l.map f` leave one free when `l` is shorter
than the table. -/
theorem exists_free {α : Type} {cell : Nat → Option α} {f : Slot → α} (hlt : l.length < cap)
    (hinj : ∀ i j k, cell i = some k → cell j = some k → i = j)
    (hsub : ∀ i k, cell i = some k → k ∈ l.map f) : ∃ i < cap, cell i = none := by
  by_contra hno
  have hfull : ∀ i < cap, ∃ k, cell i = some k := fun i hi =>
    Option.ne_none_iff_exists'.1 fun hn => hno ⟨i, hi, hn⟩
  have hnd : ((List.range cap).filterMap cell).Nodup := by
    refine List.Nodup.filterMap (fun i j k hi hj => ?_) List.nodup_range
    exact hinj i j k (Option.mem_def.1 hi) (Option.mem_def.1 hj)
  have hlen : ((List.range cap).filterMap cell).length = cap := by
    rw [List.length_filterMap_eq_countP]
    have : (List.range cap).countP (fun i => (cell i).isSome) = (List.range cap).length := by
      refine List.countP_eq_length.2 fun i hi => ?_
      obtain ⟨k, hk⟩ := hfull i (List.mem_range.1 hi)
      simp [hk]
    simpa using this
  have hss : (List.range cap).filterMap cell ⊆ l.map f := fun k hk => by
    obtain ⟨i, -, hi⟩ := List.mem_filterMap.1 hk
    exact hsub i k hi
  have hle := (List.subperm_of_subset hnd hss).length_le
  rw [hlen, List.length_map] at hle
  omega

theorem free_id (h : Holds tab byptr cap l) (hlt : l.length < cap) :
    ∃ i < cap, idCell tab i = none :=
  exists_free (f := Slot.id) hlt h.idC.inj fun i k hk => by
    obtain ⟨rfl, hne⟩ := idCell_some.1 hk
    exact List.mem_map_of_mem (h.mem_tab hne)

theorem free_ptr (h : Holds tab byptr cap l) (hlt : l.length < cap) :
    ∃ j < cap, ptrCell tab byptr j = none :=
  exists_free (f := fun s => (s.ptr, s.tag)) hlt h.ptrC.inj fun j k hk => by
    obtain ⟨p, tag⟩ := k
    obtain ⟨hj, rfl, rfl⟩ := ptrCell_some.1 hk
    exact List.mem_map_of_mem (f := fun s : Slot => (s.ptr, s.tag)) (h.mem_tab (h.back j hj))

/-! ## Looking up -/

theorem slotFor_hit (h : Holds tab byptr cap l) {i : Nat} (hi : (tab i).id ≠ 0) :
    slotFor tab cap (tab i).id = some i := by
  rw [slotFor_eq hi]
  exact Probe.lookup_hit h.idC (idCell_some.2 ⟨rfl, hi⟩)

/-- An id that is not in the table is looked up to a free cell of its probe sequence. -/
theorem slotFor_miss (h : Holds tab byptr cap l) (hlt : l.length < cap) {id : Nat} (h0 : id ≠ 0)
    (hid : id ∉ l.map (·.id)) :
    ∃ d < cap, slotFor tab cap id = some ((nextCell cap)^[d] (idHome cap id)) ∧
      idCell tab ((nextCell cap)^[d] (idHome cap id)) = none ∧
      ∀ e < d, idCell tab ((nextCell cap)^[e] (idHome cap id)) ≠ none := by
  obtain ⟨i, hi, hfree⟩ := h.free_id hlt
  obtain ⟨d, hd, rfl⟩ := exists_iterate h.pow (mix_lt h.pos id) hi
  rw [slotFor_eq h0]
  refine Probe.lookup_miss (fun i hi => hid ?_) ⟨d, hd, hfree⟩
  obtain ⟨rfl, hne⟩ := idCell_some.1 hi
  exact List.mem_map_of_mem (h.mem_tab hne)

theorem ptrFor_hit (h : Holds tab byptr cap l) {i : Nat} (hi : (tab i).id ≠ 0) :
    ∃ j, ptrFor tab byptr cap (tab i).ptr (tab i).tag = some j ∧ byptr j = i + 1 := by
  obtain ⟨j, hj⟩ := h.fwd i hi
  refine ⟨j, ?_, hj⟩
  rw [ptrFor_eq]
  exact Probe.lookup_hit h.ptrC (ptrCell_some.2 ⟨by omega, by simp [hj], by simp [hj]⟩)

theorem ptrFor_miss (h : Holds tab byptr cap l) (hlt : l.length < cap) {p : Nat} {tag : HandleTag}
    (hp : (p, tag) ∉ l.map fun s => (s.ptr, s.tag)) :
    ∃ d < cap, ptrFor tab byptr cap p tag = some ((nextCell cap)^[d] (ptrHome cap (p, tag))) ∧
      ptrCell tab byptr ((nextCell cap)^[d] (ptrHome cap (p, tag))) = none ∧
      ∀ e < d, ptrCell tab byptr ((nextCell cap)^[e] (ptrHome cap (p, tag))) ≠ none := by
  obtain ⟨j, hj, hfree⟩ := h.free_ptr hlt
  obtain ⟨d, hd, rfl⟩ := exists_iterate h.pow (mix_lt h.pos (p ^^^ (tag.val <<< 56))) hj
  rw [ptrFor_eq]
  refine Probe.lookup_miss (fun j hj => hp ?_) ⟨d, hd, hfree⟩
  obtain ⟨hne, rfl, rfl⟩ := ptrCell_some.1 hj
  exact List.mem_map_of_mem (f := fun s : Slot => (s.ptr, s.tag)) (h.mem_tab (h.back j hne))

/-! ## Writing -/

/-- **A new slot**: the free cell of its id takes it, then the free cell of its (pointer, tag) in
the other index takes the slot's number. -/
theorem insert (h : Holds tab byptr cap l) (hlt : l.length < cap) {s : Slot} (h0 : s.id ≠ 0)
    (hid : s.id ∉ l.map (·.id)) (hobj : (s.ptr, s.tag) ∉ l.map fun s => (s.ptr, s.tag)) :
    ∃ i byptr', slotFor tab cap s.id = some i ∧
      indexPtr (Function.update tab i s) byptr cap i = some byptr' ∧
      Holds (Function.update tab i s) byptr' cap (l ++ [s]) := by
  obtain ⟨d, hd, hi, hfree, hfull⟩ := h.slotFor_miss hlt h0 hid
  generalize hie : (nextCell cap)^[d] (idHome cap s.id) = i at hi hfree
  have hempty : (tab i).id = 0 := idCell_none.1 hfree
  -- no entry of `byptr` points at the free cell, so its keys do not move
  have hnot : ∀ j, byptr j ≠ 0 → byptr j - 1 ≠ i := fun j hj he => h.back j hj (he ▸ hempty)
  have hcells : ptrCell (Function.update tab i s) byptr = ptrCell tab byptr := by
    funext j
    by_cases hj : byptr j = 0
    · simp [ptrCell, hj]
    · simp [ptrCell, hj, Function.update_of_ne (hnot j hj)]
  obtain ⟨d', hd', hj, hfree', hfull'⟩ := h.ptrFor_miss hlt hobj
  generalize hje : (nextCell cap)^[d'] (ptrHome cap (s.ptr, s.tag)) = j at hj hfree'
  have hj' : ptrFor (Function.update tab i s) byptr cap s.ptr s.tag = some j := by
    rw [ptrFor_eq, hcells, ← ptrFor_eq, hj]
  have hjempty : byptr j = 0 := ptrCell_none.1 hfree'
  refine ⟨i, Function.update byptr j (i + 1), hi, by simp [indexPtr, hj'], ?_⟩
  refine ⟨h.pow, ?_, ?_, fun s' => ?_, fun j' hj' => ?_, fun i' hi' => ?_⟩
  · have e : idCell (Function.update tab i s) = Function.update (idCell tab) i (some s.id) := by
      funext i'
      by_cases hi' : i' = i
      · subst hi'; simp [idCell, h0]
      · simp [idCell, Function.update_of_ne hi']
    rw [e, ← hie]
    refine h.idC.insert (fun i' hi' => hid ?_) hd (hie ▸ hfree) hfull
    obtain ⟨he, hne⟩ := idCell_some.1 hi'
    exact he ▸ List.mem_map_of_mem (h.mem_tab (he ▸ hne))
  · have e : ptrCell (Function.update tab i s) (Function.update byptr j (i + 1)) =
        Function.update (ptrCell tab byptr) j (some (s.ptr, s.tag)) := by
      funext j'
      by_cases hj' : j' = j
      · subst hj'; simp [ptrCell]
      · rw [Function.update_of_ne hj', ← hcells]
        simp [ptrCell, Function.update_of_ne hj']
    rw [e, ← hje]
    refine h.ptrC.insert (fun j' hj' => hobj ?_) hd' (hje ▸ hfree') hfull'
    obtain ⟨hne, hp, ht⟩ := ptrCell_some.1 hj'
    rw [← hp, ← ht]
    exact List.mem_map_of_mem (f := fun s : Slot => (s.ptr, s.tag)) (h.mem_tab (h.back j' hne))
  · rw [List.mem_append, List.mem_singleton, h.mem]
    constructor
    · rintro (⟨hne, i', rfl⟩ | rfl)
      · have hii : i' ≠ i := fun he => hne (he ▸ hempty)
        exact ⟨hne, i', Function.update_of_ne hii _ _⟩
      · exact ⟨h0, i, Function.update_self _ _ _⟩
    · rintro ⟨hne, i', rfl⟩
      by_cases hi' : i' = i
      · subst hi'; exact .inr (Function.update_self _ _ _)
      · exact .inl ⟨by simpa [Function.update_of_ne hi'] using hne, i',
          (Function.update_of_ne hi' _ _).symm⟩
  · by_cases hjj : j' = j
    · subst hjj; simpa using h0
    · rw [Function.update_of_ne hjj] at hj' ⊢
      rw [Function.update_of_ne (hnot j' hj')]
      exact h.back j' hj'
  · by_cases hii : i' = i
    · subst hii; exact ⟨j, Function.update_self _ _ _⟩
    · rw [Function.update_of_ne hii] at hi'
      obtain ⟨j', hj'⟩ := h.fwd i' hi'
      exact ⟨j', by rw [Function.update_of_ne (fun he => by subst he; omega), hj']⟩

/-- **A write to a slot that keeps its keys.** -/
theorem modify (h : Holds tab byptr cap l) {i : Nat} (hi : (tab i).id ≠ 0) (f : Slot → Slot)
    (hid : ∀ s, (f s).id = s.id) (hptr : ∀ s, (f s).ptr = s.ptr) (htag : ∀ s, (f s).tag = s.tag) :
    Holds (Function.update tab i (f (tab i))) byptr cap
      (l.map fun s => if s.id = (tab i).id then f s else s) := by
  have heq : ∀ i', Function.update tab i (f (tab i)) i' =
      if (tab i').id = (tab i).id then f (tab i') else tab i' := by
    intro i'
    by_cases hii : i' = i
    · subst hii; simp
    · rw [Function.update_of_ne hii, if_neg fun he => hii (h.id_inj hi he.symm).symm]
  have eid : ∀ i', (Function.update tab i (f (tab i)) i').id = (tab i').id := by
    intro i'; rw [heq]; split <;> simp [hid]
  have eptr : ∀ i', (Function.update tab i (f (tab i)) i').ptr = (tab i').ptr := by
    intro i'; rw [heq]; split <;> simp [hptr]
  have etag : ∀ i', (Function.update tab i (f (tab i)) i').tag = (tab i').tag := by
    intro i'; rw [heq]; split <;> simp [htag]
  refine ⟨h.pow, ?_, ?_, fun s' => ?_, fun j hj => by rw [eid]; exact h.back j hj, fun i' hi' => ?_⟩
  · have e : idCell (Function.update tab i (f (tab i))) = idCell tab := by
      funext i'; simp [idCell, eid]
    rw [e]; exact h.idC
  · have e : ptrCell (Function.update tab i (f (tab i))) byptr = ptrCell tab byptr := by
      funext j; simp [ptrCell, eptr, etag]
    rw [e]; exact h.ptrC
  · simp only [List.mem_map, h.mem]
    constructor
    · rintro ⟨s, ⟨hne, i', rfl⟩, rfl⟩
      refine ⟨?_, i', heq i'⟩
      split <;> simp [hid, hne]
    · rintro ⟨hne, i', rfl⟩
      exact ⟨tab i', ⟨by simpa [eid] using hne, i', rfl⟩, (heq i').symm⟩
  · exact h.fwd i' (by simpa [eid] using hi')

end Holds

end Server
