import AlpmRpc.Server.Table
import AlpmRpc.Lib.Keyed

/-!
# The handle table as a finite map

What the handle table is for: a list of live slots, no two with one id or one (pointer, tag), and
the two counters. `Reg` has the operations of `Server.Table` under the same names, written over
the list; `Server/Proof/TableRefine.lean` proves that the table refines it.
-/

set_option autoImplicit false

namespace Server

open Wire

structure Reg where
  live : List Slot := []
  nextSeq : Nat := 1
  nextRoot : Nat := 1
  released : List (Nat × Nat) := []
  deriving DecidableEq, Repr

namespace Reg

def find (a : Reg) (id : Nat) : Option Slot := a.live.find? fun s => s.id = id

def findPtr (a : Reg) (p : Nat) (tag : HandleTag) : Option Slot :=
  a.live.find? fun s => s.ptr = p ∧ s.tag = tag

/-- The owner of `id`, `0` when it is not live. -/
def ownerOf (a : Reg) (id : Nat) : Nat := ((a.find id).map (·.owner)).getD 0

def underLoop (a : Reg) (o : Nat) : Nat → Nat → Bool
  | 0, _ => false
  | depth + 1, id =>
    if id = 0 then false else if id = o then true else underLoop a o depth (a.ownerOf id)

def under (a : Reg) (id o : Nat) : Bool := a.underLoop o 8 id

/-- Apply `f` to the slot of `id`. -/
def modify (a : Reg) (id : Nat) (f : Slot → Slot) : Reg :=
  { a with live := a.live.map fun s => if s.id = id then f s else s }

def put (a : Reg) (ptr : Nat) (tag : HandleTag) (owner : Nat) : Reg × Nat :=
  if ptr = 0 then (a, 0)
  else match a.findPtr ptr tag with
    | some s =>
      if owner ≠ 0 ∧ owner ≠ s.owner ∧ a.under owner s.owner = true then
        (a.modify s.id fun s => { s with owner }, s.id)
      else (a, s.id)
    | none =>
      let (root, nextRoot) := newRoot a.nextRoot owner tag
      let id := mkId root a.nextSeq
      ({ a with
          live := a.live ++ [{ id, ptr, owner, tag, release := 0 }]
          nextSeq := (a.nextSeq + 1) % 2 ^ 64, nextRoot }, id)

def adopt (a : Reg) (ptr owner release : Nat) : Reg × Nat :=
  let (a, id) := a.put ptr .none owner
  (a.modify id fun s => { s with release }, id)

def get (a : Reg) (id : Nat) (tag : HandleTag) : Nat :=
  match a.find id with
  | some s => if s.tag = tag then s.ptr else 0
  | none => 0

def ancestorLoop (a : Reg) (tag : HandleTag) : Nat → Nat → Nat → Nat
  | 0, _, top => top
  | depth + 1, id, top =>
    if id = 0 then top
    else match a.find id with
      | none => top
      | some s =>
        if tag ≠ .none ∧ s.tag = tag then id else ancestorLoop a tag depth s.owner id

def ancestor (a : Reg) (id : Nat) (tag : HandleTag) : Nat := a.ancestorLoop tag 8 id id

/-- Keep the slots `keep` accepts; the others' release functions are called. -/
def filter (a : Reg) (keep : Slot → Bool) : Reg :=
  { a with
    live := a.live.filter keep
    released := a.released ++ ((a.live.filter fun s => !keep s && s.release != 0).map
      fun s => (s.release, s.ptr)) }

def drop (a : Reg) (id : Nat) : Reg := a.filter fun s => s.id ≠ id

def dropOwner (a : Reg) (o : Nat) : Reg :=
  if o = 0 then a else a.filter fun s => !a.under s.id o

def dropUnder (a : Reg) (o : Nat) : Reg :=
  if o = 0 then a else a.filter fun s => s.id = o || !a.under s.id o

def dropPtr (a : Reg) (p : Nat) (tag : HandleTag) : Reg :=
  if p = 0 then a
  else match a.findPtr p tag with
    | some s => a.dropOwner s.id
    | none => a

def reset (a : Reg) : Reg := a.filter fun _ => false

/-! ## The invariant of a registry -/

/-- Ids and objects are not shared, ids are the sequence numbers issued so far, and no slot is of
`NULL`. -/
structure Wf (a : Reg) : Prop where
  ids : (a.live.map (·.id)).Nodup
  objs : (a.live.map fun s => (s.ptr, s.tag)).Nodup
  id_ne : ∀ s ∈ a.live, s.id ≠ 0
  ptr_ne : ∀ s ∈ a.live, s.ptr ≠ 0
  seq : ∀ s ∈ a.live, s.id % 2 ^ 40 < a.nextSeq
  seq_pos : 0 < a.nextSeq

theorem Wf.empty : Wf {} := by
  constructor <;> simp

/-- Slots of one id are one slot. -/
theorem Wf.id_inj {a : Reg} (h : a.Wf) {s s' : Slot} (hs : s ∈ a.live) (hs' : s' ∈ a.live)
    (he : s.id = s'.id) : s = s' :=
  List.inj_on_of_nodup_map h.ids hs hs' he

/-- Slots of one object are one slot. -/
theorem Wf.obj_inj {a : Reg} (h : a.Wf) {s s' : Slot} (hs : s ∈ a.live) (hs' : s' ∈ a.live)
    (hp : s.ptr = s'.ptr) (ht : s.tag = s'.tag) : s = s' :=
  List.inj_on_of_nodup_map h.objs hs hs' (by simp [hp, ht])

theorem find_eq_some {a : Reg} (h : a.Wf) {id : Nat} {s : Slot} :
    a.find id = some s ↔ s ∈ a.live ∧ s.id = id :=
  Keyed.find?_iff h.ids

theorem find_eq_none {a : Reg} {id : Nat} : a.find id = none ↔ ∀ s ∈ a.live, s.id ≠ id :=
  Keyed.find?_none_iff

theorem findPtr_eq_some {a : Reg} (h : a.Wf) {p : Nat} {tag : HandleTag} {s : Slot} :
    a.findPtr p tag = some s ↔ s ∈ a.live ∧ s.ptr = p ∧ s.tag = tag := by
  have hone : ∀ s ∈ a.live, ∀ s' ∈ a.live, decide (s.ptr = p ∧ s.tag = tag) = true →
      decide (s'.ptr = p ∧ s'.tag = tag) = true → s = s' := by
    intro s hs s' hs' hp hp'
    obtain ⟨rfl, rfl⟩ := of_decide_eq_true hp
    obtain ⟨hptr, htag⟩ := of_decide_eq_true hp'
    exact h.obj_inj hs hs' hptr.symm htag.symm
  rw [findPtr, Keyed.find?_unique hone, decide_eq_true_eq]

theorem findPtr_eq_none {a : Reg} {p : Nat} {tag : HandleTag} :
    a.findPtr p tag = none ↔ ∀ s ∈ a.live, ¬(s.ptr = p ∧ s.tag = tag) := by
  simp [findPtr, List.find?_eq_none]

theorem find_zero {a : Reg} (h : a.Wf) : a.find 0 = none := find_eq_none.2 h.id_ne

/-! ## What an operation does to the slots -/

theorem mem_filter {a : Reg} {keep : Slot → Bool} {s : Slot} :
    s ∈ (a.filter keep).live ↔ s ∈ a.live ∧ keep s = true := by
  simp [filter]

theorem Wf.filter {a : Reg} (h : a.Wf) (keep : Slot → Bool) : (a.filter keep).Wf where
  ids := h.ids.sublist ((List.filter_sublist (p := keep)).map _)
  objs := h.objs.sublist ((List.filter_sublist (p := keep)).map _)
  id_ne s hs := h.id_ne s (mem_filter.1 hs).1
  ptr_ne s hs := h.ptr_ne s (mem_filter.1 hs).1
  seq s hs := h.seq s (mem_filter.1 hs).1
  seq_pos := h.seq_pos

theorem modify_live (a : Reg) (id : Nat) (f : Slot → Slot) :
    (a.modify id f).live = a.live.map fun s => if s.id = id then f s else s := rfl

/-- A write that keeps a slot's keys. -/
theorem Wf.modify {a : Reg} (h : a.Wf) (id : Nat) {f : Slot → Slot} (hid : ∀ s, (f s).id = s.id)
    (hptr : ∀ s, (f s).ptr = s.ptr) (htag : ∀ s, (f s).tag = s.tag) : (a.modify id f).Wf := by
  have e : ∀ s : Slot, (if s.id = id then f s else s).id = s.id ∧
      (if s.id = id then f s else s).ptr = s.ptr ∧
      (if s.id = id then f s else s).tag = s.tag := by
    intro s; split <;> simp [hid, hptr, htag]
  constructor
  · simpa [modify_live, Function.comp_def, e] using h.ids
  · simpa [modify_live, Function.comp_def, e] using h.objs
  · simpa [modify_live, e] using h.id_ne
  · simpa [modify_live, e] using h.ptr_ne
  · intro s' hs'
    obtain ⟨s, hs, rfl⟩ := List.mem_map.1 hs'
    rw [(e s).1]
    exact h.seq s hs
  · exact h.seq_pos

/-- The slot of a fresh id. -/
theorem Wf.append {a : Reg} (h : a.Wf) (owner root nextRoot : Nat) {ptr : Nat} {tag : HandleTag}
    (hp : ptr ≠ 0) (hnew : ∀ s ∈ a.live, ¬(s.ptr = ptr ∧ s.tag = tag)) (hb : a.nextSeq < 2 ^ 40) :
    Wf { a with
      live := a.live ++ [{ id := mkId root a.nextSeq, ptr, owner, tag, release := 0 }]
      nextSeq := (a.nextSeq + 1) % 2 ^ 64, nextRoot } := by
  have hseq : (a.nextSeq + 1) % 2 ^ 64 = a.nextSeq + 1 := Nat.mod_eq_of_lt (by omega)
  constructor
  · rw [List.map_append, List.nodup_append]
    refine ⟨h.ids, by simp, ?_⟩
    intro i hi j hj he
    obtain ⟨s, hs, rfl⟩ := List.mem_map.1 hi
    have := h.seq s hs
    rw [List.mem_singleton.1 hj] at he
    rw [he, mkId_mod hb] at this
    omega
  · rw [List.map_append, List.nodup_append]
    refine ⟨h.objs, by simp, ?_⟩
    intro i hi j hj he
    obtain ⟨s, hs, rfl⟩ := List.mem_map.1 hi
    rw [List.mem_singleton.1 hj] at he
    exact hnew s hs (by simpa using he)
  · simp only [List.mem_append, List.mem_singleton]
    rintro s (hs | rfl)
    · exact h.id_ne s hs
    · exact mkId_ne_zero h.seq_pos hb
  · simp only [List.mem_append, List.mem_singleton]
    rintro s (hs | rfl)
    · exact h.ptr_ne s hs
    · exact hp
  · simp only [List.mem_append, List.mem_singleton, hseq]
    rintro s (hs | rfl)
    · exact Nat.lt_succ_of_lt (h.seq s hs)
    · rw [mkId_mod hb]; omega
  · show 0 < (a.nextSeq + 1) % 2 ^ 64
    omega

end Reg

end Server
