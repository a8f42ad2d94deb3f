import AlpmRpc.Client.Cache
import AlpmRpc.Client.Proof.Groups

/-!
# Lifetimes in the cache

`Cache.Inv` is kept by every call: the values are those released and those held, each once, and each
key of the table is there once, with a value of its kind. `Cache.step_spec` says of one call that it
keeps the invariant, that what it hands out is held, and that it releases nothing of an owner it does
not end; over a whole run that follows by induction.
-/

set_option autoImplicit false

namespace Client

open Wire Json

namespace Cache

variable {α : Type} {c : Cache α} {isStr : Nat → Bytes → Bool}

/-- Value `v` is held for owner `o`. -/
def Holds (c : Cache α) (v o : Nat) : Prop := ∃ e ∈ c.held, e.num = v ∧ e.owner = o

/-- The values there were are those released and those held, each once; the keys of the table are
there once, and have values of their kind. -/
structure Inv (isStr : Nat → Bytes → Bool) (c : Cache α) : Prop where
  nums : (c.released.map (·.2) ++ c.held.map (·.num)).Perm (List.range c.next)
  keys : (c.owned.map fun e => (e.owner, e.key)).Nodup
  kinds : ∀ e ∈ c.owned, e.value.isStr = isStr e.owner e.key
  strs : ∀ e ∈ c.detached, e.value.isStr = isStr e.owner e.key
  groups : c.groups.Wf

theorem Inv.empty : Inv isStr ({} : Cache α) := by
  refine ⟨by simp [held], by simp, by simp, by simp, Groups.Wf.empty⟩

theorem Inv.nodup (h : Inv isStr c) : (c.released.map (·.2) ++ c.held.map (·.num)).Nodup :=
  h.nums.nodup_iff.2 List.nodup_range

/-- A held value has not been released. -/
theorem Inv.not_released (h : Inv isStr c) {v o : Nat} (hv : c.Holds v o) :
    v ∉ c.released.map (·.2) := by
  obtain ⟨e, he, rfl, -⟩ := hv
  intro hr
  exact (List.nodup_append.1 h.nodup).2.2 _ hr _ (List.mem_map_of_mem he) rfl

/-! ## The table -/

theorem findOwned_some {owner : Nat} {key : Bytes} {p : Owned α}
    (h : c.findOwned owner key = some p) : p ∈ c.owned ∧ p.owner = owner ∧ p.key = key := by
  refine ⟨List.mem_of_find?_eq_some h, ?_⟩
  simpa using List.find?_some h

theorem findOwned_none {owner : Nat} {key : Bytes} :
    c.findOwned owner key = none ↔ (owner, key) ∉ c.owned.map fun e => (e.owner, e.key) := by
  unfold findOwned
  simp only [List.find?_eq_none, decide_eq_true_eq, List.mem_map, Prod.mk.injEq, not_exists,
    not_and]

/-! ## The table after an operation -/

theorem hashAdd_owned {c' : Cache α} {e : Owned α} (h : hashAdd c e = some c') :
    c'.owned = c.owned ++ [e] ∧ c'.groups = c.groups := by
  unfold hashAdd at h
  split at h
  · cases h
  · cases h
    exact ⟨rfl, rfl⟩

/-- Of the table, `intern` puts in strings only. -/
theorem internTake_owned {c' : Cache α} {owner : Nat} {key : Bytes}
    {value : Option Bytes} {n : Option Nat} (h : internTake c owner key value = some (c', n)) :
    (∀ e ∈ c'.owned, e ∈ c.owned ∨ e.value.isStr = true) ∧ c'.groups = c.groups := by
  unfold internTake at h
  split at h
  · rename_i q hq
    obtain ⟨c₁, hadd, hc⟩ := Option.bind_eq_some_iff.1 h
    cases hc
    obtain ⟨ho, hg⟩ := hashAdd_owned hadd
    refine ⟨fun e he => ?_, hg⟩
    rw [ho] at he
    rcases List.mem_append.1 he with he | he
    · exact .inl he
    · have hs := List.find?_some hq
      rw [List.mem_singleton.1 he]
      unfold takesBack at hs
      split at hs
      · rename_i hv
        exact .inr (by rw [hv]; rfl)
      · cases hs
  · obtain ⟨c₁, hadd, hc⟩ := Option.bind_eq_some_iff.1 h
    cases hc
    obtain ⟨ho, hg⟩ := hashAdd_owned hadd
    refine ⟨fun e he => ?_, hg⟩
    rw [ho] at he
    rcases List.mem_append.1 he with he | he
    · exact .inl he
    · rw [List.mem_singleton.1 he]
      exact .inr rfl

theorem intern_owned {c' : Cache α} {owner : Nat} {key : Bytes}
    {value : Option Bytes} {n : Option Nat} (h : intern c owner key value = some (c', n)) :
    (∀ e ∈ c'.owned, e ∈ c.owned ∨ e.value.isStr = true) ∧ c'.groups = c.groups := by
  unfold intern at h
  split at h
  · split at h
    · split at h
      · cases h
        exact ⟨fun _ he => .inl he, rfl⟩
      · obtain ⟨ho, hg⟩ := internTake_owned h
        refine ⟨fun e he => ?_, hg⟩
        rcases ho e he with he | he
        · exact .inl (List.mem_filter.1 he).1
        · exact .inr he
    · exact internTake_owned h
  · exact internTake_owned h

theorem arpcCache_owned {c' : Cache α} {owner : Nat} {key : Bytes} {value : α} {release : Nat}
    {n : Option Nat} (h : arpcCache c owner key value release = some (c', n)) :
    c'.groups = c.groups ∧ (c'.owned = c.owned ∨
      ∃ num, c'.owned = c.owned ++ [⟨owner, key, num, .obj value, release⟩]) := by
  unfold arpcCache at h
  split at h
  · cases h
    exact ⟨rfl, .inl rfl⟩
  · obtain ⟨c₁, hadd, hc⟩ := Option.bind_eq_some_iff.1 h
    cases hc
    obtain ⟨ho, hg⟩ := hashAdd_owned hadd
    exact ⟨hg, .inr ⟨_, ho⟩⟩

/-! ## The invariant -/

/-- Entries moved between the two lists, and none given up. -/
theorem Inv.moved (h : Inv isStr c) {c' : Cache α} (hh : c'.held.Perm c.held)
    (hk : (c'.owned.map fun e => (e.owner, e.key)).Nodup) (hr : c'.released = c.released)
    (hn : c'.next = c.next) (hg : c'.groups.Wf) : Inv isStr c' := by
  have hkind : ∀ e ∈ c'.held, e.value.isStr = isStr e.owner e.key := by
    intro e he
    rcases List.mem_append.1 (hh.mem_iff.1 he) with he | he
    · exact h.kinds e he
    · exact h.strs e he
  refine ⟨?_, hk, fun e he => hkind e (List.mem_append_left _ he),
    fun e he => hkind e (List.mem_append_right _ he), hg⟩
  rw [hr, hn]
  exact ((hh.map _).append_left _).trans h.nums

/-- An entry with the next value. -/
theorem Inv.added (h : Inv isStr c) {e : Owned α} (hnum : e.num = c.next)
    (hkey : c.findOwned e.owner e.key = none) (hkind : e.value.isStr = isStr e.owner e.key) :
    Inv isStr { c with owned := c.owned ++ [e], next := c.next + 1 } := by
  refine ⟨?_, ?_, ?_, h.strs, h.groups⟩
  · have hp : (c.owned ++ [e] ++ c.detached).Perm (c.held ++ [e]) := by
      unfold held
      rw [List.append_assoc, List.append_assoc]
      exact List.Perm.append_left _ List.perm_append_comm
    refine ((hp.map (·.num)).append_left (c.released.map (·.2))).trans ?_
    rw [List.range_succ, List.map_append, ← List.append_assoc, List.map_singleton, hnum]
    exact h.nums.append_right _
  · rw [List.map_append, List.nodup_append]
    refine ⟨h.keys, by simp, ?_⟩
    intro x hx y hy hxy
    rw [hxy, List.mem_singleton.1 hy] at hx
    exact findOwned_none.1 hkey hx
  · intro x hx
    rcases List.mem_append.1 hx with hx | hx
    · exact h.kinds x hx
    · rw [List.mem_singleton.1 hx]
      exact hkind

/-- An entry taken off the table. -/
theorem Inv.off_table (h : Inv isStr c) {p : Owned α} (hp : p ∈ c.owned) :
    (p :: c.owned.filter (·.num ≠ p.num)).Perm c.owned := by
  have hnd : (c.owned.map (·.num)).Nodup := by
    have hh := (List.nodup_append.1 h.nodup).2.1
    rw [held, List.map_append] at hh
    exact (List.nodup_append.1 hh).1
  have hperm := List.filter_append_perm (fun e : Owned α => decide (e.num = p.num)) c.owned
  rw [Keyed.filter_mem hnd hp] at hperm
  simpa using hperm

/-! ## The calls -/

/-- What a call keeps of the values: those held stay held for their owners. -/
def Keeps (c c' : Cache α) : Prop := ∀ v o, c.Holds v o → c'.Holds v o

theorem Keeps.of_perm {c' : Cache α} (h : c'.held.Perm c.held) : Keeps c c' := by
  rintro v o ⟨e, he, hv⟩
  exact ⟨e, h.mem_iff.2 he, hv⟩

theorem hashAdd_eq {e : Owned α} (h : c.findOwned e.owner e.key = none) :
    hashAdd c e = some { c with owned := c.owned ++ [e] } := by
  unfold hashAdd
  rw [h]
  rfl

theorem Keeps.added {c' : Cache α} {e : Owned α} (ho : c'.owned = c.owned ++ [e])
    (hd : c'.detached = c.detached) : Keeps c c' := by
  rintro v o ⟨x, hx, hv⟩
  refine ⟨x, ?_, hv⟩
  rw [held, ho, hd]
  rcases List.mem_append.1 hx with hx | hx
  · exact List.mem_append_left _ (List.mem_append_left _ hx)
  · exact List.mem_append_right _ hx

/-- What a call that hands out a value of `owner` leaves. -/
structure HandsOut (isStr : Nat → Bytes → Bool) (c : Cache α) (owner : Nat) (c' : Cache α)
    (v : Nat) : Prop where
  inv : Inv isStr c'
  keeps : Keeps c c'
  holds : c'.Holds v owner

/-- A new entry. -/
theorem Inv.handsOut_new (h : Inv isStr c) {e : Owned α} (hnum : e.num = c.next)
    (hkey : c.findOwned e.owner e.key = none) (hkind : e.value.isStr = isStr e.owner e.key) :
    ∃ c', hashAdd { c with next := c.next + 1 } e = some c' ∧
      HandsOut isStr c e.owner c' e.num := by
  refine ⟨_, hashAdd_eq (c := { c with next := c.next + 1 }) hkey, h.added hnum hkey hkind,
    .added rfl rfl, e, ?_, rfl, rfl⟩
  exact List.mem_append_left _ (List.mem_append_right _ (List.mem_singleton.2 rfl))

theorem internTake_spec (h : Inv isStr c) {owner : Nat} {key : Bytes}
    (hs : isStr owner key = true) (hk : c.findOwned owner key = none) (value : Option Bytes) :
    ∃ c' v, internTake c owner key value = some (c', some v) ∧ HandsOut isStr c owner c' v := by
  unfold internTake
  cases hf : c.detached.find? (takesBack owner key value) with
  | some q =>
    have hq := List.find?_some hf
    obtain ⟨ho, hkey⟩ : q.owner = owner ∧ q.key = key := by
      unfold takesBack at hq
      split at hq
      · simp only [decide_eq_true_eq] at hq
        exact ⟨hq.1, hq.2.1⟩
      · cases hq
    subst ho hkey
    let c' : Cache α := { c with
      owned := c.owned ++ [q]
      detached := c.detached.eraseP (takesBack q.owner q.key value) }
    have hperm : c'.held.Perm c.held := by
      show (c.owned ++ [q] ++ c.detached.eraseP _).Perm c.held
      rw [List.append_assoc]
      exact (Keyed.perm_eraseP hf).append_left _
    have hadd := hashAdd_eq
      (c := { c with detached := c.detached.eraseP (takesBack q.owner q.key value) }) hk
    refine ⟨c', q.num, by dsimp only; rw [hadd]; rfl, ?_, .of_perm hperm, q, ?_, rfl, rfl⟩
    · refine h.moved hperm ?_ rfl rfl h.groups
      rw [List.map_append]
      refine List.Nodup.append h.keys (by simp) ?_
      simpa using findOwned_none.1 hk
    · exact List.mem_append_left _ (List.mem_append_right _ (List.mem_singleton.2 rfl))
  | none =>
    obtain ⟨c', hadd, hho⟩ :=
      h.handsOut_new (e := ⟨owner, key, c.next, .str value, libcFree⟩) rfl hk hs.symm
    exact ⟨c', c.next, by dsimp only [internNew]; rw [hadd]; rfl, hho⟩

theorem detachOne_held (h : Inv isStr c) {p : Owned α} (hp : p ∈ c.owned) :
    (c.detachOne p).held.Perm c.held := by
  unfold detachOne held
  dsimp only
  refine List.perm_middle.trans ?_
  rw [← List.cons_append]
  exact (h.off_table hp).append_right _

theorem detachOne_spec (h : Inv isStr c) {p : Owned α} (hp : p ∈ c.owned) :
    Inv isStr (c.detachOne p) ∧ (c.detachOne p).findOwned p.owner p.key = none := by
  have hk := h.off_table hp
  refine ⟨h.moved (detachOne_held h hp) ?_ rfl rfl h.groups, ?_⟩
  · exact h.keys.sublist (List.filter_sublist.map _)
  · rw [findOwned_none]
    have hnd := (hk.map fun e => (e.owner, e.key)).nodup_iff.2 h.keys
    rw [List.map_cons, List.nodup_cons] at hnd
    exact hnd.1

theorem intern_spec (h : Inv isStr c) {owner : Nat} {key : Bytes} (hs : isStr owner key = true)
    (value : Option Bytes) :
    ∃ c' v, intern c owner key value = some (c', some v) ∧ HandsOut isStr c owner c' v := by
  unfold intern
  cases hf : c.findOwned owner key with
  | none => exact internTake_spec h hs hf value
  | some p =>
    obtain ⟨hp, rfl, rfl⟩ := findOwned_some hf
    have hkind := h.kinds p hp
    dsimp only
    cases hv : p.value with
    | obj x =>
      rw [hs, hv] at hkind
      cases hkind
    | str s =>
      dsimp only
      split
      · exact ⟨c, p.num, rfl, h, fun _ _ hh => hh, p, List.mem_append_left _ hp, rfl, rfl⟩
      · -- its string is another now: detached, then as with no entry
        obtain ⟨hinv, hnone⟩ := detachOne_spec h hp
        obtain ⟨c', v, hc, hI, hK, hH⟩ := internTake_spec hinv hs hnone value
        exact ⟨c', v, hc, hI, fun v o hh => hK v o (Keeps.of_perm (detachOne_held h hp) v o hh), hH⟩

theorem arpcCached_holds {owner : Nat} {key : Bytes} {v : Nat}
    (hv : arpcCached c owner key = some v) : c.Holds v owner := by
  unfold arpcCached at hv
  split at hv
  · rename_i p hf
    obtain ⟨hp, rfl, -⟩ := findOwned_some hf
    split at hv
    · cases hv
    · cases hv
      exact ⟨p, List.mem_append_left _ hp, rfl, rfl⟩
  · cases hv

theorem arpcCache_spec (h : Inv isStr c) {owner : Nat} {key : Bytes} (hs : isStr owner key = false)
    (value : α) (release : Nat) :
    ∃ c' v, arpcCache c owner key value release = some (c', some v) ∧
      HandsOut isStr c owner c' v := by
  unfold arpcCache
  cases hf : arpcCached c owner key with
  | some v =>
    refine ⟨_, v, rfl, ⟨?_, h.keys, h.kinds, h.strs, h.groups⟩, fun _ _ hh => hh,
      arpcCached_holds hf⟩
    rw [List.map_append, List.append_assoc, List.range_succ]
    refine List.Perm.trans ?_ (h.nums.append_right _)
    rw [List.append_assoc]
    exact List.perm_append_comm.append_left _
  | none =>
    have hnone : c.findOwned owner key = none := by
      unfold arpcCached at hf
      cases hp : c.findOwned owner key with
      | none => rfl
      | some p =>
        obtain ⟨hm, rfl, rfl⟩ := findOwned_some hp
        have hkind := h.kinds p hm
        rw [hp] at hf
        rw [hs] at hkind
        simp [hkind] at hf
    obtain ⟨c', hadd, hho⟩ :=
      h.handsOut_new (e := ⟨owner, key, c.next, .obj value, release⟩) rfl hnone hs.symm
    exact ⟨c', c.next, by dsimp only; rw [hadd]; rfl, hho⟩

/-! ## Purges and detaches -/

theorem Inv.purgeWhere (h : Inv isStr c) (drop : Owned α → Bool) :
    Inv isStr (c.purgeWhere drop) := by
  refine ⟨?_, h.keys.sublist (List.filter_sublist.map _), ?_, ?_, h.groups⟩
  · unfold Cache.purgeWhere held
    dsimp only
    rw [← List.filter_append, ← List.filter_append, List.map_append, List.map_map,
      List.append_assoc]
    refine List.Perm.trans (List.Perm.append_left _ ?_) h.nums
    have hp := (List.filter_append_perm drop c.held).map (·.num)
    rw [List.map_append] at hp
    exact hp
  · intro e he
    exact h.kinds e (List.mem_filter.1 he).1
  · intro e he
    exact h.strs e (List.mem_filter.1 he).1

/-- A purge keeps what it does not drop. -/
theorem purgeWhere_holds {drop : Owned α → Bool} {v o : Nat} (hv : c.Holds v o)
    (hd : ∀ e : Owned α, e.owner = o → drop e = false) : (c.purgeWhere drop).Holds v o := by
  obtain ⟨e, he, hnum, ho⟩ := hv
  refine ⟨e, ?_, hnum, ho⟩
  have hkeep : (!drop e) = true := by rw [hd e ho]; rfl
  rcases List.mem_append.1 he with he | he
  · exact List.mem_append_left _ (List.mem_filter.2 ⟨he, hkeep⟩)
  · exact List.mem_append_right _ (List.mem_filter.2 ⟨he, hkeep⟩)

theorem arpcDetach_held (owner : Nat) (wholeRoot : Bool) (keys : List Bytes) :
    (c.arpcDetach owner wholeRoot keys).held.Perm c.held := by
  unfold arpcDetach held
  dsimp only
  rw [← List.append_assoc]
  refine List.Perm.append_right _ ?_
  refine List.perm_append_comm.trans ?_
  exact ((List.reverse_perm _).append_right _).trans (List.filter_append_perm _ _)

theorem Inv.arpcDetach (h : Inv isStr c) (owner : Nat) (wholeRoot : Bool) (keys : List Bytes) :
    Inv isStr (c.arpcDetach owner wholeRoot keys) :=
  h.moved (arpcDetach_held owner wholeRoot keys) (h.keys.sublist (List.filter_sublist.map _)) rfl
    rfl h.groups

theorem arpcDetach_detaches (c : Cache α) (owner : Nat) (wholeRoot : Bool) (keys : List Bytes) :
    Detaches c (c.arpcDetach owner wholeRoot keys) owner wholeRoot keys := by
  refine ⟨rfl, fun o key => ?_⟩
  unfold findOwned Cache.arpcDetach
  dsimp only
  rw [List.find?_filter]
  cases hs : inScope owner wholeRoot keys o key with
  | true =>
    rw [if_pos rfl, List.find?_eq_none]
    intro e _ he
    simp only [Bool.not_eq_true', decide_eq_true_eq] at he
    obtain ⟨hn, rfl, rfl⟩ := he
    rw [hs] at hn
    cases hn
  | false =>
    rw [if_neg Bool.false_ne_true]
    congr 1
    funext e
    by_cases he : e.owner = o ∧ e.key = key
    · obtain ⟨rfl, rfl⟩ := he
      simp [hs]
    · simp [he]

theorem arpcPurgeRoot_purges (h : Inv isStr c) (handle : Nat) :
    Purges c (c.arpcPurgeRoot handle) (arpcRoot handle) := by
  refine ⟨fun e => ?_, fun e => ?_, fun g => ?_, fun p => ?_⟩
  · simp [Cache.arpcPurgeRoot, Cache.purgeWhere]
  · simp [Cache.arpcPurgeRoot, Cache.purgeWhere]
  · show g ∈ c.groups.groups.filter _ ↔ _
    rw [List.mem_filter]
    refine and_congr_right fun hg => ?_
    rw [decide_eq_true_eq]
    constructor
    · intro hr id hid he
      exact hr (by rw [h.groups.groupRoot_eq hg hid, he])
    · intro hr he
      obtain ⟨x, xs, hx⟩ := List.exists_cons_of_ne_nil (h.groups.ids_ne g hg)
      have hmem : x ∈ g.ids := by rw [hx]; simp
      rw [h.groups.groupRoot_eq hg hmem] at he
      exact hr x hmem (Option.some_inj.1 he)
  · simp [Cache.arpcPurgeRoot, Cache.purgeWhere, Groups.freeGroupsOf]

/-! ## Runs -/

/-- **One call** returns and keeps the invariant, holds what it hands out, and releases nothing of an
owner it does not end. -/
theorem step_spec (h : Inv isStr c) {op : Op α} (hop : op.Allowed isStr) :
    ∃ c' r, step c op = some (c', r) ∧ Inv isStr c' ∧
      (∀ o v, op.handsOut = some o → r = some v → c'.Holds v o) ∧
      ∀ v o, ¬op.Ends o → c.Holds v o → c'.Holds v o := by
  cases op with
  | intern owner key value =>
    obtain ⟨c', v, hc, hI, hK, hH⟩ := intern_spec h hop value
    refine ⟨c', some v, hc, hI, ?_, fun v o _ => hK v o⟩
    rintro o v ⟨⟩ ⟨⟩
    exact hH
  | cached owner key =>
    refine ⟨c, _, rfl, h, ?_, fun _ _ _ hh => hh⟩
    rintro o v ⟨⟩ hv
    exact arpcCached_holds hv
  | cache owner key value release =>
    obtain ⟨c', v, hc, hI, hK, hH⟩ := arpcCache_spec h hop value release
    refine ⟨c', some v, hc, hI, ?_, fun v o _ => hK v o⟩
    rintro o v ⟨⟩ ⟨⟩
    exact hH
  | detach owner wholeRoot keys =>
    exact ⟨_, _, rfl, h.arpcDetach owner wholeRoot keys, nofun,
      fun v o _ => Keeps.of_perm (arpcDetach_held owner wholeRoot keys) v o⟩
  | purgeOwner owner =>
    refine ⟨_, _, rfl, h.purgeWhere _, nofun, fun v o ho hh => purgeWhere_holds hh fun e he => ?_⟩
    rw [he]
    exact decide_eq_false fun hoo => ho hoo.symm
  | purgeRoot handle =>
    have hI := h.purgeWhere fun e => decide (arpcRoot e.owner = arpcRoot handle)
    refine ⟨_, _, rfl, ⟨hI.nums, hI.keys, hI.kinds, hI.strs, h.groups.freeGroupsOf _⟩, nofun,
      fun v o ho hh => ?_⟩
    refine purgeWhere_holds hh fun e he => ?_
    rw [he]
    exact decide_eq_false fun hoo => ho hoo.symm
  | register ids =>
    exact ⟨_, _, rfl, ⟨h.nums, h.keys, h.kinds, h.strs, h.groups.register hop⟩, nofun,
      fun _ _ _ hh => hh⟩
  | pkgGroup id =>
    exact ⟨_, _, rfl, ⟨h.nums, h.keys, h.kinds, h.strs, h.groups.groupForPkg id⟩, nofun,
      fun _ _ _ hh => hh⟩

theorem run_append (c : Cache α) (ops ops' : List (Op α)) :
    run c (ops ++ ops') = (run c ops).bind fun c => run c ops' := by
  induction ops generalizing c with
  | nil => rfl
  | cons op ops ih =>
    rw [List.cons_append, run, run]
    cases step c op with
    | none => rfl
    | some r => exact ih r.1

/-- A run keeps the invariant, and holds what it does not end. -/
theorem run_spec (h : Inv isStr c) {ops : List (Op α)} (hok : ∀ op ∈ ops, op.Allowed isStr) :
    ∃ c', run c ops = some c' ∧ Inv isStr c' ∧
      ∀ v o, (∀ op ∈ ops, ¬op.Ends o) → c.Holds v o → c'.Holds v o := by
  induction ops generalizing c with
  | nil => exact ⟨c, rfl, h, fun _ _ _ hh => hh⟩
  | cons op ops ih =>
    obtain ⟨c₁, r, hs, hI, -, hK⟩ := step_spec h (hok op List.mem_cons_self)
    obtain ⟨c', hr, hI', hK'⟩ := ih hI fun op hm => hok op (List.mem_cons_of_mem _ hm)
    refine ⟨c', by rw [run, hs]; exact hr, hI', fun v o he hh => ?_⟩
    exact hK' v o (fun op hm => he op (List.mem_cons_of_mem _ hm))
      (hK v o (he op List.mem_cons_self) hh)

/-- **Lifetimes in the cache.** After every run of calls: the values given to the cache are those
released and those still held, each once; nothing that was handed out has been released before its
owner, or its root, went; a detach releases nothing and stops the named getters in its scope; and
purging a root leaves nothing of it and everything of the others. -/
theorem cache_lifetimes (isStr : Nat → Bytes → Bool) (ops : List (Op α))
    (hok : ∀ op ∈ ops, op.Allowed isStr) :
    ∃ c, run {} ops = some c ∧
      (c.released.map (·.2) ++ c.held.map (·.num)).Perm (List.range c.next) ∧
      (∀ pre op post c₁ c₂ v o, ops = pre ++ op :: post → run {} pre = some c₁ →
        step c₁ op = some (c₂, some v) → op.handsOut = some o → (∀ op' ∈ post, ¬op'.Ends o) →
        v ∉ c.released.map (·.2)) ∧
      (∀ owner wholeRoot keys,
        Detaches c (c.arpcDetach owner wholeRoot keys) owner wholeRoot keys) ∧
      ∀ handle, Purges c (c.arpcPurgeRoot handle) (arpcRoot handle) := by
  obtain ⟨c, hr, hI, -⟩ := run_spec Inv.empty hok
  refine ⟨c, hr, hI.nums, ?_, fun owner wholeRoot keys => arpcDetach_detaches c owner wholeRoot keys,
    fun handle => arpcPurgeRoot_purges hI handle⟩
  rintro pre op post c₁ c₂ v o rfl hpre hop ho hpost
  have hok₁ : ∀ op ∈ pre, op.Allowed isStr := fun op hm => hok op (List.mem_append_left _ hm)
  have hok₂ : ∀ op ∈ post, op.Allowed isStr := fun op hm =>
    hok op (List.mem_append_right _ (List.mem_cons_of_mem _ hm))
  obtain ⟨c₁', hr₁, hI₁, -⟩ := run_spec Inv.empty hok₁
  rw [hpre] at hr₁
  cases hr₁
  obtain ⟨c₂', r, hs, hI₂, hout, -⟩ :=
    step_spec hI₁ (hok op (List.mem_append_right _ List.mem_cons_self))
  rw [hop] at hs
  cases hs
  obtain ⟨c', hr₂, hI', hK⟩ := run_spec hI₂ hok₂
  have hc : c' = c := by
    rw [run_append, hpre, Option.bind_some, run, hop] at hr
    exact Option.some_inj.1 (hr₂.symm.trans hr)
  subst hc
  exact hI'.not_released (hK v o hpost (hout o v ho rfl))

/-- A borrowed list is cached, read, detached and fetched again. -/
def fetchedTwice : List (Op Unit) :=
  [.cache (mkId 1 1) (lit "alpm_get_syncdbs") () 1, .cached (mkId 1 1) (lit "alpm_get_syncdbs"),
    .intern (mkId 1 1) (lit "alpm_option_get_root") (some (lit "/")),
    .detach (mkId 1 1) false [lit "alpm_get_syncdbs"],
    .cache (mkId 1 1) (lit "alpm_get_syncdbs") () 1, .register [mkId 1 2, mkId 1 3]]

theorem cache_lifetimes_fetchedTwice :
    (∀ op ∈ fetchedTwice, op.Allowed fun _ key => key == lit "alpm_option_get_root") ∧
      ∃ c, run {} fetchedTwice = some c ∧
        (c.released.map (·.2) ++ c.held.map (·.num)).Perm (List.range c.next) ∧
        ∀ handle, Purges c (c.arpcPurgeRoot handle) (arpcRoot handle) := by
  have hok : ∀ op ∈ fetchedTwice, op.Allowed fun _ key => key == lit "alpm_option_get_root" := by
    intro op hm
    simp only [fetchedTwice, List.mem_cons, List.not_mem_nil, or_false] at hm
    rcases hm with rfl | rfl | rfl | rfl | rfl | rfl
    · rfl
    · trivial
    · rfl
    · trivial
    · rfl
    · unfold Op.Allowed
      decide +kernel
  obtain ⟨c, hr, hn, -, -, hp⟩ := cache_lifetimes _ fetchedTwice hok
  exact ⟨hok, c, hr, hn, hp⟩

end Cache

end Client
