import AlpmRpc.Server.Proof.TableIndex

/-!
# The handle table refines a finite map

`Rep t a`: the table `t` represents the registry `a`. Every lookup of the table ends and answers as
the registry does (`Rep.find`, `Rep.findPtr`, `Rep.under`, `Rep.get`, `Rep.ancestor`), and every
operation ends in a table that represents the registry's own result (`Rep.put`, `Rep.adopt`,
`Rep.drop`, `Rep.dropOwner`, `Rep.dropUnder`, `Rep.dropPtr`, `Rep.reset`). Growth and the drops go
through `Rep.rebuild`, whose loop is `rebuild_fold`.
-/

set_option autoImplicit false

namespace Server

open Wire

/-- `t` represents `a` (module doc). -/
structure Rep (t : Table) (a : Reg) : Prop where
  wf : a.Wf
  held : t.cap ≠ 0 → Holds t.tab t.byptr t.cap a.live
  none : t.cap = 0 → a.live = []
  capMin : t.cap ≠ 0 → 256 ≤ t.cap
  used : t.used = a.live.length
  load : t.cap ≠ 0 → t.used * 4 < t.cap * 3
  nextSeq : t.nextSeq = a.nextSeq
  nextRoot : t.nextRoot = a.nextRoot
  released : t.released.Perm a.released

theorem Rep.empty : Rep {} {} := by
  constructor <;> simp [Reg.Wf.empty]

/-- Below three quarters of the table, a cell is free. -/
theorem Rep.room {t : Table} {a : Reg} (h : Rep t a) (hc : t.cap ≠ 0) : a.live.length < t.cap := by
  have := h.load hc
  rw [h.used] at this
  omega

/-! ## Lookup -/

theorem Rep.find {t : Table} {a : Reg} (h : Rep t a) (id : Nat) :
    ∃ r, Server.find t id = some r ∧ r.map t.tab = a.find id ∧
      ∀ i, r = some i → (t.tab i).id ≠ 0 := by
  unfold Server.find
  by_cases h0 : id = 0
  · subst h0
    exact ⟨.none, by simp, by simp [Reg.find_zero h.wf], by simp⟩
  by_cases hc : t.cap = 0
  · exact ⟨.none, by simp [hc], by simp [Reg.find, h.none hc], by simp⟩
  have hH := h.held hc
  cases hf : a.find id with
  | some s =>
    obtain ⟨hm, rfl⟩ := (Reg.find_eq_some h.wf).1 hf
    obtain ⟨hne, i, rfl⟩ := (hH.mem s).1 hm
    exact ⟨some i, by simp [h0, hc, hH.slotFor_hit hne], rfl, by simpa using hne⟩
  | none =>
    have hnot : id ∉ a.live.map (·.id) := by
      simpa using fun s hs => Reg.find_eq_none.1 hf s hs
    obtain ⟨d, -, hs, hfree, -⟩ := hH.slotFor_miss (h.room hc) h0 hnot
    refine ⟨.none, ?_, rfl, by simp⟩
    rw [if_neg (by simp [h0, hc]), hs]
    simp [idCell_none.1 hfree, Ne.symm h0]

theorem Rep.findPtr {t : Table} {a : Reg} (h : Rep t a) {p : Nat} (hp : p ≠ 0) (tag : HandleTag) :
    ∃ r, Server.findPtr t p tag = some r ∧ r.map t.tab = a.findPtr p tag ∧
      ∀ i, r = some i → (t.tab i).id ≠ 0 := by
  unfold Server.findPtr
  by_cases hc : t.cap = 0
  · exact ⟨.none, by simp [hc], by simp [Reg.findPtr, h.none hc], by simp⟩
  have hH := h.held hc
  cases hf : a.findPtr p tag with
  | some s =>
    obtain ⟨hm, rfl, rfl⟩ := (Reg.findPtr_eq_some h.wf).1 hf
    obtain ⟨hne, i, rfl⟩ := (hH.mem s).1 hm
    obtain ⟨j, hj, hji⟩ := hH.ptrFor_hit hne
    exact ⟨some i, by simp [hp, hc, hj, hji], rfl, by simpa using hne⟩
  | none =>
    have hnot : (p, tag) ∉ a.live.map fun s => (s.ptr, s.tag) := by
      simpa using fun s hs => Reg.findPtr_eq_none.1 hf s hs
    obtain ⟨d, -, hs, hfree, -⟩ := hH.ptrFor_miss (h.room hc) hnot
    refine ⟨.none, ?_, rfl, by simp⟩
    rw [if_neg (by simp [hp, hc]), hs]
    simp [ptrCell_none.1 hfree]

theorem Rep.ownerOf {t : Table} {a : Reg} (h : Rep t a) (id : Nat) :
    Server.ownerOf t id = some (a.ownerOf id) := by
  obtain ⟨r, hr, hm, -⟩ := h.find id
  cases r with
  | none => simp [Server.ownerOf, Reg.ownerOf, hr, ← hm]
  | some i => simp [Server.ownerOf, Reg.ownerOf, hr, ← hm]

theorem Rep.underLoop {t : Table} {a : Reg} (h : Rep t a) (o depth id : Nat) :
    Server.underLoop t o depth id = some (a.underLoop o depth id) := by
  induction depth generalizing id with
  | zero => rfl
  | succ depth ih =>
    unfold Server.underLoop Reg.underLoop
    split
    · rfl
    · split
      · rfl
      · simp [h.ownerOf, ih]

theorem Rep.under {t : Table} {a : Reg} (h : Rep t a) (id o : Nat) :
    Server.under t id o = some (a.under id o) := h.underLoop o 8 id

theorem Rep.get {t : Table} {a : Reg} (h : Rep t a) (id : Nat) (tag : HandleTag) :
    arpcHandleGet t id tag = some (a.get id tag) := by
  obtain ⟨r, hr, hm, -⟩ := h.find id
  cases r with
  | none => simp [arpcHandleGet, Reg.get, hr, ← hm]
  | some i => simp [arpcHandleGet, Reg.get, hr, ← hm]

theorem Rep.ancestorLoop {t : Table} {a : Reg} (h : Rep t a) (tag : HandleTag)
    (depth id top : Nat) :
    Server.ancestorLoop t tag depth id top = some (a.ancestorLoop tag depth id top) := by
  induction depth generalizing id top with
  | zero => rfl
  | succ depth ih =>
    unfold Server.ancestorLoop Reg.ancestorLoop
    split
    · rfl
    · obtain ⟨r, hr, hm, -⟩ := h.find id
      cases r with
      | none => simp [hr, ← hm]
      | some i =>
        simp only [hr, ← hm, Option.map_some, Option.bind_eq_bind, Option.bind_some]
        split <;> simp [ih]

theorem Rep.ancestor {t : Table} {a : Reg} (h : Rep t a) (id : Nat) (tag : HandleTag) :
    arpcAncestor t id tag = some (a.ancestor id tag) := h.ancestorLoop tag 8 id id

/-! ## Rebuilding -/

/-- The loop of `rebuild` over the old slots `L`, from arrays that hold `l`. -/
theorem rebuild_fold (ncap : Nat) (keep : Slot → Option Bool) (k : Slot → Bool) (L : List Slot)
    (r : Rebuilt) (l : List Slot) (hH : Holds r.nt r.np ncap l) (hu : r.used = l.length)
    (hid : ((l ++ L.filter fun s => s.id ≠ 0).map (·.id)).Nodup)
    (hobj : ((l ++ L.filter fun s => s.id ≠ 0).map fun s => (s.ptr, s.tag)).Nodup)
    (hk : ∀ s ∈ L, s.id ≠ 0 → keep s = some (k s))
    (hlen : l.length + (L.filter fun s => s.id ≠ 0).length ≤ ncap) :
    ∃ r', L.foldlM (rebuildSlot ncap keep) r = some r' ∧
      Holds r'.nt r'.np ncap (l ++ (L.filter fun s => s.id ≠ 0).filter k) ∧
      r'.used = (l ++ (L.filter fun s => s.id ≠ 0).filter k).length ∧
      r'.released = r.released ++ (((L.filter fun s => s.id ≠ 0).filter
        fun s => !k s && s.release != 0).map fun s => (s.release, s.ptr)) := by
  induction L generalizing r l with
  | nil => exact ⟨r, rfl, by simpa using hH, by simpa using hu, by simp⟩
  | cons s L ih =>
    have hkL : ∀ s' ∈ L, s'.id ≠ 0 → keep s' = some (k s') := fun s' hs' => hk s' (.tail _ hs')
    by_cases h0 : s.id = 0
    · have e : (s :: L).filter (fun s => s.id ≠ 0) = L.filter fun s => s.id ≠ 0 := by simp [h0]
      rw [e] at hid hobj hlen ⊢
      obtain ⟨r', hr', h⟩ := ih r l hH hu hid hobj hkL hlen
      exact ⟨r', by simpa [rebuildSlot, h0] using hr', h⟩
    have e : (s :: L).filter (fun s => s.id ≠ 0) = s :: L.filter fun s => s.id ≠ 0 := by simp [h0]
    rw [e] at hid hobj hlen ⊢
    have hks := hk s (.head _) h0
    cases hkv : k s with
    | false =>
      -- the slot goes: its release function is called
      have hsub := ((List.sublist_cons_self s (L.filter fun s => s.id ≠ 0)).append_left l)
      by_cases hrel : s.release = 0
      · obtain ⟨r', hr', h1, h2, h3⟩ := ih r l hH hu (hid.sublist (hsub.map _))
          (hobj.sublist (hsub.map _)) hkL (by simp at hlen ⊢; omega)
        refine ⟨r', ?_, by simpa [hkv] using h1, by simpa [hkv] using h2, by simpa [hkv, hrel] using h3⟩
        simpa [rebuildSlot, h0, hks, hkv, hrel] using hr'
      · obtain ⟨r', hr', h1, h2, h3⟩ := ih { r with released := r.released ++ [(s.release, s.ptr)] } l
          hH hu (hid.sublist (hsub.map _)) (hobj.sublist (hsub.map _)) hkL (by simp at hlen ⊢; omega)
        refine ⟨r', ?_, by simpa [hkv] using h1, by simpa [hkv] using h2, by simpa [hkv, hrel] using h3⟩
        simpa [rebuildSlot, h0, hks, hkv, hrel] using hr'
    | true =>
      -- the slot stays: it is inserted into the new arrays
      have hid' : s.id ∉ l.map (·.id) := by
        intro hm
        rw [List.map_append, List.map_cons, List.nodup_append] at hid
        exact hid.2.2 _ hm _ (.head _) rfl
      have hobj' : (s.ptr, s.tag) ∉ l.map fun s => (s.ptr, s.tag) := by
        intro hm
        rw [List.map_append, List.map_cons, List.nodup_append] at hobj
        exact hobj.2.2 _ hm _ (.head _) rfl
      obtain ⟨i, np, hi, hnp, hH'⟩ := hH.insert (by simp at hlen; omega) h0 hid' hobj'
      obtain ⟨r', hr', h1, h2, h3⟩ := ih
        { r with nt := Function.update r.nt i s, np, used := r.used + 1 } (l ++ [s]) hH'
        (by simp [hu]) (by simpa using hid) (by simpa using hobj) hkL (by simp at hlen ⊢; omega)
      refine ⟨r', ?_, by simpa [hkv] using h1, by simpa [hkv] using h2, by simpa [hkv] using h3⟩
      simpa [rebuildSlot, h0, hks, hkv, hi, hnp] using hr'

/-- The slots of the table's array, in slot order, are the registry's. -/
theorem Rep.slots_perm {t : Table} {a : Reg} (h : Rep t a) :
    (((List.range t.cap).map t.tab).filter fun s => s.id ≠ 0).Perm a.live := by
  by_cases hc : t.cap = 0
  · simp [hc, h.none hc]
  have hH := h.held hc
  have hnd : (((List.range t.cap).map t.tab).filter fun s => s.id ≠ 0).Nodup := by
    rw [List.filter_map]
    refine List.Nodup.map_on (fun i hi j hj he => ?_) (List.nodup_range.filter _)
    simp only [List.mem_filter, Function.comp_apply, decide_eq_true_eq] at hi
    exact hH.id_inj hi.2 (by rw [he])
  refine (List.perm_ext_iff_of_nodup hnd h.wf.ids.of_map).2 fun s => ?_
  simp only [List.mem_filter, List.mem_map, List.mem_range, hH.mem, decide_eq_true_eq]
  constructor
  · rintro ⟨⟨i, -, rfl⟩, hne⟩
    exact ⟨hne, i, rfl⟩
  · rintro ⟨hne, i, rfl⟩
    exact ⟨⟨i, hH.slot_lt hne, rfl⟩, hne⟩

/-- **`rebuild`** keeps the slots `keep` accepts and calls the others' release functions. -/
theorem Rep.rebuild {t : Table} {a : Reg} (h : Rep t a) (ncap : Nat) (keep : Slot → Option Bool)
    (k : Slot → Bool) (hk : ∀ s ∈ a.live, keep s = some (k s)) (hpow : ∃ n, ncap = 2 ^ n)
    (hmin : 256 ≤ ncap) (hload : a.live.length * 4 < ncap * 3) :
    ∃ t', Server.rebuild t ncap keep = some t' ∧ t'.cap = ncap ∧ Rep t' (a.filter k) := by
  have hperm := h.slots_perm
  generalize hL : (List.range t.cap).map t.tab = L at hperm
  obtain ⟨r, hr, hH, hu, hrel⟩ := rebuild_fold ncap keep k L
    { released := t.released } [] (.empty hpow) rfl
    (by simpa using (hperm.map (·.id)).nodup_iff.2 h.wf.ids)
    (by simpa using (hperm.map fun s => (s.ptr, s.tag)).nodup_iff.2 h.wf.objs)
    (fun s hs h0 => hk s (hperm.mem_iff.1 (by simp [hs, h0])))
    (by have := hperm.length_eq; simp only [List.length_nil]; omega)
  rw [List.nil_append] at hH hu
  have hfp := hperm.filter k
  refine ⟨_, by simp [Server.rebuild, ← hL, List.foldlM_map] at hr ⊢; rw [hr]; rfl, rfl, ?_⟩
  refine ⟨h.wf.filter k, fun _ => ?_, fun hc => ?_, fun _ => hmin, ?_, fun _ => ?_, h.nextSeq,
    h.nextRoot, ?_⟩
  · exact ⟨hH.pow, hH.idC, hH.ptrC, fun s => hfp.mem_iff.symm.trans (hH.mem s), hH.back, hH.fwd⟩
  · simp only at hc; omega
  · exact hu.trans hfp.length_eq
  · have := hfp.length_eq
    have := (List.filter_sublist (p := k) (l := a.live)).length_le
    simp only [hu]
    omega
  · simp only [hrel, Reg.filter]
    exact h.released.append ((hperm.filter _).map _)

/-! ## Putting -/

/-- The table has room for one more slot after `grow`, and holds what it held. -/
theorem Rep.grow {t : Table} {a : Reg} (h : Rep t a) :
    ∃ t', Server.grow t = some t' ∧ Rep t' a ∧ t'.cap ≠ 0 ∧ (t'.used + 1) * 4 < t'.cap * 3 := by
  have hall : a.filter (fun _ => true) = a := by simp [Reg.filter]
  unfold Server.grow
  by_cases hg : (t.used + 1) * 4 ≥ t.cap * 3
  · rw [if_pos hg]
    by_cases hc : t.cap = 0
    · obtain ⟨t', ht', hcap, hR⟩ := h.rebuild 256 (fun _ => some true)
        (fun _ => true) (fun _ _ => rfl) ⟨8, rfl⟩ (by omega) (by simp [h.none hc])
      rw [hall] at hR
      refine ⟨t', by simpa [hc] using ht', hR, by omega, ?_⟩
      rw [hR.used, h.none hc, hcap]
      decide
    · obtain ⟨n, hn⟩ := (h.held hc).pow
      have hmin := h.capMin hc
      have hload := h.load hc
      rw [h.used] at hload
      obtain ⟨t', ht', hcap, hR⟩ := h.rebuild (t.cap * 2) (fun _ => some true)
        (fun _ => true) (fun _ _ => rfl) ⟨n + 1, by rw [hn]; rfl⟩ (by omega) (by omega)
      rw [hall] at hR
      refine ⟨t', by simpa [hc] using ht', hR, by omega, ?_⟩
      rw [hR.used, hcap]
      omega
  · rw [if_neg hg]
    exact ⟨t, rfl, h, by omega, by omega⟩

theorem Rep.modify {t : Table} {a : Reg} (h : Rep t a) {i : Nat} (hi : (t.tab i).id ≠ 0)
    (hc : t.cap ≠ 0) (f : Slot → Slot) (hid : ∀ s, (f s).id = s.id)
    (hptr : ∀ s, (f s).ptr = s.ptr) (htag : ∀ s, (f s).tag = s.tag) :
    Rep { t with tab := Function.update t.tab i (f (t.tab i)) } (a.modify (t.tab i).id f) where
  wf := h.wf.modify _ hid hptr htag
  held _ := (h.held hc).modify hi f hid hptr htag
  none h0 := absurd h0 hc
  capMin := h.capMin
  used := by simp [h.used, Reg.modify]
  load := h.load
  nextSeq := h.nextSeq
  nextRoot := h.nextRoot
  released := h.released

/-- A slot found says that the table is allocated. -/
theorem cap_ne_of_find {t : Table} {id i : Nat} (h : Server.find t id = some (some i)) :
    t.cap ≠ 0 := by
  intro hc
  simp [Server.find, hc] at h

theorem cap_ne_of_findPtr {t : Table} {p i : Nat} {tag : HandleTag}
    (h : Server.findPtr t p tag = some (some i)) : t.cap ≠ 0 := by
  intro hc
  simp [Server.findPtr, hc] at h

/-- The registry with a slot for an object it did not have. -/
def Reg.withNew (a : Reg) (p : Nat) (tag : HandleTag) (owner : Nat) : Reg :=
  { a with
    live := a.live ++ [{ id := mkId (newRoot a.nextRoot owner tag).1 a.nextSeq, ptr := p, owner, tag,
                         release := 0 }]
    nextSeq := (a.nextSeq + 1) % 2 ^ 64
    nextRoot := (newRoot a.nextRoot owner tag).2 }

/-- The end of a put, whatever the counters, as long as the new id is free. -/
theorem Rep.putNew {t : Table} {a : Reg} (h : Rep t a) {p : Nat} {tag : HandleTag} {owner : Nat}
    (hwf : (a.withNew p tag owner).Wf) :
    ∃ t', Server.putNew t p tag owner =
        some (t', mkId (newRoot a.nextRoot owner tag).1 a.nextSeq) ∧
      Rep t' (a.withNew p tag owner) := by
  obtain ⟨t1, ht1, h1, hc1, hload⟩ := h.grow
  simp only [Server.putNew, ht1, Option.bind_eq_bind, Option.bind_some, h1.nextSeq, h1.nextRoot]
  have hid : mkId (newRoot a.nextRoot owner tag).1 a.nextSeq ∉ a.live.map (·.id) := by
    have := hwf.ids
    rw [Reg.withNew, List.map_append, List.nodup_append] at this
    exact fun hm' => this.2.2 _ hm' _ (.head _) rfl
  have hobj : (p, tag) ∉ a.live.map fun s => (s.ptr, s.tag) := by
    have := hwf.objs
    rw [Reg.withNew, List.map_append, List.nodup_append] at this
    exact fun hm' => this.2.2 _ hm' _ (.head _) rfl
  have hne : mkId (newRoot a.nextRoot owner tag).1 a.nextSeq ≠ 0 :=
    hwf.id_ne _ (List.mem_append_right _ List.mem_cons_self)
  obtain ⟨i, byptr, hi, hby, hH⟩ := (h1.held hc1).insert (h1.room hc1)
    (s := { id := mkId (newRoot a.nextRoot owner tag).1 a.nextSeq, ptr := p, owner, tag,
            release := 0 }) hne hid hobj
  refine ⟨_, by simp only [hi, hby, Option.bind_some]; rfl, ?_⟩
  refine ⟨hwf, fun _ => hH, fun h0 => absurd h0 hc1, h1.capMin, ?_, fun _ => hload, ?_, rfl,
    h1.released⟩
  · simp [h1.used, Reg.withNew]
  · simp [Reg.withNew]

theorem Rep.put {t : Table} {a : Reg} (h : Rep t a) (p : Nat) (tag : HandleTag) (owner : Nat)
    (hb : (a.put p tag owner).1.nextSeq ≠ a.nextSeq → a.nextSeq < 2 ^ 40) :
    ∃ t', arpcHandlePut t p tag owner = some (t', (a.put p tag owner).2) ∧
      Rep t' (a.put p tag owner).1 := by
  unfold arpcHandlePut Reg.put
  by_cases hp : p = 0
  · exact ⟨t, by simp [hp], by simpa [hp] using h⟩
  obtain ⟨r, hr, hm, hne⟩ := h.findPtr hp tag
  simp only [hp, if_false, hr, ← hm, Option.bind_eq_bind, Option.bind_some]
  cases r with
  | some i =>
    have hi := hne i rfl
    have hc := cap_ne_of_findPtr hr
    simp only [h.under, Option.map_some, Option.bind_some]
    by_cases ho : owner ≠ 0 ∧ owner ≠ (t.tab i).owner ∧ a.under owner (t.tab i).owner = true
    · rw [if_pos ho, if_pos ho]
      exact ⟨_, rfl, h.modify hi hc (fun s => { s with owner }) (fun _ => rfl) (fun _ => rfl)
        fun _ => rfl⟩
    · rw [if_neg ho, if_neg ho]
      exact ⟨t, rfl, h⟩
  | none =>
    have hnone : a.findPtr p tag = .none := hm.symm.trans rfl
    have hnew := Reg.findPtr_eq_none.1 hnone
    replace hb : a.nextSeq < 2 ^ 40 := hb fun he => by
      simp only [Reg.put, hp, hnone, if_false] at he
      omega
    exact h.putNew (h.wf.append owner _ _ hp hnew hb)

theorem Rep.adopt {t : Table} {a : Reg} (h : Rep t a) (p owner release : Nat)
    (hb : (a.adopt p owner release).1.nextSeq ≠ a.nextSeq → a.nextSeq < 2 ^ 40) :
    ∃ t', arpcHandleAdopt t p owner release = some (t', (a.adopt p owner release).2) ∧
      Rep t' (a.adopt p owner release).1 := by
  obtain ⟨t1, ht1, h1⟩ := h.put p .none owner hb
  obtain ⟨r, hr, hm, hne⟩ := h1.find (a.put p .none owner).2
  simp only [arpcHandleAdopt, ht1, Option.bind_eq_bind, Option.bind_some, hr, Reg.adopt]
  cases r with
  | some i =>
    have hid : (t1.tab i).id = (a.put p .none owner).2 :=
      ((Reg.find_eq_some h1.wf).1 hm.symm).2
    refine ⟨_, rfl, ?_⟩
    rw [← hid]
    exact h1.modify (hne i rfl) (cap_ne_of_find hr) (fun s => { s with release }) (fun _ => rfl)
      (fun _ => rfl) fun _ => rfl
  | none =>
    refine ⟨t1, rfl, ?_⟩
    have hno := Reg.find_eq_none.1 (hm.symm.trans rfl)
    have e : (a.put p .none owner).1.modify (a.put p .none owner).2 (fun s => { s with release }) =
        (a.put p .none owner).1 := by
      have : (a.put p .none owner).1.live.map (fun s =>
          if s.id = (a.put p .none owner).2 then { s with release } else s) =
          (a.put p .none owner).1.live :=
        (List.map_congr_left fun s hs => if_neg (hno s hs)).trans (List.map_id _)
      rw [Reg.modify, this]
    rw [e]
    exact h1

/-! ## Dropping -/

theorem Rep.dropMatching {t : Table} {a : Reg} (h : Rep t a) (keep : Slot → Option Bool)
    (k : Slot → Bool) (hk : ∀ s ∈ a.live, keep s = some (k s)) :
    ∃ t', Server.dropMatching t keep = some t' ∧ Rep t' (a.filter k) := by
  unfold Server.dropMatching
  by_cases hc : t.cap = 0
  · refine ⟨t, by simp [hc], ?_⟩
    have e : a.filter k = a := by
      have := h.none hc
      cases a
      simp_all [Reg.filter]
    rw [e]
    exact h
  · have hload := h.load hc
    rw [h.used] at hload
    obtain ⟨t', ht', -, hR⟩ := h.rebuild t.cap keep k hk (h.held hc).pow (h.capMin hc) hload
    exact ⟨t', by simpa [hc] using ht', hR⟩

theorem Rep.drop {t : Table} {a : Reg} (h : Rep t a) (id : Nat) :
    ∃ t', arpcHandleDrop t id = some t' ∧ Rep t' (a.drop id) := by
  obtain ⟨r, hr, hm, -⟩ := h.find id
  cases r with
  | some i =>
    obtain ⟨t', ht', hR⟩ := h.dropMatching (keepNot id) (fun s => s.id ≠ id) fun _ _ => rfl
    exact ⟨t', by simp [arpcHandleDrop, hr, ht'], hR⟩
  | none =>
    have hno := Reg.find_eq_none.1 (hm.symm.trans rfl)
    refine ⟨t, by simp [arpcHandleDrop, hr], ?_⟩
    have e1 : a.live.filter (fun s => s.id ≠ id) = a.live :=
      List.filter_eq_self.2 fun s hs => by simp [hno s hs]
    have e2 : a.live.filter (fun s => !decide (s.id ≠ id) && s.release != 0) = [] :=
      List.filter_eq_nil_iff.2 fun s hs => by simp [hno s hs]
    have e : a.drop id = a := by
      rw [Reg.drop, Reg.filter, e1, e2, List.map_nil, List.append_nil]
    rw [e]
    exact h

theorem Rep.dropOwner {t : Table} {a : Reg} (h : Rep t a) (o : Nat) :
    ∃ t', arpcHandleDropOwner t o = some t' ∧ Rep t' (a.dropOwner o) := by
  unfold arpcHandleDropOwner Reg.dropOwner
  by_cases ho : o = 0
  · exact ⟨t, by simp [ho], by simpa [ho] using h⟩
  · rw [if_neg ho, if_neg ho]
    exact h.dropMatching _ _ fun s _ => by simp [keepOutside, h.under]

theorem Rep.dropUnder {t : Table} {a : Reg} (h : Rep t a) (o : Nat) :
    ∃ t', arpcHandleDropUnder t o = some t' ∧ Rep t' (a.dropUnder o) := by
  unfold arpcHandleDropUnder Reg.dropUnder
  by_cases ho : o = 0
  · exact ⟨t, by simp [ho], by simpa [ho] using h⟩
  · rw [if_neg ho, if_neg ho]
    refine h.dropMatching _ _ fun s _ => ?_
    unfold keepOutsideOrSelf
    split
    · simp [*]
    · simp [*, h.under]

theorem Rep.dropPtr {t : Table} {a : Reg} (h : Rep t a) (p : Nat) (tag : HandleTag) :
    ∃ t', arpcHandleDropPtr t p tag = some t' ∧ Rep t' (a.dropPtr p tag) := by
  unfold arpcHandleDropPtr Reg.dropPtr
  by_cases hp : p = 0
  · exact ⟨t, by simp [Server.findPtr, hp], by simpa [hp] using h⟩
  obtain ⟨r, hr, hm, -⟩ := h.findPtr hp tag
  simp only [hr, ← hm, hp, if_false, Option.bind_eq_bind, Option.bind_some]
  cases r with
  | some i => exact h.dropOwner (t.tab i).id
  | none => exact ⟨t, rfl, h⟩

/-- The release calls of a reset are those of the slots that have a release function. -/
theorem Rep.resetCalls_perm {t : Table} {a : Reg} (h : Rep t a) :
    (resetCalls t).Perm ((a.live.filter fun s => s.release != 0).map
      fun s => (s.release, s.ptr)) := by
  have e : resetCalls t = ((((List.range t.cap).map t.tab).filter fun s => s.id ≠ 0).filter
      fun s => s.release != 0).map fun s => (s.release, s.ptr) := by
    rw [List.filter_filter, List.filter_map, List.map_map, ← List.filterMap_eq_map,
      ← List.filterMap_eq_filter, List.filterMap_filterMap]
    refine List.filterMap_congr fun i _ => ?_
    by_cases h1 : (t.tab i).id = 0 <;> by_cases h2 : (t.tab i).release = 0 <;>
      simp [h1, h2, Option.guard]
  rw [e]
  exact (h.slots_perm.filter _).map _

theorem Rep.reset {t : Table} {a : Reg} (h : Rep t a) : Rep (arpcHandleReset t) a.reset := by
  refine ⟨h.wf.filter _, fun h0 => absurd rfl h0, fun _ => by simp [Reg.reset, Reg.filter],
    fun h0 => absurd rfl h0, by simp [Reg.reset, Reg.filter, arpcHandleReset],
    fun h0 => absurd rfl h0, h.nextSeq, h.nextRoot, ?_⟩
  simp only [arpcHandleReset, Reg.reset, Reg.filter, Bool.not_false, Bool.true_and]
  exact h.released.append h.resetCalls_perm

end Server
