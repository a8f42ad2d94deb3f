import AlpmRpc.Client.Proof.Cache
import AlpmRpc.Gen.Proof.Invalidate
import AlpmRpc.Session.Coherence

/-!
# Cached results are current

* An id that was issued stands for the object it stood for, or for none (`has_of_exec`); a list whose
  objects have ids is answered with these (`execs_named`).
* What a call may change, its rules detach (`Touches.covered`), but for a sysupgrade's.
* So what is cached is what libalpm has, in ids that are live (`Inv`).
-/

set_option autoImplicit false

namespace Session

namespace Coherence

open Json Gen Server Client Wire Run

/-! ## Ids over calls of the table -/

section Table

variable {a : Reg} {tag : HandleTag}

/-- An id that was issued before a call has the object after it that it had before. -/
theorem has_of_exec (h : a.Wf) {op : Op} (hb : a.nextSeq + a.issues op ≤ 2 ^ 40) {id p : Nat}
    (hid : id % 2 ^ 40 < a.nextSeq) (hh : (a.exec op).1.Has id p tag) : a.Has id p tag := by
  have hfilter : ∀ {k : Slot → Bool}, (a.filter k).Has id p tag → a.Has id p tag := by
    intro k hk
    obtain ⟨s, hs, -, hrest⟩ := Reg.has_filter.1 hk
    exact ⟨s, hs, hrest⟩
  have hput : ∀ {q : Nat} {t : HandleTag} {o : Nat},
      ((a.put q t o).1.nextSeq ≠ a.nextSeq → a.nextSeq < 2 ^ 40) →
      (a.put q t o).1.Has id p tag → a.Has id p tag := by
    intro q t o hlt hh
    by_cases hq : q = 0
    · subst hq
      exact hh
    rcases (Reg.has_put h hq o).1 hh with ⟨rfl, rfl, hr⟩ | hold
    · rcases Reg.put_cases t h hq o with ⟨s, hs, hp, ht, he, -⟩ | ⟨-, root, next, he, ha⟩
      · exact ⟨s, hs, he.symm.trans hr, hp, ht⟩
      · have hseq : a.nextSeq < 2 ^ 40 := by
          by_cases hlt40 : a.nextSeq < 2 ^ 40
          · exact hlt40
          · refine hlt ?_
            rw [ha]
            dsimp only
            omega
        rw [← hr, he, mkId_mod hseq] at hid
        exact absurd hid (Nat.lt_irrefl _)
    · exact hold
  have hlt : (a.exec op).1.nextSeq ≠ a.nextSeq → a.nextSeq < 2 ^ 40 := by
    intro hne
    rw [Reg.issues, if_neg hne] at hb
    omega
  cases op with
  | put q t o => exact hput hlt hh
  | adopt q o f =>
    have hm : ((a.put q .none o).1.modify (a.put q .none o).2 fun s => { s with release := f }).Has
        id p tag := hh
    exact hput hlt ((Reg.has_modify (f := fun s => { s with release := f }) (fun _ => rfl)
      (fun _ => rfl) fun _ => rfl).1 hm)
  | get i t => exact hh
  | ancestor i t => exact hh
  | drop i => exact hfilter hh
  | dropOwner o =>
    rw [Reg.exec, Reg.dropOwner] at hh
    split at hh
    · exact hh
    · exact hfilter hh
  | dropUnder o =>
    rw [Reg.exec, Reg.dropUnder] at hh
    split at hh
    · exact hh
    · exact hfilter hh
  | dropPtr q t =>
    rw [Reg.exec, Reg.dropPtr] at hh
    split at hh
    · exact hh
    · split at hh
      · rw [Reg.dropOwner] at hh
        split at hh
        · exact hh
        · exact hfilter hh
      · exact hh
  | reset => exact hfilter hh

theorem execs_cons (a : Reg) (op : Op) (ops : List Op) :
    execs a (op :: ops) =
      ((execs (a.exec op).1 ops).1, (a.exec op).2 :: (execs (a.exec op).1 ops).2) := rfl

/-- **The calls of a handler**: the forest stays, and an issued id has the object it had. -/
theorem AllowedAll.spec {ops : List Op} (h : a.Tree) (hok : AllowedAll a ops) :
    (execs a ops).1.Tree ∧ a.nextSeq ≤ (execs a ops).1.nextSeq ∧
      ∀ id p tag, id % 2 ^ 40 < a.nextSeq → (execs a ops).1.Has id p tag → a.Has id p tag := by
  induction ops generalizing a with
  | nil => exact ⟨h, Nat.le_refl _, fun _ _ _ _ hh => hh⟩
  | cons op ops ih =>
    obtain ⟨hop, hb, hrest⟩ := hok
    have hn := Reg.nextSeq_exec hb
    obtain ⟨ht, hle, hold⟩ := ih (h.exec hop hb) hrest
    rw [execs_cons]
    refine ⟨ht, ?_, fun id p tag hid hh => ?_⟩
    · dsimp only
      omega
    · exact has_of_exec h.wf hb hid (hold id p tag (by omega) hh)

/-- The objects `objs` have the ids `ids`. -/
def Named (a : Reg) (tag : HandleTag) : List Nat → List Nat → Prop :=
  List.Forall₂ fun i q => (q = 0 ∧ i = 0) ∨ a.Has i q tag

theorem Named.mono {a' : Reg} {ids objs : List Nat} (hn : Named a tag ids objs)
    (hk : ∀ i ∈ ids, ∀ q, a.Has i q tag → a'.Has i q tag) : Named a' tag ids objs := by
  induction hn with
  | nil => exact .nil
  | @cons i q ids objs hiq _ ih =>
    refine .cons (hiq.imp id (hk i List.mem_cons_self q)) (ih fun j hj => ?_)
    exact hk j (List.mem_cons_of_mem _ hj)

theorem put_null (a : Reg) (tag : HandleTag) (o : Nat) : a.put 0 tag o = (a, 0) := by
  simp [Reg.put]

/-- The put of an object that has an id. -/
theorem put_has (h : a.Wf) {i q : Nat} (hh : a.Has i q tag) (o : Nat) :
    (a.put q tag o).2 = i ∧ (a.put q tag o).1.Wf ∧
      ∀ id p t, (a.put q tag o).1.Has id p t ↔ a.Has id p t := by
  obtain ⟨s, hs, rfl, rfl, rfl⟩ := hh
  rcases Reg.put_cases s.tag h (h.ptr_ne s hs) o with ⟨s', hs', hp, ht, he, ha⟩ | ⟨hno, -⟩
  · cases h.obj_inj hs' hs hp ht
    refine ⟨he, ?_⟩
    rcases ha with ha | ha
    · rw [ha]
      exact ⟨h, fun _ _ _ => Iff.rfl⟩
    · rw [ha]
      exact ⟨h.modify s.id (fun _ => rfl) (fun _ => rfl) fun _ => rfl,
        fun _ _ _ => Reg.has_modify (fun _ => rfl) (fun _ => rfl) fun _ => rfl⟩
  · exact absurd ⟨rfl, rfl⟩ (hno s hs)

/-- **A list whose objects have ids** is answered with them. -/
theorem execs_named (h : a.Wf) {ids objs : List Nat} (hn : Named a tag ids objs) (o : Nat) :
    (execs a (objs.map fun q => .put q tag o)).2 = ids := by
  induction objs generalizing a ids with
  | nil =>
    cases hn
    rfl
  | cons q objs ih =>
    obtain ⟨i, ids, hiq, hrest, rfl⟩ := List.forall₂_cons_right_iff.1 hn
    rw [List.map_cons, execs_cons]
    rcases hiq with ⟨rfl, rfl⟩ | hh
    · have he : a.exec (.put 0 tag o) = (a, 0) := put_null a tag o
      rw [he, ih h hrest]
    · obtain ⟨hr, hw, hkeep⟩ := put_has h hh o
      have hr' : (a.exec (.put q tag o)).2 = i := hr
      have hrest' : Named (a.exec (.put q tag o)).1 tag ids objs :=
        hrest.imp fun j x hj => hj.imp id (hkeep j x tag).2
      rw [hr', ih (a := (a.exec (.put q tag o)).1) hw hrest']

theorem execs_keeps (h : a.Tree) {objs : List Nat} {o : Nat}
    (hok : AllowedAll a (objs.map fun q => .put q tag o)) {id p : Nat} {t : HandleTag}
    (hh : a.Has id p t) : (execs a (objs.map fun q => .put q tag o)).1.Has id p t := by
  induction objs generalizing a with
  | nil => exact hh
  | cons q objs ih =>
    obtain ⟨hop, hb, hrest⟩ := hok
    rw [List.map_cons, execs_cons]
    refine ih (h.exec hop hb) hrest ?_
    by_cases hq : q = 0
    · subst hq
      have he : a.exec (.put 0 tag o) = (a, 0) := put_null a tag o
      rw [he]
      exact hh
    · exact (Reg.has_put h.wf hq o).2 (.inr hh)

/-- **A list that is handed out** is named by the answers. -/
theorem named_execs (h : a.Tree) {objs : List Nat} {o : Nat}
    (hok : AllowedAll a (objs.map fun q => .put q tag o)) :
    Named (execs a (objs.map fun q => .put q tag o)).1 tag
      (execs a (objs.map fun q => .put q tag o)).2 objs := by
  induction objs generalizing a with
  | nil => exact .nil
  | cons q objs ih =>
    obtain ⟨hop, hb, hrest⟩ := hok
    have ht := h.exec hop hb
    rw [List.map_cons, execs_cons]
    refine .cons ?_ (ih ht hrest)
    by_cases hq : q = 0
    · subst hq
      exact .inl ⟨rfl, congrArg Prod.snd (put_null a tag o)⟩
    · exact .inr (execs_keeps ht hrest ((Reg.has_put h.wf hq o).2 (.inl ⟨rfl, rfl, rfl⟩)))

theorem root_ancestorLoop (h : a.Tree) (n : Nat) {id top : Nat}
    (hr : id ≠ 0 → arpcRoot id = arpcRoot top) :
    arpcRoot (a.ancestorLoop tag n id top) = arpcRoot top := by
  induction n generalizing id top with
  | zero => rfl
  | succ n ih =>
    rw [Reg.ancestorLoop]
    split
    · rfl
    · rename_i h0
      split
      · rfl
      · rename_i s hf
        obtain ⟨hs, rfl⟩ := (Reg.find_eq_some h.wf).1 hf
        split
        · exact hr h0
        · rw [ih fun ho => (h.roots s hs ho).symm, hr h0]

/-- An id and what it belongs to have one root. -/
theorem root_ancestor (h : a.Tree) (id : Nat) : arpcRoot (a.ancestor id tag) = arpcRoot id :=
  root_ancestorLoop h 8 fun _ => rfl

end Table

/-! ## What a call detaches -/

section Detach

variable {σ δ : Type} {h : Header} {a : Reg} {c : Stub} {id : Nat} {g : Bytes} {inv : Entry}

/-- The owner `id` is in the scope of what a stub detaches. -/
def Covers (inv : Entry) (first : Nat) (lists : Bytes → List Nat) (id : Nat) : Prop :=
  match inv.under with
  | .self => id = first
  | .root => arpcRoot id = arpcRoot first
  | .each p => id ∈ lists p

theorem not_caret : ∀ g ∈ lit "alpm_get_syncdbs" :: (transKeys ++ dbKeys),
    g.head? ≠ some (ch '^') := by
  decide +kernel

/-- The calls that change a transaction, and the entries of the rules for them. -/
theorem transCalls_entries : ∀ f ∈ transCalls, changes f = true ∧
    ∃ u ∈ [Under.self, .root], ∃ ks ∈ [transKeys, transKeys ++ dbKeys],
      entryOf f = some ({ under := u, keys := ks }, false) := by
  decide +kernel

theorem syncdbs_entries :
    ∀ f ∈ [lit "alpm_register_syncdb", lit "alpm_unregister_all_syncdbs"], changes f = true ∧
      ∃ u ∈ [Under.self, .root], ∃ ks ∈ [[lit "alpm_get_syncdbs"],
        [lit "alpm_get_syncdbs", lit "^alpm_db_get_"]],
        entryOf f = some ({ under := u, keys := ks }, false) := by
  decide +kernel

/-- A setter of a getter that is generated. -/
theorem setter_covered {get x : Bytes} {r : Option Entry} (hg : g ∈ h.generated)
    (hs : (get = lit "alpm_option_get_" ∧ setterOf (lit "alpm_option_") c.fn = some x) ∨
      (get = lit "alpm_db_get_" ∧ setterOf (lit "alpm_db_") c.fn = some x))
    (hx : g ∈ gettersOf get x) (hr : invalidationOf h c.fn = some r) :
    ∃ inv, r = some inv ∧ inv.under = .self ∧ g ∈ inv.keys := by
  have hne : c.fn ≠ timeoutSetter := by
    intro he
    rw [he] at hs
    rcases hs with ⟨rfl, hs⟩ | ⟨-, hs⟩
    · have hx' : x = lit "disable_dl_timeout" := by
        have : setterOf (lit "alpm_option_") timeoutSetter = some (lit "disable_dl_timeout") := by
          decide +kernel
        exact Option.some_inj.1 (hs.symm.trans this)
      subst hx'
      obtain ⟨h1, h2⟩ := h.noTimeout g hg
      rcases List.mem_cons.1 hx with rfl | hx
      · exact h1 (by decide +kernel)
      · rw [List.mem_singleton.1 hx] at h2
        exact h2 (by decide +kernel)
    · have : setterOf (lit "alpm_db_") timeoutSetter = none := by decide +kernel
      rw [this] at hs
      cases hs
  have hcaret : g.head? ≠ some (ch '^') := by
    have hhead : ∀ y, (get ++ y).head? = some (ch 'a') := by
      intro y
      rcases hs with ⟨rfl, -⟩ | ⟨rfl, -⟩ <;> rfl
    rcases List.mem_cons.1 hx with rfl | hx
    · rw [hhead]
      decide
    · rw [List.mem_singleton.1 hx, List.append_assoc, hhead]
      decide
  obtain ⟨inv, hinv, hu, hk⟩ := invalidationOf_covers
    (changes_setter (hs.imp And.right And.right)) (entryOf_setter hne hs) hr
  exact ⟨inv, hinv, hu, hk g hg hx hcaret⟩

/-- **What a call may change, its rules detach**, unless it is a sysupgrade. -/
theorem Touches.covered (ht : a.Tree) (hT : Touches a c id g) (hg : g ∈ h.generated)
    (hs : c.fn ∉ sysupgrades) {r : Option Entry} (hr : invalidationOf h c.fn = some r) :
    ∃ first inv, c.first = some first ∧ r = some inv ∧ g ∈ inv.keys ∧
      Covers inv first c.lists id := by
  cases hT with
  | trans hf hgk ho =>
    obtain ⟨hn, u, hu, ks, hks, he⟩ := transCalls_entries c.fn (hf.resolve_right hs)
    obtain ⟨inv, hinv, hui, hk⟩ := invalidationOf_covers hn he hr
    have hc := not_caret g (List.mem_cons_of_mem _ (List.mem_append_left _ hgk))
    have hgks : g ∈ ks := by
      rcases List.mem_cons.1 hks with rfl | hks
      · exact hgk
      · rw [List.mem_singleton.1 hks]
        exact List.mem_append_left _ hgk
    refine ⟨id, inv, ho, hinv, hk g hg hgks hc, ?_⟩
    dsimp only at hui
    rw [Covers, hui]
    rcases List.mem_cons.1 hu with rfl | hu
    · rfl
    · rw [List.mem_singleton.1 hu]
  | commit hf hgk ho =>
    have hn : changes c.fn = true := by
      rw [hf]
      decide +kernel
    have he : entryOf c.fn = some ({ under := .root, keys := transKeys ++ dbKeys }, false) := by
      rw [hf]
      decide +kernel
    obtain ⟨inv, hinv, hui, hk⟩ := invalidationOf_covers hn he hr
    have hc := not_caret g (List.mem_cons_of_mem _ (List.mem_append_right _ hgk))
    refine ⟨_, inv, ho, hinv, hk g hg (List.mem_append_right _ hgk) hc, ?_⟩
    rw [Covers, hui]
    exact (root_ancestor ht id).symm
  | update first hf hgk hc ho =>
    have hn : changes c.fn = true := by
      rw [hf]
      decide +kernel
    have he : entryOf c.fn = some ({ under := .each (lit "dbs"), keys := dbKeys }, false) := by
      rw [hf]
      decide +kernel
    obtain ⟨inv, hinv, hui, hk⟩ := invalidationOf_covers hn he hr
    have hcaret := not_caret g (List.mem_cons_of_mem _ (List.mem_append_right _ hgk))
    refine ⟨first, inv, hc, hinv, hk g hg hgk hcaret, ?_⟩
    rw [Covers, hui]
    exact ho
  | syncdbs hf hgk ho =>
    obtain ⟨hn, u, hu, ks, hks, he⟩ := syncdbs_entries c.fn (by simpa using hf)
    obtain ⟨inv, hinv, hui, hk⟩ := invalidationOf_covers hn he hr
    have hc := not_caret g (by rw [hgk]; exact List.mem_cons_self)
    have hgks : g ∈ ks := by
      rw [hgk]
      rcases List.mem_cons.1 hks with rfl | hks
      · exact List.mem_cons_self
      · rw [List.mem_singleton.1 hks]
        exact List.mem_cons_self
    refine ⟨id, inv, ho, hinv, hk g hg hgks hc, ?_⟩
    dsimp only at hui
    rw [Covers, hui]
    rcases List.mem_cons.1 hu with rfl | hu
    · rfl
    · rw [List.mem_singleton.1 hu]
  | unregister db hf hgk hc ho =>
    have hn : changes c.fn = true := by
      rw [hf]
      decide +kernel
    have he : entryOf c.fn = some ({ under := .root, keys := [lit "alpm_get_syncdbs"] }, false) := by
      rw [hf]
      decide +kernel
    obtain ⟨inv, hinv, hui, hk⟩ := invalidationOf_covers hn he hr
    have hcaret := not_caret g (by rw [hgk]; exact List.mem_cons_self)
    refine ⟨db, inv, hc, hinv, hk g hg (by rw [hgk]; exact List.mem_cons_self) hcaret, ?_⟩
    rw [Covers, hui, ← ho]
    exact root_ancestor ht db
  | option x hf hgk ho =>
    obtain ⟨inv, hinv, hu, hk⟩ := setter_covered hg (.inl ⟨rfl, hf⟩) hgk hr
    refine ⟨id, inv, ho, hinv, hk, ?_⟩
    rw [Covers, hu]
  | dbOption x hf hgk ho =>
    obtain ⟨inv, hinv, hu, hk⟩ := setter_covered hg (.inr ⟨rfl, hf⟩) hgk hr
    refine ⟨id, inv, ho, hinv, hk, ?_⟩
    rw [Covers, hu]

theorem Touches.first (hT : Touches a c id g) : ∃ first, c.first = some first := by
  cases hT with
  | trans _ _ ho => exact ⟨_, ho⟩
  | commit _ _ ho => exact ⟨_, ho⟩
  | update first _ _ hc _ => exact ⟨_, hc⟩
  | syncdbs _ _ ho => exact ⟨_, ho⟩
  | unregister db _ _ hc _ => exact ⟨_, hc⟩
  | option _ _ _ ho => exact ⟨_, ho⟩
  | dbOption _ _ _ ho => exact ⟨_, ho⟩

/-- A sysupgrade changes the lists of the transaction and nothing else. -/
theorem Touches.of_sysupgrade (hT : Touches a c id g) (hs : c.fn ∈ sysupgrades) :
    g ∈ transKeys ∧ c.first = some id := by
  have hnot : ∀ f ∈ sysupgrades, f ∉ [lit "alpm_trans_commit", lit "alpm_db_update",
      lit "alpm_register_syncdb", lit "alpm_unregister_all_syncdbs", lit "alpm_db_unregister"] ∧
      setterOf (lit "alpm_option_") f = none ∧ setterOf (lit "alpm_db_") f = none := by
    decide +kernel
  obtain ⟨hn, ho, hd⟩ := hnot c.fn hs
  cases hT with
  | trans _ hg hf => exact ⟨hg, hf⟩
  | commit hf _ _ => exact absurd hf (by simp_all)
  | update _ hf _ _ _ => exact absurd hf (by simp_all)
  | syncdbs hf _ _ => exact absurd hf (by simp_all)
  | unregister _ hf _ _ _ => exact absurd hf (by simp_all)
  | option _ hf _ _ =>
    rw [ho] at hf
    cases hf
  | dbOption _ hf _ _ =>
    rw [hd] at hf
    cases hf

theorem mem_arpcDetach {k : Cache (Copy δ)} {owner : Nat} {wholeRoot : Bool} {keys : List Bytes}
    {e : Owned (Copy δ)} (he : e ∈ (k.arpcDetach owner wholeRoot keys).owned) :
    e ∈ k.owned ∧ Cache.inScope owner wholeRoot keys e.owner e.key = false := by
  obtain ⟨hm, hs⟩ := List.mem_filter.1 he
  exact ⟨hm, by simpa using hs⟩

/-- What stays in the cache is out of scope, or of another getter. -/
theorem mem_detach {k : Cache (Copy δ)} {first : Nat} {lists : Bytes → List Nat}
    {e : Owned (Copy δ)} (he : e ∈ (detach k first lists inv).owned) :
    e ∈ k.owned ∧ ¬(Covers inv first lists e.owner ∧
      ∃ g ∈ inv.keys, Cache.keyNames e.key g = true) := by
  have hone : ∀ {k : Cache (Copy δ)} {o : Nat} {root : Bool},
      e ∈ (k.arpcDetach o root inv.keys).owned → e ∈ k.owned ∧
        ¬((if root then arpcRoot e.owner = arpcRoot o else e.owner = o) ∧
          ∃ g ∈ inv.keys, Cache.keyNames e.key g = true) := by
    intro k o root he
    obtain ⟨hm, hs⟩ := mem_arpcDetach he
    refine ⟨hm, fun ⟨hc, g, hg, hk⟩ => ?_⟩
    have hany : inv.keys.any (Cache.keyNames e.key) = true := List.any_eq_true.2 ⟨g, hg, hk⟩
    have hin : Cache.inScope o root inv.keys e.owner e.key = true := by
      rw [Cache.inScope, hany, Bool.and_true]
      cases root <;> exact decide_eq_true hc
    rw [hin] at hs
    cases hs
  cases hu : inv.under with
  | self =>
    rw [detach, hu] at he
    rw [Covers, hu]
    exact hone he
  | root =>
    rw [detach, hu] at he
    rw [Covers, hu]
    exact hone he
  | each p =>
    rw [detach, hu] at he
    rw [Covers, hu]
    dsimp only at he ⊢
    generalize lists p = ids at he
    induction ids generalizing k with
    | nil => exact ⟨he, fun hc => by cases hc.1⟩
    | cons id ids ih =>
      rw [List.foldl_cons] at he
      obtain ⟨hm, hrest⟩ := ih he
      obtain ⟨hk, hid⟩ := hone hm
      refine ⟨hk, fun ⟨hc, hg⟩ => ?_⟩
      rcases List.mem_cons.1 hc with hc | hc
      · exact hid ⟨by simpa using hc, hg⟩
      · exact hrest ⟨hc, hg⟩

theorem invalidationOf_release {f : Bytes} (hd : destroys.lookup f = some .handle) :
    invalidationOf h f = some none := by
  have hf : f = lit "alpm_release" := by
    by_contra hne
    rw [destroys, List.lookup_cons, beq_eq_false_iff_ne.2 hne] at hd
    dsimp only at hd
    rw [List.lookup_cons, List.lookup_cons] at hd
    split at hd
    · cases hd
    · split at hd <;> cases hd
  have hn : changes f = false := by
    rw [hf]
    decide +kernel
  have hl : (invalidates.lookup f).isSome = false := by
    rw [hf]
    decide +kernel
  rw [invalidationOf, hn, hl]
  rfl

/-- **After a call** nothing is in the cache that was not, and nothing its rules detach. -/
theorem mem_afterCall {k k' : Cache (Copy δ)} (hs : afterCall h k c = some k')
    {e : Owned (Copy δ)} (he : e ∈ k'.owned) :
    e ∈ k.owned ∧ ∀ first, c.first = some first → ∃ r, invalidationOf h c.fn = some r ∧
      ∀ inv, r = some inv →
        ¬(Covers inv first c.lists e.owner ∧ ∃ g ∈ inv.keys, Cache.keyNames e.key g = true) := by
  unfold afterCall at hs
  split at hs
  · rename_i hf
    cases hs
    exact ⟨he, fun first hc => by rw [hf] at hc; cases hc⟩
  · rename_i first hf
    split at hs
    · rename_i hd
      cases hs
      exact ⟨(List.mem_filter.1 he).1, fun _ _ => ⟨none, invalidationOf_release hd, by simp⟩⟩
    · have hpurged : ∀ {e : Owned (Copy δ)},
          e ∈ (if (destroys.lookup c.fn).isSome then k.arpcPurgeOwner first else k).owned →
            e ∈ k.owned := by
        intro e he
        split at he
        · exact (List.mem_filter.1 he).1
        · exact he
      dsimp only at hs
      split at hs
      · cases hs
      · rename_i hr
        cases hs
        exact ⟨hpurged he, fun _ _ => ⟨none, hr, by simp⟩⟩
      · rename_i inv hr
        cases hs
        obtain ⟨hm, hc⟩ := mem_detach he
        refine ⟨hpurged hm, fun first' hf' => ⟨some inv, hr, fun inv' hi => ?_⟩⟩
        cases hi
        cases hf.symm.trans hf'
        exact hc

end Detach

/-! ## The invariant -/

section Steps

variable {σ δ : Type} {h : Header} {V : Libalpm σ δ} {w w' : World σ δ}

/-- The entry of `owner` with this key is what libalpm has for the owner, in live ids. -/
structure Good (h : Header) (V : Libalpm σ δ) (s : σ) (a : Reg) (owner : Nat) (key : Bytes)
    (copy : Copy δ) : Prop where
  generated : copy.fn ∈ h.generated
  keyed : key = cacheKey copy.fn copy.extra
  issued : owner % 2 ^ 40 < a.nextSeq
  named : ∀ p, a.Has owner p (V.tag copy.fn) →
    Named a (V.objTag copy.fn) copy.ids (V.get s p copy.fn copy.extra).1
  rest : ∀ p, a.Has owner p (V.tag copy.fn) → copy.rest = (V.get s p copy.fn copy.extra).2

structure Inv (h : Header) (V : Libalpm σ δ) (w : World σ δ) : Prop where
  tree : w.reg.Tree
  entries : ∀ e ∈ w.cache.owned, ∀ copy, e.value = .obj copy →
    Good h V w.lib w.reg e.owner e.key copy

theorem Inv.init (s : σ) : Inv h V { lib := s } where
  tree := Reg.Tree.empty
  entries := by simp

/-- An entry stays good while its owner's results and the ids in it stay. -/
theorem Good.mono {s s' : σ} {a a' : Reg} {owner : Nat} {key : Bytes} {copy : Copy δ}
    (hg : Good h V s a owner key copy) (hseq : a.nextSeq ≤ a'.nextSeq)
    (hold : ∀ p, a'.Has owner p (V.tag copy.fn) → a.Has owner p (V.tag copy.fn))
    (hget : ∀ p, a'.Has owner p (V.tag copy.fn) →
      V.get s' p copy.fn copy.extra = V.get s p copy.fn copy.extra)
    (hids : (∃ p, a'.Has owner p (V.tag copy.fn)) → ∀ i ∈ copy.ids, ∀ q,
      a.Has i q (V.objTag copy.fn) → a'.Has i q (V.objTag copy.fn)) :
    Good h V s' a' owner key copy where
  generated := hg.generated
  keyed := hg.keyed
  issued := Nat.lt_of_lt_of_le hg.issued hseq
  named := by
    intro p hp
    rw [hget p hp]
    exact (hg.named p (hold p hp)).mono (hids ⟨p, hp⟩)
  rest := by
    intro p hp
    rw [hget p hp]
    exact hg.rest p (hold p hp)

/-- The answer of a handler names what it lists. -/
theorem fresh_spec {fn : Bytes} {owner under : Nat} {extra : List KeyArg} {copy : Copy δ} {reg : Reg}
    (hf : fresh V w fn owner extra under = some (copy, reg)) :
    ∃ p objs, p ≠ 0 ∧ w.reg.get owner (V.tag fn) = p ∧ V.get w.lib p fn extra = (objs, copy.rest) ∧
      reg = (execs w.reg (objs.map fun q => .put q (V.objTag fn) under)).1 ∧
      copy = ⟨fn, extra, (execs w.reg (objs.map fun q => .put q (V.objTag fn) under)).2,
        copy.rest⟩ := by
  unfold fresh at hf
  dsimp only at hf
  split at hf
  · cases hf
  · rename_i hp
    cases hf
    exact ⟨_, _, hp, rfl, rfl, rfl, rfl⟩

/-- **A request is answered**: the entries stay good, and the answer is. -/
theorem Inv.fetch (hi : Inv h V w) {fn : Bytes} {owner under : Nat} {extra : List KeyArg}
    {copy : Copy δ} {reg : Reg} (hfn : fn ∈ h.generated) {answered : Bool}
    (hok : Regular V w (.read fn owner extra under answered))
    (hf : fresh V w fn owner extra under = some (copy, reg)) :
    Inv h V { w with reg } ∧
      Good h V w.lib reg owner (cacheKey fn extra) copy := by
  obtain ⟨p, objs, hp, hget, hV, hreg, hcopy⟩ := fresh_spec hf
  rw [Regular, hget, hV] at hok
  obtain ⟨ht, hseq, hold⟩ := hok.spec hi.tree
  rw [← hreg] at ht hseq hold
  refine ⟨⟨ht, fun e he c hc => ?_⟩, ?_⟩
  · have hg := hi.entries e he c hc
    refine hg.mono hseq (fun q hq => hold _ _ _ hg.issued hq) (fun _ _ => rfl) ?_
    intro _ i _ q hq
    rw [hreg]
    exact execs_keeps hi.tree hok hq
  · have hhas : w.reg.Has owner p (V.tag fn) := (Reg.get_eq_iff hi.tree.wf hp).1 hget
    have hiss : owner % 2 ^ 40 < w.reg.nextSeq := by
      obtain ⟨s, hs, rfl, -, -⟩ := hhas
      exact hi.tree.wf.seq s hs
    have hsame : ∀ q, reg.Has owner q (V.tag fn) → q = p := by
      intro q hq
      have hq' := hold _ _ _ hiss hq
      rw [← (Reg.get_eq_iff hi.tree.wf (hq'.ptr_ne hi.tree.wf)).2 hq', hget]
    have hnamed := named_execs hi.tree hok
    rw [← hreg] at hnamed
    rw [hcopy]
    refine ⟨hfn, rfl, Nat.lt_of_lt_of_le hiss hseq, fun q hq => ?_, fun q hq => ?_⟩
    · dsimp only
      rw [hsame q hq, hV]
      exact hnamed
    · dsimp only
      rw [hsame q hq, hV]

/-- The entry of what a stub answers from the cache, and what the server would answer. -/
theorem Inv.current (hi : Inv h V w) {e : Event σ} (hok : Told V w e) : Current V w e := by
  cases e with
  | read fn owner extra under answered =>
    intro e copy hfind hv hlive
    obtain ⟨he, rfl, hkey⟩ := Cache.findOwned_some hfind
    obtain ⟨rfl, rfl⟩ := hok e copy hfind hv
    have hg := hi.entries e he copy hv
    have hhas := (Reg.get_eq_iff hi.tree.wf hlive).1 rfl
    have hn := execs_named hi.tree.wf (hg.named _ hhas) under
    have hr := hg.rest _ hhas
    unfold fresh
    rw [if_neg hlive]
    dsimp only
    rw [Option.map_some, hn, hr]
  | call c lib ops answered => trivial
  | str owner key value => trivial

/-- **A call**: what stays in the cache it did not change. -/
theorem Inv.call (hi : Inv h V w) {c : Stub} {lib : σ} {ops : List Op} {answered : Bool}
    (hkeep : KeepsTo V w (.call c lib ops answered)) (hreg : Regular V w (.call c lib ops answered))
    (hok : Told V w (.call c lib ops answered))
    (hs : step h V w (.call c lib ops answered) = some w') : Inv h V w' := by
  rw [step] at hs
  obtain ⟨cache, hc, rfl⟩ := Option.map_eq_some_iff.1 hs
  obtain ⟨hlost, hsys, hdrop⟩ := hok
  obtain ⟨ht, hseq, hold⟩ := AllowedAll.spec hi.tree hreg
  refine ⟨ht, fun e he copy hv => ?_⟩
  dsimp only at he
  -- what is left was there, and the call's rules did not take it
  have hstay : e ∈ w.cache.owned ∧ ¬Touches w.reg c e.owner copy.fn := by
    cases answered with
    | false =>
      cases hc
      exact ⟨he, hlost rfl e.owner copy.fn⟩
    | true =>
      obtain ⟨hm, hrules⟩ := mem_afterCall hc he
      refine ⟨hm, fun hT => ?_⟩
      have hg := hi.entries e hm copy hv
      by_cases hfs : c.fn ∈ sysupgrades
      · obtain ⟨hk, hf⟩ := hT.of_sysupgrade hfs
        exact hsys hfs e.owner copy ⟨e, hm, rfl, hv⟩ hk hf
      · obtain ⟨first, hf⟩ := hT.first
        obtain ⟨r, hr, hout⟩ := hrules first hf
        obtain ⟨first', inv, hf', rfl, hk, hcov⟩ := hT.covered hi.tree hg.generated hfs hr
        cases hf.symm.trans hf'
        refine hout inv rfl ⟨hcov, copy.fn, hk, ?_⟩
        rw [hg.keyed]
        exact keyNames_cacheKey copy.extra (Nat.lt_trans (h.short copy.fn hg.generated) (by decide))
  obtain ⟨hm, hT⟩ := hstay
  have hg := hi.entries e hm copy hv
  refine hg.mono hseq (fun p hp => hold _ _ _ hg.issued hp) (fun p hp => ?_) fun hlive => ?_
  · exact hkeep e.owner p copy.fn copy.extra (hold _ _ _ hg.issued hp) hp hT
  · exact hdrop e.owner copy ⟨e, hm, rfl, hv⟩ hT hlive

theorem Inv.step (hi : Inv h V w) {e : Event σ} (hs : step h V w e = some w')
    (hkeep : KeepsTo V w e) (hreg : Regular V w e) (hok : Told V w e) : Inv h V w' := by
  cases e with
  | read fn owner extra under answered =>
    rw [Coherence.step] at hs
    split at hs
    · cases hs
    rename_i hfn
    split at hs
    · cases hs
      exact hi
    · split at hs
      · cases hs
        exact hi
      · rename_i copy reg hf
        obtain ⟨hi', hg⟩ := hi.fetch (not_not.1 hfn) hreg hf
        cases answered with
        | false =>
          cases hs
          exact hi'
        | true =>
          obtain ⟨⟨cache, n⟩, hc, rfl⟩ := Option.map_eq_some_iff.1 hs
          refine ⟨hi'.tree, fun e he c hv => ?_⟩
          obtain ⟨-, ho | ⟨num, ho⟩⟩ := Cache.arpcCache_owned hc
          · exact hi'.entries e (ho ▸ he) c hv
          · dsimp only at he
            rw [ho] at he
            rcases List.mem_append.1 he with he | he
            · exact hi'.entries e he c hv
            · rw [List.mem_singleton.1 he] at hv ⊢
              cases hv
              exact hg
  | call c lib ops answered => exact hi.call hkeep hreg hok hs
  | str owner key value =>
    rw [Coherence.step] at hs
    obtain ⟨⟨cache, n⟩, hc, rfl⟩ := Option.map_eq_some_iff.1 hs
    refine ⟨hi.tree, fun e he c hv => ?_⟩
    rcases (Cache.intern_owned hc).1 e he with he | he
    · exact hi.entries e he c hv
    · rw [hv] at he
      cases he

/-- **Cached results are current** in every run of stubs whose steps the cache is told of, when libalpm
keeps to its footprint. -/
theorem cached_current (h : Header) (V : Libalpm σ δ) (s : σ) (es : List (Event σ))
    (hrun : Along (step h V) (fun w e _ => KeepsTo V w e ∧ Regular V w e ∧ Told V w e)
      { lib := s } es) :
    Along (step h V) (fun w e _ => Current V w e) { lib := s } es := by
  refine Along.of_inv (I := Inv h V) (fun w e w' hi hs hok => ?_) (Inv.init s) hrun
  obtain ⟨hkeep, hreg, htold⟩ := hok
  exact ⟨hi.current htold, hi.step hs hkeep hreg htold⟩

end Steps

/-! ## A transaction whose list is read -/

def getAdd : Bytes := lit "alpm_trans_get_add"

/-- A header with a transaction in it. -/
def header : Header where
  generated := [lit "alpm_add_pkg", lit "alpm_initialize", lit "alpm_sync_sysupgrade", getAdd,
    lit "alpm_trans_get_remove"]
  numericFields := []
  handleLists _ := []
  short := by decide +kernel
  noTimeout := by decide +kernel

/-- libalpm with one transaction, of which it has the packages to add. -/
def oneTrans : Libalpm (List Nat) Unit where
  get s _ fn _ := (if fn = getAdd then s else [], ())
  tag _ := .handle
  objTag _ := .pkg

/-- The first id of a handle, and of a package under it. -/
def handleId : Nat := mkId 1 1

def pkgId : Nat := mkId 1 2

/-- The handle is made, and its transaction's packages are listed: there are none. -/
def listed : List (Event (List Nat)) :=
  [.call ⟨lit "alpm_initialize", none, fun _ => []⟩ [] [.put 16 .handle 0] true,
    .read getAdd handleId [] handleId true]

/-- A package is added by `fn`, and they are listed again. -/
def addedBy (fn : Bytes) : List (Event (List Nat)) :=
  listed ++ [.call ⟨fn, some handleId, fun _ => []⟩ [32] [] true,
    .read getAdd handleId [] handleId true]

/-- The table with the handle, and with the package too. -/
def withHandle : Reg := (execs {} [.put 16 .handle 0]).1

def withPkg : Reg := (execs withHandle [.put 32 .pkg handleId]).1

/-- The cache with the list `ids`, the `num`th value. -/
def entry (ids : List Nat) (num : Nat) : Owned (Copy Unit) :=
  ⟨handleId, getAdd, num, .obj ⟨getAdd, [], ids, ()⟩, 1⟩

theorem withHandle_live : withHandle.live = [⟨handleId, 16, 0, .handle, 0⟩] := by
  decide +kernel

theorem has_withHandle {id p : Nat} {t : HandleTag} (h : withHandle.Has id p t) : id = handleId := by
  obtain ⟨s, hs, hid, -, -⟩ := h
  rw [withHandle_live, List.mem_singleton] at hs
  rw [← hid, hs]

/-- What holds of the two steps of `listed`, then of `es`. -/
theorem Along.listed {P : World (List Nat) Unit → Event (List Nat) → World (List Nat) Unit → Prop}
    {es : List (Event (List Nat))}
    (h1 : P { lib := [] } (.call ⟨lit "alpm_initialize", none, fun _ => []⟩ [] [.put 16 .handle 0] true)
      { lib := [], reg := withHandle })
    (h2 : P { lib := [], reg := withHandle } (.read getAdd handleId [] handleId true)
      { lib := [], reg := withHandle, cache := { owned := [entry [] 0], next := 1 } })
    (h : Along (step header oneTrans) P
      { lib := [], reg := withHandle, cache := { owned := [entry [] 0], next := 1 } } es) :
    Along (step header oneTrans) P { lib := [] } (listed ++ es) := by
  refine Along.cons { lib := [], reg := withHandle } (by decide +kernel) h1 ?_
  exact Along.cons _ (by decide +kernel) h2 h

theorem listed_keeps : KeepsTo oneTrans { lib := [] }
    (.call ⟨lit "alpm_initialize", none, fun _ => []⟩ [] [.put 16 .handle 0] true) := by
  rintro id p g extra ⟨s, hs, -⟩
  cases hs

theorem listed_regular : Regular oneTrans { lib := [] }
    (.call ⟨lit "alpm_initialize", none, fun _ => []⟩ [] [.put 16 .handle 0] true) :=
  ⟨⟨by decide, .inl rfl⟩, by decide +kernel, trivial⟩

/-- A package that is added changes the list of the packages to add. -/
theorem added_keeps {fn : Bytes} (hf : fn ∈ transCalls ∨ fn ∈ sysupgrades)
    (c : Cache (Copy Unit)) : KeepsTo oneTrans ⟨[], withHandle, c⟩
      (.call ⟨fn, some handleId, fun _ => []⟩ [32] [] true) := by
  intro id p g extra hh _ hT
  by_cases hg : g = getAdd
  · subst hg
    rw [has_withHandle hh] at hT
    exact absurd (Touches.trans hf (by decide +kernel) rfl) hT
  · simp [oneTrans, hg]

theorem put_allowed {a : Reg} (ha : a.IsLive handleId .handle) (hb : a.nextSeq < 2 ^ 40) :
    AllowedAll a [.put 32 .pkg handleId] := by
  refine ⟨⟨by decide, .inl (.inl ha)⟩, ?_, trivial⟩
  have := a.issues_le (.put 32 .pkg handleId)
  omega

theorem cached_current_added :
    Along (step header oneTrans) (fun w e _ => Current oneTrans w e) { lib := [] }
      (addedBy (lit "alpm_add_pkg") ++ [.read getAdd handleId [] handleId true]) := by
  refine cached_current header oneTrans [] _ ?_
  rw [addedBy, List.append_assoc]
  refine Along.listed ⟨listed_keeps, listed_regular, ?_⟩ ⟨trivial, trivial, ?_⟩ ?_
  · refine ⟨by simp, fun hf => absurd hf (by decide +kernel), ?_⟩
    rintro id copy ⟨e, he, -⟩
    cases he
  · rintro e copy he
    cases he
  refine Along.cons ⟨[32], withHandle, { detached := [entry [] 0], next := 1 }⟩
    (by decide +kernel) ⟨added_keeps (.inl (by decide +kernel)) _, trivial, ?_⟩ ?_
  · refine ⟨by simp, fun hf => absurd hf (by decide +kernel), ?_⟩
    exact fun _ _ _ _ _ _ _ _ hh => hh
  refine Along.cons ⟨[32], withPkg,
    { owned := [entry [pkgId] 1], detached := [entry [] 0], next := 2 }⟩
    (by decide +kernel) ⟨trivial, ?_, ?_⟩ ?_
  · exact put_allowed ⟨⟨handleId, 16, 0, .handle, 0⟩, by decide +kernel, rfl, rfl⟩ (by decide +kernel)
  · rintro e copy he
    cases he
  refine Along.cons ⟨[32], withPkg,
    { owned := [entry [pkgId] 1], detached := [entry [] 0], next := 2 }⟩
    (by decide +kernel) ⟨trivial, ?_, ?_⟩ trivial
  · exact put_allowed ⟨⟨handleId, 16, 0, .handle, 0⟩, by decide +kernel, rfl, rfl⟩ (by decide +kernel)
  · intro e copy he hv
    have hfind : Cache.findOwned (α := Copy Unit)
        { owned := [entry [pkgId] 1], detached := [entry [] 0], next := 2 } handleId
        (cacheKey getAdd []) = some (entry [pkgId] 1) := by decide +kernel
    cases hfind.symm.trans he
    cases hv
    exact ⟨rfl, rfl⟩

/-- **A sysupgrade's packages are not seen**: the list from before is answered. -/
theorem stale_after_sysupgrade :
    Along (step header oneTrans) (fun w e _ => KeepsTo oneTrans w e ∧ Regular oneTrans w e)
        { lib := [] } (addedBy (lit "alpm_sync_sysupgrade")) ∧
      ¬Along (step header oneTrans) (fun w e _ => Current oneTrans w e)
        { lib := [] } (addedBy (lit "alpm_sync_sysupgrade")) := by
  constructor
  · refine Along.listed ⟨listed_keeps, listed_regular⟩ ⟨trivial, trivial⟩ ?_
    refine Along.cons ⟨[32], withHandle, { owned := [entry [] 0], next := 1 }⟩
      (by decide +kernel) ⟨added_keeps (.inr (by decide +kernel)) _, trivial⟩ ?_
    refine Along.cons ⟨[32], withHandle, { owned := [entry [] 0], next := 1 }⟩
      (by decide +kernel) ⟨trivial, ?_⟩ trivial
    exact put_allowed ⟨⟨handleId, 16, 0, .handle, 0⟩, by decide +kernel, rfl, rfl⟩ (by decide +kernel)
  · intro h
    have hrun : (listed ++ [Event.call ⟨lit "alpm_sync_sysupgrade", some handleId, fun _ => []⟩ [32] []
        true]).foldlM (step header oneTrans) { lib := [] } =
        some ⟨[32], withHandle, { owned := [entry [] 0], next := 1 }⟩ := by decide +kernel
    have hread : step header oneTrans ⟨[32], withHandle, { owned := [entry [] 0], next := 1 }⟩
        (.read getAdd handleId [] handleId true) =
        some ⟨[32], withHandle, { owned := [entry [] 0], next := 1 }⟩ := by decide +kernel
    rw [addedBy, List.append_cons] at h
    have hfresh := h.last hrun hread (entry [] 0) ⟨getAdd, [], [], ()⟩ (by decide +kernel) rfl
      (by decide +kernel)
    exact absurd hfresh (by decide +kernel)

end Coherence

end Session
