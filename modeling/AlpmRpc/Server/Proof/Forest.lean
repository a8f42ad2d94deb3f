import AlpmRpc.Server.Forest
import AlpmRpc.Server.Proof.TableRun

/-!
# Drops are exact

`Reg.Tree` is the invariant: every slot is filed under a live slot of a higher level, handles at the
top, and has its owner's root. The level bounds the chains, so the walks of `under` and
`arpc_ancestor` are exact (`Lib/Chain.lean`); each call keeps the invariant (`Reg.Tree.exec`), and
what holds of the registry holds of the table that represents it.
-/

set_option autoImplicit false

namespace Server

open Wire Chain

/-- How far down the chains a kind of object can be. -/
def HandleTag.level : HandleTag → Nat
  | .handle => 0
  | .db => 1
  | .none => 1
  | .pkg => 2
  | .changelog => 3

namespace Reg

variable {a : Reg}

/-- `o` is the id of a live slot of kind `tag`. -/
def IsLive (a : Reg) (o : Nat) (tag : HandleTag) : Prop := ∃ x ∈ a.live, x.id = o ∧ x.tag = tag

/-- A slot of kind `tag` may have the owner `o`. -/
def Sits (a : Reg) (o : Nat) : HandleTag → Prop
  | .handle => o = 0
  | .db => a.IsLive o .handle
  | .pkg => a.IsLive o .handle ∨ a.IsLive o .db
  | .changelog => a.IsLive o .pkg
  | .none => a.IsLive o .handle

/-- Every slot is filed where its kind says and has its owner's root. -/
structure Tree (a : Reg) : Prop where
  wf : a.Wf
  sits : ∀ s ∈ a.live, a.Sits s.owner s.tag
  roots : ∀ s ∈ a.live, s.owner ≠ 0 → arpcRoot s.id = arpcRoot s.owner
  id_lt : ∀ s ∈ a.live, s.id < 2 ^ 64

theorem Tree.empty : Tree {} := by
  refine ⟨Wf.empty, ?_, ?_, ?_⟩ <;> simp

/-- The owner of a live id. -/
def up (a : Reg) (id : Nat) : Option Nat := if a.ownerOf id = 0 then none else some (a.ownerOf id)

theorem ownerOf_live (h : a.Wf) {s : Slot} (hs : s ∈ a.live) : a.ownerOf s.id = s.owner := by
  rw [ownerOf, (find_eq_some h).2 ⟨hs, rfl⟩]
  rfl

theorem ownerOf_dead {id : Nat} (h : ∀ s ∈ a.live, s.id ≠ id) : a.ownerOf id = 0 := by
  rw [ownerOf, find_eq_none.2 h]
  rfl

theorem up_eq_some (h : a.Wf) {id o : Nat} :
    a.up id = some o ↔ ∃ s ∈ a.live, s.id = id ∧ s.owner = o ∧ o ≠ 0 := by
  unfold up
  by_cases hex : ∃ s ∈ a.live, s.id = id
  · obtain ⟨s, hs, rfl⟩ := hex
    rw [ownerOf_live h hs]
    constructor
    · intro he
      split at he
      · cases he
      · rename_i hne
        cases he
        exact ⟨s, hs, rfl, rfl, hne⟩
    · rintro ⟨s', hs', hid, rfl, hne⟩
      rw [h.id_inj hs' hs hid] at hne ⊢
      rw [if_neg hne]
  · have hdead : a.ownerOf id = 0 := ownerOf_dead fun s hs he => hex ⟨s, hs, he⟩
    rw [hdead]
    simp only [if_true, reduceCtorEq, false_iff]
    rintro ⟨s, hs, hid, -⟩
    exact hex ⟨s, hs, hid⟩

theorem up_live (h : a.Wf) {s : Slot} (hs : s ∈ a.live) (ho : s.owner ≠ 0) :
    a.up s.id = some s.owner := (up_eq_some h).2 ⟨s, hs, rfl, rfl, ho⟩

/-- What is above something is live, so not `0`. -/
theorem above_ne_zero (h : a.Wf) {id o : Nat} (hu : Above a.up id o) : o ≠ 0 := by
  induction hu with
  | single hxy => exact ((up_eq_some h).1 hxy).choose_spec.2.2.2
  | tail _ hxy _ => exact ((up_eq_some h).1 hxy).choose_spec.2.2.2

/-! ## Chains are short -/

/-- The owner of a slot is live, and of a higher level. -/
theorem Tree.owner_live (h : a.Tree) {s : Slot} (hs : s ∈ a.live) (ho : s.owner ≠ 0) :
    ∃ x ∈ a.live, x.id = s.owner ∧ x.tag.level < s.tag.level := by
  have hsit := h.sits s hs
  cases ht : s.tag with
  | handle =>
    rw [ht] at hsit
    exact absurd hsit ho
  | db =>
    rw [ht] at hsit
    obtain ⟨x, hx, hxo, hxt⟩ := hsit
    exact ⟨x, hx, hxo, by rw [hxt]; decide⟩
  | none =>
    rw [ht] at hsit
    obtain ⟨x, hx, hxo, hxt⟩ := hsit
    exact ⟨x, hx, hxo, by rw [hxt]; decide⟩
  | pkg =>
    rw [ht] at hsit
    rcases hsit with ⟨x, hx, hxo, hxt⟩ | ⟨x, hx, hxo, hxt⟩
    · exact ⟨x, hx, hxo, by rw [hxt]; decide⟩
    · exact ⟨x, hx, hxo, by rw [hxt]; decide⟩
  | changelog =>
    rw [ht] at hsit
    obtain ⟨x, hx, hxo, hxt⟩ := hsit
    exact ⟨x, hx, hxo, by rw [hxt]; decide⟩

/-- The level of an id, the top's for one that is not live. -/
def levelOf (a : Reg) (id : Nat) : Nat := ((a.find id).map fun s => s.tag.level).getD 0

theorem levelOf_live (h : a.Wf) {s : Slot} (hs : s ∈ a.live) : a.levelOf s.id = s.tag.level := by
  rw [levelOf, (find_eq_some h).2 ⟨hs, rfl⟩]
  rfl

theorem levelOf_lt (a : Reg) (id : Nat) : a.levelOf id < 4 := by
  unfold levelOf
  cases a.find id with
  | none => decide
  | some s => cases ht : s.tag <;> simp [ht, HandleTag.level]

theorem Tree.level_falls (h : a.Tree) (id o : Nat) (hu : a.up id = some o) :
    a.levelOf o < a.levelOf id := by
  obtain ⟨s, hs, rfl, rfl, ho⟩ := (up_eq_some h.wf).1 hu
  obtain ⟨x, hx, hxo, hlt⟩ := h.owner_live hs ho
  rw [levelOf_live h.wf hs, ← hxo, levelOf_live h.wf hx]
  exact hlt

theorem Tree.short (h : a.Tree) (id : Nat) : Ends a.up 4 id :=
  ends_of_rank h.level_falls id (a.levelOf_lt id)

theorem Tree.root_above (h : a.Tree) {id o : Nat} (hu : Above a.up id o) :
    arpcRoot id = arpcRoot o := by
  refine hu.same fun x y hxy => ?_
  obtain ⟨s, hs, rfl, rfl, ho⟩ := (up_eq_some h.wf).1 hxy
  exact h.roots s hs ho

/-! ## The walks -/

/-- `0` is no node. -/
def nz (id : Nat) : Option Nat := if id = 0 then none else some id

theorem underLoop_eq (a : Reg) (o n id : Nat) : a.underLoop o n id = reach a.up o n (nz id) := by
  induction n generalizing id with
  | zero => rfl
  | succ n ih =>
    rw [underLoop, nz]
    by_cases h0 : id = 0
    · rw [if_pos h0, if_pos h0, reach_none]
    · rw [if_neg h0, if_neg h0, reach, ih]
      rfl

theorem Tree.under_iff (h : a.Tree) {id : Nat} (hid : id ≠ 0) (o : Nat) :
    a.under id o = true ↔ id = o ∨ Above a.up id o := by
  rw [under, underLoop_eq, nz, if_neg hid]
  exact reach_iff ((h.short id).mono (by decide))

theorem Tree.under_uncut (h : a.Tree) {n : Nat} (hn : 4 ≤ n) (id o : Nat) :
    a.underLoop o n id = a.under id o := by
  rw [under, underLoop_eq, underLoop_eq, nz]
  split
  · rw [reach_none, reach_none]
  · exact (reach_mono (h.short id) hn).trans (reach_mono (h.short id) (by decide)).symm

theorem ancestorLoop_eq {tag : HandleTag} {k n id top : Nat} (h : Ends a.up k id) (hn : k ≤ n) :
    a.ancestorLoop tag n id top = a.ancestorLoop tag k id top := by
  induction k generalizing n id top with
  | zero => exact h.elim
  | succ k ih =>
    obtain ⟨n, rfl⟩ : ∃ m, n = m + 1 := ⟨n - 1, by omega⟩
    rw [ancestorLoop, ancestorLoop]
    by_cases h0 : id = 0
    · rw [if_pos h0, if_pos h0]
    · rw [if_neg h0, if_neg h0]
      cases hf : a.find id with
      | none => rfl
      | some s =>
        dsimp only
        split
        · rfl
        · by_cases ho : s.owner = 0
          · rw [ho]
            cases n <;> cases k <;> rfl
          · have hu : a.up id = some s.owner := by
              rw [up, ownerOf, hf]
              exact if_neg ho
            exact ih (h _ hu) (by omega)

/-! ## Puts -/

/-- The owner a put may be given. -/
def MayPut (a : Reg) (p : Nat) (tag : HandleTag) (o : Nat) : Prop :=
  a.Sits o tag ∨ (tag = .handle ∧ ∃ s ∈ a.live, s.ptr = p ∧ s.tag = .handle ∧ s.id = o)

theorem Sits.mono {a' : Reg} (hk : ∀ x ∈ a.live, ∃ x' ∈ a'.live, x'.id = x.id ∧ x'.tag = x.tag)
    {o : Nat} {tag : HandleTag} (h : a.Sits o tag) : a'.Sits o tag := by
  have hlive : ∀ {tag}, a.IsLive o tag → a'.IsLive o tag := by
    rintro tag ⟨x, hx, hxo, hxt⟩
    obtain ⟨x', hx', hid, ht⟩ := hk x hx
    exact ⟨x', hx', hid.trans hxo, ht.trans hxt⟩
  cases tag with
  | handle => exact h
  | db => exact hlive h
  | none => exact hlive h
  | changelog => exact hlive h
  | pkg => exact h.imp hlive hlive

/-- A write that keeps a slot's keys keeps what may be an owner. -/
theorem modify_keeps {i : Nat} {f : Slot → Slot} (hid : ∀ s, (f s).id = s.id)
    (htag : ∀ s, (f s).tag = s.tag) :
    ∀ x ∈ a.live, ∃ x' ∈ (a.modify i f).live, x'.id = x.id ∧ x'.tag = x.tag := by
  intro x hx
  refine ⟨_, List.mem_map.2 ⟨x, hx, rfl⟩, ?_⟩
  split
  · exact ⟨hid x, htag x⟩
  · exact ⟨rfl, rfl⟩

/-- A slot moved to an owner that may have it, of the same root. -/
theorem Tree.refile (h : a.Tree) {s : Slot} (hs : s ∈ a.live) {o : Nat} (ho : a.Sits o s.tag)
    (hr : arpcRoot s.id = arpcRoot o) : (a.modify s.id fun s => { s with owner := o }).Tree := by
  have hk := modify_keeps (a := a) (i := s.id) (f := fun s => { s with owner := o })
    (fun _ => rfl) fun _ => rfl
  refine ⟨h.wf.modify _ (fun _ => rfl) (fun _ => rfl) fun _ => rfl, fun x' hx' => ?_,
    fun x' hx' hne => ?_, fun x' hx' => ?_⟩
  · obtain ⟨x, hx, rfl⟩ := List.mem_map.1 hx'
    split
    · rename_i hxs
      rw [h.wf.id_inj hx hs hxs]
      exact ho.mono hk
    · exact (h.sits x hx).mono hk
  · obtain ⟨x, hx, rfl⟩ := List.mem_map.1 hx'
    split
    · rename_i hxs
      rw [h.wf.id_inj hx hs hxs]
      exact hr
    · rename_i hxs
      rw [if_neg hxs] at hne
      exact h.roots x hx hne
  · obtain ⟨x, hx, rfl⟩ := List.mem_map.1 hx'
    split
    · exact h.id_lt x hx
    · exact h.id_lt x hx

theorem mkId_lt_two_pow (root : Nat) {seq : Nat} (h : seq < 2 ^ 40) : mkId root seq < 2 ^ 64 := by
  rw [mkId_eq h]
  omega

/-- A new object's id has its owner's root. -/
theorem arpcRoot_new {o nextRoot : Nat} (tag : HandleTag) (ho : o ≠ 0) (hlt : o < 2 ^ 64) {seq : Nat}
    (hs : seq < 2 ^ 40) : arpcRoot (mkId (newRoot nextRoot o tag).1 seq) = arpcRoot o := by
  rw [newRoot, if_pos ho]
  refine arpcRoot_mkId ?_ hs
  rw [arpcRoot, rootShift, Nat.shiftRight_eq_div_pow]
  omega

theorem Sits.owner_lt (h : a.Tree) {o : Nat} {tag : HandleTag} (ho : a.Sits o tag) : o < 2 ^ 64 := by
  have hlive : ∀ {tag}, a.IsLive o tag → o < 2 ^ 64 := by
    rintro tag ⟨x, hx, rfl, -⟩
    exact h.id_lt x hx
  cases tag with
  | handle => rw [show o = 0 from ho]; decide
  | db => exact hlive ho
  | none => exact hlive ho
  | changelog => exact hlive ho
  | pkg => exact ho.elim hlive hlive

theorem Tree.append (h : a.Tree) {p : Nat} {tag : HandleTag} {o : Nat} (ho : a.Sits o tag)
    (hwf : (a.withNew p tag o).Wf) (hb : a.nextSeq < 2 ^ 40) : (a.withNew p tag o).Tree := by
  have hk : ∀ x ∈ a.live, ∃ x' ∈ (a.withNew p tag o).live, x'.id = x.id ∧ x'.tag = x.tag :=
    fun x hx => ⟨x, List.mem_append_left _ hx, rfl, rfl⟩
  refine ⟨hwf, fun s hs => ?_, fun s hs hne => ?_, fun s hs => ?_⟩
  · rcases List.mem_append.1 hs with hs | hs
    · exact (h.sits s hs).mono hk
    · rw [List.mem_singleton.1 hs]
      exact ho.mono hk
  · rcases List.mem_append.1 hs with hs | hs
    · exact h.roots s hs hne
    · rw [List.mem_singleton.1 hs] at hne ⊢
      exact arpcRoot_new tag hne (ho.owner_lt h) hb
  · rcases List.mem_append.1 hs with hs | hs
    · exact h.id_lt s hs
    · rw [List.mem_singleton.1 hs]
      exact mkId_lt_two_pow _ hb

/-- **A put keeps the forest.** -/
theorem Tree.put (h : a.Tree) {p : Nat} {tag : HandleTag} {o : Nat} (ho : a.MayPut p tag o)
    (hb : (a.put p tag o).1.nextSeq ≠ a.nextSeq → a.nextSeq < 2 ^ 40) : (a.put p tag o).1.Tree := by
  unfold Reg.put at hb ⊢
  by_cases hp : p = 0
  · rw [if_pos hp]
    exact h
  rw [if_neg hp] at hb ⊢
  cases hf : a.findPtr p tag with
  | some s =>
    obtain ⟨hs, rfl, rfl⟩ := (findPtr_eq_some h.wf).1 hf
    dsimp only
    split
    · rename_i hc
      obtain ⟨hne, hno, hu⟩ := hc
      have hab : Above a.up o s.owner := ((h.under_iff hne _).1 hu).resolve_left hno
      have hso : s.owner ≠ 0 := above_ne_zero h.wf hab
      rcases ho with ho | ⟨ht, s', hs', hp', ht', rfl⟩
      · exact h.refile hs ho ((h.roots s hs hso).trans (h.root_above hab).symm)
      · -- a handle has no owner to be moved from
        have hsit := h.sits s hs
        rw [ht] at hsit
        exact absurd hsit hso
    · exact h
  | none =>
    have hnew := findPtr_eq_none.1 hf
    rw [hf] at hb
    have hlt : a.nextSeq < 2 ^ 40 := hb (by dsimp only; omega)
    have hsit : a.Sits o tag := by
      rcases ho with ho | ⟨rfl, s, hs, hsp, hst, -⟩
      · exact ho
      · exact absurd ⟨hsp, hst⟩ (hnew s hs)
    exact h.append hsit (h.wf.append o _ _ hp hnew hlt) hlt

/-- A new release function leaves the forest as it is. -/
theorem Tree.setRelease (h : a.Tree) (i f : Nat) :
    (a.modify i fun s => { s with release := f }).Tree := by
  have hk := modify_keeps (a := a) (i := i) (f := fun s => { s with release := f })
    (fun _ => rfl) fun _ => rfl
  refine ⟨h.wf.modify _ (fun _ => rfl) (fun _ => rfl) fun _ => rfl, fun x' hx' => ?_,
    fun x' hx' hne => ?_, fun x' hx' => ?_⟩
  · obtain ⟨x, hx, rfl⟩ := List.mem_map.1 hx'
    have hsit := (h.sits x hx).mono hk
    split
    · exact hsit
    · exact hsit
  · obtain ⟨x, hx, rfl⟩ := List.mem_map.1 hx'
    split at hne
    · rename_i hxi
      rw [if_pos hxi]
      exact h.roots x hx hne
    · rename_i hxi
      rw [if_neg hxi]
      exact h.roots x hx hne
  · obtain ⟨x, hx, rfl⟩ := List.mem_map.1 hx'
    split
    · exact h.id_lt x hx
    · exact h.id_lt x hx

/-! ## Drops -/

/-- Keeping the slots `keep` accepts, when it accepts the owner of each slot it accepts. -/
theorem Tree.filter (h : a.Tree) {keep : Slot → Bool}
    (hk : ∀ s ∈ a.live, keep s = true → ∀ x ∈ a.live, a.up s.id = some x.id → keep x = true) :
    (a.filter keep).Tree := by
  refine ⟨h.wf.filter keep, fun s hs => ?_, fun s hs => h.roots s (mem_filter.1 hs).1,
    fun s hs => h.id_lt s (mem_filter.1 hs).1⟩
  obtain ⟨hs, hks⟩ := mem_filter.1 hs
  have hlive : ∀ {tag}, a.IsLive s.owner tag → (a.filter keep).IsLive s.owner tag := by
    rintro tag ⟨x, hx, hxo, hxt⟩
    have hu : a.up s.id = some x.id := by
      rw [hxo]
      exact up_live h.wf hs (by rw [← hxo]; exact h.wf.id_ne x hx)
    exact ⟨x, mem_filter.2 ⟨hx, hk s hs hks x hx hu⟩, hxo, hxt⟩
  have hsit := h.sits s hs
  cases ht : s.tag with
  | handle => rw [ht] at hsit; exact hsit
  | db => rw [ht] at hsit; exact hlive hsit
  | none => rw [ht] at hsit; exact hlive hsit
  | changelog => rw [ht] at hsit; exact hlive hsit
  | pkg => rw [ht] at hsit; exact hsit.imp hlive hlive

theorem Tree.dropOwner (h : a.Tree) (o : Nat) : (a.dropOwner o).Tree := by
  unfold Reg.dropOwner
  split
  · exact h
  · refine h.filter fun s hs hks x hx hu => ?_
    rw [Bool.not_eq_true', ← Bool.not_eq_true, h.under_iff (h.wf.id_ne s hs)] at hks
    rw [Bool.not_eq_true', ← Bool.not_eq_true, h.under_iff (h.wf.id_ne x hx)]
    exact fun hxo => hks (.inr (above_iff.2 ⟨x.id, hu, hxo⟩))

theorem Tree.dropUnder (h : a.Tree) (o : Nat) : (a.dropUnder o).Tree := by
  unfold Reg.dropUnder
  split
  · exact h
  · refine h.filter fun s hs hks x hx hu => ?_
    rw [Bool.or_eq_true, Bool.not_eq_true', ← Bool.not_eq_true, h.under_iff (h.wf.id_ne s hs)] at hks
    rw [Bool.or_eq_true, Bool.not_eq_true', ← Bool.not_eq_true, h.under_iff (h.wf.id_ne x hx)]
    refine .inr fun hxo => ?_
    have hso : Above a.up s.id o := above_iff.2 ⟨x.id, hu, hxo⟩
    rcases hks with hks | hks
    · -- the owner of `o` is not under `o`
      rw [of_decide_eq_true hks] at hso
      exact (h.short o).not_above_self hso
    · exact hks (.inr hso)

/-- Nothing is filed under a cursor. -/
theorem Tree.drop (h : a.Tree) {id : Nat} (hc : ∀ tag, a.IsLive id tag → tag = .changelog) :
    (a.drop id).Tree := by
  refine h.filter fun s hs _ x hx hu => ?_
  refine decide_eq_true fun hxi => ?_
  have hxt : x.tag = .changelog := hc x.tag ⟨x, hx, hxi, rfl⟩
  have hlt := h.level_falls _ _ hu
  rw [levelOf_live h.wf hx, levelOf_live h.wf hs, hxt] at hlt
  cases ht : s.tag <;> rw [ht] at hlt <;> simp [HandleTag.level] at hlt

theorem Tree.dropPtr (h : a.Tree) (p : Nat) (tag : HandleTag) : (a.dropPtr p tag).Tree := by
  unfold Reg.dropPtr
  split
  · exact h
  · cases a.findPtr p tag with
    | none => exact h
    | some s => exact h.dropOwner s.id

theorem Tree.reset (h : a.Tree) : a.reset.Tree := by
  refine h.filter fun s hs hks => ?_
  cases hks

/-- What the generated code may ask of the registry. -/
def Allowed (a : Reg) : Op → Prop
  | .put p tag o => tag ≠ .none ∧ a.MayPut p tag o
  | .adopt _ o _ => a.IsLive o .handle
  | .drop id => ∀ tag, a.IsLive id tag → tag = .changelog
  | _ => True

/-- **Every call keeps the forest.** -/
theorem Tree.exec (h : a.Tree) {op : Op} (hop : a.Allowed op)
    (hb : a.nextSeq + a.issues op ≤ 2 ^ 40) : (a.exec op).1.Tree := by
  have hlt : (a.exec op).1.nextSeq ≠ a.nextSeq → a.nextSeq < 2 ^ 40 := by
    intro hne
    rw [issues, if_neg hne] at hb
    omega
  cases op with
  | put p tag o => exact h.put hop.2 hlt
  | adopt p o f =>
    have hput : (a.put p .none o).1.Tree := h.put (.inl hop) hlt
    exact hput.setRelease _ f
  | get id tag => exact h
  | ancestor id tag => exact h
  | drop id => exact h.drop hop
  | dropOwner o => exact h.dropOwner o
  | dropUnder o => exact h.dropUnder o
  | dropPtr p tag => exact h.dropPtr p tag
  | reset => exact h.reset

/-! ## What a call removes and releases -/

/-- The slots that stay answer as before. -/
theorem get_of_live {a' : Reg} (h : a.Wf) (h' : a'.Wf) {gone : Nat → Prop}
    (hm : ∀ s, s ∈ a'.live ↔ s ∈ a.live ∧ ¬gone s.id) (id : Nat) (tag : HandleTag) :
    (gone id → a'.get id tag = 0) ∧ (¬gone id → a'.get id tag = a.get id tag) := by
  refine ⟨fun hg => ?_, fun hg => ?_⟩
  · have hf : a'.find id = none := find_eq_none.2 fun s hs he => ((hm s).1 hs).2 (he ▸ hg)
    rw [get, hf]
  · have hf : a'.find id = a.find id := by
      cases hfa : a.find id with
      | none => exact find_eq_none.2 fun s hs => find_eq_none.1 hfa s ((hm s).1 hs).1
      | some s =>
        obtain ⟨hs, hid⟩ := (find_eq_some h).1 hfa
        exact (find_eq_some h').2 ⟨(hm s).2 ⟨hs, by rw [hid]; exact hg⟩, hid⟩
    rw [get, get, hf]

/-- The release calls owed to the slots that `a'` no longer has. -/
def releases (a a' : Reg) : List (Nat × Nat) :=
  (a.live.filter fun s => s.release ≠ 0 ∧ a'.find s.id = none).map fun s => (s.release, s.ptr)

theorem find_filter_none (h : a.Wf) {keep : Slot → Bool} {s : Slot} (hs : s ∈ a.live) :
    (a.filter keep).find s.id = none ↔ keep s = false := by
  rw [find_eq_none]
  refine ⟨fun hno => ?_, fun hk x hx he => ?_⟩
  · rw [← Bool.not_eq_true]
    exact fun hk => hno s (mem_filter.2 ⟨hs, hk⟩) rfl
  · obtain ⟨hx, hkx⟩ := mem_filter.1 hx
    rw [h.id_inj hx hs he, hk] at hkx
    cases hkx

theorem released_filter (h : a.Wf) (keep : Slot → Bool) :
    (a.filter keep).released = a.released ++ a.releases (a.filter keep) := by
  have hgone : (a.live.filter fun s => !keep s && s.release != 0) =
      a.live.filter fun s => s.release ≠ 0 ∧ (a.filter keep).find s.id = none := by
    refine List.filter_congr fun s hs => ?_
    rw [Bool.eq_iff_iff, decide_eq_true_eq, find_filter_none h hs]
    simp [and_comm]
  rw [releases, ← hgone, Reg.filter]

/-- A call that keeps every id releases nothing. -/
theorem released_keeps {a' : Reg} (hk : ∀ s ∈ a.live, ∃ s' ∈ a'.live, s'.id = s.id)
    (hr : a'.released = a.released) : a'.released = a.released ++ a.releases a' := by
  have hnone : (a.live.filter fun s => s.release ≠ 0 ∧ a'.find s.id = none) = [] := by
    refine List.filter_eq_nil_iff.2 fun s hs hd => ?_
    obtain ⟨s', hs', hid⟩ := hk s hs
    exact find_eq_none.1 (of_decide_eq_true hd).2 s' hs' hid
  rw [releases, hnone, List.map_nil, List.append_nil, hr]

theorem put_released (a : Reg) (p : Nat) (tag : HandleTag) (o : Nat) :
    (a.put p tag o).1.released = a.released := by
  unfold Reg.put
  split
  · rfl
  · cases a.findPtr p tag with
    | none => rfl
    | some s => dsimp only; split <;> rfl

/-- A put keeps the release functions, and its new slot has none. -/
theorem mem_put (h : a.Wf) {p : Nat} {tag : HandleTag} {o : Nat} (h' : (a.put p tag o).1.Wf) {s' : Slot}
    (hs' : s' ∈ (a.put p tag o).1.live) :
    (∃ s ∈ a.live, s.id = s'.id ∧ s.ptr = s'.ptr ∧ s.tag = s'.tag ∧ s.release = s'.release) ∨
      ((∀ s ∈ a.live, s.id ≠ s'.id) ∧ s'.release = 0) := by
  by_cases hp : p = 0
  · rw [Reg.put, if_pos hp] at hs'
    exact .inl ⟨s', hs', rfl, rfl, rfl, rfl⟩
  rcases put_cases tag h hp o with ⟨s, hs, -, -, -, he⟩ | ⟨hno, root, nextRoot, -, he⟩
  · rcases he with he | he
    · rw [he] at hs'
      exact .inl ⟨s', hs', rfl, rfl, rfl, rfl⟩
    · rw [he] at hs'
      obtain ⟨x, hx, rfl⟩ := List.mem_map.1 hs'
      refine .inl ⟨x, hx, ?_⟩
      split <;> exact ⟨rfl, rfl, rfl, rfl⟩
  · have hold : ∀ s ∈ a.live, s ∈ (a.put p tag o).1.live := by
      rw [he]
      exact fun s hs => List.mem_append_left _ hs
    have hmem := hs'
    rw [he] at hmem
    rcases List.mem_append.1 hmem with hmem | hnew
    · exact .inl ⟨s', hmem, rfl, rfl, rfl, rfl⟩
    · rw [List.mem_singleton] at hnew
      refine .inr ⟨fun s hs hid => ?_, by rw [hnew]⟩
      -- a slot of the same id would be the new one, whose object had none
      have hsame := h'.id_inj (hold s hs) hs' hid
      rw [hnew] at hsame
      exact hno s hs (by rw [hsame]; exact ⟨rfl, rfl⟩)

end Reg

/-! ## The table -/

section table

variable {t : Table} {a : Reg}

theorem Rep.up (h : Rep t a) : t.up = a.up := by
  funext id
  rw [Table.up, h.ownerOf id]
  rfl

theorem Rep.liveAs (h : Rep t a) {id : Nat} {tag : HandleTag} :
    LiveAs t id tag ↔ a.IsLive id tag := by
  obtain ⟨r, hr, hm, -⟩ := h.find id
  constructor
  · rintro ⟨i, hi, ht⟩
    rw [hr] at hi
    cases hi
    obtain ⟨hs, hid⟩ := (Reg.find_eq_some h.wf).1 hm.symm
    exact ⟨_, hs, hid, ht⟩
  · rintro ⟨x, hx, hid, ht⟩
    rw [(Reg.find_eq_some h.wf).2 ⟨hx, hid⟩] at hm
    obtain ⟨i, rfl, hi⟩ := Option.map_eq_some_iff.1 hm
    exact ⟨i, hr, by rw [hi]; exact ht⟩

theorem Rep.allowed (h : Rep t a) {op : Op} (hop : Allowed t op) : a.Allowed op := by
  cases op with
  | put p tag o =>
    cases tag with
    | handle =>
      refine ⟨by simp, ?_⟩
      rcases hop with hop | ⟨i, hi, hid⟩
      · exact .inl hop
      · have hp : p ≠ 0 := by
          rintro rfl
          simp [Server.findPtr] at hi
        obtain ⟨r, hr, hm, -⟩ := h.findPtr hp .handle
        rw [hr] at hi
        cases hi
        obtain ⟨hs, hsp, hst⟩ := (Reg.findPtr_eq_some h.wf).1 hm.symm
        exact .inr ⟨rfl, _, hs, hsp, hst, hid⟩
    | db => exact ⟨by simp, .inl (h.liveAs.1 hop)⟩
    | pkg => exact ⟨by simp, .inl (hop.imp h.liveAs.1 h.liveAs.1)⟩
    | changelog => exact ⟨by simp, .inl (h.liveAs.1 hop)⟩
    | none => exact hop.elim
  | adopt p o f => exact h.liveAs.1 hop
  | drop id => exact fun tag hl => hop tag (h.liveAs.2 hl)
  | get id tag => trivial
  | ancestor id tag => trivial
  | dropOwner o => trivial
  | dropUnder o => trivial
  | dropPtr p tag => trivial
  | reset => trivial

theorem Rep.ownerForest (h : Rep t a) (ht : a.Tree) : OwnerForest t := by
  refine ⟨fun id => ?_, fun id => ?_, fun id o hid => ?_, fun n hn id o => ?_, fun n hn id tag => ?_,
    fun id o hu => ?_⟩
  · rw [h.up]
    exact (ht.short id).not_above_self
  · rw [h.up]
    exact ht.short id
  · rw [h.up, h.under, Option.some_inj]
    exact ht.under_iff hid o
  · rw [h.underLoop, h.under, ht.under_uncut hn]
  · rw [arpcAncestor, h.ancestorLoop, h.ancestorLoop, Reg.ancestorLoop_eq (ht.short id) hn,
      ← Reg.ancestorLoop_eq (n := 8) (ht.short id) (by decide)]
  · rw [h.up] at hu
    exact ht.root_above (.single hu)

/-- The ids whose slots are not kept stop resolving. -/
theorem Rep.removes_of_live (h : Rep t a) {t' : Table} {a' : Reg} (h' : Rep t' a') {gone : Nat → Prop}
    (hm : ∀ s, s ∈ a'.live ↔ s ∈ a.live ∧ ¬gone s.id) : Removes t t' gone := by
  intro id tag
  obtain ⟨hg, hk⟩ := Reg.get_of_live h.wf h'.wf hm id tag
  rw [h.get, h'.get]
  exact ⟨fun hid => congrArg some (hg hid), fun hid => congrArg some (hk hid)⟩

/-- The ids a filter of the registry removes from the table. -/
theorem Rep.removes (h : Rep t a) {t' : Table} {keep : Slot → Bool} (h' : Rep t' (a.filter keep))
    {gone : Nat → Prop} (hg : ∀ s ∈ a.live, keep s = false ↔ gone s.id) : Removes t t' gone := by
  refine h.removes_of_live h' fun s => ?_
  rw [Reg.mem_filter]
  refine and_congr_right fun hs => ?_
  rw [← hg s hs, Bool.not_eq_false]

theorem Rep.removes_dropOwner (h : Rep t a) (ht : a.Tree) {t' : Table} {o : Nat} (ho : o ≠ 0)
    (h' : Rep t' (a.dropOwner o)) : Removes t t' fun id => id = o ∨ Above t.up id o := by
  rw [Reg.dropOwner, if_neg ho] at h'
  refine h.removes h' fun s hs => ?_
  rw [h.up, Bool.not_eq_false', ht.under_iff (h.wf.id_ne s hs)]

theorem Rep.removes_dropUnder (h : Rep t a) (ht : a.Tree) {t' : Table} {o : Nat} (ho : o ≠ 0)
    (h' : Rep t' (a.dropUnder o)) : Removes t t' fun id => Above t.up id o := by
  rw [Reg.dropUnder, if_neg ho] at h'
  refine h.removes h' fun s hs => ?_
  rw [h.up, Bool.or_eq_false_iff, Bool.not_eq_false', ht.under_iff (h.wf.id_ne s hs),
    decide_eq_false_iff_not]
  refine ⟨fun hx => hx.2.resolve_left hx.1, fun hx => ⟨fun he => ?_, .inr hx⟩⟩
  rw [he] at hx
  exact (ht.short o).not_above_self hx

/-- An adopted object's slot has the release function it was given. -/
theorem Rep.adopted (h : Rep t a) {t' : Table} {p o f : Nat} (hp : p ≠ 0)
    (h' : Rep t' (a.adopt p o f).1) :
    ∃ i, Server.findPtr t' p .none = some (some i) ∧ (t'.tab i).release = f := by
  obtain ⟨s, hs, hid, hsp, hst⟩ := (Reg.has_put h.wf hp o).2 (.inl ⟨rfl, rfl, rfl⟩ :
    (p = p ∧ HandleTag.none = .none ∧ (a.put p .none o).2 = (a.put p .none o).2) ∨
      a.Has (a.put p .none o).2 p .none)
  have hmem : { s with release := f } ∈ (a.adopt p o f).1.live :=
    List.mem_map.2 ⟨s, hs, if_pos hid⟩
  obtain ⟨r, hr, hm, -⟩ := h'.findPtr hp .none
  rw [(Reg.findPtr_eq_some h'.wf).2 ⟨hmem, hsp, hst⟩] at hm
  obtain ⟨i, rfl, hi⟩ := Option.map_eq_some_iff.1 hm
  exact ⟨i, hr, by rw [hi]⟩

theorem Rep.mem_slots (h : Rep t a) {s : Slot} : s ∈ t.slots ↔ s ∈ a.live := h.slots_perm.mem_iff

theorem Rep.find_none (h : Rep t a) (id : Nat) : Server.find t id = some .none ↔ a.find id = .none := by
  obtain ⟨r, hr, hm, -⟩ := h.find id
  rw [hr, ← hm, Option.some_inj, Option.map_eq_none_iff]

theorem Rep.find_slot (h : Rep t a) {s : Slot} (hs : s ∈ a.live) :
    ∃ i, Server.find t s.id = some (some i) ∧ t.tab i = s := by
  obtain ⟨r, hr, hm, -⟩ := h.find s.id
  rw [(Reg.find_eq_some h.wf).2 ⟨hs, rfl⟩] at hm
  obtain ⟨i, rfl, hi⟩ := Option.map_eq_some_iff.1 hm
  exact ⟨i, hr, hi⟩

/-- The slot that an adoption arms is its object's. -/
theorem Reg.adopt_slot (h : a.Wf) {p o : Nat} (h' : (a.put p .none o).1.Wf) {s : Slot}
    (hs : s ∈ (a.put p .none o).1.live) : s.id = (a.put p .none o).2 ↔ s.ptr = p ∧ s.tag = .none := by
  by_cases hp : p = 0
  · have hput : (a.put p .none o).2 = 0 := by rw [Reg.put, if_pos hp]
    rw [hput, hp]
    exact iff_of_false (h'.id_ne s hs) fun hx => h'.ptr_ne s hs hx.1
  · obtain ⟨x, hx, hxid, hxp, hxt⟩ := (Reg.has_put h hp o).2 (.inl ⟨rfl, rfl, rfl⟩ :
      (p = p ∧ HandleTag.none = .none ∧ (a.put p .none o).2 = (a.put p .none o).2) ∨
        a.Has (a.put p .none o).2 p .none)
    refine ⟨fun hid => ?_, fun hobj => ?_⟩
    · rw [h'.id_inj hs hx (hid.trans hxid.symm)]
      exact ⟨hxp, hxt⟩
    · rw [h'.obj_inj hs hx (hobj.1.trans hxp.symm) (hobj.2.trans hxt.symm)]
      exact hxid

/-- **The release functions after a call**: a slot has what it had, or none, but for an adoption. -/
theorem Rep.arms_exec (h : Rep t a) {op : Op} (hb : a.nextSeq + a.issues op ≤ 2 ^ 40) {s' : Slot}
    (hs' : s' ∈ (a.exec op).1.live) :
    (∃ s ∈ a.live, s.id = s'.id ∧ s'.release = op.arms s) ∨
      ((∀ s ∈ a.live, s.id ≠ s'.id) ∧ s'.release = op.arms { s' with release := 0 }) := by
  have hlt : (a.exec op).1.nextSeq ≠ a.nextSeq → a.nextSeq < 2 ^ 40 := by
    intro hne
    rw [Reg.issues, if_neg hne] at hb
    omega
  have hfilter : ∀ keep : Slot → Bool, s' ∈ (a.filter keep).live → s' ∈ a.live :=
    fun keep hk => (Reg.mem_filter.1 hk).1
  cases op with
  | put p tag o =>
    obtain ⟨t₁, -, h₁⟩ := h.put p tag o hlt
    obtain ⟨s, hs, hid, -, -, hrel⟩ | ⟨hno, hrel⟩ := Reg.mem_put h.wf h₁.wf hs'
    · exact .inl ⟨s, hs, hid, hrel.symm⟩
    · exact .inr ⟨hno, hrel⟩
  | adopt p o f =>
    obtain ⟨t₁, -, h₁⟩ := h.put p .none o hlt
    have hmod : s' ∈ ((a.put p .none o).1.modify (a.put p .none o).2
        fun s => { s with release := f }).live := hs'
    obtain ⟨x, hx, rfl⟩ := List.mem_map.1 hmod
    have hslot := Reg.adopt_slot h.wf h₁.wf hx
    by_cases hxid : x.id = (a.put p .none o).2
    · obtain ⟨hxp, hxt⟩ := hslot.1 hxid
      rw [if_pos hxid]
      obtain ⟨s, hs, hid, hsp, hst, -⟩ | ⟨hno, -⟩ := Reg.mem_put h.wf h₁.wf hx
      · exact .inl ⟨s, hs, hid, (if_pos ⟨hsp.trans hxp, hst.trans hxt⟩).symm⟩
      · exact .inr ⟨hno, (if_pos ⟨hxp, hxt⟩).symm⟩
    · have hobj := fun hx => hxid (hslot.2 hx)
      rw [if_neg hxid]
      obtain ⟨s, hs, hid, hsp, hst, hrel⟩ | ⟨hno, hrel⟩ := Reg.mem_put h.wf h₁.wf hx
      · rw [← hsp, ← hst] at hobj
        exact .inl ⟨s, hs, hid, hrel.symm.trans (if_neg hobj).symm⟩
      · exact .inr ⟨hno, hrel.trans (if_neg hobj).symm⟩
  | get id tag => exact .inl ⟨s', hs', rfl, rfl⟩
  | ancestor id tag => exact .inl ⟨s', hs', rfl, rfl⟩
  | drop id => exact .inl ⟨s', hfilter _ hs', rfl, rfl⟩
  | dropOwner o =>
    refine .inl ⟨s', ?_, rfl, rfl⟩
    unfold Reg.exec Reg.dropOwner at hs'
    dsimp only at hs'
    split at hs'
    · exact hs'
    · exact hfilter _ hs'
  | dropUnder o =>
    refine .inl ⟨s', ?_, rfl, rfl⟩
    unfold Reg.exec Reg.dropUnder at hs'
    dsimp only at hs'
    split at hs'
    · exact hs'
    · exact hfilter _ hs'
  | dropPtr p tag =>
    refine .inl ⟨s', ?_, rfl, rfl⟩
    unfold Reg.exec Reg.dropPtr Reg.dropOwner at hs'
    dsimp only at hs'
    split at hs'
    · exact hs'
    · cases hf : a.findPtr p tag with
      | none =>
        rw [hf] at hs'
        exact hs'
      | some s =>
        rw [hf] at hs'
        dsimp only at hs'
        split at hs'
        · exact hs'
        · exact hfilter _ hs'
  | reset => exact .inl ⟨s', hfilter _ hs', rfl, rfl⟩

/-- Every slot that the call does not drop keeps its id and its object. -/
theorem Rep.keeps_exec (h : Rep t a) {op : Op} {s : Slot} (hs : s ∈ a.live) (hd : ¬op.drops t s.id) :
    (a.exec op).1.Has s.id s.ptr s.tag :=
  (h.has_exec op (h.wf.ptr_ne s hs)).2 (.inr ⟨⟨s, hs, rfl, rfl, rfl⟩, hd⟩)

/-- And one that it drops has no slot any more. -/
theorem Rep.drops_exec (h : Rep t a) {op : Op} (h' : (a.exec op).1.Wf) {id : Nat} (hd : op.drops t id) :
    (a.exec op).1.find id = .none := by
  refine Reg.find_eq_none.2 fun s hs hid => ?_
  obtain ⟨hobj, -⟩ | ⟨-, hno⟩ := (h.has_exec op (h'.ptr_ne s hs)).1 ⟨s, hs, rfl, rfl, rfl⟩
  · cases op with
    | put p tag o => exact hd
    | adopt p o f => exact hd
    | _ => cases hobj
  · exact hno (hid ▸ hd)

/-- **The release calls of a call** are those owed to the slots that it removes. -/
theorem Rep.released_exec (h : Rep t a) (op : Op) :
    (a.exec op).1.released = a.released ++ a.releases (a.exec op).1 := by
  have hkeep : (∀ id, ¬op.drops t id) → ∀ s ∈ a.live, ∃ s' ∈ (a.exec op).1.live, s'.id = s.id := by
    intro hd s hs
    obtain ⟨s', hs', hid, -⟩ := h.keeps_exec hs (hd s.id)
    exact ⟨s', hs', hid⟩
  have hself : a.released = a.released ++ a.releases a :=
    Reg.released_keeps (fun s hs => ⟨s, hs, rfl⟩) rfl
  cases op with
  | put p tag o => exact Reg.released_keeps (hkeep fun _ => id) (a.put_released p tag o)
  | adopt p o f => exact Reg.released_keeps (hkeep fun _ => id) (a.put_released p .none o)
  | get id tag => exact hself
  | ancestor id tag => exact hself
  | drop id => exact Reg.released_filter h.wf _
  | dropOwner o =>
    unfold Reg.exec Reg.dropOwner
    dsimp only
    split
    · exact hself
    · exact Reg.released_filter h.wf _
  | dropUnder o =>
    unfold Reg.exec Reg.dropUnder
    dsimp only
    split
    · exact hself
    · exact Reg.released_filter h.wf _
  | dropPtr p tag =>
    unfold Reg.exec Reg.dropPtr Reg.dropOwner
    dsimp only
    split
    · exact hself
    · cases a.findPtr p tag with
      | none => exact hself
      | some s =>
        dsimp only
        split
        · exact hself
        · exact Reg.released_filter h.wf _
  | reset => exact Reg.released_filter h.wf _

/-- The table owes what the registry does. -/
theorem Rep.releases_perm (h : Rep t a) {t' : Table} {a' : Reg} (h' : Rep t' a') :
    (releases t t').Perm (a.releases a') := by
  refine List.Perm.map _ ?_
  have hp := h.slots_perm.filter fun s => s.release ≠ 0 ∧ a'.find s.id = .none
  refine List.Perm.trans (List.Perm.of_eq (List.filter_congr fun s _ => ?_)) hp
  rw [Bool.eq_iff_iff, decide_eq_true_eq, decide_eq_true_eq, h'.find_none]

theorem Rep.exactStep (h : Rep t a) (ht : a.Tree) {op : Op} (hb : a.nextSeq + a.issues op ≤ 2 ^ 40)
    {t' : Table} (h' : Rep t' (a.exec op).1) : ExactStep t op t' where
  dropOwner o hop ho := by
    subst hop
    exact h.removes_dropOwner ht ho h'
  dropUnder o hop ho := by
    subst hop
    exact h.removes_dropUnder ht ho h'
  goes s hs hd := (h'.find_none s.id).2 (h.drops_exec h'.wf hd)
  stays s hs hd := by
    have hs := h.mem_slots.1 hs
    obtain ⟨s', hs', hid, hp, htag⟩ := h.keeps_exec hs hd
    obtain ⟨i, hi, rfl⟩ := h'.find_slot hs'
    refine ⟨i, hid ▸ hi, hp, htag, ?_⟩
    obtain ⟨x, hx, hxid, hrel⟩ | ⟨hno, -⟩ := h.arms_exec hb hs'
    · rw [h.wf.id_inj hx hs (hxid.trans hid)] at hrel
      exact hrel
    · exact absurd hid.symm (hno s hs)
  comes s hs hnone := by
    have hdead := Reg.find_eq_none.1 ((h.find_none s.id).1 hnone)
    obtain ⟨x, hx, hxid, -⟩ | ⟨-, hrel⟩ := h.arms_exec hb (h'.mem_slots.1 hs)
    · exact absurd hxid (hdead x hx)
    · exact hrel
  released := by
    have hr := h'.released
    rw [h.released_exec op] at hr
    exact hr.trans (h.released.symm.append (h.releases_perm h').symm)
  adopted p o f hop hp := by
    subst hop
    exact h.adopted hp h'

end table

/-! ## Whole runs -/

/-- A run of allowed calls keeps the forest. -/
theorem Rep.runTable {t : Table} {a : Reg} (h : Rep t a) (ht : a.Tree) (ops rest : List Op)
    (hok : AllowedRun t (ops ++ rest)) (hb : a.nextSeq + issuedBy (ops ++ rest) a ≤ 2 ^ 40) :
    ∃ t' a', Server.runTable t ops = some t' ∧ Rep t' a' ∧ a'.Tree ∧ AllowedRun t' rest ∧
      a'.nextSeq + issuedBy rest a' ≤ 2 ^ 40 := by
  induction ops generalizing t a with
  | nil => exact ⟨t, a, rfl, h, ht, hok, hb⟩
  | cons op ops ih =>
    rw [List.cons_append, issuedBy] at hb
    obtain ⟨hop, hrest⟩ := hok
    obtain ⟨t₁, ht₁, h₁⟩ := h.exec op (by omega)
    have hn : (a.exec op).1.nextSeq = a.nextSeq + a.issues op := Reg.nextSeq_exec (by omega)
    obtain ⟨t', a', hrun, hR⟩ := ih h₁ (ht.exec (h.allowed hop) (by omega)) (hrest _ _ ht₁) (by omega)
    exact ⟨t', a', by rw [Server.runTable, ht₁]; exact hrun, hR⟩

/-- **The owners are a forest and drops are exact**, before and after every call of every run of
allowed calls that issues fewer than `2 ^ 40` ids. -/
theorem owner_forest_exact (ops : List Op) (op : Op) (hok : AllowedRun {} (ops ++ [op]))
    (hb : issuedBy (ops ++ [op]) {} < 2 ^ 40) :
    ∃ t t' r, runTable {} ops = some t ∧ exec t op = some (t', r) ∧
      OwnerForest t ∧ OwnerForest t' ∧ ExactStep t op t' := by
  have hb' : ({} : Reg).nextSeq + issuedBy (ops ++ [op]) {} ≤ 2 ^ 40 := by
    rw [show ({} : Reg).nextSeq = 1 from rfl]
    omega
  obtain ⟨t, a, hrun, hR, hT, hok', hb⟩ := Rep.empty.runTable Reg.Tree.empty ops [op] hok hb'
  rw [issuedBy, issuedBy, Nat.add_zero] at hb
  obtain ⟨t', ht', hR'⟩ := hR.exec op hb
  have hT' := hT.exec (hR.allowed hok'.1) hb
  exact ⟨t, t', _, hrun, ht', hR.ownerForest hT, hR'.ownerForest hT', hR.exactStep hT hb hR'⟩

theorem Rep.allowedRun_cons {t : Table} {a : Reg} (h : Rep t a) {op : Op} {ops : List Op}
    (hb : a.nextSeq + a.issues op ≤ 2 ^ 40) (hop : Allowed t op)
    (hrest : ∀ t', Rep t' (a.exec op).1 → AllowedRun t' ops) : AllowedRun t (op :: ops) := by
  refine ⟨hop, fun t' r he => ?_⟩
  obtain ⟨t₁, ht₁, h₁⟩ := h.exec op hb
  rw [ht₁] at he
  cases he
  exact hrest _ h₁

/-- A handle and a package under it. -/
def handleAndPkg : List Op := [.put 1 .handle 0, .put 7 .pkg (mkId 1 1)]

/-- And a record adopted with the release function `4`. -/
def handleAndRecord : List Op := handleAndPkg ++ [.adopt 9 (mkId 1 1) 4]

theorem owner_forest_exact_handleAndRecord :
    ∃ t t' r, runTable {} handleAndRecord = some t ∧
      exec t (.dropUnder (mkId 1 1)) = some (t', r) ∧
      OwnerForest t ∧ OwnerForest t' ∧ ExactStep t (.dropUnder (mkId 1 1)) t' := by
  refine owner_forest_exact handleAndRecord (.dropUnder (mkId 1 1)) ?_ (by decide +kernel)
  refine Rep.empty.allowedRun_cons (by decide +kernel) (.inl rfl) fun t₁ h₁ => ?_
  refine h₁.allowedRun_cons (by decide +kernel) (.inl (h₁.liveAs.2 ?_)) fun t₂ h₂ => ?_
  · exact ⟨_, List.mem_cons_self, rfl, rfl⟩
  refine h₂.allowedRun_cons (by decide +kernel) (h₂.liveAs.2 ?_) fun t₃ h₃ => ?_
  · exact ⟨_, List.mem_cons_self, rfl, rfl⟩
  · exact ⟨trivial, fun _ _ _ => trivial⟩

/-! ## When the sequence numbers run out -/

/-- The second handle's id. -/
def secondId : Nat := mkId 2 2

/-- Issue `n` ids to packages of the second handle, each dropped again. -/
def refills : Nat → List Op
  | 0 => []
  | n + 1 => .put 3 .pkg secondId :: .dropUnder secondId :: refills n

def handleSlot (n : Nat) : Slot := { id := mkId n n, ptr := n, owner := 0, tag := .handle }

/-- Two handles, after `n` ids more. -/
def twoHandles (n : Nat) : Reg :=
  { live := [handleSlot 1, handleSlot 2], nextSeq := 3 + n, nextRoot := 3 }

theorem twoHandles_tree {n : Nat} (hn : 3 + n ≤ 2 ^ 40) : (twoHandles n).Tree := by
  have h12 : mkId 1 1 = 2 ^ 40 + 1 := by decide +kernel
  have h22 : mkId 2 2 = 2 * 2 ^ 40 + 2 := by decide +kernel
  refine ⟨⟨?_, ?_, ?_, ?_, ?_, ?_⟩, ?_, ?_, ?_⟩
  all_goals simp [twoHandles, handleSlot, h12, h22, Reg.Sits]
  all_goals omega

theorem twoHandles_newRoot (n : Nat) :
    newRoot (twoHandles n).nextRoot secondId .pkg = (2, 3) := by
  have h0 : secondId ≠ 0 := by decide +kernel
  have h2 : arpcRoot secondId = 2 := by decide +kernel
  rw [newRoot, if_pos h0, h2]
  rfl

theorem twoHandles_findPtr (n : Nat) : (twoHandles n).findPtr 3 .pkg = none := by
  simp [Reg.findPtr, twoHandles, handleSlot]

theorem twoHandles_put (n : Nat) :
    (twoHandles n).put 3 .pkg secondId = ((twoHandles n).withNew 3 .pkg secondId, mkId 2 (3 + n)) := by
  rw [Reg.put, if_neg (by decide), twoHandles_findPtr, Reg.withNew]
  dsimp only
  rw [twoHandles_newRoot]
  rfl

theorem twoHandles_sits (n : Nat) : (twoHandles n).Sits secondId .pkg :=
  .inl ⟨handleSlot 2, List.mem_cons_of_mem _ List.mem_cons_self, rfl, rfl⟩

/-- The slot of the package. -/
def pkgSlot (n : Nat) : Slot := { id := mkId 2 (3 + n), ptr := 3, owner := secondId, tag := .pkg }

theorem withNew_live (n : Nat) :
    ((twoHandles n).withNew 3 .pkg secondId).live = [handleSlot 1, handleSlot 2, pkgSlot n] := by
  rw [Reg.withNew, twoHandles_newRoot]
  rfl

/-- The package is dropped again. -/
theorem twoHandles_drop {n : Nat} (hn : 3 + n < 2 ^ 40) :
    ((twoHandles n).withNew 3 .pkg secondId).dropUnder secondId = twoHandles (n + 1) := by
  have hT := (twoHandles_tree (Nat.le_of_lt hn)).append (p := 3) (twoHandles_sits n)
    ((twoHandles_tree (Nat.le_of_lt hn)).wf.append _ _ _ (by decide)
      (Reg.findPtr_eq_none.1 (twoHandles_findPtr n)) hn) hn
  have h0 : secondId ≠ 0 := by decide +kernel
  have hlive := withNew_live n
  generalize hb : (twoHandles n).withNew 3 .pkg secondId = b at hT hlive
  have h1m : handleSlot 1 ∈ b.live := by rw [hlive]; simp
  have hpm : pkgSlot n ∈ b.live := by rw [hlive]; simp
  have hne1 : (handleSlot 1).id ≠ secondId := by decide +kernel
  have hnep : (pkgSlot n).id ≠ secondId := by
    have h2 : secondId = 2 * 2 ^ 40 + 2 := by decide +kernel
    have h3 : (pkgSlot n).id = 2 * 2 ^ 40 + (3 + n) := mkId_eq hn
    omega
  have hu1 : b.under (handleSlot 1).id secondId = false := by
    rw [← Bool.not_eq_true, hT.under_iff (hT.wf.id_ne _ h1m)]
    rintro (he | he)
    · exact hne1 he
    · obtain ⟨z, hz, -⟩ := above_iff.1 he
      obtain ⟨s, hs, hid, rfl, hz0⟩ := (Reg.up_eq_some hT.wf).1 hz
      rw [hT.wf.id_inj hs h1m hid] at hz0
      exact hz0 rfl
  have hup : b.under (pkgSlot n).id secondId = true :=
    (hT.under_iff (hT.wf.id_ne _ hpm) _).2 (.inr (.single (Reg.up_live hT.wf hpm h0)))
  have hkeep : b.live.filter (fun s => s.id = secondId || !b.under s.id secondId) =
      [handleSlot 1, handleSlot 2] := by
    rw [hlive, List.filter_cons, List.filter_cons, List.filter_cons, hu1, hup]
    simp only [hnep, show (handleSlot 2).id = secondId from rfl, decide_true, decide_false,
      Bool.not_false, Bool.or_true, Bool.true_or, Bool.not_true, Bool.or_false, if_true,
      Bool.false_eq_true, if_false, List.filter_nil]
  have hrel : b.live.filter (fun s => !(decide (s.id = secondId) || !b.under s.id secondId) &&
      s.release != 0) = [] := by
    refine List.filter_eq_nil_iff.2 fun s hs => ?_
    rw [hlive] at hs
    have : s.release = 0 := by
      simp only [List.mem_cons, List.not_mem_nil, or_false] at hs
      rcases hs with rfl | rfl | rfl <;> rfl
    simp [this]
  rw [Reg.dropUnder, if_neg h0, Reg.filter, hkeep, hrel, ← hb, Reg.withNew, twoHandles_newRoot]
  have hmod : (3 + n + 1) % 2 ^ 64 = 3 + (n + 1) := by omega
  simp only [twoHandles, hmod, List.map_nil, List.append_nil]

/-- The ids are issued, and every call is allowed. -/
theorem Rep.refills {t : Table} {k : Nat} (n : Nat) (h : Rep t (twoHandles k))
    (hn : 3 + k + n ≤ 2 ^ 40) :
    ∃ t', Server.runTable t (Server.refills n) = some t' ∧ Rep t' (twoHandles (k + n)) ∧
      ∀ rest, AllowedRun t' rest → AllowedRun t (Server.refills n ++ rest) := by
  induction n generalizing t k with
  | zero => exact ⟨t, rfl, h, fun _ hr => hr⟩
  | succ n ih =>
    have hseq : (twoHandles k).nextSeq = 3 + k := rfl
    have hi := (twoHandles k).issues_le (.put 3 .pkg secondId)
    obtain ⟨t₁, ht₁, h₁⟩ := h.exec (.put 3 .pkg secondId) (by omega)
    have hput : (twoHandles k).exec (.put 3 .pkg secondId) = _ := twoHandles_put k
    rw [hput] at ht₁ h₁
    have hn₁ : ((twoHandles k).withNew 3 .pkg secondId).nextSeq ≤ 2 ^ 40 := by
      have hs : ((twoHandles k).exec (.put 3 .pkg secondId)).1.nextSeq = _ :=
        Reg.nextSeq_exec (by omega)
      rw [hput] at hs
      exact Nat.le_trans (Nat.le_of_eq hs) (by omega)
    obtain ⟨t₂, ht₂, h₂⟩ := h₁.exec (.dropUnder secondId) (by
      rw [Reg.issues_of_object rfl]
      exact hn₁)
    have hdrop : (((twoHandles k).withNew 3 .pkg secondId).exec (.dropUnder secondId)).1 =
        twoHandles (k + 1) := twoHandles_drop (by omega)
    rw [hdrop] at h₂
    obtain ⟨t', ht', h', hall⟩ := ih h₂ (by omega)
    refine ⟨t', ?_, by rw [show k + (n + 1) = k + 1 + n by omega]; exact h', fun rest hr => ?_⟩
    · rw [Server.refills, Server.runTable, ht₁]
      dsimp only [Option.bind_eq_bind, Option.bind_some]
      rw [Server.runTable, ht₂]
      exact ht'
    · have hown : LiveAs t secondId .handle :=
        h.liveAs.2 ⟨handleSlot 2, List.mem_cons_of_mem _ List.mem_cons_self, rfl, rfl⟩
      refine ⟨.inl hown, fun t₁' r₁ he₁ => ?_⟩
      rw [ht₁] at he₁
      cases he₁
      refine ⟨trivial, fun t₂' r₂ he₂ => ?_⟩
      rw [ht₂] at he₂
      cases he₂
      exact hall rest hr

/-- The two handles are put. -/
theorem twoHandles_start :
    ∃ t, Server.runTable {} [.put 1 .handle 0, .put 2 .handle 0] = some t ∧ Rep t (twoHandles 0) ∧
      ∀ rest, AllowedRun t rest →
        AllowedRun {} ([.put 1 .handle 0, .put 2 .handle 0] ++ rest) := by
  obtain ⟨t₁, ht₁, h₁⟩ := Rep.empty.exec (.put 1 .handle 0) (by decide +kernel)
  obtain ⟨t₂, ht₂, h₂⟩ := h₁.exec (.put 2 .handle 0) (by decide +kernel)
  have he : ((((({} : Reg).exec (.put 1 .handle 0)).1).exec (.put 2 .handle 0)).1) =
      twoHandles 0 := by decide +kernel
  rw [he] at h₂
  refine ⟨t₂, ?_, h₂, fun rest hr => ?_⟩
  · rw [Server.runTable, ht₁]
    dsimp only [Option.bind_eq_bind, Option.bind_some]
    rw [Server.runTable, ht₂]
    rfl
  · refine ⟨.inl rfl, fun t₁' r₁ he₁ => ?_⟩
    rw [ht₁] at he₁
    cases he₁
    refine ⟨.inl rfl, fun t₂' r₂ he₂ => ?_⟩
    rw [ht₂] at he₂
    cases he₂
    exact hr

theorem runTable_append (t : Table) (ops ops' : List Op) :
    runTable t (ops ++ ops') = (runTable t ops).bind fun t => runTable t ops' := by
  induction ops generalizing t with
  | nil => rfl
  | cons op ops ih =>
    rw [List.cons_append, runTable, runTable]
    cases exec t op with
    | none => rfl
    | some r => exact ih r.1

/-- The id after the last sequence number has another root. -/
theorem mkId_overflow : mkId 2 (2 ^ 40) = 3 * 2 ^ 40 := by decide +kernel

/-- The registry with a slot of that id. -/
theorem overflow_wf {n : Nat} (hn : 3 + n = 2 ^ 40) :
    ((twoHandles n).withNew 3 .pkg secondId).Wf := by
  have h12 : mkId 1 1 = 2 ^ 40 + 1 := by decide +kernel
  have h22 : mkId 2 2 = 2 * 2 ^ 40 + 2 := by decide +kernel
  have hlive := withNew_live n
  have hseq : ((twoHandles n).withNew 3 .pkg secondId).nextSeq = 2 ^ 40 + 1 := by
    have : (3 + n + 1) % 2 ^ 64 = 2 ^ 40 + 1 := by omega
    exact this
  have hid : (pkgSlot n).id = 3 * 2 ^ 40 := by rw [pkgSlot, hn]; exact mkId_overflow
  have h1 : (handleSlot 1).id = 2 ^ 40 + 1 := h12
  have h2 : (handleSlot 2).id = 2 * 2 ^ 40 + 2 := h22
  have hmem : ∀ s ∈ ((twoHandles n).withNew 3 .pkg secondId).live,
      s = handleSlot 1 ∨ s = handleSlot 2 ∨ s = pkgSlot n := by
    intro s hs
    rw [hlive] at hs
    simpa using hs
  refine ⟨?_, ?_, fun s hs => ?_, fun s hs => ?_, fun s hs => ?_, ?_⟩
  · rw [hlive, List.map_cons, List.map_cons, List.map_cons, h1, h2, hid]
    decide
  · rw [hlive]
    simp [handleSlot, pkgSlot]
  · rcases hmem s hs with rfl | rfl | rfl
    · rw [h1]; decide
    · rw [h2]; decide
    · rw [hid]; decide
  · rcases hmem s hs with rfl | rfl | rfl
    · exact Nat.one_ne_zero
    · exact Nat.succ_ne_zero 1
    · exact Nat.succ_ne_zero 2
  · rw [hseq]
    have := Nat.mod_lt s.id (show 2 ^ 40 > 0 by decide)
    omega
  · rw [hseq]
    decide

/-- The package put when the sequence numbers have run out has another root than its handle. -/
theorem Rep.overflow {t : Table} {n : Nat} (h : Rep t (twoHandles n)) (hn : 3 + n = 2 ^ 40) :
    ∃ t' r, Server.exec t (.put 3 .pkg secondId) = some (t', r) ∧ ¬OwnerForest t' := by
  obtain ⟨t', ht', h'⟩ := h.putNew (overflow_wf hn)
  obtain ⟨i, hi, hm, -⟩ := h.findPtr (p := 3) (by decide) .pkg
  rw [twoHandles_findPtr, Option.map_eq_none_iff] at hm
  subst hm
  refine ⟨t', mkId 2 (2 ^ 40), ?_, fun hF => ?_⟩
  · rw [twoHandles_newRoot, show (twoHandles n).nextSeq = 2 ^ 40 from hn] at ht'
    rw [Server.exec, Server.arpcHandlePut, if_neg (by decide), hi]
    exact ht'
  · have h0 : secondId ≠ 0 := by decide +kernel
    have hmem : pkgSlot n ∈ ((twoHandles n).withNew 3 .pkg secondId).live := by
      rw [withNew_live]
      simp
    have hup : t'.up (pkgSlot n).id = some secondId := by
      rw [h'.up]
      exact Reg.up_live h'.wf hmem h0
    have hroot := hF.roots _ _ hup
    rw [pkgSlot, hn, mkId_overflow] at hroot
    exact absurd hroot (by decide +kernel)

/-- **A run whose last put has a root of its own**: the owner is the second handle. -/
theorem overflow_roots :
    ∃ ops op, AllowedRun {} (ops ++ [op]) ∧ ∃ t t' r, runTable {} ops = some t ∧
      exec t op = some (t', r) ∧ ¬OwnerForest t' := by
  obtain ⟨t₀, ht₀, h₀, hall₀⟩ := twoHandles_start
  obtain ⟨t₁, ht₁, h₁, hall₁⟩ := h₀.refills (2 ^ 40 - 3) (by omega)
  obtain ⟨t₂, r, ht₂, hF⟩ := h₁.overflow (by omega)
  refine ⟨[.put 1 .handle 0, .put 2 .handle 0] ++ refills (2 ^ 40 - 3), .put 3 .pkg secondId, ?_,
    t₁, t₂, r, ?_, ht₂, hF⟩
  · rw [List.append_assoc]
    refine hall₀ _ (hall₁ _ ⟨.inl ?_, fun _ _ _ => trivial⟩)
    exact h₁.liveAs.2 ⟨handleSlot 2, List.mem_cons_of_mem _ List.mem_cons_self, rfl, rfl⟩
  · rw [runTable_append, ht₀]
    exact ht₁

end Server
