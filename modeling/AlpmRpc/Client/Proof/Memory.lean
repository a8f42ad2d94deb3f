import AlpmRpc.Client.Memory
import AlpmRpc.Client.Proof.Cache
import AlpmRpc.Server.Ops

/-!
# Sessions kept apart

Nothing but a release takes anything out of the client's memory, so what it holds is its issuer's
(`Inv`) only as long as a new process does not hand out the ids of an old one.

* The groups only grow by groups without columns (`Grows`).
* Each storing keeps the invariant under ids of the process connected to (`Inv.storeColumn`,
  `Inv.cbStore`, `Inv.borrowed`), each other change keeps it as it is.
* What a stub returns from memory is then its issuer's (`Inv.own`).
-/

set_option autoImplicit false

namespace Client

open Json Gen Wire

/-! ## Groups that are added or freed -/

namespace Groups

variable {s s' s'' : Groups}

/-- New slots are in new groups, and new groups have no columns. -/
structure Grows (s s' : Groups) : Prop where
  slots : ∀ p ∈ s'.slots, p ∈ s.slots ∨ s.nextGroup ≤ p.g
  groups : ∀ x ∈ s'.groups, x ∈ s.groups ∨
    (s.nextGroup ≤ x.num ∧ x.num < s'.nextGroup ∧ x.cols = [])
  next : s.nextGroup ≤ s'.nextGroup

theorem Grows.refl (s : Groups) : Grows s s :=
  ⟨fun _ h => .inl h, fun _ h => .inl h, Nat.le_refl _⟩

theorem Grows.trans (h : Grows s s') (h' : Grows s' s'') : Grows s s'' where
  slots := by
    intro p hp
    rcases h'.slots p hp with hp | hp
    · exact h.slots p hp
    · exact .inr (Nat.le_trans h.next hp)
  groups := by
    intro x hx
    rcases h'.groups x hx with hx | ⟨hn, hlt, hc⟩
    · rcases h.groups x hx with hx | ⟨hn, hlt, hc⟩
      · exact .inl hx
      · exact .inr ⟨hn, Nat.lt_of_lt_of_le hlt h'.next, hc⟩
    · exact .inr ⟨Nat.le_trans h.next hn, hlt, hc⟩
  next := Nat.le_trans h.next h'.next

theorem mem_place {g : Nat} {ids : List Nat} {i : Nat} {slots : List PkgSlot} {p : PkgSlot}
    (hp : p ∈ place g ids i slots) : p ∈ slots ∨ p.g = g := by
  induction ids generalizing i slots with
  | nil => exact .inl hp
  | cons id ids ih =>
    rw [place] at hp
    split at hp
    · exact ih hp
    · rcases ih hp with hp | hp
      · rcases List.mem_append.1 hp with hp | hp
        · exact .inl hp
        · exact .inr (by rw [List.mem_singleton.1 hp])
      · exact .inr hp

theorem Grows.groupNew (s : Groups) (ids : List Nat) : Grows s (s.groupNew ids).1 := by
  unfold Groups.groupNew
  dsimp only
  split
  · exact .refl s
  · refine ⟨fun p hp => ?_, fun x hx => ?_, Nat.le_succ _⟩
    · rcases mem_place hp with hp | hp
      · exact .inl hp
      · exact .inr (Nat.le_of_eq hp.symm)
    · rcases List.mem_cons.1 hx with rfl | hx
      · exact .inr ⟨Nat.le_refl _, Nat.lt_succ_self _, rfl⟩
      · exact .inl hx

theorem Grows.register (s : Groups) (lists : List (List Nat)) :
    Grows s (lists.foldl arpcPkgGroupRegister s) := by
  induction lists generalizing s with
  | nil => exact .refl s
  | cons ids lists ih =>
    refine Grows.trans ?_ (ih _)
    unfold arpcPkgGroupRegister
    split
    · exact .refl s
    · exact .groupNew s ids

theorem Grows.groupForPkg (s : Groups) (id : Nat) : Grows s (s.groupForPkg id).1 := by
  unfold Groups.groupForPkg
  split
  · exact .refl s
  · exact .groupNew s [id]

theorem Grows.freeGroupsOf (s : Groups) (root : Nat) : Grows s (s.freeGroupsOf root) :=
  ⟨fun _ hp => .inl (List.mem_filter.1 hp).1, fun _ hx => .inl (List.mem_filter.1 hx).1,
    Nat.le_refl _⟩

end Groups

namespace Memory

open Groups Run

variable {β : Type} {m m' : Memory β}

/-! ## The invariant -/

structure Inv (m : Memory β) : Prop where
  entries : ∀ e ∈ m.cache.owned, ∀ v, e.value = .obj v → m.OfIssuer e.owner v.1
  columns : ∀ p ∈ m.cache.groups.slots, ∀ st ∈ m.stamps p.g, m.OfIssuer p.id st.2
  callbacks : ∀ h, ∀ kind < cbSlots, ∀ r ∈ m.regs h kind, m.OfIssuer h r.2
  /-- a stamp for each column -/
  stamped : ∀ x ∈ m.cache.groups.groups, (m.stamps x.num).map (·.1) = x.cols.map (·.field)
  nums : ∀ x ∈ m.cache.groups.groups, x.num < m.cache.groups.nextGroup
  fresh : ∀ g, m.cache.groups.nextGroup ≤ g → m.stamps g = []

theorem Inv.empty : Inv ({} : Memory β) where
  entries := by simp
  columns := by simp
  callbacks := by simp
  stamped := by simp
  nums := by simp
  fresh := by simp

/-- **From memory comes what is its issuer's.** -/
theorem Inv.fromMemory (h : Inv m) {c : Call} {r : Recalled × Option Nat} (hr : m.fromMemory c = some r) :
    m.OfIssuer c.id r.2 := by
  cases c with
  | borrowed owner key =>
    obtain ⟨p, hp, hv⟩ := Option.bind_eq_some_iff.1 hr
    have hm : p ∈ m.cache.owned := List.mem_of_find?_eq_some hp
    have ho : p.owner = owner ∧ p.key = key := by simpa using List.find?_some hp
    split at hv
    · rename_i at_ v he
      cases hv
      rw [Call.id, ← ho.1]
      exact h.entries p hm _ he
    · cases hv
  | field pkg field wantStr =>
    rw [Memory.fromMemory] at hr
    split at hr
    · cases hr
    obtain ⟨p, hp, hr⟩ := Option.bind_eq_some_iff.1 hr
    obtain ⟨x, hx, hr⟩ := Option.bind_eq_some_iff.1 hr
    obtain ⟨c, hc, hr⟩ := Option.bind_eq_some_iff.1 hr
    cases hr
    obtain ⟨hpm, hpi⟩ := Groups.findSlot_some hp
    obtain ⟨hxm, hxn⟩ := Groups.mem_of_deref hx
    obtain ⟨hcm, hcf⟩ := Keyed.of_find? hc
    have hf : field ∈ (m.stamps p.g).map (·.1) := by
      rw [← hxn, h.stamped x hxm, ← hcf]
      exact List.mem_map_of_mem hcm
    obtain ⟨st, hst, rfl⟩ := List.mem_map.1 hf
    cases hfind : (m.stamps p.g).find? (·.1 = st.1) with
    | none => exact absurd rfl (Keyed.find?_none_iff.1 hfind st hst)
    | some st' =>
      rw [Call.id, ← hpi]
      exact h.columns p hpm st' (Keyed.of_find? hfind).1
  | getCallback handle kind =>
    rw [Memory.fromMemory] at hr
    split at hr
    · rename_i hk
      obtain ⟨v, hv, rfl⟩ := Option.map_eq_some_iff.1 hr
      exact h.callbacks handle kind hk v hv
    · cases hr
  | str owner key => cases hr
  | setCallback handle kind fn => cases hr
  | creates => cases hr
  | destroysHandle handle => cases hr
  | other first destroys scope wholeRoot keys columns => cases hr

/-! ## What is stored -/

theorem Here.ofIssuer {id : Nat} (h : m.Here id) : m.OfIssuer id m.conn := by
  intro h0
  obtain ⟨hc, hi⟩ := h h0
  exact ⟨hc, hi.symm⟩

/-- The cache's part: lists and structs stay or are the issuer's, groups come and go. -/
theorem Inv.setCache (h : Inv m) {c : Cache (Option Nat × Option β)}
    (ho : ∀ e ∈ c.owned, ∀ v, e.value = .obj v → e ∈ m.cache.owned ∨ m.OfIssuer e.owner v.1)
    (hg : Grows m.cache.groups c.groups) : Inv { m with cache := c } where
  entries := by
    intro e he v hv
    rcases ho e he v hv with hm | hm
    · exact h.entries e hm v hv
    · exact hm
  columns := by
    intro p hp st hst
    rcases hg.slots p hp with hp | hp
    · exact h.columns p hp st hst
    · dsimp only at hst
      rw [h.fresh p.g hp] at hst
      cases hst
  callbacks := h.callbacks
  stamped := by
    intro x hx
    rcases hg.groups x hx with hx | ⟨hn, -, hc⟩
    · exact h.stamped x hx
    · dsimp only
      rw [h.fresh x.num hn, hc]
      rfl
  nums := by
    intro x hx
    rcases hg.groups x hx with hx | ⟨-, hlt, -⟩
    · exact Nat.lt_of_lt_of_le (h.nums x hx) hg.next
    · exact hlt
  fresh g hn := h.fresh g (Nat.le_trans hg.next hn)

theorem Inv.register (h : Inv m) (lists : List (List Nat)) : Inv (m.register lists) :=
  h.setCache (fun _ he _ _ => .inl he) (.register _ _)

/-- A borrowed list or struct is cached. -/
theorem Inv.borrowed (h : Inv m) {owner rel : Nat} {key : Bytes} {v : Option β}
    {c : Cache (Option Nat × Option β)} {n : Option Nat} (hh : m.Here owner)
    (hc : m.cache.arpcCache owner key (m.conn, v) rel = some (c, n)) :
    Inv { m with cache := c } := by
  obtain ⟨hg, ho | ⟨num, ho⟩⟩ := Cache.arpcCache_owned hc
  · exact h.setCache (fun e he _ _ => .inl (ho ▸ he)) (hg ▸ .refl _)
  · refine h.setCache (fun e he w hw => ?_) (hg ▸ .refl _)
    rw [ho] at he
    rcases List.mem_append.1 he with he | he
    · exact .inl he
    · rw [List.mem_singleton.1 he] at hw ⊢
      cases hw
      exact .inr hh.ofIssuer

theorem Inv.intern (h : Inv m) {owner : Nat} {key : Bytes} {value : Option Bytes}
    {c : Cache (Option Nat × Option β)} {n : Option Nat}
    (hc : m.cache.intern owner key value = some (c, n)) : Inv { m with cache := c } := by
  obtain ⟨ho, hg⟩ := Cache.intern_owned hc
  refine h.setCache (fun e he v hv => ?_) (hg ▸ .refl _)
  rcases ho e he with he | he
  · exact .inl he
  · rw [hv] at he
    cases he

/-- A purge or a detach: what is left was there. -/
theorem Inv.shrink (h : Inv m) {c : Cache (Option Nat × Option β)}
    (ho : ∀ e ∈ c.owned, e ∈ m.cache.owned) (hg : Grows m.cache.groups c.groups) :
    Inv { m with cache := c } :=
  h.setCache (fun e he _ _ => .inl (ho e he)) hg

theorem Inv.purgeRoot (h : Inv m) (handle : Nat) : Inv (m.purgeRoot handle) := by
  have h' := h.shrink (c := m.cache.arpcPurgeRoot handle) (fun e he => (List.mem_filter.1 he).1)
    (.freeGroupsOf _ _)
  refine ⟨h'.entries, h'.columns, fun a kind hk r hr => ?_, h'.stamped, h'.nums, h'.fresh⟩
  by_cases ha : a = handle
  · subst ha
    simp [Memory.purgeRoot, arpcCallbacksPurge] at hr
  · refine h.callbacks a kind hk r ?_
    simpa [Memory.purgeRoot, arpcCallbacksPurge, ha] using hr

theorem detachAll_owned {α : Type} (c : Cache α) (scope : List Nat) (wholeRoot : Bool)
    (keys : List Bytes) :
    (∀ e ∈ (scope.foldl (fun c o => c.arpcDetach o wholeRoot keys) c).owned, e ∈ c.owned) ∧
      (scope.foldl (fun c o => c.arpcDetach o wholeRoot keys) c).groups = c.groups := by
  induction scope generalizing c with
  | nil => exact ⟨fun _ he => he, rfl⟩
  | cons o scope ih =>
    obtain ⟨ho, hg⟩ := ih (c.arpcDetach o wholeRoot keys)
    exact ⟨fun e he => (List.mem_filter.1 (ho e he)).1, hg⟩

/-! ## Columns -/

/-- A change of the columns of group `g` and of their stamps alike. -/
theorem Inv.setCols (h : Inv m) {g : Nat} {cols : List Column} {sts : List (Bytes × Option Nat)}
    (hlt : g < m.cache.groups.nextGroup) (hmatch : sts.map (·.1) = cols.map (·.field))
    (hown : ∀ p ∈ m.cache.groups.slots, p.g = g → ∀ st ∈ sts, m.OfIssuer p.id st.2) :
    Inv { m with
      cache := { m.cache with groups := m.cache.groups.setCols g cols }
      stamps := Function.update m.stamps g sts } where
  entries := h.entries
  columns := by
    intro p hp st hst
    by_cases he : p.g = g
    · subst he
      exact hown p hp rfl st (by simpa using hst)
    · exact h.columns p hp st (by simpa [he] using hst)
  callbacks := h.callbacks
  stamped := by
    intro x hx
    obtain ⟨y, hy, rfl⟩ := List.mem_map.1 hx
    by_cases he : y.num = g
    · simpa [he] using hmatch
    · simpa [he] using h.stamped y hy
  nums := by
    intro x hx
    obtain ⟨y, hy, rfl⟩ := List.mem_map.1 hx
    have hlt := h.nums y hy
    split <;> exact hlt
  fresh := by
    intro g' hg'
    have hne : g' ≠ g := fun he => absurd (he ▸ hg') (Nat.not_le.2 hlt)
    simpa [hne] using h.fresh g' hg'

/-- A column is stored for the packages of a group, all of them of the process connected to. -/
theorem Inv.storeColumn (h : Inv m) {g : Nat} {field : Bytes} {wantStr : Bool} {ret : Option Tree}
    (hh : ∀ p ∈ m.cache.groups.slots, p.g = g → m.Here p.id)
    (hs : m.storeColumn g field wantStr ret = some m') : Inv m' := by
  obtain ⟨x, hx, hs⟩ := Option.bind_eq_some_iff.1 hs
  cases hs
  obtain ⟨hxm, rfl⟩ := Groups.mem_of_deref hx
  refine h.setCols (h.nums x hxm) ?_ ?_
  · rw [List.map_cons, List.map_cons, h.stamped x hxm]
  · intro p hp hpg st hst
    rcases List.mem_cons.1 hst with rfl | hst
    · exact (hh p hp hpg).ofIssuer
    · exact h.columns p hp st (hpg ▸ hst)

theorem Inv.dropColumn (h : Inv m) {pkg : Nat} {field : Bytes}
    (hs : m.arpcDropColumn pkg field = some m') : Inv m' := by
  obtain ⟨s, hd, hs⟩ := Option.bind_eq_some_iff.1 hs
  cases hs
  unfold Groups.dropColumn at hd
  cases hf : m.cache.groups.findSlot pkg with
  | none =>
    rw [hf] at hd
    cases hd
    exact h
  | some p =>
    rw [hf] at hd
    obtain ⟨x, hx, hd⟩ := Option.bind_eq_some_iff.1 hd
    cases hd
    obtain ⟨hxm, hxn⟩ := Groups.mem_of_deref hx
    refine h.setCols (hxn ▸ h.nums x hxm) ?_ ?_
    · exact Keyed.map_eraseP (hxn ▸ h.stamped x hxm) field
    · intro q hq hqg st hst
      exact h.columns q hq st (hqg ▸ List.mem_of_mem_eraseP hst)

theorem Inv.dropColumns (h : Inv m) {pkg : Nat} {columns : List Bytes}
    (hs : columns.foldlM (fun m f => m.arpcDropColumn pkg f) m = some m') : Inv m' := by
  induction columns generalizing m with
  | nil =>
    cases hs
    exact h
  | cons f columns ih =>
    rw [List.foldlM_cons] at hs
    obtain ⟨m₁, hd, hs⟩ := Option.bind_eq_some_iff.1 hs
    exact ih (h.dropColumn hd) hs

theorem Inv.afterCall (h : Inv m) {first : Nat} {destroys wholeRoot : Bool} {scope : List Nat}
    {keys columns : List Bytes}
    (hs : m.afterCall first destroys scope wholeRoot keys columns = some m') : Inv m' := by
  refine Inv.dropColumns ?_ hs
  obtain ⟨ho, hg⟩ := detachAll_owned (if destroys then m.cache.arpcPurgeOwner first else m.cache)
    scope wholeRoot keys
  refine h.shrink (fun e he => ?_) ?_
  · have he' := ho e he
    split at he'
    · exact (List.mem_filter.1 he').1
    · exact he'
  · rw [hg]
    split <;> exact .refl _

/-! ## Callbacks, ids and replies -/

theorem Inv.cbStore (h : Inv m) {handle : Nat} (kind : Nat) (fn : Option Nat)
    (hh : m.Here handle) : Inv (m.cbStore handle kind fn) := by
  refine ⟨h.entries, h.columns, fun a k hk r hr => ?_, h.stamped, h.nums, h.fresh⟩
  by_cases ha : a = handle
  · subst ha
    by_cases hkk : k = kind
    · subst hkk
      obtain ⟨f, -, rfl⟩ : ∃ f, fn = some f ∧ (f, m.conn) = r := by
        simpa [Memory.cbStore] using hr
      exact hh.ofIssuer
    · exact h.callbacks a k hk r (by simpa [Memory.cbStore, hkk] using hr)
  · exact h.callbacks a k hk r (by simpa [Memory.cbStore, ha] using hr)

/-- The caller is handed ids under which nothing of another process is kept. -/
theorem Inv.hand (h : Inv m) {ids : List Nat}
    (hb : ∀ id ∈ ids, m.issuer id ≠ m.conn → m.Blank id) : Inv (m.hand ids) := by
  -- what is kept under an id that changes its issuer would be in the way
  have keep : ∀ id at_, (m.issuer id ≠ m.conn → ¬m.Blank id) → m.OfIssuer id at_ →
      (m.hand ids).OfIssuer id at_ := by
    intro id at_ hid ho h0
    obtain ⟨hs, hi⟩ := ho h0
    refine ⟨hs, ?_⟩
    dsimp only [Memory.hand]
    split
    · rename_i hm
      by_cases hc : m.issuer id = m.conn
      · rw [hi, hc]
      · exact absurd (hb id hm hc) (hid hc)
    · exact hi
  constructor
  · intro e he v hv
    refine keep e.owner v.1 (fun _ hbl => ?_) (h.entries e he v hv)
    have := hbl.entries e he rfl
    rw [hv] at this
    cases this
  · intro p hp st hst
    refine keep p.id st.2 (fun _ hbl => ?_) (h.columns p hp st hst)
    have := hbl.columns p hp rfl
    rw [show (m.hand ids).stamps = m.stamps from rfl, this] at hst
    cases hst
  · intro a kind hk r hr
    refine keep a r.2 (fun _ hbl => ?_) (h.callbacks a kind hk r hr)
    have := hbl.callbacks kind hk
    rw [show (m.hand ids).regs = m.regs from rfl, this] at hr
    cases hr
  · exact h.stamped
  · exact h.nums
  · exact h.fresh

theorem Here.hand {id : Nat} (h : m.Here id) (ids : List Nat) : (m.hand ids).Here id := by
  intro h0
  obtain ⟨hc, hi⟩ := h h0
  refine ⟨hc, ?_⟩
  dsimp only [Memory.hand]
  split
  · rfl
  · exact hi

theorem KeepsHere.hand {s : Sent} (h : m.KeepsHere s) (ids : List Nat) :
    (m.hand ids).KeepsHere s := by
  unfold KeepsHere at h ⊢
  split
  · rename_i he
    rw [he] at h
    exact Here.hand h ids
  · rename_i he
    rw [he] at h
    exact fun p hp hpg => (h p hp hpg).hand ids
  · trivial

/-- The end of an answered stub, whose result is kept under ids of the process connected to. -/
theorem Inv.after (h : Inv m) {s : Sent} {r : Answer β}
    (hh : m.KeepsHere s) (hs : m.after s r = some m') : Inv m' := by
  obtain ⟨call, proc, group⟩ := s
  cases call with
  | borrowed owner key =>
    obtain ⟨⟨c, n⟩, hc, hs⟩ := Option.bind_eq_some_iff.1 hs
    cases hs
    exact (h.register r.lists).borrowed hh hc
  | str owner key =>
    obtain ⟨⟨c, n⟩, hc, hs⟩ := Option.bind_eq_some_iff.1 hs
    cases hs
    exact h.intern hc
  | field pkg field wantStr => exact h.storeColumn hh hs
  | setCallback handle kind fn =>
    cases hs
    exact h
  | getCallback handle kind =>
    cases hs
    exact h
  | creates =>
    rw [Memory.after, Option.some_inj] at hs
    subst hs
    split
    · exact h
    · exact ⟨h.entries, h.columns, h.callbacks, h.stamped, h.nums, h.fresh⟩
  | destroysHandle handle =>
    rw [Memory.after, Option.some_inj] at hs
    subst hs
    have hp := h.purgeRoot handle
    unfold arpcConnUnref
    dsimp only
    split <;> exact ⟨hp.entries, hp.columns, hp.callbacks, hp.stamped, hp.nums, hp.fresh⟩
  | other first destroys scope wholeRoot keys columns => exact (h.register r.lists).afterCall hs

/-! ## Steps and runs -/

theorem Inv.begin (h : Inv m) (c : Call) (group : Nat) (connects : Bool) :
    Inv (m.arpcBegin c group connects) := by
  unfold arpcBegin
  split
  · exact ⟨h.entries, h.columns, h.callbacks, h.stamped, h.nums, h.fresh⟩
  · split
    · exact ⟨h.entries, h.columns, h.callbacks, h.stamped, h.nums, h.fresh⟩
    · exact h

theorem Inv.enterField (h : Inv m) {pkg : Nat} {field : Bytes} {wantStr connects : Bool}
    (hs : m.enterField pkg field wantStr connects = some m') : Inv m' := by
  have hg := Grows.groupForPkg m.cache.groups pkg
  unfold Memory.enterField at hs
  split at hs
  · rename_i s he
    cases hs
    rw [he] at hg
    exact h.shrink (fun _ hm => hm) hg
  · rename_i s g slot he
    obtain ⟨x, -, hs⟩ := Option.bind_eq_some_iff.1 hs
    cases hs
    rw [he] at hg
    exact (h.shrink (c := { m.cache with groups := s }) (fun _ hm => hm) hg).begin _ _ _

theorem Inv.enter (h : Inv m) {c : Call} {connects : Bool} (ha : m.Apart (.enter c connects))
    (hs : m.enter c connects = some m') : Inv m' := by
  cases c with
  | getCallback handle kind =>
    cases hs
    exact h
  | setCallback handle kind fn =>
    rw [Memory.enter] at hs
    split at hs
    · cases hs
      exact (h.cbStore kind fn ha).begin _ _ _
    · cases hs
      exact h
  | field pkg field wantStr =>
    rw [Memory.enter] at hs
    split at hs
    · cases hs
      exact h
    · exact h.enterField hs
  | borrowed owner key =>
    cases hs
    exact h.begin _ _ _
  | str owner key =>
    cases hs
    exact h.begin _ _ _
  | creates =>
    cases hs
    exact h.begin _ _ _
  | destroysHandle handle =>
    cases hs
    exact h.begin _ _ _
  | other first destroys scope wholeRoot keys columns =>
    cases hs
    exact h.begin _ _ _

theorem Inv.step (h : Inv m) {e : Event β} (hs : step m e = some m') (ha : m.Apart e) : Inv m' := by
  cases e with
  | enter c connects =>
    rw [Memory.step] at hs
    split at hs
    · cases hs
      exact h
    · exact h.enter ha hs
  | finish o =>
    rw [Memory.step] at hs
    split at hs
    · cases hs
    rename_i s rest hst
    have hrest : Inv { m with stack := rest } :=
      ⟨h.entries, h.columns, h.callbacks, h.stamped, h.nums, h.fresh⟩
    cases o with
    | lost =>
      cases hs
      exact ⟨h.entries, h.columns, h.callbacks, h.stamped, h.nums, h.fresh⟩
    | refused =>
      cases hs
      exact hrest
    | answered r =>
      dsimp only at hs
      split at hs
      · obtain ⟨hb, hstore⟩ := ha
        have hi : Inv (({ m with stack := rest } : Memory β).hand r.ids) :=
          hrest.hand fun id hid hne => ⟨(hb id hid hne).entries, (hb id hid hne).columns,
            (hb id hid hne).callbacks⟩
        have hk : ({ m with stack := rest } : Memory β).KeepsHere s :=
          hstore s (by rw [hst]; rfl)
        exact hi.after (hk.hand r.ids) hs
      · cases hs

/-- **Caches never answer for another session's object**, in every run whose steps keep sessions
apart. -/
theorem own_memory (es : List (Event β)) (h : Along step (fun m e _ => m.Apart e) {} es) :
    Along step (fun m e _ => m.OwnMemory e) {} es := by
  refine Along.of_inv (fun m e m' hi hs ha => ⟨?_, hi.step hs ha⟩) Inv.empty h
  cases e with
  | enter c connects => exact fun r hr => hi.fromMemory hr
  | finish o => trivial

/-- The first id a server process gives a handle. -/
def firstHandle : Nat := mkId 1 1

/-- A handle is made, its databases are listed, a callback is registered, both are read from memory,
and the handle is released with this outcome; then a handle of the next process is asked for its
databases. -/
def twoSessions (released : Outcome (List Nat)) : List (Event (List Nat)) :=
  let dbs := Call.borrowed firstHandle (lit "alpm_get_syncdbs")
  [.enter .creates true, .finish (.answered { ids := [firstHandle] }),
    .enter dbs true, .finish (.answered { ids := [mkId 1 2], value := some [mkId 1 2] }),
    .enter (.setCallback firstHandle 0 (some 7)) true, .finish (.answered {}),
    .enter dbs true, .enter (.getCallback firstHandle 0) true,
    .enter (.destroysHandle firstHandle) true, .finish released,
    .enter .creates true, .finish (.answered { ids := [firstHandle] }), .enter dbs true]

theorem own_memory_released :
    Along step (fun m e _ => m.OwnMemory e) {} (twoSessions (.answered {})) :=
  own_memory _ (by decide +kernel)

/-- The release is lost with the connection: the new handle is given the old one's databases. -/
theorem other_session_answers :
    (Server.exec {} (.put 16 .handle 0)).map (·.2) = some firstHandle ∧
    ((twoSessions .lost).foldlM step {}).map (fun m =>
      (m.fromMemory (.borrowed firstHandle (lit "alpm_get_syncdbs")), m.issuer firstHandle)) =
        some (some (.value 0, some 0), some 1) ∧
    ¬Along step (fun m e _ => m.OwnMemory e) {} (twoSessions .lost) := by
  refine ⟨?_, ?_, ?_⟩ <;> decide +kernel

end Memory

end Client
