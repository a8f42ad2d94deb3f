import AlpmRpc.Server.Ops

/-!
# Runs of the handle table

The refinement read off a whole run from the empty table. A run leaves a history of `Event`s,
latest first; `Held h id p tag` says, in terms of the history alone, that a put of (`p`, `tag`)
returned `id` and no later call dropped it. `History` is the invariant that ties a history to the
registry, kept by every call (`History.step`) and so by every run (`history_run`).
-/

set_option autoImplicit false

namespace Server

open Wire

/-- A call, the tables around it and what it returned. -/
structure Event where
  op : Op
  before : Table
  result : Nat
  after : Table

/-- The (pointer, tag) a call puts. -/
def Op.object : Op → Option (Nat × HandleTag)
  | .put p tag _ => some (p, tag)
  | .adopt p _ _ => some (p, .none)
  | _ => none

/-- The call drops the id `id` from the table `t`. -/
def Op.drops (t : Table) (id : Nat) : Op → Prop
  | .drop i => i = id
  | .dropOwner o => o ≠ 0 ∧ under t id o = some true
  | .dropUnder o => o ≠ 0 ∧ id ≠ o ∧ under t id o = some true
  | .dropPtr p tag => ∃ i, findPtr t p tag = some (some i) ∧ under t id (t.tab i).id = some true
  | .reset => True
  | _ => False

/-- `id` was returned by a put of (`p`, `tag`) and has not been dropped since. -/
def Held : List Event → Nat → Nat → HandleTag → Prop
  | [], _, _, _ => False
  | e :: h, id, p, tag =>
    (e.op.object = some (p, tag) ∧ e.result = id) ∨ (Held h id p tag ∧ ¬e.op.drops e.before id)

/-- What a put returned: the id its object already had, without a new slot, or one that no put
had returned before. -/
def PutOk (e : Event) (earlier : List Event) : Prop :=
  ∀ p tag, e.op.object = some (p, tag) → p ≠ 0 →
    (∀ id, Held earlier id p tag → e.result = id ∧ e.after.used = e.before.used) ∧
    ((∀ id, ¬Held earlier id p tag) → ∀ e' ∈ earlier, e'.op.object ≠ none → e'.result ≠ e.result)

def runStep (c : Table × List Event) (op : Op) : Option (Table × List Event) := do
  let (t, r) ← exec c.1 op
  return (t, ⟨op, c.1, r, t⟩ :: c.2)

/-- The calls `ops` in order, from the empty table. -/
def runOps (ops : List Op) : Option (Table × List Event) := ops.foldlM runStep ({}, [])

/-- How many ids the calls `ops` issue. -/
def issuedBy : List Op → Reg → Nat
  | [], _ => 0
  | op :: ops, a => a.issues op + issuedBy ops (a.exec op).1

/-- Both indexes have the same slots, one for each id and one for each object. -/
structure InStep (t : Table) : Prop where
  fwd : ∀ i < t.cap, (t.tab i).id ≠ 0 → ∃ j < t.cap, t.byptr j = i + 1
  back : ∀ j < t.cap, t.byptr j ≠ 0 → t.byptr j - 1 < t.cap ∧ (t.tab (t.byptr j - 1)).id ≠ 0
  ids : ∀ i < t.cap, ∀ i' < t.cap, (t.tab i).id ≠ 0 → (t.tab i).id = (t.tab i').id → i = i'
  objs : ∀ i < t.cap, ∀ i' < t.cap, (t.tab i).id ≠ 0 → (t.tab i').id ≠ 0 →
    (t.tab i).ptr = (t.tab i').ptr → (t.tab i).tag = (t.tab i').tag → i = i'

/-- A free cell remains in both indexes, and every probe loop ends. -/
structure Room (t : Table) : Prop where
  freeId : ∃ i < t.cap, (t.tab i).id = 0
  freePtr : ∃ j < t.cap, t.byptr j = 0
  slotFor : ∀ id, ∃ i, slotFor t.tab t.cap id = some i
  ptrFor : ∀ p tag, ∃ j, ptrFor t.tab t.byptr t.cap p tag = some j

theorem Rep.inStep {t : Table} {a : Reg} (h : Rep t a) : InStep t := by
  by_cases hc : t.cap = 0
  · constructor <;> intro i hi <;> omega
  have hH := h.held hc
  refine ⟨fun i _ hi => ?_, fun j _ hj => ?_, fun i _ i' _ hi he => hH.id_inj hi he,
    fun i _ i' _ hi hi' hp ht => hH.obj_inj hi hi' hp ht⟩
  · obtain ⟨j, hj⟩ := hH.fwd i hi
    exact ⟨j, hH.byptr_lt (by omega), hj⟩
  · exact ⟨hH.slot_lt (hH.back j hj), hH.back j hj⟩

theorem Rep.roomy {t : Table} {a : Reg} (h : Rep t a) (hc : t.cap ≠ 0) : Room t := by
  have hH := h.held hc
  have hroom := h.room hc
  obtain ⟨i, hi, hfi⟩ := hH.free_id hroom
  obtain ⟨j, hj, hfj⟩ := hH.free_ptr hroom
  refine ⟨⟨i, hi, idCell_none.1 hfi⟩, ⟨j, hj, ptrCell_none.1 hfj⟩, fun id => ?_, fun p tag => ?_⟩
  · obtain ⟨d, hd, he⟩ := exists_iterate hH.pow (mix_lt hH.pos id) hi
    obtain ⟨m, hm, hms, hmn⟩ := Probe.exists_first (d := d)
      (fun e => (t.tab ((nextCell t.cap)^[e] (mix id (t.cap - 1)))).id == 0 ||
        (t.tab ((nextCell t.cap)^[e] (mix id (t.cap - 1)))).id == id)
      (by simp [he, idCell_none.1 hfi])
    exact ⟨_, Probe.search_spec (nextCell t.cap) _ t.cap _ (by omega) hms hmn⟩
  · by_cases hp : (p, tag) ∈ a.live.map fun s => (s.ptr, s.tag)
    · obtain ⟨s, hs, he⟩ := List.mem_map.1 hp
      obtain ⟨hne, i, rfl⟩ := (hH.mem s).1 hs
      obtain ⟨j, hj, -⟩ := hH.ptrFor_hit hne
      cases he
      exact ⟨j, hj⟩
    · obtain ⟨d, -, hj, -⟩ := hH.ptrFor_miss hroom hp
      exact ⟨_, hj⟩

/-! ## The keys of a registry -/

/-- `id` is live and stands for (`p`, `tag`). -/
def Reg.Has (a : Reg) (id p : Nat) (tag : HandleTag) : Prop :=
  ∃ s ∈ a.live, s.id = id ∧ s.ptr = p ∧ s.tag = tag

namespace Reg

variable {a : Reg} {id p : Nat} {tag : HandleTag}

theorem get_eq_iff (h : a.Wf) (hp : p ≠ 0) : a.get id tag = p ↔ a.Has id p tag := by
  unfold get
  cases hf : a.find id with
  | none =>
    refine ⟨fun he => absurd he.symm hp, fun ⟨s, hs, hid, _⟩ => ?_⟩
    exact absurd hid (find_eq_none.1 hf s hs)
  | some s =>
    obtain ⟨hs, hid⟩ := (find_eq_some h).1 hf
    dsimp only
    refine ⟨fun he => ?_, fun ⟨s', hs', hid', hp', ht'⟩ => ?_⟩
    · split at he
      · rename_i ht
        exact ⟨s, hs, hid, he, ht⟩
      · exact absurd he.symm hp
    · have he := h.id_inj hs hs' (hid.trans hid'.symm)
      subst he
      simp [hp', ht']

theorem Has.ptr_ne (h : a.Wf) (hh : a.Has id p tag) : p ≠ 0 := by
  obtain ⟨s, hs, -, rfl, -⟩ := hh
  exact h.ptr_ne s hs

theorem Has.id_ne (h : a.Wf) (hh : a.Has id p tag) : id ≠ 0 := by
  obtain ⟨s, hs, rfl, -, -⟩ := hh
  exact h.id_ne s hs

theorem has_modify {i : Nat} {f : Slot → Slot} (hid : ∀ s, (f s).id = s.id)
    (hptr : ∀ s, (f s).ptr = s.ptr) (htag : ∀ s, (f s).tag = s.tag) :
    (a.modify i f).Has id p tag ↔ a.Has id p tag := by
  have e : ∀ s : Slot, (if s.id = i then f s else s).id = s.id ∧
      (if s.id = i then f s else s).ptr = s.ptr ∧ (if s.id = i then f s else s).tag = s.tag := by
    intro s; split <;> simp [hid, hptr, htag]
  simp [Has, modify_live, e]

theorem has_filter {k : Slot → Bool} :
    (a.filter k).Has id p tag ↔ ∃ s ∈ a.live, k s = true ∧ s.id = id ∧ s.ptr = p ∧ s.tag = tag := by
  simp only [Has, mem_filter, and_assoc]

/-- **The two cases of a put** of an object: it is live, or it gets the next id. -/
theorem put_cases (tag : HandleTag) (h : a.Wf) (hp : p ≠ 0) (owner : Nat) :
    (∃ s ∈ a.live, s.ptr = p ∧ s.tag = tag ∧ (a.put p tag owner).2 = s.id ∧
      ((a.put p tag owner).1 = a ∨
        (a.put p tag owner).1 = a.modify s.id fun s => { s with owner })) ∨
    ((∀ s ∈ a.live, ¬(s.ptr = p ∧ s.tag = tag)) ∧
      ∃ root nextRoot, (a.put p tag owner).2 = mkId root a.nextSeq ∧
        (a.put p tag owner).1 = { a with
          live := a.live ++ [{ id := mkId root a.nextSeq, ptr := p, owner, tag, release := 0 }]
          nextSeq := (a.nextSeq + 1) % 2 ^ 64, nextRoot }) := by
  unfold put
  rw [if_neg hp]
  cases hf : a.findPtr p tag with
  | some s =>
    obtain ⟨hs, hp', ht'⟩ := (findPtr_eq_some h).1 hf
    refine .inl ⟨s, hs, hp', ht', ?_⟩
    dsimp only
    split
    · exact ⟨rfl, .inr rfl⟩
    · exact ⟨rfl, .inl rfl⟩
  | none => exact .inr ⟨findPtr_eq_none.1 hf, _, _, rfl, rfl⟩

theorem has_put (h : a.Wf) (hp : p ≠ 0) (owner : Nat) {id' p' : Nat} {tag' : HandleTag} :
    (a.put p tag owner).1.Has id' p' tag' ↔
      (p = p' ∧ tag = tag' ∧ (a.put p tag owner).2 = id') ∨ a.Has id' p' tag' := by
  rcases put_cases tag h hp owner with ⟨s, hs, hp', ht', hr, he⟩ | ⟨_, root, nr, hr, he⟩
  · have hkeys : (a.put p tag owner).1.Has id' p' tag' ↔ a.Has id' p' tag' := by
      rcases he with he | he
      · rw [he]
      · rw [he]
        exact has_modify (fun _ => rfl) (fun _ => rfl) fun _ => rfl
    rw [hkeys, hr]
    refine ⟨.inr, fun hor => ?_⟩
    rcases hor with ⟨hpp, htt, hii⟩ | hhas
    · exact ⟨s, hs, hii, hp'.trans hpp, ht'.trans htt⟩
    · exact hhas
  · rw [he, hr]
    simp only [Has, List.mem_append, List.mem_singleton]
    refine ⟨fun ⟨s, hs, h1, h2, h3⟩ => ?_, fun hor => ?_⟩
    · rcases hs with hs | rfl
      · exact .inr ⟨s, hs, h1, h2, h3⟩
      · exact .inl ⟨h2, h3, h1⟩
    · rcases hor with ⟨hpp, htt, hii⟩ | ⟨s, hs, h1, h2, h3⟩
      · exact ⟨_, .inr rfl, hii, hpp, htt⟩
      · exact ⟨s, .inl hs, h1, h2, h3⟩

end Reg

/-! ## One call -/

theorem Reg.issues_of_object {a : Reg} {op : Op} (h : op.object = none) : a.issues op = 0 := by
  rw [Reg.issues, if_pos]
  cases op with
  | put p tag o => cases h
  | adopt p o f => cases h
  | dropOwner o => simp only [Reg.exec, Reg.dropOwner]; split <;> rfl
  | dropUnder o => simp only [Reg.exec, Reg.dropUnder]; split <;> rfl
  | dropPtr p tag =>
    simp only [Reg.exec, Reg.dropPtr, Reg.dropOwner]
    split
    · rfl
    · cases a.findPtr p tag with
      | none => rfl
      | some s => dsimp only; split <;> rfl
  | _ => rfl

theorem Reg.issues_get (a : Reg) (id : Nat) (tag : HandleTag) : a.issues (.get id tag) = 0 :=
  Reg.issues_of_object rfl

theorem Reg.issues_le (a : Reg) (op : Op) : a.issues op ≤ 1 := by
  unfold Reg.issues
  split <;> omega

/-- A call that puts an object answers as a put does, with its slots and its counter. -/
theorem Reg.exec_object (a : Reg) {op : Op} {p : Nat} {tag : HandleTag}
    (ho : op.object = some (p, tag)) :
    ∃ owner, (a.exec op).2 = (a.put p tag owner).2 ∧
      (a.exec op).1.live.length = (a.put p tag owner).1.live.length ∧
      (a.exec op).1.nextSeq = (a.put p tag owner).1.nextSeq := by
  cases op with
  | put p' tag' owner => cases ho; exact ⟨owner, rfl, rfl, rfl⟩
  | adopt p' owner release =>
    cases ho
    exact ⟨owner, rfl, by simp [Reg.exec, Reg.adopt, Reg.modify_live], rfl⟩
  | _ => cases ho

/-- What a put answers is the id its object has, or the next one, which it uses up. -/
theorem Reg.exec_result {a : Reg} (h : a.Wf) {op : Op} {p : Nat} {tag : HandleTag}
    (ho : op.object = some (p, tag)) (hp : p ≠ 0) :
    (a.Has (a.exec op).2 p tag ∧ (a.exec op).1.live.length = a.live.length) ∨
      ((∀ id, ¬a.Has id p tag) ∧ (a.exec op).1.nextSeq = (a.nextSeq + 1) % 2 ^ 64 ∧
        ∃ root, (a.exec op).2 = mkId root a.nextSeq) := by
  obtain ⟨owner, hr, hl, hn⟩ := a.exec_object ho
  rw [hr, hl, hn]
  rcases Reg.put_cases tag h hp owner with ⟨s, hs, hp', ht', hr', he⟩ | ⟨hno, root, nr, hr', he⟩
  · refine .inl ⟨⟨s, hs, hr'.symm, hp', ht'⟩, ?_⟩
    rcases he with he | he
    · rw [he]
    · rw [he, Reg.modify_live, List.length_map]
  · refine .inr ⟨fun id ⟨s, hs, _, h2, h3⟩ => hno s hs ⟨h2, h3⟩, ?_, root, hr'⟩
    rw [he]

/-- A put that issues an id has a sequence number left for it. -/
theorem Reg.nextSeq_lt {a : Reg} {op : Op} (hb : a.nextSeq + a.issues op ≤ 2 ^ 40)
    (hn : (a.exec op).1.nextSeq = (a.nextSeq + 1) % 2 ^ 64) : a.nextSeq < 2 ^ 40 := by
  have hne : (a.exec op).1.nextSeq ≠ a.nextSeq := by
    rw [hn, Nat.mod_eq_of_lt (by omega)]
    exact Nat.succ_ne_self _
  rw [Reg.issues, if_neg hne] at hb
  omega

/-- A put of `NULL` answers `0` and leaves the table alone. -/
theorem exec_null (t : Table) {op : Op} {tag : HandleTag} (ho : op.object = some (0, tag)) :
    exec t op = some (t, 0) := by
  cases op with
  | put p tag owner => cases ho; simp [exec, arpcHandlePut]
  | adopt p owner release =>
    cases ho
    simp [exec, arpcHandleAdopt, arpcHandlePut, find]
  | _ => cases ho

/-- **The keys after a call**: what it put, and what was there and is not dropped. -/
theorem Rep.has_exec {t : Table} {a : Reg} (h : Rep t a) (op : Op) {id p : Nat} {tag : HandleTag}
    (hp : p ≠ 0) :
    (a.exec op).1.Has id p tag ↔
      (op.object = some (p, tag) ∧ (a.exec op).2 = id) ∨ (a.Has id p tag ∧ ¬op.drops t id) := by
  -- a filter's keys, when the slots it removes are those the call drops
  have hdrop : ∀ k : Slot → Bool, (∀ s ∈ a.live, k s = true ↔ ¬op.drops t s.id) →
      ((a.filter k).Has id p tag ↔ a.Has id p tag ∧ ¬op.drops t id) := by
    intro k hk
    rw [Reg.has_filter]
    refine ⟨fun ⟨s, hs, hks, h1, h2, h3⟩ => ⟨⟨s, hs, h1, h2, h3⟩, h1 ▸ (hk s hs).1 hks⟩,
      fun ⟨⟨s, hs, h1, h2, h3⟩, hnd⟩ => ⟨s, hs, (hk s hs).2 (h1.symm ▸ hnd), h1, h2, h3⟩⟩
  cases op with
  | put p' tag' owner =>
    by_cases hp' : p' = 0
    · subst hp'
      simp [Reg.exec, Reg.put, Op.object, Op.drops, Ne.symm hp]
    · simp [Reg.exec, Op.object, Op.drops, Reg.has_put h.wf hp', and_assoc]
  | adopt p' owner release =>
    have hm : ∀ (b : Reg) (i : Nat),
        (b.modify i fun s => { s with release }).Has id p tag ↔ b.Has id p tag :=
      fun b i => Reg.has_modify (fun _ => rfl) (fun _ => rfl) fun _ => rfl
    by_cases hp' : p' = 0
    · subst hp'
      simp [Reg.exec, Reg.adopt, Reg.put, Op.object, Op.drops, Ne.symm hp, hm]
    · simp [Reg.exec, Reg.adopt, Op.object, Op.drops, hm, Reg.has_put h.wf hp', and_assoc]
  | get i tag' => simp [Reg.exec, Op.object, Op.drops]
  | ancestor i tag' => simp [Reg.exec, Op.object, Op.drops]
  | drop i =>
    simp only [Op.object, reduceCtorEq, false_and, false_or]
    exact hdrop _ fun s _ => by simp only [Op.drops, decide_eq_true_eq, ne_eq, eq_comm (a := i)]
  | dropOwner o =>
    simp only [Op.object, reduceCtorEq, false_and, false_or]
    by_cases ho : o = 0
    · simp [Reg.exec, Reg.dropOwner, Op.drops, ho]
    · rw [Reg.exec, Reg.dropOwner, if_neg ho]
      exact hdrop _ fun s _ => by simp [Op.drops, ho, h.under]
  | dropUnder o =>
    simp only [Op.object, reduceCtorEq, false_and, false_or]
    by_cases ho : o = 0
    · simp [Reg.exec, Reg.dropUnder, Op.drops, ho]
    · rw [Reg.exec, Reg.dropUnder, if_neg ho]
      refine hdrop _ fun s _ => ?_
      by_cases hs : s.id = o <;> simp [Op.drops, ho, h.under, hs]
  | dropPtr p' tag' =>
    simp only [Op.object, reduceCtorEq, false_and, false_or]
    by_cases hp' : p' = 0
    · simp [Reg.exec, Reg.dropPtr, Op.drops, hp', Server.findPtr]
    obtain ⟨r, hr, hm, hne⟩ := h.findPtr hp' tag'
    cases r with
    | none => simp [Reg.exec, Reg.dropPtr, Op.drops, hp', hr, ← hm]
    | some i =>
      simp only [Reg.exec, Reg.dropPtr, if_neg hp', ← hm, Option.map_some, Reg.dropOwner,
        if_neg (hne i rfl)]
      exact hdrop _ fun s _ => by simp [Op.drops, hr, h.under]
  | reset =>
    simp only [Op.object, reduceCtorEq, false_and, false_or]
    exact hdrop _ fun s _ => by simp [Op.drops]

/-! ## A whole run -/

/-- The invariant of a run: the table `t` with history `h` represents `a`, whose keys are what the
history holds, and every id a put returned has a sequence number already used. -/
structure History (t : Table) (h : List Event) (a : Reg) : Prop where
  rep : Rep t a
  held : ∀ id p tag, p ≠ 0 → (Held h id p tag ↔ a.Has id p tag)
  seen : ∀ e ∈ h, ∀ p tag, e.op.object = some (p, tag) → e.result % 2 ^ 40 < a.nextSeq
  puts : ∀ l e h', h = l ++ e :: h' → PutOk e h'
  nulls : ∀ e ∈ h, ∀ tag, e.op.object = some (0, tag) → e.result = 0 ∧ e.after = e.before

theorem History.empty : History {} [] {} :=
  ⟨.empty, fun _ _ _ _ => by simp [Held, Reg.Has], by simp,
    fun l _ _ he => (by cases l <;> cases he), by simp⟩

theorem putOk_of_history {t t' : Table} {h : List Event} {a : Reg} (H : History t h a) {op : Op}
    (hR : Rep t' (a.exec op).1) (hb : a.nextSeq + a.issues op ≤ 2 ^ 40) :
    PutOk ⟨op, t, (a.exec op).2, t'⟩ h := by
  intro p tag ho hp
  have hres := Reg.exec_result H.rep.wf ho hp
  refine ⟨fun id hid => ?_, fun hno e' he' ho' => ?_⟩
  · have hhas := (H.held id p tag hp).1 hid
    rcases hres with ⟨hhas', hlen⟩ | ⟨hno, -⟩
    · obtain ⟨s, hs, rfl, h2, h3⟩ := hhas
      obtain ⟨s', hs', hid', h2', h3'⟩ := hhas'
      have hss := H.rep.wf.obj_inj hs hs' (h2.trans h2'.symm) (h3.trans h3'.symm)
      subst hss
      refine ⟨hid'.symm, ?_⟩
      dsimp only
      rw [hR.used, H.rep.used, hlen]
    · exact absurd hhas (hno id)
  · rcases hres with ⟨hhas', -⟩ | ⟨-, hn, root, hr⟩
    · exact absurd ((H.held _ p tag hp).2 hhas') (hno _)
    · have hlt40 := Reg.nextSeq_lt hb hn
      obtain ⟨⟨p', tag'⟩, hob⟩ := Option.ne_none_iff_exists'.1 ho'
      have hlt := H.seen e' he' p' tag' hob
      intro heq
      dsimp only at heq
      rw [heq, hr, mkId_mod hlt40] at hlt
      exact absurd hlt (Nat.lt_irrefl _)

/-- **One call keeps the invariant of a run.** -/
theorem History.step {t : Table} {h : List Event} {a : Reg} (H : History t h a) (op : Op)
    (hb : a.nextSeq + a.issues op ≤ 2 ^ 40) :
    ∃ t', runStep (t, h) op = some (t', ⟨op, t, (a.exec op).2, t'⟩ :: h) ∧
      History t' (⟨op, t, (a.exec op).2, t'⟩ :: h) (a.exec op).1 := by
  obtain ⟨t', ht', hR⟩ := H.rep.exec op hb
  have hseq : (a.exec op).1.nextSeq = a.nextSeq + a.issues op := Reg.nextSeq_exec hb
  refine ⟨t', by simp [runStep, ht'], hR, fun id p tag hp => ?_, fun e he p tag ho => ?_, ?_,
    fun e he tag ho => ?_⟩
  · rw [H.rep.has_exec op hp, Held, H.held id p tag hp]
  · rcases List.mem_cons.1 he with rfl | he
    · dsimp only at ho ⊢
      by_cases hp : p = 0
      · have h0 : (a.exec op).2 = 0 := by
          obtain ⟨owner, hr, -⟩ := a.exec_object ho
          rw [hr, hp, Reg.put, if_pos rfl]
        rw [h0, hseq]
        have := H.rep.wf.seq_pos
        omega
      rcases Reg.exec_result H.rep.wf ho hp with ⟨⟨s, hs, hid, -⟩, -⟩ | ⟨-, hn, root, hr⟩
      · rw [← hid, hseq]
        have := H.rep.wf.seq s hs
        omega
      · have hlt := Reg.nextSeq_lt hb hn
        rw [hr, hn, mkId_mod hlt, Nat.mod_eq_of_lt (by omega)]
        exact Nat.lt_succ_self _
    · have := H.seen e he p tag ho
      omega
  · intro l e h' he
    cases l with
    | nil =>
      cases he
      exact putOk_of_history H hR hb
    | cons e' l =>
      injection he with _ he
      exact H.puts l e h' he
  · rcases List.mem_cons.1 he with rfl | he
    · have hx := exec_null t ho
      rw [ht'] at hx
      injection hx with hx
      exact ⟨congrArg Prod.snd hx, congrArg Prod.fst hx⟩
    · exact H.nulls e he tag ho

/-- A run of calls keeps it. -/
theorem history_run {t : Table} {h : List Event} {a : Reg} (H : History t h a) (ops : List Op)
    (hb : a.nextSeq + issuedBy ops a ≤ 2 ^ 40) :
    ∃ t' h' a', ops.foldlM runStep (t, h) = some (t', h') ∧ History t' h' a' := by
  induction ops generalizing t h a with
  | nil => exact ⟨t, h, a, rfl, H⟩
  | cons op ops ih =>
    rw [issuedBy] at hb
    obtain ⟨t', hs, H'⟩ := H.step op (by omega)
    have hseq : (a.exec op).1.nextSeq = a.nextSeq + a.issues op := Reg.nextSeq_exec (by omega)
    obtain ⟨t'', h'', a'', hr, H''⟩ := ih H' (by omega)
    exact ⟨t'', h'', a'', by rw [List.foldlM_cons, hs]; exact hr, H''⟩

/-- **The handle table is a finite map.** Every run of calls from the empty table that issues fewer
than `2 ^ 40` ids returns, and in the table it leaves: an id resolves to the object it was put for
until it is dropped; a put of an object that has an id returned that id and added no slot, and any
other put returned an id no put had returned; a put of `NULL` returned `0` and did nothing; the two
indexes have the same slots; and both have a free cell, where every probe loop stops. -/
theorem runOps_refines (ops : List Op) (hb : issuedBy ops {} < 2 ^ 40) :
    ∃ t h, runOps ops = some (t, h) ∧
      (∀ id tag p, p ≠ 0 → (arpcHandleGet t id tag = some p ↔ Held h id p tag)) ∧
      (∀ l e h', h = l ++ e :: h' → PutOk e h') ∧
      (∀ e ∈ h, ∀ tag, e.op.object = some (0, tag) → e.result = 0 ∧ e.after = e.before) ∧
      InStep t ∧ (t.cap ≠ 0 → Room t) := by
  have hb' : ({} : Reg).nextSeq + issuedBy ops {} ≤ 2 ^ 40 := by
    rw [show ({} : Reg).nextSeq = 1 from rfl]
    omega
  obtain ⟨t, h, a, hrun, H⟩ := history_run History.empty ops hb'
  refine ⟨t, h, hrun, fun id tag p hp => ?_, H.puts, H.nulls, H.rep.inStep, H.rep.roomy⟩
  rw [H.rep.get, Option.some_inj, Reg.get_eq_iff H.rep.wf hp, H.held id p tag hp]

theorem runOps_refines_put_drop_put :
    issuedBy [.put 7 .pkg 0, .put 7 .pkg 0, .drop 1, .put 7 .pkg 0] {} < 2 ^ 40 ∧
      ∃ t h, runOps [.put 7 .pkg 0, .put 7 .pkg 0, .drop 1, .put 7 .pkg 0] = some (t, h) ∧
        (∀ id tag p, p ≠ 0 → (arpcHandleGet t id tag = some p ↔ Held h id p tag)) ∧
        (∀ l e h', h = l ++ e :: h' → PutOk e h') ∧
        (∀ e ∈ h, ∀ tag, e.op.object = some (0, tag) → e.result = 0 ∧ e.after = e.before) ∧
        InStep t ∧ (t.cap ≠ 0 → Room t) :=
  ⟨by decide, runOps_refines _ (by decide)⟩

/-- A second put of `NULL` returns what the first returned, so a put of something that is not a
live object need not return a new id. -/
theorem null_put_twice :
    ¬∀ ops t h, runOps ops = some (t, h) → issuedBy ops {} < 2 ^ 40 →
      ∀ l e h', h = l ++ e :: h' → ∀ p tag, e.op.object = some (p, tag) →
        ¬(p ≠ 0 ∧ ∃ id, Held h' id p tag) →
          ∀ e' ∈ h', e'.op.object ≠ none → e'.result ≠ e.result := by
  intro hall
  have hrun : runOps [.put 0 .pkg 0, .put 0 .pkg 0] =
      some ({}, [⟨.put 0 .pkg 0, {}, 0, {}⟩, ⟨.put 0 .pkg 0, {}, 0, {}⟩]) := by rfl
  exact hall _ _ _ hrun (by decide) [] _ _ rfl 0 .pkg rfl (by simp) _ List.mem_cons_self
    (by simp [Op.object]) rfl

end Server
