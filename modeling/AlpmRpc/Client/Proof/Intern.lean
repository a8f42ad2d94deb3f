import AlpmRpc.Client.Proof.Cache

/-!
# Borrowed strings keep their pointer

`intern` takes the one entry that has the text, live or detached, or makes it when there is none
(`intern_cases`); so no text is held twice (`OneEach`), and an entry that is not purged is there to be
taken again (`step_held`).
-/

set_option autoImplicit false

namespace Client

open Wire Json

namespace Cache

variable {α : Type} {isStr : Nat → Bytes → Bool} {c : Cache α}

/-! ## One entry for each text -/

theorem OneEach.empty : OneEach ({} : Cache α) := by
  intro o k s e he
  cases he

/-- Entries that are not new strings. -/
theorem OneEach.of_subset (h : OneEach c) {c' : Cache α}
    (hsub : ∀ e ∈ c'.held, (∃ s, e.value = .str (some s)) → e ∈ c.held) : OneEach c' := by
  intro o k s e he e' he' ht ht'
  exact h o k s e (hsub e he ⟨s, ht.2.2⟩) e' (hsub e' he' ⟨s, ht'.2.2⟩) ht ht'

theorem OneEach.of_perm (h : OneEach c) {c' : Cache α} (hp : c'.held.Perm c.held) : OneEach c' :=
  h.of_subset fun _ he _ => hp.mem_iff.1 he

/-! ## What `intern` returns -/

theorem takesBack_iff {owner : Nat} {key : Bytes} {value : Option Bytes} {q : Owned α} :
    takesBack owner key value q = true ↔ ∃ s, value = some s ∧ HasText owner key s q := by
  unfold takesBack HasText
  constructor
  · intro h
    split at h
    · rename_i s v hv
      simp only [decide_eq_true_eq] at h
      obtain ⟨ho, hk, rfl⟩ := h
      exact ⟨s, rfl, ho, hk, hv⟩
    · cases h
  · rintro ⟨s, rfl, ho, hk, hv⟩
    rw [hv]
    simp [ho, hk]

/-- The number `n` is that of an entry that was held and has the text, or of a new one that no entry
held has. -/
inductive Interned (c c' : Cache α) (owner : Nat) (key : Bytes) (value : Option Bytes) (n : Nat) :
    Prop where
  | found {q : Owned α} {s : Bytes} (held : c'.held.Perm c.held) (mem : q ∈ c.held) (num : q.num = n)
      (value : value = some s) (text : HasText owner key s q)
  | new (held : c'.held.Perm (⟨owner, key, n, .str value, libcFree⟩ :: c.held))
      (none : ∀ s, value = some s → ∀ q ∈ c.held, ¬HasText owner key s q)

theorem internTake_cases {owner : Nat} {key : Bytes} (hk : c.findOwned owner key = none)
    {value : Option Bytes} {c' : Cache α} {r : Option Nat}
    (h : internTake c owner key value = some (c', r)) :
    ∃ n, r = some n ∧ Interned c c' owner key value n := by
  unfold internTake at h
  split at h
  · rename_i q hf
    obtain ⟨s, hs, ht⟩ := takesBack_iff.1 (List.find?_some hf)
    rw [hashAdd_eq (by rw [ht.1, ht.2.1]; exact hk)] at h
    cases h
    refine ⟨q.num, rfl, .found ?_ ?_ rfl hs ht⟩
    · show (c.owned ++ [q] ++ c.detached.eraseP _).Perm (c.owned ++ c.detached)
      rw [List.append_assoc]
      exact (Keyed.perm_eraseP hf).append_left _
    · exact List.mem_append_right _ (List.mem_of_find?_eq_some hf)
  · rename_i hf
    rw [internNew, hashAdd_eq hk] at h
    cases h
    refine ⟨c.next, rfl, .new ?_ fun s hs q hq ht => ?_⟩
    · show (c.owned ++ [_] ++ c.detached).Perm (_ :: (c.owned ++ c.detached))
      rw [List.append_assoc]
      exact List.perm_middle
    · rcases List.mem_append.1 hq with hq | hq
      · exact findOwned_none.1 hk (List.mem_map.2 ⟨q, hq, by rw [ht.1, ht.2.1]⟩)
      · exact List.find?_eq_none.1 hf q hq (takesBack_iff.2 ⟨s, hs, ht⟩)

theorem intern_cases (h : Inv isStr c) {owner : Nat} {key : Bytes} (hs : isStr owner key = true)
    {value : Option Bytes} {c' : Cache α} {r : Option Nat}
    (hi : intern c owner key value = some (c', r)) :
    ∃ n, r = some n ∧ Interned c c' owner key value n := by
  unfold intern at hi
  cases hf : c.findOwned owner key with
  | none =>
    rw [hf] at hi
    exact internTake_cases hf hi
  | some p =>
    rw [hf] at hi
    obtain ⟨hp, rfl, rfl⟩ := findOwned_some hf
    have hkind := h.kinds p hp
    dsimp only at hi
    cases hv : p.value with
    | obj x =>
      rw [hs, hv] at hkind
      cases hkind
    | str s =>
      rw [hv] at hi
      dsimp only at hi
      split at hi
      · rename_i hsame
        cases hi
        obtain ⟨t, ht⟩ := Option.isSome_iff_exists.1 hsame.1
        refine ⟨p.num, rfl, .found (List.Perm.refl _) (List.mem_append_left _ hp) rfl ht ⟨rfl, rfl, ?_⟩⟩
        rw [hv, hsame.2, ht]
      · have hperm := detachOne_held h hp
        obtain ⟨n, hn, hres⟩ := internTake_cases (detachOne_spec h hp).2 hi
        refine ⟨n, hn, ?_⟩
        cases hres with
        | found held mem num value text =>
          exact .found (held.trans hperm) (hperm.mem_iff.1 mem) num value text
        | new held none =>
          exact .new (held.trans (hperm.cons _)) fun t ht q hq => none t ht q (hperm.mem_iff.2 hq)

theorem Interned.one {c' : Cache α} {owner : Nat} {key : Bytes} {value : Option Bytes} {n : Nat}
    (h : Interned c c' owner key value n) (hone : OneEach c) : OneEach c' := by
  cases h with
  | found held => exact hone.of_perm held
  | new held none =>
    intro o k s e he e' he' ht ht'
    rcases List.mem_cons.1 (held.mem_iff.1 he) with rfl | he <;>
      rcases List.mem_cons.1 (held.mem_iff.1 he') with rfl | he'
    · rfl
    · obtain ⟨rfl, rfl, hv⟩ := ht
      exact absurd ht' (none s (by simpa using hv) e' he')
    · obtain ⟨rfl, rfl, hv⟩ := ht'
      exact absurd ht (none s (by simpa using hv) e he)
    · exact hone o k s e he e' he' ht ht'

/-- Nothing that was held goes. -/
theorem Interned.keeps {c' : Cache α} {owner : Nat} {key : Bytes} {value : Option Bytes} {n : Nat}
    (h : Interned c c' owner key value n) {e : Owned α} (he : e ∈ c.held) : e ∈ c'.held := by
  cases h with
  | found held => exact held.mem_iff.2 he
  | new held => exact held.mem_iff.2 (List.mem_cons_of_mem _ he)

/-- The pointer's entry has the text. -/
theorem Interned.entry {c' : Cache α} {owner : Nat} {key s : Bytes} {n : Nat}
    (h : Interned c c' owner key (some s) n) :
    ∃ e ∈ c'.held, e.num = n ∧ HasText owner key s e := by
  cases h with
  | found held mem num value text =>
    cases value
    exact ⟨_, held.mem_iff.2 mem, num, text⟩
  | new held => exact ⟨_, held.mem_iff.2 List.mem_cons_self, rfl, rfl, rfl, rfl⟩

/-- An entry that has the text is the one found. -/
theorem Interned.eq {c' : Cache α} {owner : Nat} {key s : Bytes} {n : Nat}
    (h : Interned c c' owner key (some s) n) (hone : OneEach c) {e : Owned α} (he : e ∈ c.held)
    (ht : HasText owner key s e) : n = e.num := by
  cases h with
  | found held mem num value text =>
    cases value
    rw [← num, hone owner key s _ mem e he text ht]
  | new held none => exact absurd ht (none s rfl e he)

/-! ## One call -/

theorem arpcCache_held {c' : Cache α} {owner : Nat} {key : Bytes} {value : α} {release : Nat}
    {n : Option Nat} (h : arpcCache c owner key value release = some (c', n)) :
    c'.held = c.held ∨
      ∃ num, c'.held.Perm (⟨owner, key, num, .obj value, release⟩ :: c.held) := by
  unfold arpcCache at h
  split at h
  · cases h
    exact .inl rfl
  · obtain ⟨c₁, hadd, hc⟩ := Option.bind_eq_some_iff.1 h
    cases hc
    unfold hashAdd at hadd
    split at hadd
    · cases hadd
    · cases hadd
      refine .inr ⟨c.next, ?_⟩
      show (c.owned ++ [_] ++ c.detached).Perm (_ :: (c.owned ++ c.detached))
      rw [List.append_assoc]
      exact List.perm_middle

theorem purgeWhere_mem {drop : Owned α → Bool} {e : Owned α} :
    e ∈ (c.purgeWhere drop).held ↔ e ∈ c.held ∧ drop e = false := by
  unfold held purgeWhere
  dsimp only
  rw [← List.filter_append, List.mem_filter, Bool.not_eq_true']

/-- **One call** leaves one entry for each text, and every entry of an owner it does not end. -/
theorem step_held (h : Inv isStr c) (hone : OneEach c) {op : Op α} (hop : op.Allowed isStr)
    {c' : Cache α} {r : Option Nat} (hs : step c op = some (c', r)) :
    OneEach c' ∧ ∀ e ∈ c.held, ¬op.Ends e.owner → e ∈ c'.held := by
  have hpurge : ∀ drop : Owned α → Bool, OneEach (c.purgeWhere drop) := fun drop =>
    hone.of_subset fun e he _ => (purgeWhere_mem.1 he).1
  cases op with
  | intern owner key value =>
    obtain ⟨n, -, hi⟩ := intern_cases h hop hs
    exact ⟨hi.one hone, fun e he _ => hi.keeps he⟩
  | cached owner key =>
    cases hs
    exact ⟨hone, fun e he _ => he⟩
  | cache owner key value release =>
    rcases arpcCache_held hs with hh | ⟨num, hh⟩
    · refine ⟨fun o k s e he e' he' => ?_, fun e he _ => hh ▸ he⟩
      rw [hh] at he he'
      exact hone o k s e he e' he'
    · refine ⟨hone.of_subset fun e he ⟨s, hv⟩ => ?_, fun e he _ => ?_⟩
      · rcases List.mem_cons.1 (hh.mem_iff.1 he) with rfl | he
        · cases hv
        · exact he
      · exact hh.mem_iff.2 (List.mem_cons_of_mem _ he)
  | detach owner wholeRoot keys =>
    cases hs
    have hp := arpcDetach_held (c := c) owner wholeRoot keys
    exact ⟨hone.of_perm hp, fun e he _ => hp.mem_iff.2 he⟩
  | purgeOwner owner =>
    cases hs
    refine ⟨hpurge _, fun e he hne => purgeWhere_mem.2 ⟨he, ?_⟩⟩
    simpa [Op.Ends, eq_comm] using hne
  | purgeRoot handle =>
    cases hs
    refine ⟨hpurge _, fun e he hne => purgeWhere_mem.2 ⟨he, ?_⟩⟩
    simpa [Op.Ends, eq_comm] using hne
  | register ids =>
    cases hs
    exact ⟨hone, fun e he _ => he⟩
  | pkgGroup id =>
    cases hs
    exact ⟨hone, fun e he _ => he⟩

/-! ## Runs -/

theorem run_held (h : Inv isStr c) (hone : OneEach c) {ops : List (Op α)}
    (hok : ∀ op ∈ ops, op.Allowed isStr) {c' : Cache α} (hr : run c ops = some c') :
    Inv isStr c' ∧ OneEach c' ∧
      ∀ e ∈ c.held, (∀ op ∈ ops, ¬op.Ends e.owner) → e ∈ c'.held := by
  induction ops generalizing c with
  | nil =>
    cases hr
    exact ⟨h, hone, fun e he _ => he⟩
  | cons op ops ih =>
    have hop := hok op List.mem_cons_self
    obtain ⟨c₁, r, hs, hI, -, -⟩ := step_spec h hop
    obtain ⟨hone₁, hkeep₁⟩ := step_held h hone hop hs
    rw [run, hs] at hr
    obtain ⟨hI', hone', hkeep⟩ := ih hI hone₁ (fun x hx => hok x (List.mem_cons_of_mem _ hx)) hr
    refine ⟨hI', hone', fun e he hne => ?_⟩
    exact hkeep e (hkeep₁ e he (hne op List.mem_cons_self)) fun x hx =>
      hne x (List.mem_cons_of_mem _ hx)

theorem textAt_entry (h : Inv isStr c) {e : Owned α} (he : e ∈ c.held) {s : Bytes}
    (hv : e.value = .str (some s)) : textAt c (some e.num) = some s := by
  have hnd := (List.nodup_append.1 h.nodup).2.1
  have hf : c.held.find? (·.num = e.num) = some e := Keyed.find?_mem hnd he
  simp only [textAt, Option.bind_eq_bind, Option.bind_some, hf, hv]

/-- A pointer that `intern` returns has the text it was given. -/
theorem textAt_interned {c' : Cache α} (h : Inv isStr c') {owner : Nat} {key : Bytes}
    {value : Option Bytes} {n : Nat} (hi : Interned c c' owner key value n) :
    textAt c' (pointer value (some n)) = value := by
  cases value with
  | none => rfl
  | some s =>
    obtain ⟨e, he, rfl, -, -, hv⟩ := hi.entry
    exact textAt_entry h he hv

/-- **Borrowed strings keep their pointer.** In any run, whenever the owner is not purged between two
calls of `intern` for one owner, key and value, both return one pointer, and the text at it is the
value; and no text is ever held twice. -/
theorem intern_keeps_pointer (isStr : Nat → Bytes → Bool) (ops : List (Op α))
    (hok : ∀ op ∈ ops, op.Allowed isStr) :
    (∃ c, run {} ops = some c ∧ OneEach c) ∧
      ∀ pre mid post owner key value (c c₁ c₂ c₃ : Cache α) r r',
        ops = pre ++ .intern owner key value :: (mid ++ .intern owner key value :: post) →
        (∀ op ∈ mid, ¬op.Ends owner) → run {} pre = some c →
        intern c owner key value = some (c₁, r) → run c₁ mid = some c₂ →
        intern c₂ owner key value = some (c₃, r') →
        textAt c₁ (pointer value r) = value ∧ textAt c₃ (pointer value r') = value ∧
          pointer value r' = pointer value r := by
  obtain ⟨c, hr, -, -⟩ := run_spec Inv.empty hok
  refine ⟨⟨c, hr, (run_held Inv.empty OneEach.empty hok hr).2.1⟩, ?_⟩
  intro pre mid post owner key value c c₁ c₂ c₃ r r' he hmid hpre hi hrun hi'
  subst he
  have hs : (Op.intern owner key value : Op α).Allowed isStr := hok _ (by simp)
  obtain ⟨hI, hone, -⟩ := run_held Inv.empty OneEach.empty
    (fun op hm => hok op (List.mem_append_left _ hm)) hpre
  obtain ⟨n, rfl, hn⟩ := intern_cases hI hs hi
  obtain ⟨_, _, hi₁, hh⟩ := intern_spec hI hs value
  cases hi.symm.trans hi₁
  have hone₁ := hn.one hone
  obtain ⟨hI₂, hone₂, hkeep⟩ := run_held hh.inv hone₁ (fun op hm => hok op (by simp [hm])) hrun
  obtain ⟨m, rfl, hm⟩ := intern_cases hI₂ hs hi'
  obtain ⟨_, _, hi₃, hh'⟩ := intern_spec hI₂ hs value
  cases hi'.symm.trans hi₃
  refine ⟨textAt_interned hh.inv hn, textAt_interned hh'.inv hm, ?_⟩
  cases value with
  | none => rfl
  | some s =>
    obtain ⟨e, he, rfl, ht⟩ := hn.entry
    have hsame := hm.eq hone₂ (hkeep e he fun op hm => ht.1 ▸ hmid op hm) ht
    rw [hsame]

/-- The entry of a string under `alpm_option_get_root` of the handle `1`. -/
def rootEntry (num : Nat) (s : Bytes) : Owned Unit :=
  { owner := 1, key := lit "alpm_option_get_root", num, value := .str (some s), release := libcFree }

/-- The root changes and changes back, with a detach between. -/
def changedBack : List (Op Unit) :=
  [.intern 1 (lit "alpm_option_get_root") (some (lit "/")),
    .intern 1 (lit "alpm_option_get_root") (some (lit "/mnt")),
    .detach 1 false [lit "alpm_option_get_root"],
    .intern 1 (lit "alpm_option_get_root") (some (lit "/"))]

theorem intern_keeps_pointer_changedBack :
    textAt { owned := [rootEntry 0 (lit "/")], detached := [rootEntry 1 (lit "/mnt")], next := 2 }
      (some 0) = some (lit "/") := by
  have hok : ∀ op ∈ changedBack, op.Allowed fun _ _ => true := by
    intro op hm
    simp only [changedBack, List.mem_cons, List.not_mem_nil, or_false] at hm
    rcases hm with rfl | rfl | rfl | rfl <;> trivial
  refine ((intern_keeps_pointer _ changedBack hok).2 []
    [.intern 1 (lit "alpm_option_get_root") (some (lit "/mnt")),
      .detach 1 false [lit "alpm_option_get_root"]] [] 1 (lit "alpm_option_get_root")
    (some (lit "/")) {} { owned := [rootEntry 0 (lit "/")], next := 1 }
    { detached := [rootEntry 1 (lit "/mnt"), rootEntry 0 (lit "/")], next := 2 } _ (some 0) (some 0)
    rfl ?_ rfl rfl rfl rfl).2.1
  intro op hm
  simp only [List.mem_cons, List.not_mem_nil, or_false] at hm
  rcases hm with rfl | rfl <;> exact id

end Cache

end Client
