import AlpmRpc.Client.Mtree
import AlpmRpc.Lib.Run
import Mathlib.Data.List.Nodup
import Mathlib.Data.List.Range

/-!
# Buffers of open mtrees

`forget` takes the first entry of an address (`forget_spec`), and the entries are in the order of
opening, the last first. So a close takes its own entry unless a later archive has the address
(`Inv.first`): every step keeps what is meant exactly when it is clean (`step_iff`). When threads take
turns, addresses are not shared and every step is clean (`takes_turns`).
-/

set_option autoImplicit false

namespace Client.Mtree

/-! ## The list of streams -/

theorem forget_spec (addr : Nat) (ps : List Stream) :
    (∀ p ∈ ps, p.archive ≠ addr) ∨
    ∃ as p bs, ps = as ++ p :: bs ∧ p.archive = addr ∧ (∀ q ∈ as, q.archive ≠ addr) ∧
      forget addr ps = (as ++ bs, some p.buf) := by
  induction ps with
  | nil => exact .inl nofun
  | cons p ps ih =>
    by_cases hp : p.archive = addr
    · exact .inr ⟨[], p, ps, rfl, hp, nofun, by rw [forget, if_pos hp]; rfl⟩
    · rcases ih with hnone | ⟨as, q, bs, rfl, hq, has, hf⟩
      · exact .inl (List.forall_mem_cons.2 ⟨hp, hnone⟩)
      · refine .inr ⟨p :: as, q, bs, rfl, hq, List.forall_mem_cons.2 ⟨hp, has⟩, ?_⟩
        rw [forget, if_neg hp, hf]
        rfl

/-- The last opened first. -/
def Sorted (ps : List Stream) : Prop := ps.Pairwise fun p q => q.buf < p.buf

theorem Sorted.without {as bs : List Stream} {p : Stream} (h : Sorted (as ++ p :: bs)) :
    Sorted (as ++ bs) := by
  exact List.Pairwise.sublist ((List.sublist_cons_self p bs).append_left as) h

theorem Sorted.mem_without {as bs : List Stream} {p q : Stream} (h : Sorted (as ++ p :: bs)) :
    q ∈ as ++ bs ↔ q ∈ as ++ p :: bs ∧ q.buf ≠ p.buf := by
  obtain ⟨-, hp, has⟩ := List.pairwise_append.1 h
  have hbs := (List.pairwise_cons.1 hp).1
  rw [List.mem_append, List.mem_append, List.mem_cons]
  constructor
  · rintro (hq | hq)
    · exact ⟨.inl hq, Nat.ne_of_gt (has q hq p List.mem_cons_self)⟩
    · exact ⟨.inr (.inr hq), Nat.ne_of_lt (hbs q hq)⟩
  · rintro ⟨hq | rfl | hq, hne⟩
    · exact .inl hq
    · exact absurd rfl hne
    · exact .inr hq

/-! ## The invariant -/

/-- The entries are those of the archives not forgotten, the buffers are those of the archives and
those freed, and a thread is in one close at most. -/
structure Inv (s : State) : Prop where
  streams : ∀ p, p ∈ s.streams ↔ ∃ a ∈ s.archives, p = ⟨a.addr, a.num⟩
  sorted : Sorted s.streams
  ledger : (s.archives.map (·.num) ++ s.freed.map (·.1)).Perm (List.range s.next)
  own : ∀ f ∈ s.freed, f.2 = some f.1
  busy : ∀ a ∈ s.archives, ∀ b ∈ s.archives, a.closing = true → b.closing = true →
    a.thread = b.thread → a = b

theorem Inv.empty : Inv {} := ⟨by simp, List.Pairwise.nil, by simp, nofun, nofun⟩

variable {s s' : State}

theorem Inv.nodup (h : Inv s) : (s.archives.map (·.num) ++ s.freed.map (·.1)).Nodup :=
  h.ledger.nodup_iff.2 List.nodup_range

theorem Inv.nums (h : Inv s) : (s.archives.map (·.num)).Nodup := (List.nodup_append.1 h.nodup).1

theorem Inv.num_inj (h : Inv s) {a b : Archive} (ha : a ∈ s.archives) (hb : b ∈ s.archives)
    (he : a.num = b.num) : a = b := List.inj_on_of_nodup_map h.nums ha hb he

theorem Inv.num_lt (h : Inv s) {a : Archive} (ha : a ∈ s.archives) : a.num < s.next :=
  List.mem_range.1 (h.ledger.mem_iff.1 (List.mem_append_left _ (List.mem_map_of_mem ha)))

theorem Inv.kept (h : Inv s) : Kept s := by
  refine ⟨h.nums, fun a ha _ => (h.streams _).2 ⟨a, ha, rfl⟩, fun a ha _ hf => ?_, h.own,
    (List.nodup_append.1 h.nodup).2.1, fun n hn hna => ?_⟩
  · exact (List.nodup_append.1 h.nodup).2.2 _ (List.mem_map_of_mem ha) _ hf rfl
  · have hmem := h.ledger.mem_iff.2 (List.mem_range.2 hn)
    exact (List.mem_append.1 hmem).resolve_left hna

/-- The first entry of an archive's address is of this archive or of a later one. -/
theorem Inv.first (h : Inv s) {a : Archive} (ha : a ∈ s.archives) :
    ∃ as p bs, s.streams = as ++ p :: bs ∧ p.archive = a.addr ∧
      forget a.addr s.streams = (as ++ bs, some p.buf) ∧
      ∀ b ∈ s.archives, b.addr = a.addr → b.num ≤ p.buf := by
  have hmem := (h.streams _).2 ⟨a, ha, rfl⟩
  rcases forget_spec a.addr s.streams with hnone | ⟨as, p, bs, hs, hp, has, hf⟩
  · exact absurd rfl (hnone _ hmem)
  · refine ⟨as, p, bs, hs, hp, hf, fun b hb hba => ?_⟩
    have hbs := (h.streams _).2 ⟨b, hb, rfl⟩
    have hsorted := h.sorted
    rw [hs] at hbs hsorted
    rcases List.mem_append.1 hbs with hin | hin
    · exact absurd hba (has _ hin)
    · rcases List.mem_cons.1 hin with he | hin
      · rw [← he]
      · have hlt := (List.pairwise_cons.1 (List.pairwise_append.1 hsorted).2.1).1 _ hin
        exact Nat.le_of_lt hlt

/-! ## Steps -/

theorem Inv.opened (h : Inv s) (thread : Nat) (addr : Nat) :
    Inv { s with
      streams := ⟨addr, s.next⟩ :: s.streams
      archives := ⟨thread, addr, s.next, false⟩ :: s.archives
      next := s.next + 1 } := by
  refine ⟨fun p => ?_, ?_, ?_, h.own, ?_⟩
  · simp only [List.mem_cons, exists_eq_or_imp, h.streams p]
  · refine List.pairwise_cons.2 ⟨fun q hq => ?_, h.sorted⟩
    obtain ⟨a, ha, rfl⟩ := (h.streams q).1 hq
    exact h.num_lt ha
  · rw [List.range_succ]
    exact (h.ledger.cons s.next).trans (List.perm_append_singleton _ _).symm
  · intro a ha b hb hac hbc ht
    rcases List.mem_cons.1 ha with rfl | ha
    · cases hac
    · rcases List.mem_cons.1 hb with rfl | hb
      · cases hbc
      · exact h.busy a ha b hb hac hbc ht

/-- The archive is freed, and its thread is on its way to forget it. -/
theorem Inv.begun (h : Inv s) {thread num : Nat} (hown : s.owns thread num = true)
    (hbusy : s.busy thread = false) :
    Inv { s with
      archives := s.archives.map fun a => if a.num = num then { a with closing := true } else a } := by
  have haddr : ∀ a : Archive, (if a.num = num then { a with closing := true } else a).addr = a.addr := by
    intro a; split <;> rfl
  have hnum : ∀ a : Archive, (if a.num = num then { a with closing := true } else a).num = a.num := by
    intro a; split <;> rfl
  have hthread : ∀ a : Archive,
      (if a.num = num then { a with closing := true } else a).thread = a.thread := by
    intro a; split <;> rfl
  refine ⟨fun p => ?_, h.sorted, ?_, h.own, ?_⟩
  · rw [h.streams p]
    simp [haddr, hnum]
  · rw [List.map_map]
    have he : (Archive.num ∘ fun a => if a.num = num then { a with closing := true } else a) =
        Archive.num := funext hnum
    rw [he]
    exact h.ledger
  · intro a ha b hb hac hbc ht
    obtain ⟨a, ha₀, rfl⟩ := List.mem_map.1 ha
    obtain ⟨b, hb₀, rfl⟩ := List.mem_map.1 hb
    rw [hthread, hthread] at ht
    obtain ⟨c, hc, hcp⟩ := List.any_eq_true.1 hown
    simp only [decide_eq_true_eq] at hcp
    obtain ⟨hct, hcn, -⟩ := hcp
    -- what the thread closes now it was not closing before
    have hnot : ∀ a ∈ s.archives, a.closing = true → a.thread ≠ thread := by
      intro a ha hac hat
      have hall := List.any_eq_false.1 hbusy a ha
      simp [hat, hac] at hall
    by_cases han : a.num = num
    · have hac' := h.num_inj ha₀ hc (han.trans hcn.symm)
      by_cases hbn : b.num = num
      · rw [h.num_inj ha₀ hb₀ (han.trans hbn.symm)]
      · rw [if_neg hbn] at hbc
        exact absurd (ht.symm.trans (hac' ▸ hct)) (hnot b hb₀ hbc)
    · rw [if_neg han] at hac
      by_cases hbn : b.num = num
      · have hbc' := h.num_inj hb₀ hc (hbn.trans hcn.symm)
        exact absurd (ht.trans (hbc' ▸ hct)) (hnot a ha₀ hac)
      · rw [if_neg hbn] at hbc
        rw [h.busy a ha₀ b hb₀ hac hbc ht]

/-- A close forgets its own entry, when it is the first. -/
theorem Inv.closed (h : Inv s) {a : Archive} (ha : a ∈ s.archives) {as bs : List Stream} {p : Stream}
    (hs : s.streams = as ++ p :: bs) (hp : p.buf = a.num) :
    Inv { s with
      streams := as ++ bs
      archives := s.archives.filter fun b => b.num ≠ a.num
      freed := s.freed ++ [(p.buf, some a.num)] } := by
  have hsorted := h.sorted
  rw [hs] at hsorted
  refine ⟨fun q => ?_, hsorted.without, ?_, ?_, ?_⟩
  · dsimp only
    rw [hsorted.mem_without, ← hs, h.streams q, hp]
    constructor
    · rintro ⟨⟨b, hb, rfl⟩, hne⟩
      exact ⟨b, List.mem_filter.2 ⟨hb, by simpa using hne⟩, rfl⟩
    · rintro ⟨b, hb, rfl⟩
      obtain ⟨hb, hne⟩ := List.mem_filter.1 hb
      exact ⟨⟨b, hb, rfl⟩, by simpa using hne⟩
  · have herase : (s.archives.filter fun b => b.num ≠ a.num).map (·.num) =
        (s.archives.map (·.num)).erase a.num := by
      rw [h.nums.erase_eq_filter, List.filter_map]
      congr 1
      exact List.filter_congr fun b _ => by by_cases hn : b.num = a.num <;> simp [hn]
    dsimp only
    rw [herase, List.map_append, hp]
    refine List.Perm.trans ?_ h.ledger
    refine List.Perm.trans ?_
      ((List.perm_cons_erase (List.mem_map_of_mem (f := (·.num)) ha)).symm.append_right _)
    rw [← List.append_assoc]
    exact List.perm_append_singleton _ _
  · intro f hf
    rcases List.mem_append.1 hf with hf | hf
    · exact h.own f hf
    · rw [List.mem_singleton.1 hf, hp]
  · intro b hb c hc
    exact h.busy b (List.mem_filter.1 hb).1 c (List.mem_filter.1 hc).1

/-- **A step keeps what is meant exactly when it is clean.** -/
theorem step_iff {ev : Event} (h : Inv s) (hs : step s ev = some s') :
    (Kept s' ↔ Clean s ev s') ∧ (Clean s ev s' → Inv s') := by
  cases ev with
  | openMtree thread addr mem =>
    rw [step] at hs
    split at hs
    · cases hs
    cases addr with
    | none =>
      cases hs
      exact ⟨⟨fun _ hne => absurd rfl hne, fun _ => h.kept⟩, fun _ => h⟩
    | some addr =>
      rw [alpmPkgMtreeOpen] at hs
      split at hs
      · cases hs
      cases hs
      cases mem with
      | true =>
        have hI := h.opened thread addr
        exact ⟨⟨fun _ _ => rfl, fun _ => hI.kept⟩, fun _ => hI⟩
      | false =>
        have hno : ¬Clean s (.openMtree thread (some addr) false) s := fun hc =>
          Bool.false_ne_true (hc (Option.some_ne_none addr))
        refine ⟨⟨fun hk => ?_, fun hc => absurd hc hno⟩, fun hc => absurd hc hno⟩
        -- the buffer went with the entry there was no memory for
        have hown := hk.own (s.next, none) (List.mem_append_right _ List.mem_cons_self)
        cases hown
  | read thread num =>
    rw [step] at hs
    split at hs
    · cases hs
      exact ⟨⟨fun _ => trivial, fun _ => h.kept⟩, fun _ => h⟩
    · cases hs
  | free thread num =>
    rw [step] at hs
    split at hs
    · rename_i hg
      cases hs
      have hI := h.begun hg.1 hg.2
      exact ⟨⟨fun _ => trivial, fun _ => hI.kept⟩, fun _ => hI⟩
    · cases hs
  | forget thread =>
    obtain ⟨a, hf, rfl⟩ := Option.map_eq_some_iff.1 hs
    have ha := List.mem_of_find?_eq_some hf
    obtain ⟨hat, hac⟩ : a.thread = thread ∧ a.closing = true := by
      simpa using List.find?_some hf
    obtain ⟨as, p, bs, hstreams, hpa, hforget, hlast⟩ := h.first ha
    rw [closeEnd, hforget]
    have hclean : Clean s (.forget thread) s ↔ p.buf = a.num := by
      obtain ⟨b, hb, hpb⟩ := (h.streams p).1 (by rw [hstreams]; simp)
      constructor
      · intro hc
        have hle := hc a ha hat hac b hb (by rw [← hpa, hpb])
        have hge := hlast a ha rfl
        rw [hpb] at hge ⊢
        exact Nat.le_antisymm hle hge
      · intro hp c hc hct hcc d hd hda
        obtain rfl := h.busy a ha c hc hac hcc (hat.trans hct.symm)
        exact hp ▸ hlast d hd hda
    have hI : p.buf = a.num → Inv _ := h.closed ha hstreams
    refine ⟨⟨fun hk => hclean.2 ?_, fun hc => (hI (hclean.1 hc)).kept⟩, fun hc => hI (hclean.1 hc)⟩
    have hown := hk.own (p.buf, some a.num) (List.mem_append_right _ List.mem_cons_self)
    exact (Option.some_inj.1 hown).symm

/-! ## Runs -/

/-- **Buffers stay until their own close** along a run exactly when every step of it is clean. -/
theorem kept_iff (evs : List Event) :
    Run.Along step (fun _ _ => Kept) {} evs ↔ Run.Along step Clean {} evs := by
  refine ⟨fun h => h.of_inv (I := Inv) (fun s ev s' hI hs hk => ?_) Inv.empty,
    fun h => h.of_inv (I := Inv) (fun s ev s' hI hs hc => ?_) Inv.empty⟩
  · have hc := (step_iff hI hs).1.1 hk
    exact ⟨hc, (step_iff hI hs).2 hc⟩
  · exact ⟨(step_iff hI hs).1.2 hc, (step_iff hI hs).2 hc⟩

/-- No two archives have one address. -/
def Apart (s : State) : Prop := ∀ a ∈ s.archives, ∀ b ∈ s.archives, a.addr = b.addr → a = b

/-- **Threads that take turns** are clean. -/
theorem takes_turns (evs : List Event) (h : Run.Along step TakesTurns {} evs) :
    Run.Along step (fun _ _ => Kept) {} evs := by
  refine h.of_inv (I := fun s => Inv s ∧ Apart s) (fun s ev s' hI hs ht => ?_) ⟨Inv.empty, nofun⟩
  obtain ⟨hI, hA⟩ := hI
  have hclean : Clean s ev s' := by
    cases ev with
    | openMtree thread addr mem =>
      intro hne
      obtain ⟨x, hx⟩ := Option.ne_none_iff_exists'.1 hne
      exact (ht x hx).1
    | read thread num => trivial
    | free thread num => trivial
    | forget thread =>
      intro a ha _ _ b hb hba
      rw [hA b hb a ha hba]
  obtain ⟨hiff, hInv⟩ := step_iff hI hs
  refine ⟨hiff.2 hclean, hInv hclean, ?_⟩
  cases ev with
  | openMtree thread addr mem =>
    rw [step] at hs
    split at hs
    · cases hs
    cases addr with
    | none =>
      cases hs
      exact hA
    | some addr =>
      obtain ⟨hmem, hfree⟩ := ht addr rfl
      rw [alpmPkgMtreeOpen] at hs
      split at hs
      · cases hs
      cases hs
      intro a ha b hb hab
      have hold : (remember s addr s.next mem).archives = s.archives := by
        rw [remember, if_pos hmem]
      rcases List.mem_cons.1 ha with rfl | ha
      · rcases List.mem_cons.1 hb with rfl | hb
        · rfl
        · exact absurd hab.symm (hfree b hb)
      · rcases List.mem_cons.1 hb with rfl | hb
        · exact absurd hab (hfree a ha)
        · exact hA a ha b hb hab
  | read thread num =>
    rw [step] at hs
    split at hs
    · cases hs
      exact hA
    · cases hs
  | free thread num =>
    rw [step] at hs
    split at hs
    · cases hs
      intro a ha b hb hab
      obtain ⟨a₀, ha₀, rfl⟩ := List.mem_map.1 ha
      obtain ⟨b₀, hb₀, rfl⟩ := List.mem_map.1 hb
      rw [hA a₀ ha₀ b₀ hb₀ (by split at hab <;> split at hab <;> exact hab)]
    · cases hs
  | forget thread =>
    obtain ⟨c, -, rfl⟩ := Option.map_eq_some_iff.1 hs
    intro a ha b hb hab
    exact hA a (List.mem_filter.1 ha).1 b (List.mem_filter.1 hb).1 hab

/-- Between the two steps of the first thread's close, the second thread opens an archive at the
address that is free again, and loses its buffer to that close. -/
theorem address_taken : ¬Run.Along step (fun _ _ => Kept) {}
    [.openMtree 1 (some 4096) true, .free 1 0, .openMtree 2 (some 4096) true, .forget 1] := by
  intro h
  have hlast := ((((h _ rfl).2 _ rfl).2 _ rfl).2 _ rfl).1
  have hlisted := hlast.listed ⟨2, 4096, 1, false⟩ (by decide) rfl
  exact absurd hlisted (by decide)

end Client.Mtree
