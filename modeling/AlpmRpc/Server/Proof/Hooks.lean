import AlpmRpc.Server.Hooks
import AlpmRpc.Server.Proof.Filing
import AlpmRpc.Server.Proof.Forest

/-!
# The hooks drop what died

What is below a slot that stays has stayed (`below_dropOwner`), so the drops of `drop_all` do not get
in each other's way: a slot goes if it is at or below one of the packages noted, whatever the order
and however often each was noted (`mem_dropAll`).
-/

set_option autoImplicit false

namespace Server

open Json Gen Chain Wire

namespace Reg

variable {a : Reg} {s : Slot} {o : Nat}

/-- `id` is `o`, or below it. -/
def Below (a : Reg) (id o : Nat) : Prop := id = o ∨ Above a.up id o

theorem Below.trans {x y z : Nat} (h : a.Below x y) (h' : a.Below y z) : a.Below x z := by
  rcases h with rfl | h
  · exact h'
  · rcases h' with rfl | h'
    · exact .inr h
    · exact .inr (Relation.TransGen.trans h h')

theorem mem_dropOwner (h : a.Tree) (ho : o ≠ 0) :
    s ∈ (a.dropOwner o).live ↔ s ∈ a.live ∧ ¬a.Below s.id o := by
  rw [dropOwner, if_neg ho, mem_filter]
  refine and_congr_right fun hs => ?_
  rw [Bool.not_eq_true', ← Bool.not_eq_true, h.under_iff (h.wf.id_ne s hs)]
  rfl

/-- A slot that stays is below what it was below. -/
theorem below_dropOwner (h : a.Tree) (ho : o ≠ 0) (hs : s ∈ (a.dropOwner o).live) (x : Nat) :
    (a.dropOwner o).Below s.id x ↔ a.Below s.id x := by
  have h' := h.dropOwner o
  -- the owner of a slot that stays, stays
  have hup : ∀ x y, (∃ s ∈ (a.dropOwner o).live, s.id = x) → a.up x = some y →
      (∃ s ∈ (a.dropOwner o).live, s.id = y) ∧ (a.dropOwner o).up x = some y := by
    rintro x y ⟨s, hs, rfl⟩ hu
    obtain ⟨hsa, hsk⟩ := (mem_dropOwner h ho).1 hs
    obtain ⟨s', hs', hid, rfl, hy⟩ := (up_eq_some h.wf).1 hu
    cases h.wf.id_inj hs' hsa hid
    obtain ⟨z, hz, hzo, -⟩ := h.owner_live hsa hy
    refine ⟨⟨z, (mem_dropOwner h ho).2 ⟨hz, fun hb => hsk ?_⟩, hzo⟩, up_live h'.wf hs hy⟩
    rw [hzo] at hb
    exact Below.trans (.inr (.single hu)) hb
  have hdown : ∀ x y, (∃ s ∈ (a.dropOwner o).live, s.id = x) → (a.dropOwner o).up x = some y →
      (∃ s ∈ (a.dropOwner o).live, s.id = y) ∧ a.up x = some y := by
    rintro x y ⟨s, hs, rfl⟩ hu
    obtain ⟨s', hs', hid, rfl, hy⟩ := (up_eq_some h'.wf).1 hu
    cases h'.wf.id_inj hs' hs hid
    have hua : a.up s.id = some s.owner := up_live h.wf ((mem_dropOwner h ho).1 hs).1 hy
    exact ⟨(hup _ _ ⟨s, hs, rfl⟩ hua).1, hua⟩
  exact ⟨fun hb => hb.imp_right (Above.within hdown ⟨s, hs, rfl⟩),
    fun hb => hb.imp_right (Above.within hup ⟨s, hs, rfl⟩)⟩

/-- `arpc_handle_drop_ptr` on the registry. -/
theorem mem_dropPtr (h : a.Tree) (p : Nat) (tag : HandleTag) : (∀ s, s ∈ (a.dropPtr p tag).live ↔ s ∈ a.live ∧
      ∀ b ∈ a.live, b.ptr = p → b.tag = tag → ¬a.Below s.id b.id) ∧
    ∀ s ∈ (a.dropPtr p tag).live, ∀ x, (a.dropPtr p tag).Below s.id x ↔ a.Below s.id x := by
  rw [dropPtr]
  split
  · rename_i hp
    refine ⟨fun s => ⟨fun hs => ⟨hs, fun b hb hbp => ?_⟩, fun hs => hs.1⟩, fun _ _ _ => Iff.rfl⟩
    exact absurd (hbp.trans hp) (h.wf.ptr_ne b hb)
  · cases hf : a.findPtr p tag with
    | none =>
      refine ⟨fun s => ⟨fun hs => ⟨hs, fun b hb hbp hbt => ?_⟩, fun hs => hs.1⟩, fun _ _ _ => Iff.rfl⟩
      exact absurd ⟨hbp, hbt⟩ (findPtr_eq_none.1 hf b hb)
    | some c =>
      obtain ⟨hc, hcp, hct⟩ := (findPtr_eq_some h.wf).1 hf
      have h0 := h.wf.id_ne c hc
      refine ⟨fun s => ?_, fun s hs => below_dropOwner h h0 hs⟩
      rw [mem_dropOwner h h0]
      refine and_congr_right fun _ => ⟨fun hs b hb hbp hbt => ?_, fun hs => hs c hc hcp hct⟩
      rw [h.wf.obj_inj hb hc (hbp.trans hcp.symm) (hbt.trans hct.symm)]
      exact hs

/-- **`drop_all`**: what is at or below an object of the list goes, and nothing else. -/
theorem mem_dropAll (h : a.Tree) (tag : HandleTag) (ps : List Nat) :
    ((dropAll tag ps).runReg a).1.Tree ∧ ∀ s, s ∈ ((dropAll tag ps).runReg a).1.live ↔
      s ∈ a.live ∧ ∀ b ∈ a.live, b.ptr ∈ ps → b.tag = tag → ¬a.Below s.id b.id := by
  induction ps generalizing a with
  | nil => exact ⟨h, fun s => by simp [dropAll]⟩
  | cons p ps ih =>
    obtain ⟨hmem, hbelow⟩ := mem_dropPtr h p tag
    obtain ⟨htree, hrest⟩ := ih (h.dropPtr p tag)
    refine ⟨htree, fun s => ?_⟩
    rw [dropAll, TProg.runReg, show (a.exec (.dropPtr p tag)).1 = a.dropPtr p tag from rfl, hrest]
    constructor
    · rintro ⟨hs, hno⟩
      obtain ⟨hsa, hp⟩ := (hmem s).1 hs
      refine ⟨hsa, fun b hb hbp hbt hsb => ?_⟩
      rcases List.mem_cons.1 hbp with hbp | hbp
      · exact hp b hb hbp hbt hsb
      · by_cases hbk : b ∈ (a.dropPtr p tag).live
        · exact hno b hbk hbp hbt ((hbelow s hs b.id).2 hsb)
        · -- `b` went with `p`, and so did what is below `b`
          have : ∃ c ∈ a.live, c.ptr = p ∧ c.tag = tag ∧ a.Below b.id c.id := by
            by_contra hnone
            exact hbk ((hmem b).2 ⟨hb, fun c hc hcp hct hbc => hnone ⟨c, hc, hcp, hct, hbc⟩⟩)
          obtain ⟨c, hc, hcp, hct, hbc⟩ := this
          exact hp c hc hcp hct (hsb.trans hbc)
    · rintro ⟨hsa, hall⟩
      have hs : s ∈ (a.dropPtr p tag).live :=
        (hmem s).2 ⟨hsa, fun b hb hbp hbt => hall b hb (by simp [hbp]) hbt⟩
      refine ⟨hs, fun b hb hbp hbt hsb => ?_⟩
      exact hall b ((hmem b).1 hb).1 (List.mem_cons_of_mem _ hbp) hbt ((hbelow s hs b.id).1 hsb)

end Reg

/-! ## What the pre hooks note -/

theorem mem_note {d : List Nat} {p q : Nat} : q ∈ note d p ↔ q ∈ d ∨ (q = p ∧ q ≠ 0) := by
  unfold note
  split
  · rename_i hp
    subst hp
    refine ⟨.inl, fun hq => hq.resolve_right fun he => he.2 he.1⟩
  · rename_i hp
    rw [List.mem_append, List.mem_singleton]
    refine or_congr_right ⟨fun he => ⟨he, he ▸ hp⟩, fun he => he.1⟩

theorem mem_notes (f : Nat → Nat) {ps d : List Nat} {q : Nat} :
    q ∈ ps.foldl (fun d p => note d (f p)) d ↔ q ∈ d ∨ (q ≠ 0 ∧ ∃ p ∈ ps, f p = q) := by
  induction ps generalizing d with
  | nil => simp
  | cons p ps ih =>
    rw [List.foldl_cons, ih, mem_note, or_assoc]
    refine or_congr_right ⟨fun h => ?_, fun h => ?_⟩
    · rcases h with ⟨rfl, h0⟩ | ⟨h0, p', hp', he⟩
      · exact ⟨h0, p, List.mem_cons_self, rfl⟩
      · exact ⟨h0, p', List.mem_cons_of_mem _ hp', he⟩
    · obtain ⟨h0, p', hp', he⟩ := h
      rcases List.mem_cons.1 hp' with rfl | hp'
      · exact .inl ⟨he.symm, h0⟩
      · exact .inr ⟨h0, p', hp', he⟩

/-- The cache has one package of a name, and it is found. -/
theorem alpmPkgFind_eq {l : Trans} {needle : Bytes} {q : Nat} (h0 : q ≠ 0) :
    l.alpmPkgFind needle = q ↔ q ∈ l.cache ∧ l.name q = needle := by
  unfold Trans.alpmPkgFind
  cases hf : l.cache.find? fun p => l.name p = needle with
  | none =>
    refine ⟨fun he => absurd he.symm h0, fun ⟨hm, hn⟩ => ?_⟩
    exact absurd hn (Keyed.find?_none_iff.1 hf q hm)
  | some p =>
    refine ⟨fun he => ?_, fun hq => ?_⟩
    · cases he
      exact Keyed.of_find? hf
    · exact Option.some_inj.1 (hf.symm.trans ((Keyed.find?_iff l.names).2 hq))

/-! ## The hooks -/

section
variable {t t' : Table} {a a' : Reg} {params : Option Tree} {lib : Nat → Trans} {rc : Int}
  {errno : Nat → AlpmErrno}

theorem run_handleArg (h : Rep t a) : (handleArg params).run t = some (t, handleAt t params) := by
  have hrun : ∃ p, (handleArg params).run t = some (t, p) := by
    unfold handleArg arpcArgHandle
    split
    · exact ⟨0, rfl⟩
    · split
      · exact ⟨0, rfl⟩
      · exact ⟨a.get (arpcArgId params 0) .handle, by simp [TProg.run, exec, h.get]⟩
  obtain ⟨p, hp⟩ := hrun
  rw [handleAt, hp]

/-- What the release's pre hook notes. -/
theorem run_transReleasePre (lib : Nat → Trans) (params : Option Tree) (h : Rep t a) :
    ∃ d, (transReleasePre lib params).run t = some (t, d) ∧
    ∀ p, p ≠ 0 → (p ∈ d ↔ handleAt t params ≠ 0 ∧ (lib (handleAt t params)).Owned p) := by
  rw [transReleasePre, TProg.run_bind, run_handleArg h, Option.bind_some]
  dsimp only
  by_cases h0 : handleAt t params = 0
  · rw [if_pos h0]
    exact ⟨[], rfl, fun p _ => by simp [h0]⟩
  · rw [if_neg h0]
    refine ⟨_, rfl, fun p hp => ?_⟩
    have hfun : (fun d p => if (lib (handleAt t params)).origin p = .file then note d p else d) =
        fun d p => note d (if (lib (handleAt t params)).origin p = .file then p else 0) := by
      funext d q
      split
      · rfl
      · simp [note]
    rw [mem_notes fun p => p, hfun, mem_notes]
    simp only [List.not_mem_nil, false_or, hp, ne_eq, not_false_eq_true, true_and, exists_eq_right, h0,
      Trans.Owned]
    refine or_congr_left ⟨fun ⟨q, hq, he⟩ => ?_, fun ⟨hm, ho⟩ => ⟨p, hm, if_pos ho⟩⟩
    split at he
    · rename_i ho
      exact ⟨he ▸ hq, he ▸ ho⟩
    · exact absurd he.symm hp

/-- What the commit's pre hook notes. -/
theorem run_transCommitPre (lib : Nat → Trans) (params : Option Tree) (h : Rep t a) :
    ∃ d, (transCommitPre lib params).run t = some (t, d) ∧
    ∀ p, p ≠ 0 → (p ∈ d ↔ handleAt t params ≠ 0 ∧ (lib (handleAt t params)).Installed p) := by
  rw [transCommitPre, TProg.run_bind, run_handleArg h, Option.bind_some]
  dsimp only
  generalize handleAt t params = q
  by_cases h0 : q = 0 ∨ (lib q).localdb = 0
  · rw [if_pos h0]
    refine ⟨[], rfl, fun p _ => ?_⟩
    simp only [List.not_mem_nil, false_iff, Trans.Installed, not_and]
    exact fun hq hl => absurd h0 (not_or.2 ⟨hq, hl⟩)
  · rw [if_neg h0]
    rw [not_or] at h0
    refine ⟨_, rfl, fun p hp => ?_⟩
    rw [mem_notes fun x => (lib q).alpmPkgFind ((lib q).name x),
      mem_notes fun x => (lib q).alpmPkgFind ((lib q).name x)]
    simp only [alpmPkgFind_eq hp, List.not_mem_nil, false_or, Trans.Installed, h0.1, h0.2, hp, ne_eq,
      not_false_eq_true, true_and, List.mem_append]
    constructor
    · rintro (⟨x, hx, hm, hn⟩ | ⟨x, hx, hm, hn⟩)
      · exact ⟨hm, x, .inl hx, hn⟩
      · exact ⟨hm, x, .inr hx, hn⟩
    · rintro ⟨hm, x, hx | hx, hn⟩
      · exact .inl ⟨x, hx, hm, hn⟩
      · exact .inr ⟨x, hx, hm, hn⟩

theorem Rep.dropAll (h : Rep t a) (tag : HandleTag) (ps : List Nat) :
    ∃ t', (Server.dropAll tag ps).run t = some (t', ()) ∧
      Rep t' ((Server.dropAll tag ps).runReg a).1 := by
  induction ps generalizing t a with
  | nil => exact ⟨t, rfl, h⟩
  | cons p ps ih =>
    obtain ⟨t₁, ht₁, h₁⟩ := h.dropPtr p tag
    obtain ⟨t₂, ht₂, h₂⟩ := ih h₁
    refine ⟨t₂, ?_, h₂⟩
    rw [Server.dropAll, TProg.run, Server.exec, ht₁]
    exact ht₂

theorem Rep.doomed_iff (h : Rep t a) {dead : Nat → Prop} {id : Nat} :
    Doomed t dead id ↔ ∃ b ∈ a.live, dead b.ptr ∧ b.tag = .pkg ∧ a.Below id b.id := by
  constructor
  · rintro ⟨v, p, hd, hp, hg, hb⟩
    rw [h.get, Option.some_inj, Reg.get_eq_iff h.wf hp] at hg
    obtain ⟨b, hb', rfl, rfl, ht⟩ := hg
    rw [h.up] at hb
    exact ⟨b, hb', hd, ht, hb⟩
  · rintro ⟨b, hb, hd, ht, hbelow⟩
    refine ⟨b.id, b.ptr, hd, h.wf.ptr_ne b hb, ?_, ?_⟩
    · rw [h.get, Option.some_inj, Reg.get_eq_iff h.wf (h.wf.ptr_ne b hb)]
      exact ⟨b, hb, rfl, rfl, ht⟩
    · rw [h.up]
      exact hbelow

/-- `drop_all` of what was noted drops what died. -/
theorem Rep.dropsDead (h : Rep t a) (ht : a.Tree) {dead : Nat → Prop} {d : List Nat}
    (hd : ∀ p, p ≠ 0 → (p ∈ d ↔ dead p)) :
    ∃ t', (Server.dropAll .pkg d).run t = some (t', ()) ∧ DropsDead dead t t' := by
  obtain ⟨t', ht', h'⟩ := h.dropAll .pkg d
  have hm := (Reg.mem_dropAll ht .pkg d).2
  have hremoves : Removes t t' (Doomed t dead) := by
    refine h.removes_of_live h' fun s => ?_
    rw [hm, h.doomed_iff]
    refine and_congr_right fun _ => ⟨fun hno ⟨b, hb, hdb, hbt, hsb⟩ => ?_, fun hno b hb hbp hbt hsb => ?_⟩
    · exact hno b hb ((hd _ (h.wf.ptr_ne b hb)).2 hdb) hbt hsb
    · exact hno ⟨b, hb, (hd _ (h.wf.ptr_ne b hb)).1 hbp, hbt, hsb⟩
  refine ⟨t', ht', fun id p hp h0 hg => ?_, hremoves⟩
  by_cases hdoom : Doomed t dead id
  · rw [(hremoves id .pkg).1 hdoom] at hg
    exact h0 (Option.some_inj.1 hg).symm
  · rw [(hremoves id .pkg).2 hdoom] at hg
    exact hdoom ⟨id, p, hp, h0, hg, .inl rfl⟩

/-- A table whose slots form a tree. -/
def Sound (t : Table) : Prop := ∃ a, Rep t a ∧ a.Tree

theorem Sound.commit {t₀ t : Table} (h₀ : Sound t₀) (h : Sound t) (lib : Nat → Trans)
    (params : Option Tree) (rc : Int) (errno : Nat → AlpmErrno) :
    CommitDropsDead lib params rc errno t₀ t := by
  obtain ⟨a₀, h₀, -⟩ := h₀
  obtain ⟨a, h, ht⟩ := h
  obtain ⟨d, hpre, hd⟩ := run_transCommitPre lib params h₀
  obtain ⟨t', hdrop, hdead⟩ := h.dropsDead ht hd
  by_cases hu : rc ≠ 0 ∧ Untouched t params errno
  · refine ⟨d, t, hpre, ?_, fun hno => ?_, fun _ _ => rfl⟩
    · obtain ⟨hrc, hh, htn⟩ := hu
      rw [transCommitPost, TProg.run_bind, run_handleArg h, Option.bind_some]
      simp [hrc, hh, htn, TProg.run]
    · exact absurd hno (not_or.2 ⟨hu.1, not_not.2 hu.2⟩)
  · refine ⟨d, t', hpre, ?_, fun _ => hdead, fun hrc hun => absurd ⟨hrc, hun⟩ hu⟩
    have hcond : rc = 0 ∨ handleAt t params = 0 ∨
        touchedNothing (errno (handleAt t params)) = false := by
      simpa [Untouched, or_iff_not_imp_left] using hu
    rw [transCommitPost, TProg.run_bind, run_handleArg h, Option.bind_some]
    exact (congrArg (fun q => TProg.run q t) (if_pos hcond)).trans hdrop

theorem Sound.release {t₀ t : Table} (h₀ : Sound t₀) (h : Sound t) (lib : Nat → Trans)
    (params : Option Tree) (rc : Int) : ReleaseDropsDead lib params rc t₀ t := by
  obtain ⟨a₀, h₀, -⟩ := h₀
  obtain ⟨a, h, ht⟩ := h
  obtain ⟨d, hpre, hd⟩ := run_transReleasePre lib params h₀
  obtain ⟨t', hdrop, hdead⟩ := h.dropsDead ht hd
  by_cases hrc : rc = 0
  · refine ⟨d, t', hpre, ?_, fun _ => hdead, fun hne => absurd hrc hne⟩
    rw [transReleasePost, if_pos hrc, hdrop]
  · refine ⟨d, t, hpre, ?_, fun he => absurd he hrc, fun _ => rfl⟩
    rw [transReleasePost, if_neg hrc]
    rfl

/-- A run of allowed calls makes such a table. -/
theorem Sound.of_run {ops : List Op} (hok : AllowedRun {} ops) (hb : issuedBy ops {} < 2 ^ 40) :
    ∃ t, Server.runTable {} ops = some t ∧ Sound t := by
  have hb' : ({} : Reg).nextSeq + issuedBy (ops ++ []) {} ≤ 2 ^ 40 := by
    rw [show ({} : Reg).nextSeq = 1 from rfl, List.append_nil]
    omega
  obtain ⟨t, a, hrun, hR, hT, -⟩ :=
    Rep.empty.runTable Reg.Tree.empty ops [] (by rwa [List.append_nil]) hb'
  exact ⟨t, hrun, a, hR, hT⟩

/-- **The hooks drop what died**: after a commit and its post hook, unless the errno says that nothing
was touched, no id resolves to a package that the local cache had under a target's name, those ids and
what was under them are gone, and the other ids resolve as before; if it says so, the hook changes
nothing. After a release likewise, for what the transaction owned. The tables before and after the call
are any, so packages may have been put in between. -/
theorem hooks_drop_dead {t₀ t : Table} (h₀ : Sound t₀) (h : Sound t) (lib : Nat → Trans)
    (params : Option Tree) (rc : Int) (errno : Nat → AlpmErrno) :
    CommitDropsDead lib params rc errno t₀ t ∧ ReleaseDropsDead lib params rc t₀ t :=
  ⟨h₀.commit h lib params rc errno, h₀.release h lib params rc⟩

end

/-- Package 7 is installed; 9 has its name and is to be installed over it. -/
def upgrade (_ : Nat) : Trans where
  add := [9]
  localdb := 2
  cache := [7, 8]
  name p := if p = 8 then [98] else [97]
  names := by decide

/-- The package is first given an id during the call. -/
theorem hooks_drop_dead_upgrade :
    ∃ t₀ t, runTable {} [.put 1 .handle 0] = some t₀ ∧ runTable {} handleAndPkg = some t ∧
      CommitDropsDead upgrade (some (.arr [.num (mkId 1 1)])) 0 (fun _ => .other 0) t₀ t ∧
      ReleaseDropsDead upgrade (some (.arr [.num (mkId 1 1)])) 0 t₀ t := by
  have hput : ∀ rest, (∀ t', Rep t' (({} : Reg).exec (.put 1 .handle 0)).1 → AllowedRun t' rest) →
      AllowedRun {} (.put 1 .handle 0 :: rest) := fun rest hrest =>
    Rep.empty.allowedRun_cons (by decide +kernel) (.inl rfl) hrest
  obtain ⟨t₀, hr₀, h₀⟩ := Sound.of_run (hput [] fun _ _ => trivial) (by decide +kernel)
  have hok : AllowedRun {} handleAndPkg := hput _ fun t₁ h₁ =>
    ⟨.inl (h₁.liveAs.2 ⟨_, List.mem_cons_self, rfl, rfl⟩), fun _ _ _ => trivial⟩
  obtain ⟨t, hr, h⟩ := Sound.of_run hok (by decide +kernel)
  exact ⟨t₀, t, hr₀, hr, hooks_drop_dead h₀ h upgrade _ 0 _⟩

end Server
