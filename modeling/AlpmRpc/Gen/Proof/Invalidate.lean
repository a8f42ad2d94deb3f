import AlpmRpc.Gen.Invalidate
import AlpmRpc.Client.Cache

/-!
# The getters a call detaches

When the build does not fail, a function with an entry, its own or a derived one, detaches every
generated getter its entry names (`invalidationOf_covers`); a setter is derived (`entryOf_setter`),
but for the one that has no getter. A getter's entries answer for it whatever their arguments
(`keyNames_cacheKey`).
-/

set_option autoImplicit false

namespace Gen

open Json

variable {h : Header} {n g : Bytes}

/-! ## Keys -/

theorem mem_expandKey (hg : g ∈ h.generated) (hc : g.head? ≠ some (ch '^')) : g ∈ expandKey h g := by
  rw [expandKey, if_neg hc, if_pos hg]
  exact List.mem_singleton.2 rfl

theorem mem_expandKeys {derived : Bool} {acc ks keys : List Bytes}
    (he : expandKeys h derived acc ks = some keys) (hg : g ∈ acc ∨ ∃ k ∈ ks, g ∈ expandKey h k) :
    g ∈ keys := by
  induction ks generalizing acc with
  | nil =>
    cases he
    simpa using hg
  | cons k ks ih =>
    rw [expandKeys] at he
    split at he
    · cases he
    · refine ih he ?_
      rcases hg with hg | ⟨k', hk', hg⟩
      · exact .inl (List.mem_append_left _ hg)
      · rcases List.mem_cons.1 hk' with rfl | hk'
        · by_cases ha : g ∈ acc
          · exact .inl (List.mem_append_left _ ha)
          · exact .inl (List.mem_append_right _ (List.mem_filter.2 ⟨hg, by simpa using ha⟩))
        · exact .inr ⟨k', hk', hg⟩

/-- **A function with an entry** detaches what the entry names, where it says. -/
theorem invalidationOf_covers {e : Entry} {derived : Bool} {r : Option Entry}
    (hn : changes n = true) (he : entryOf n = some (e, derived)) (hr : invalidationOf h n = some r) :
    ∃ inv, r = some inv ∧ inv.under = e.under ∧
      ∀ g ∈ h.generated, g ∈ e.keys → g.head? ≠ some (ch '^') → g ∈ inv.keys := by
  rw [invalidationOf, if_pos hn, he, Option.bind_eq_bind, Option.bind_some] at hr
  obtain ⟨keys, hk, hr⟩ := Option.bind_eq_some_iff.1 hr
  split at hr
  · cases hr
  · split at hr
    · cases hr
      refine ⟨_, rfl, rfl, fun g hg hge hc => ?_⟩
      exact mem_expandKeys hk (.inr ⟨g, hge, mem_expandKey hg hc⟩)
    · cases hr

/-! ## Setters -/

theorem prefix_of_wordAfter {pre x : Bytes} (hw : wordAfter pre n = some x) : pre <+: n := by
  unfold wordAfter at hw
  split at hw
  · rename_i hc
    simp only [Bool.and_eq_true] at hc
    exact List.isPrefixOf_iff_prefix.1 hc.1.1
  · cases hw

theorem prefix_of_setterOf {head x : Bytes} (hs : setterOf head n = some x) : head <+: n := by
  have hor : ∀ {v : Bytes}, wordAfter (head ++ v) n = some x → head <+: n :=
    fun hw => (List.prefix_append _ _).trans (prefix_of_wordAfter hw)
  rw [setterOf, Option.or_eq_some_iff, Option.or_eq_some_iff] at hs
  rcases hs with (hs | ⟨-, hs⟩) | ⟨-, hs⟩
  · exact hor hs
  · exact hor hs
  · exact hor hs

theorem setterOf_option_of_db {x : Bytes} (hs : setterOf (lit "alpm_db_") n = some x) :
    setterOf (lit "alpm_option_") n = none := by
  cases ho : setterOf (lit "alpm_option_") n with
  | none => rfl
  | some y =>
    have hp := prefix_of_setterOf hs
    have hq := prefix_of_setterOf ho
    have hle := List.prefix_of_prefix_length_le hp hq (by decide)
    exact absurd hle (by decide)

/-- The setter for which there is no getter. -/
def timeoutSetter : Bytes := lit "alpm_option_set_disable_dl_timeout"

theorem lookup_setter {x : Bytes} (hn : n ≠ timeoutSetter)
    (hs : setterOf (lit "alpm_option_") n = some x ∨ setterOf (lit "alpm_db_") n = some x) :
    invalidates.lookup n = none := by
  have hall : ∀ p ∈ invalidates, p.1 = timeoutSetter ∨
      (setterOf (lit "alpm_option_") p.1 = none ∧ setterOf (lit "alpm_db_") p.1 = none) := by
    decide +kernel
  refine List.lookup_eq_none_iff.2 fun p hp => ?_
  rw [bne_iff_ne]
  rintro rfl
  rcases hall p hp with hp | ⟨ho, hd⟩
  · exact hn hp
  · rcases hs with hs | hs
    · exact absurd (ho.symm.trans hs) (by simp)
    · exact absurd (hd.symm.trans hs) (by simp)

/-- **A setter's entry** is derived from its name. -/
theorem entryOf_setter {get x : Bytes} (hn : n ≠ timeoutSetter)
    (hs : (get = lit "alpm_option_get_" ∧ setterOf (lit "alpm_option_") n = some x) ∨
      (get = lit "alpm_db_get_" ∧ setterOf (lit "alpm_db_") n = some x)) :
    entryOf n = some ({ keys := gettersOf get x }, true) := by
  rw [entryOf, lookup_setter hn (hs.imp And.right And.right), derive]
  rcases hs with ⟨rfl, hs⟩ | ⟨rfl, hs⟩
  · rw [hs]
    rfl
  · rw [setterOf_option_of_db hs, hs]
    rfl

theorem changes_setter {x : Bytes}
    (hs : setterOf (lit "alpm_option_") n = some x ∨ setterOf (lit "alpm_db_") n = some x) :
    changes n = true := by
  rw [changes]
  rcases hs with hs | hs <;> simp [hs]

/-! ## Cache keys -/

theorem keyNames_cacheKey (extra : List KeyArg) (hg : g.length < 511) :
    Client.Cache.keyNames (cacheKey g extra) g = true := by
  unfold cacheKey Client.Cache.keyNames
  split
  · simp
  · generalize [ch ':'].intercalate (extra.map KeyArg.text) = args
    have hp : g <+: (g ++ ch ':' :: args).take 511 :=
      List.prefix_take_iff.2 ⟨List.prefix_append _ _, by omega⟩
    have hc : ((g ++ ch ':' :: args).take 511)[g.length]? = some (ch ':') := by
      rw [List.getElem?_take_of_lt (by omega), List.getElem?_append_right (Nat.le_refl _),
        Nat.sub_self]
      rfl
    rw [List.isPrefixOf_iff_prefix.2 hp, hc]
    simp

end Gen
