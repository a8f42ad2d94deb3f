import Mathlib.Logic.Function.Iterate
import Mathlib.Data.Nat.Find

/-!
# Open addressing with a probe sequence

A table is a map `cells : ι → Option K` from cells to keys; a key's search starts at `home k` and
moves by `next` until it meets the key or a free cell. `search` is the loop, bounded by the length
`n` of a probe cycle: `none` says that `n` probes met nothing to stop at.

`Chained` is the invariant of such a table: every key sits on its own probe sequence with no free
cell before it, and in one cell only. It makes `lookup` exact (`lookup_hit`, `lookup_miss`) and is
kept by an insertion at the cell `lookup` returns (`Chained.insert`).
-/

set_option autoImplicit false

namespace Probe

variable {ι K : Type}

/-- The first cell of the probe sequence from `i` where `stop` holds, within `n` probes. -/
def search (next : ι → ι) (stop : ι → Bool) : Nat → ι → Option ι
  | 0, _ => none
  | n + 1, i => if stop i then some i else search next stop n (next i)

theorem search_spec (next : ι → ι) (stop : ι → Bool) (n : Nat) (i : ι) {d : Nat} (hd : d < n)
    (hs : stop (next^[d] i) = true) (hn : ∀ e < d, stop (next^[e] i) = false) :
    search next stop n i = some (next^[d] i) := by
  induction n generalizing i d with
  | zero => omega
  | succ n ih =>
    cases d with
    | zero => simp [search, show stop i = true from hs]
    | succ d =>
      have h0 : stop i = false := hn 0 (by omega)
      rw [search, h0, Function.iterate_succ_apply]
      simp only [Bool.false_eq_true, if_false]
      refine ih (next i) (by omega) (by simpa using hs) fun e he => ?_
      simpa using hn (e + 1) (by omega)

/-- A sequence that stops somewhere stops first somewhere. -/
theorem exists_first (stop : Nat → Bool) {d : Nat} (hs : stop d = true) :
    ∃ e ≤ d, stop e = true ∧ ∀ e' < e, stop e' = false := by
  have hex : ∃ e, stop e = true := ⟨d, hs⟩
  refine ⟨Nat.find hex, Nat.find_min' hex hs, Nat.find_spec hex, fun e' he => ?_⟩
  simpa using Nat.find_min hex he

/-! ## The table -/

variable (next : ι → ι) (home : K → ι) (n : Nat)

/-- `cells` is a table: each key is in one cell, on its own probe sequence, with no free cell
before it. -/
structure Chained (cells : ι → Option K) : Prop where
  reach : ∀ i k, cells i = some k →
    ∃ d < n, next^[d] (home k) = i ∧ ∀ e < d, cells (next^[e] (home k)) ≠ none
  inj : ∀ i j k, cells i = some k → cells j = some k → i = j

/-- Stop at the key or at a free cell. -/
def stopAt [DecidableEq K] (cells : ι → Option K) (k : K) (i : ι) : Bool :=
  decide (cells i = none) || decide (cells i = some k)

/-- The cell of `k`, or the free cell where it would go. -/
def lookup [DecidableEq K] (cells : ι → Option K) (k : K) : Option ι :=
  search next (stopAt cells k) n (home k)

variable {next home n}

theorem Chained.empty : Chained next home n (fun _ : ι => (none : Option K)) :=
  ⟨fun _ _ h => by simp at h, fun _ _ _ h => by simp at h⟩

theorem lookup_hit [DecidableEq K] {cells : ι → Option K} (h : Chained next home n cells) {i : ι} {k : K}
    (hi : cells i = some k) : lookup next home n cells k = some i := by
  obtain ⟨d, hd, rfl, hfree⟩ := h.reach i k hi
  -- a probe cycle shorter than `n` may pass the key's cell more than once: take the first time
  obtain ⟨m, hm, hmk, hmn⟩ :=
    exists_first (fun e => decide (cells (next^[e] (home k)) = some k)) (by simpa using hi)
  have hmk' : cells (next^[m] (home k)) = some k := by simpa using hmk
  rw [← h.inj _ _ _ hmk' hi]
  refine search_spec next _ n (home k) (by omega) (by simp [stopAt, hmk']) fun e he => ?_
  have h1 := hmn e he
  have h2 := hfree e (by omega)
  simp only [decide_eq_false_iff_not] at h1
  simp [stopAt, h1, h2]

/-- A key that is in no cell is looked up to a free cell, reached along cells that are all full. -/
theorem lookup_miss [DecidableEq K] {cells : ι → Option K} {k : K} (hk : ∀ i, cells i ≠ some k)
    (hfree : ∃ d < n, cells (next^[d] (home k)) = none) :
    ∃ d < n, lookup next home n cells k = some (next^[d] (home k)) ∧
      cells (next^[d] (home k)) = none ∧ ∀ e < d, cells (next^[e] (home k)) ≠ none := by
  obtain ⟨d, hd, hdn⟩ := hfree
  obtain ⟨m, hm, hmk, hmn⟩ :=
    exists_first (fun e => decide (cells (next^[e] (home k)) = none)) (by simpa using hdn)
  have hmk' : cells (next^[m] (home k)) = none := by simpa using hmk
  have hne : ∀ e < m, cells (next^[e] (home k)) ≠ none := fun e he => by simpa using hmn e he
  refine ⟨m, by omega, ?_, hmk', hne⟩
  exact search_spec next _ n (home k) (by omega) (by simp [stopAt, hmk'])
    fun e he => by simp [stopAt, hne e he, hk]

/-- **Insertion** of a new key at a free cell of its probe sequence, the cells before it full. -/
theorem Chained.insert [DecidableEq ι] {cells : ι → Option K} (h : Chained next home n cells)
    {k : K} (hk : ∀ i, cells i ≠ some k) {d : Nat} (hd : d < n)
    (hfree : cells (next^[d] (home k)) = none)
    (hfull : ∀ e < d, cells (next^[e] (home k)) ≠ none) :
    Chained next home n (Function.update cells (next^[d] (home k)) (some k)) := by
  have hother : ∀ i k', k' ≠ k → Function.update cells (next^[d] (home k)) (some k) i = some k' →
      cells i = some k' := by
    intro i k' hne hi
    by_cases hi' : i = next^[d] (home k)
    · subst hi'
      rw [Function.update_self] at hi
      exact absurd (Option.some.inj hi).symm hne
    · rwa [Function.update_of_ne hi'] at hi
  have hself : ∀ i, Function.update cells (next^[d] (home k)) (some k) i = some k →
      i = next^[d] (home k) := by
    intro i hi
    by_contra hi'
    rw [Function.update_of_ne hi'] at hi
    exact hk i hi
  -- a full cell stays full
  have hfull' : ∀ i, cells i ≠ none →
      Function.update cells (next^[d] (home k)) (some k) i ≠ none := by
    intro i hi
    by_cases hi' : i = next^[d] (home k)
    · subst hi'; simp
    · rwa [Function.update_of_ne hi']
  refine ⟨fun i k' hi => ?_, fun i j k' hi hj => ?_⟩
  · by_cases hkk : k' = k
    · subst hkk
      exact ⟨d, hd, (hself i hi).symm, fun e he => hfull' _ (hfull e he)⟩
    · obtain ⟨d', hd', hi', hf'⟩ := h.reach i k' (hother i k' hkk hi)
      exact ⟨d', hd', hi', fun e he => hfull' _ (hf' e he)⟩
  · by_cases hkk : k' = k
    · subst hkk
      rw [hself i hi, hself j hj]
    · exact h.inj i j k' (hother i k' hkk hi) (hother j k' hkk hj)

end Probe
