import AlpmRpc.Lib.Checked
import AlpmRpc.Lib.Sep
import Mathlib.Data.List.Basic

/-!
# Programs on blocks of memory

A store has blocks of cells at addresses, and an allocator that may refuse. What a program must not do
is a fault: read or write outside of a live block, read a cell that nothing was written to, free what is
not a live block. `Spec P m Q`: from a store of which a part is in `P`, `m` returns without a fault, `Q`
is what that part has become, and the rest is as it was. `Q` is told whether an allocation was refused
meanwhile. The rules take a program apart from the front, as in `Lib/Checked.lean`.
-/

set_option autoImplicit false

namespace Store

open Sep Checked

variable {W : Type}

/-- Blocks by address; how many allocations were asked for, and whether one was refused. -/
structure Mem (W : Type) where
  heap : Heap Nat (List (Option W)) := Heap.empty
  asked : Nat := 0
  refused : Bool := false

abbrev Cmd (W : Type) := Prog (Mem W)

/-- Assertions about the blocks. -/
abbrev Blocks (W : Type) := Assn Nat (List (Option W))

/-! ## Commands -/

/-- The `k`-th allocation goes to `place k`, or is refused where that is `0` or has a block already. -/
def alloc (place : Nat → Nat) (b : List (Option W)) : Cmd W Nat := fun s =>
  let p := place s.asked
  if p = 0 ∨ (s.heap p).isSome then .ok 0 { s with asked := s.asked + 1, refused := true }
  else .ok p { s with heap := Function.update s.heap p (some b), asked := s.asked + 1 }

def malloc (place : Nat → Nat) (n : Nat) : Cmd W Nat := alloc place (List.replicate n none)

def calloc [Zero W] (place : Nat → Nat) (n : Nat) : Cmd W Nat :=
  alloc place (List.replicate n (some 0))

def free (p : Nat) : Cmd W Unit := fun s =>
  if p = 0 then .ok () s
  else if (s.heap p).isSome then .ok () { s with heap := Function.update s.heap p none }
  else .fault

def load (p i : Nat) : Cmd W W := fun s =>
  match (s.heap p).bind (·[i]?) with
  | some (some w) => .ok w s
  | _ => .fault

def store (p i : Nat) (w : W) : Cmd W Unit := fun s =>
  match s.heap p with
  | some b =>
    if i < b.length then .ok () { s with heap := Function.update s.heap p (some (b.set i (some w))) }
    else .fault
  | none => .fault

/-! ## Blocks -/

/-- The block at `p` is `b`. -/
def pts (p : Nat) (b : List (Option W)) : Blocks W := fun h => p ≠ 0 ∧ h = Heap.single p b

/-- The heap is `h`. -/
def exactly (h : Heap Nat (List (Option W))) : Blocks W := fun k => k = h

variable {P P' Q R F : Blocks W} {p i : Nat} {b : List (Option W)} {w : W}
  {h : Heap Nat (List (Option W))}

theorem holds_pts_mul :
    (pts p b * F).Holds h ↔ p ≠ 0 ∧ h p = some b ∧ F.Holds (Function.update h p none) := by
  constructor
  · intro hpts
    obtain ⟨k, l, hkl, heq, ⟨hp, hk⟩, hF⟩ := hpts
    subst heq hk
    have hlp : l p = none := (hkl p).resolve_left (by simp [Heap.single])
    refine ⟨hp, by simp [Heap.join, Heap.single], ?_⟩
    have hl : Function.update ((Heap.single p b).join l) p none = l := by
      funext a
      by_cases ha : a = p
      · rw [ha, Function.update_self, hlp]
      · simp [Heap.join, Heap.single, Heap.empty, ha]
    rwa [hl]
  · intro hpts
    obtain ⟨hp, hb, hF⟩ := hpts
    refine ⟨_, _, fun a => ?_, ?_, ⟨hp, rfl⟩, hF⟩
    · by_cases ha : a = p
      · exact .inr (by rw [ha, Function.update_self])
      · exact .inl (by simp [Heap.single, Heap.empty, ha])
    · funext a
      by_cases ha : a = p
      · simp [ha, Heap.join, Heap.single, hb]
      · simp [ha, Heap.join, Heap.single, Heap.empty]

/-- One block more. -/
theorem holds_pts_update (hp : p ≠ 0) (hn : h p = none) (hF : F.Holds h) :
    (pts p b * F).Holds (Function.update h p (some b)) := by
  refine holds_pts_mul.2 ⟨hp, Function.update_self p (some b) h, ?_⟩
  rwa [Function.update_idem, ← hn, Function.update_eq_self]

theorem pts_ne : pts p b = Assn.lift (p ≠ 0) * pts p b := by
  refine Assn.ext fun h => ⟨fun hp => Assn.holds_lift_mul.2 ⟨hp.1, hp⟩, fun hp => ?_⟩
  exact (Assn.holds_lift_mul.1 hp).2

/-- Two blocks are not at one address. -/
theorem pts_apart {q : Nat} {c : List (Option W)} :
    pts p b * pts q c ≤ Assn.lift (p ≠ q) * (pts p b * pts q c) := by
  intro h hP
  have hq : Function.update h p none q = some c :=
    (holds_pts_mul.1 ((mul_one (pts q c)).symm ▸ (holds_pts_mul.1 hP).2.2)).2.1
  refine Assn.holds_lift_mul.2 ⟨fun hpq => ?_, hP⟩
  rw [hpq, Function.update_self] at hq
  exact Option.some_ne_none c hq.symm

theorem holds_mul_exactly {h₀ : Heap Nat (List (Option W))} :
    ((1 : Blocks W) * exactly h₀).Holds h ↔ h = h₀ := by
  rw [one_mul]
  exact Iff.rfl

/-- What there is beside is there. -/
theorem kept_of_holds {h₀ : Heap Nat (List (Option W))} (hP : (P * exactly h₀).Holds h) {a : Nat}
    (hb : h₀ a = some b) : h a = some b := by
  obtain ⟨k, l, hkl, heq, -, hl⟩ := hP
  have hk : k a = none := (hkl a).resolve_right (by rw [hl, hb]; exact Option.some_ne_none b)
  rw [heq, hl, Heap.join, hk, hb, Option.none_or]

/-! ## Specifications -/

variable {α β : Type}

def Spec (P : Blocks W) (m : Cmd W α) (Q : α → Bool → Blocks W) : Prop :=
  ∀ (F : Blocks W) (s : Mem W), (P * F).Holds s.heap →
    wp False m (fun a s' => ∃ r, s'.refused = (s.refused || r) ∧ (Q a r * F).Holds s'.heap)
      (fun _ => False) s

/-- Nothing is refused. -/
def sure (Q : α → Blocks W) (a : α) (r : Bool) : Blocks W := Assn.lift (r = false) * Q a

namespace Spec

variable {m : Cmd W α} {f : α → Cmd W β} {S S' : α → Bool → Blocks W} {T : β → Bool → Blocks W}

theorem pure {a : α} (h : P ≤ S a false) : Spec P (pure a) S := fun F _ hP =>
  ⟨false, (Bool.or_false _).symm, hP.mono (mul_le_mul_left h F)⟩

theorem bind (h : Spec P m S) (hf : ∀ a r, Spec (S a r) (f a) fun b r' => T b (r || r')) :
    Spec P (m >>= f) T := by
  intro F s hP
  refine wp_seq (h F s hP) fun a s' hm => ?_
  obtain ⟨r, hr, hS⟩ := hm
  refine wp_mono (hf a r F s' hS) (fun b s'' hfa => ?_) fun _ => id
  obtain ⟨r', hr', hT⟩ := hfa
  refine ⟨r || r', ?_, hT⟩
  rw [hr', hr, Bool.or_assoc]

theorem conseq (h : Spec P m S) (hP : P' ≤ P) (hS : ∀ a r, S a r ≤ S' a r) : Spec P' m S' := by
  intro F s hP'
  refine wp_mono (h F s (hP'.mono (mul_le_mul_left hP F))) (fun a s' hm => ?_) fun _ => id
  obtain ⟨r, hr, ha⟩ := hm
  exact ⟨r, hr, ha.mono (mul_le_mul_left (hS a r) F)⟩

theorem frame (h : Spec P m S) (R : Blocks W) : Spec (P * R) m fun a r => S a r * R := by
  intro F s hP
  rw [mul_assoc] at hP
  simpa only [mul_assoc] using h (R * F) s hP

/-- A step on a part of the memory, and what comes after it. -/
theorem step (h : Spec P m S) (hP : P' ≤ P * R)
    (hf : ∀ a r, Spec (S a r * R) (f a) fun b r' => T b (r || r')) : Spec P' (m >>= f) T :=
  ((h.frame R).conseq hP fun _ _ => le_rfl).bind hf

theorem ex {ι : Sort*} {P : ι → Blocks W} (h : ∀ i, Spec (P i) m S) : Spec (⨆ i, P i) m S := by
  intro F s hP
  rw [Assn.iSup_mul, Assn.holds_iSup] at hP
  obtain ⟨i, hP⟩ := hP
  exact h i F s hP

theorem fact {q : Prop} (h : q → Spec P m S) : Spec (Assn.lift q * P) m S := by
  intro F s hP
  rw [mul_assoc] at hP
  obtain ⟨hq, hP⟩ := Assn.holds_lift_mul.1 hP
  exact h hq F s hP

theorem only {q : Prop} (h : q → Spec 1 m S) : Spec (Assn.lift q) m S :=
  mul_one (Assn.lift q : Blocks W) ▸ fact h

/-- A fact that the memory bears out. -/
theorem known {q : Prop} (hq : P ≤ Assn.lift q * P) (h : q → Spec P m S) : Spec P m S :=
  (fact h).conseq hq fun _ _ => le_rfl

theorem bot : Spec ⊥ m S := by
  intro F s hP
  rw [Assn.bot_mul] at hP
  exact hP.elim

/-- A step that refuses nothing. -/
theorem step_sure {Q : α → Blocks W} (h : Spec P m (sure Q)) (hP : P' ≤ P * R)
    (hf : ∀ a, Spec (Q a * R) (f a) T) : Spec P' (m >>= f) T := by
  refine h.step hP fun a r => ?_
  rw [sure, mul_assoc]
  refine fact fun hr => ?_
  subst hr
  exact hf a

/-- What a program does from a store of its own. -/
theorem run (h : Spec P m S) {s : Mem W} (hP : (P * R).Holds s.heap) :
    ∃ a s' r, m s = .ok a s' ∧ s'.refused = (s.refused || r) ∧ (S a r * R).Holds s'.heap := by
  obtain ⟨a, s', hm, r, hr, hS⟩ | ⟨s', -, hfail⟩ := wp_cases (h R s hP)
  · exact ⟨a, s', r, hm, hr, hS⟩
  · exact hfail.elim

end Spec

/-- `m` returns `w`, and changes nothing. -/
def Reads (P : Blocks W) (m : Cmd W α) (w : α) : Prop := Spec P m (sure fun v => Assn.lift (v = w) * P)

/-- `m` makes `Q` of `P`. -/
def Writes (P : Blocks W) (m : Cmd W Unit) (Q : Blocks W) : Prop := Spec P m (sure fun _ => Q)

section
variable {m : Cmd W α} {f : α → Cmd W β} {c : Cmd W Unit} {g : Unit → Cmd W β} {v : α}
  {T : β → Bool → Blocks W}

theorem sure_le {Q : α → Blocks W} {S : α → Bool → Blocks W} (h : ∀ a, Q a ≤ S a false) (a : α)
    (r : Bool) : sure Q a r ≤ S a r := Assn.lift_mul_le fun hr => hr ▸ h a

theorem le_sure {Q : α → Blocks W} {a : α} : Q a ≤ sure Q a false := Assn.le_lift_mul rfl le_rfl

theorem Spec.weaken {Q Q' : α → Blocks W} (h : Spec P m (sure Q)) (hP : P' ≤ P)
    (hQ : ∀ a, Q a ≤ Q' a) : Spec P' m (sure Q') :=
  h.conseq hP fun a _ => sure_le (fun a => (hQ a).trans le_sure) a _

theorem Spec.frame_sure {Q : α → Blocks W} (h : Spec P m (sure Q)) (R : Blocks W) :
    Spec (P * R) m (sure fun a => Q a * R) :=
  (h.frame R).conseq le_rfl fun a r => by rw [sure, sure, mul_assoc]

theorem Reads.frame (h : Reads P m v) (R : Blocks W) : Reads (P * R) m v :=
  (Spec.frame_sure h R).weaken le_rfl fun a => by rw [mul_assoc]

theorem Writes.frame (h : Writes P c Q) (R : Blocks W) : Writes (P * R) c (Q * R) :=
  Spec.frame_sure h R

/-- A read, and what comes after it. -/
theorem Reads.next (h : Reads P m v) (hP : P' = P * R) (hf : Spec P' (f v) T) :
    Spec P' (m >>= f) T := by
  subst hP
  refine Spec.step_sure h le_rfl fun a => ?_
  rw [mul_assoc]
  exact Spec.fact fun ha => ha ▸ hf

/-- A write, and what comes after it. -/
theorem Writes.next (h : Writes P c Q) (hP : P' = P * R) (hf : Spec (Q * R) (g ()) T) :
    Spec P' (c >>= g) T := Spec.step_sure h hP.le fun _ => hf

theorem Reads.pure (P : Blocks W) (v : α) : Reads P (pure v) v :=
  Spec.pure ((Assn.le_lift_mul rfl le_rfl).trans (le_sure (Q := fun u => Assn.lift (u = v) * P)))

theorem Reads.bind {w : β} (h : Reads P m v) (hf : Reads P (f v) w) : Reads P (m >>= f) w :=
  h.next (mul_one P).symm hf

theorem Spec.ret {a : α} {Q : α → Blocks W} (h : P ≤ Q a) : Spec P (Pure.pure a) (sure Q) :=
  Spec.pure (h.trans le_sure)

end

/-- What `alloc` gives: a block, or `NULL` where it was refused. -/
def allocated (b : List (Option W)) (p : Nat) (r : Bool) : Blocks W :=
  if r then Assn.lift (p = 0) else pts p b

theorem alloc_spec (place : Nat → Nat) (b : List (Option W)) :
    Spec 1 (alloc place b) (allocated b) := by
  intro F s hF
  rw [one_mul] at hF
  by_cases hplace : place s.asked = 0 ∨ (s.heap (place s.asked)).isSome
  · have halloc : alloc place b s = .ok 0 { s with asked := s.asked + 1, refused := true } :=
      if_pos hplace
    rw [wp, halloc]
    exact ⟨true, (Bool.or_true _).symm, Assn.holds_lift_mul.2 ⟨rfl, hF⟩⟩
  · have halloc : alloc place b s = .ok (place s.asked)
        { s with heap := Function.update s.heap (place s.asked) (some b), asked := s.asked + 1 } :=
      if_neg hplace
    rw [not_or] at hplace
    have hnone : s.heap (place s.asked) = none := by simpa using hplace.2
    rw [wp, halloc]
    exact ⟨false, (Bool.or_false _).symm, holds_pts_update hplace.1 hnone hF⟩

theorem free_spec : Spec (pts p b) (free p) (sure fun _ => 1) := by
  intro F s hP
  obtain ⟨hp, hb, hF⟩ := holds_pts_mul.1 hP
  rw [wp, free, if_neg hp, hb]
  refine ⟨false, (Bool.or_false _).symm, ?_⟩
  rw [sure, mul_assoc, one_mul]
  exact Assn.holds_lift_mul.2 ⟨rfl, hF⟩

theorem free_null : Spec (1 : Blocks W) (free 0) (sure fun _ => 1) := by
  intro F s hP
  rw [wp, free, if_pos rfl]
  refine ⟨false, (Bool.or_false _).symm, ?_⟩
  rw [sure, mul_assoc]
  exact Assn.holds_lift_mul.2 ⟨rfl, hP⟩

theorem load_spec (hw : b[i]? = some (some w)) :
    Spec (pts p b) (load p i) (sure fun v => Assn.lift (v = w) * pts p b) := by
  intro F s hP
  obtain ⟨hp, hb, hF⟩ := holds_pts_mul.1 hP
  rw [wp, load, hb, Option.bind_some, hw]
  refine ⟨false, (Bool.or_false _).symm, ?_⟩
  rw [sure, mul_assoc, mul_assoc]
  exact Assn.holds_lift_mul.2 ⟨rfl, Assn.holds_lift_mul.2 ⟨rfl, hP⟩⟩

theorem store_spec (hi : i < b.length) :
    Spec (pts p b) (store p i w) (sure fun _ => pts p (b.set i (some w))) := by
  intro F s hP
  obtain ⟨hp, hb, hF⟩ := holds_pts_mul.1 hP
  rw [wp, store, hb]
  dsimp only
  rw [if_pos hi]
  refine ⟨false, (Bool.or_false _).symm, ?_⟩
  rw [sure, mul_assoc]
  refine Assn.holds_lift_mul.2 ⟨rfl, holds_pts_mul.2 ⟨hp, Function.update_self .., ?_⟩⟩
  rwa [Function.update_idem]

/-- An allocation that is looked at. -/
theorem Spec.alloc_then {place : Nat → Nat} {m : Cmd W α} {k : Nat → Cmd W α}
    {T : α → Bool → Blocks W} (hno : Spec P m fun a _ => T a true)
    (hyes : ∀ p ≠ 0, Spec (pts p b * P) (k p) T) :
    Spec P (alloc place b >>= fun p => if p = 0 then m else k p) T := by
  refine (alloc_spec place b).step (one_mul P).ge fun p r => ?_
  cases r with
  | true =>
    refine Spec.fact fun hp => ?_
    rw [if_pos hp]
    simpa only [Bool.true_or] using hno
  | false =>
    have hb : allocated b p false = pts p b := rfl
    rw [hb, pts_ne, mul_assoc]
    refine Spec.fact fun hp => ?_
    rw [if_neg hp]
    simpa only [Bool.false_or] using hyes p hp

/-! ## Values in memory -/

section
variable {ι κ : Type} {v₀ v : ι} {g : ι → κ} {r r' : Bool} {V V' : ι → Blocks W} {U : κ → Blocks W}

/-- `V` of the value `v₀`; where an allocation was refused, of some value, and some memory is lost. -/
def made (v₀ : ι) (V : ι → Blocks W) (r : Bool) : Blocks W :=
  ⨆ v, Assn.lift (r = false → v = v₀) * (V v * Assn.lost r)

theorem le_made (h : P ≤ V v₀) : P ≤ made v₀ V false :=
  le_iSup_of_le v₀ (Assn.le_lift_mul (fun _ => rfl) (h.trans (mul_one _).ge))

theorem le_made_refused (h : P ≤ V v * ⊤) : P ≤ made v₀ V true :=
  le_iSup_of_le v (Assn.le_lift_mul (fun hr => Bool.noConfusion hr) h)

theorem made_mul_le (h : ∀ v, (r = false → v = v₀) → V v * R ≤ U (g v)) :
    made v₀ V r * R ≤ made (g v₀) U r := by
  rw [made, Assn.iSup_mul]
  refine iSup_le fun v => ?_
  rw [mul_assoc]
  refine Assn.lift_mul_le fun hv => le_iSup_of_le (g v) (Assn.le_lift_mul (fun hr => ?_) ?_)
  · rw [hv hr]
  · rw [mul_assoc, mul_left_comm, mul_comm]
    exact mul_le_mul_left (mul_comm R (V v) ▸ h v hv) _

theorem made_mono (h : ∀ v, V v ≤ U (g v)) (r : Bool) : made v₀ V r ≤ made (g v₀) U r :=
  (mul_one _).ge.trans (made_mul_le fun v _ => (mul_one _).le.trans (h v))

/-- What was lost before is lost. -/
theorem lost_mul_made (h : r = false → g v = g v₀) :
    Assn.lost r * made (g v) U r' ≤ made (g v₀) U (r || r') := by
  rw [made, Assn.mul_iSup]
  refine iSup_le fun u => ?_
  rw [mul_left_comm, mul_left_comm (Assn.lost r)]
  refine Assn.lift_mul_le fun hu => le_iSup_of_le u (Assn.le_lift_mul (fun hr => ?_) ?_)
  · rw [Bool.or_eq_false_iff] at hr
    rw [hu hr.2, h hr.1]
  · exact mul_le_mul_right (Assn.lost_mul_lost r r') _

theorem Spec.ret_made {a : α} {V : α → ι → Blocks W} (h : P ≤ V a v₀) :
    Spec P (Pure.pure a) fun a => made v₀ (V a) := Spec.pure (le_made h)

/-- A value is made, and what comes after it makes another. -/
theorem Spec.step_made {m : Cmd W α} {f : α → Cmd W β} {V : α → ι → Blocks W} {U : β → κ → Blocks W}
    (h : Spec P m fun a => made v₀ (V a)) (hP : P' ≤ P * R)
    (hf : ∀ a v, Spec (V a v * R) (f a) fun b => made (g v) (U b)) :
    Spec P' (m >>= f) fun b => made (g v₀) (U b) := by
  refine h.step hP fun a r => ?_
  rw [made, Assn.iSup_mul]
  refine Spec.ex fun v => ?_
  rw [mul_assoc]
  refine Spec.fact fun hv => ?_
  rw [mul_assoc, mul_left_comm, mul_comm]
  refine ((hf a v).frame (Assn.lost r)).conseq le_rfl fun b r' => ?_
  rw [mul_comm]
  exact lost_mul_made fun hr => congrArg g (hv hr)

end

end Store
