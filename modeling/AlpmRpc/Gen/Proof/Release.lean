import AlpmRpc.Gen.Proof.Materialise

/-!
# What is made is freed

`clear_*` leaves nothing of the memory behind a struct (`clearRec_spec`): `Clears` says it of cells in
the middle of a block, and follows the description of the record as `Fills` does. A caller may have any
number of records and lists of replies, and free them in any order.
-/

set_option autoImplicit false

namespace Gen

open Json Store Sep Client.AlpmList

variable {place : Nat → Nat} {register : Nat → Cmd Nat Unit} {fuel m : Nat}

/-! ## Cells that are cleared -/

section
variable {α : Type} {v i k cnt : Nat} {pre post : List (Option Nat)} {ws : List Nat}
  {P : Blocks Nat} {c : Cmd Nat Unit}

/-- `c` leaves nothing of the memory `P` behind the cells `ws`. -/
def Clears (v : Nat) (pre post : List (Option Nat)) (ws : List Nat) (P : Blocks Nat)
    (c : Cmd Nat Unit) : Prop :=
  Writes (pts v (pre ++ (ws.map some ++ post)) * P) c (pts v (pre ++ (ws.map some ++ post)))

theorem Clears.ret (h : P ≤ 1) : Clears v pre post ws P (pure ()) :=
  Spec.ret ((mul_le_mul_right h _).trans (mul_one _).le)

theorem Clears.load {own : Nat → Blocks Nat} {f : Nat → Cmd Nat Unit} (hi : i = pre.length)
    (h : ∀ p, Writes (own p) (f p) 1) : Clears v pre post ws (cell own ws) (Store.load v i >>= f) := by
  unfold Clears cell
  rw [Assn.mul_iSup]
  refine Spec.ex fun p => ?_
  rw [mul_left_comm]
  refine Spec.fact fun hws => ?_
  have hread : Reads (pts v (pre ++ (ws.map some ++ post))) (Store.load v i) p := by
    refine load_spec ?_
    rw [hws, hi, List.getElem?_append_right le_rfl, Nat.sub_self]
    rfl
  refine hread.next rfl ?_
  rw [mul_comm]
  exact ((h p).frame _).weaken le_rfl fun _ => (one_mul _).le

theorem Clears.seq {P Q : List Nat → Blocks Nat} {c₁ c₂ : Cmd Nat Unit}
    (h₁ : ∀ us post, Clears v pre post us (P us) c₁)
    (h₂ : ∀ us us', pre.length + k = (pre ++ us).length → Clears v (pre ++ us) post us' (Q us') c₂) :
    Clears v pre post ws (cut k P Q ws) (c₁ >>= fun _ => c₂) := by
  unfold Clears cut
  rw [Assn.mul_iSup]
  refine Spec.ex fun us => ?_
  rw [Assn.mul_iSup]
  refine Spec.ex fun us' => ?_
  rw [mul_left_comm]
  refine Spec.fact fun hlists => ?_
  obtain ⟨hws, hus⟩ := hlists
  rw [hws, List.map_append, List.append_assoc, ← mul_assoc]
  refine (h₁ us _).next rfl ?_
  rw [← List.append_assoc]
  refine h₂ (us.map some) us' ?_
  rw [List.length_append, List.length_map, hus]

theorem freeWith_spec {own : α → List Nat → Blocks Nat} {p : Nat} (clear : Nat → Cmd Nat Unit)
    (h : ∀ x us, Clears p [] [] us (own x us) (clear p)) (x : Option α) :
    Writes (boxed own x p) (freeWith clear p) 1 := by
  cases x with
  | none =>
    refine Spec.only fun hp => ?_
    rw [freeWith, if_pos hp]
    exact Spec.ret le_rfl
  | some x =>
    refine Spec.ex fun us => Spec.known (q := p ≠ 0) ?_ fun hp => ?_
    · rw [← mul_assoc, ← pts_ne]
    · rw [freeWith, if_neg hp]
      have hclear := h x us
      rw [Clears, List.nil_append, List.append_nil] at hclear
      refine hclear.next (mul_one _).symm ?_
      rw [mul_one]
      exact free_spec

theorem freeText_spec (s : Option CStr) (p : Nat) : Writes (text s p) (free p) 1 := by
  cases s with
  | none => exact Spec.only fun hp => hp ▸ free_null
  | some s => exact free_spec

theorem listed_spec {own : α → Nat → Blocks Nat} {f : Option (Nat → Cmd Nat Unit)} {l : List α}
    {p : Nat} (hfuel : m < fuel)
    (hsome : ∀ g, f = some g → ∀ x w, Writes (own x w) (ifSet w (g w)) 1)
    (hnone : f = none → ∀ x w, own x w ≤ 1) : Writes (listed m own l p) (arpcFreeList fuel p f) 1 := by
  refine Spec.ex fun cs => Spec.fact fun hlist => ?_
  obtain ⟨hp, hcs⟩ := hlist
  rw [hp]
  exact arpcFreeList_spec (fun g hg x _ w => hsome g hg x w)
    (fun hf => Assn.all₂_le_one (hnone hf) l) (hcs.trans_lt hfuel)

theorem clearLoop_none {clear : Nat → Nat → Cmd Nat Unit} {j : Nat} {b : List (Option Nat)}
    (hcnt : b[i]? = some (some j)) (hfuel : 0 < fuel) :
    Writes (pts v b) (clearLoop clear v i fuel j) (pts v b) := by
  obtain ⟨fuel, rfl⟩ : ∃ f, fuel = f + 1 := ⟨fuel - 1, by omega⟩
  rw [clearLoop]
  refine Reads.next (load_spec hcnt) (mul_one _).symm ?_
  rw [if_neg (Nat.lt_irrefl j)]
  exact Spec.ret le_rfl

/-- The loop of `clear_*` of a counted array, from its element `j` on. -/
theorem clearLoop_spec {own : α → List Nat → Blocks Nat} {clear : Nat → Nat → Cmd Nat Unit} {p j : Nat}
    {b : List (Option Nat)} {items : List α} (hitems : b[i + 1]? = some (some p))
    (hcnt : b[i]? = some (some (j + items.length))) (hj : j * k = pre.length)
    (hfuel : items.length < fuel)
    (h : ∀ x j pre post us, j * k = pre.length → Clears p pre post us (own x us) (clear p j)) :
    Writes (pts v b * (pts p (pre ++ ws.map some) * rows k own items ws)) (clearLoop clear v i fuel j)
      (pts v b * pts p (pre ++ ws.map some)) := by
  induction items generalizing pre ws j fuel with
  | nil =>
    exact ((clearLoop_none hcnt hfuel).frame _).weaken le_rfl fun _ =>
      mul_le_mul_right (Assn.mul_lift_le _ _) _
  | cons x items ih =>
    obtain ⟨fuel, rfl⟩ : ∃ f, fuel = f + 1 := ⟨fuel - 1, by omega⟩
    rw [clearLoop]
    refine Reads.next (load_spec hcnt) rfl ?_
    rw [List.length_cons, if_pos (Nat.lt_add_of_pos_right (Nat.succ_pos _))]
    refine Reads.next (load_spec hitems) rfl ?_
    rw [mul_comm, rows, cut, Assn.mul_iSup, Assn.iSup_mul]
    refine Spec.ex fun us => ?_
    rw [Assn.mul_iSup, Assn.iSup_mul]
    refine Spec.ex fun us' => ?_
    rw [mul_left_comm, mul_assoc]
    refine Spec.fact fun hlists => ?_
    obtain ⟨hws, hus⟩ := hlists
    rw [hws, List.map_append, ← mul_assoc, mul_assoc]
    refine (h x j pre _ us hj).next rfl ?_
    rw [← List.append_assoc]
    have hcnt' : b[i]? = some (some (j + 1 + items.length)) := by
      rw [hcnt, List.length_cons, Nat.add_right_comm, Nat.add_assoc]
    have hj' : (j + 1) * k = (pre ++ us.map some).length := by
      rw [Nat.succ_mul, hj, List.length_append, List.length_map, hus]
    rw [← mul_assoc, mul_comm]
    exact ih hcnt' hj' (Nat.lt_of_succ_lt_succ hfuel)

/-- `clear_*` of a counted array. -/
theorem clearCounted_spec {own : α → List Nat → Blocks Nat} {clear : Nat → Nat → Cmd Nat Unit}
    {l : Nat} {items : List α} (hi : i = pre.length) (hfuel : m < fuel)
    (h : ∀ p x j pre post us, j * k = pre.length → Clears p pre post us (own x us) (clear p j)) :
    Clears v pre post ws (counted m k l own items ws) (do
      clearLoop clear v i fuel 0
      let items ← load v (i + 1)
      free items) := by
  unfold Clears counted
  rw [Assn.mul_iSup]
  refine Spec.ex fun p => ?_
  rw [mul_left_comm]
  refine Spec.fact fun hlist => ?_
  obtain ⟨hws, hm⟩ := hlist
  generalize hb : pre ++ (ws.map some ++ post) = b
  have hat (j : Nat) : b[i + j]? = (ws.map some ++ post)[j]? := by
    rw [← hb, hi, List.getElem?_append_right (Nat.le_add_right _ _), Nat.add_sub_cancel_left]
  have hcnt : b[i]? = some (some (0 + items.length)) := by
    rw [Nat.zero_add, ← Nat.add_zero i, hat, hws]
    rfl
  have hitems : b[i + 1]? = some (some p) := by
    rw [hat, hws]
    rfl
  cases items with
  | nil =>
    rw [array, mul_comm]
    refine Spec.fact fun hp => ?_
    refine (clearLoop_none hcnt (by omega)).next (mul_one _).symm ?_
    rw [mul_one]
    refine Reads.next (load_spec hitems) (mul_one _).symm ?_
    rw [hp]
    exact (free_null.frame_sure (pts v b)).weaken (one_mul _).ge fun _ => (one_mul _).le
  | cons x items =>
    rw [array, Assn.mul_iSup]
    refine Spec.ex fun us => ?_
    have hloop : Writes (pts v b * (pts p ([] ++ us.map some) * rows k own (x :: items) us))
        (clearLoop clear v i fuel 0) (pts v b * pts p ([] ++ us.map some)) :=
      clearLoop_spec hitems hcnt (Nat.zero_mul k) (hm.trans_lt hfuel) (h p)
    rw [List.nil_append] at hloop
    refine hloop.next (mul_one _).symm ?_
    rw [mul_one]
    refine Reads.next (load_spec hitems) rfl ?_
    rw [mul_comm]
    exact (free_spec.frame_sure (pts v b)).weaken le_rfl fun _ => (one_mul _).le

end

/-! ## Records that are freed -/

theorem ifSet_free (p : Nat) : ifSet p (free p) = (free p : Cmd Nat Unit) := by
  unfold ifSet
  split
  · rename_i hp
    funext s
    rw [free, if_pos hp]
    rfl
  · rfl

theorem ifSet_freeWith (clear : Nat → Cmd Nat Unit) (p : Nat) :
    ifSet p (freeWith clear p) = freeWith clear p := by
  unfold ifSet
  split
  · rename_i hp
    rw [freeWith, if_pos hp]
  · rfl

theorem cell_le_one {own : Nat → Blocks Nat} (h : ∀ p, own p ≤ 1) (ws : List Nat) :
    cell own ws ≤ 1 := iSup_le fun p => Assn.lift_mul_le fun _ => h p

theorem lift_le_one (q : Prop) : (Assn.lift q : Blocks Nat) ≤ 1 := by
  rw [← one_mul (Assn.lift q)]
  exact Assn.mul_lift_le 1 q

mutual
theorem clearField_spec {v i : Nat} {pre post : List (Option Nat)} {ws : List Nat} (hfuel : m < fuel)
    (hi : i = pre.length) : (k : FieldTy) → (x : k.Val .client) →
      Clears v pre post ws (ownsField m k x ws) (clearField fuel v i k)
  | .string _, x => Clears.load hi (freeText_spec x)
  | .scalar _, _ => Clears.ret (cell_le_one (fun _ => lift_le_one _) ws)
  | .handle _, _ => Clears.ret (cell_le_one (fun _ => lift_le_one _) ws)
  | .structPtr r, x =>
    Clears.load hi fun _ => freeWith_spec _ (fun y _ => clearRec_spec hfuel List.length_nil.symm r y) x
  | .recordValue r, x => clearRec_spec hfuel hi r x
  | .list e, x => Clears.load hi fun _ => elemFree_spec hfuel e x
  | .foreign, _ => Clears.ret (cell_le_one (fun _ => lift_le_one _) ws)

theorem elemFree_spec {p : Nat} (hfuel : m < fuel) : (e : ElemTy) → (l : List (e.Val .client)) →
    Writes (ownsList m e l p) (arpcFreeList fuel p (elemFree fuel e)) 1
  | .string, _ => by
    refine listed_spec hfuel (fun g hg x w => ?_) fun hnone => absurd hnone (Option.some_ne_none _)
    obtain rfl := Option.some.inj hg
    rw [ifSet_free]
    exact freeText_spec x w
  | .handle _, _ =>
    listed_spec hfuel (fun g hg => absurd hg.symm (Option.some_ne_none g)) fun _ _ _ => lift_le_one _
  | .record r, _ => by
    refine listed_spec hfuel (fun g hg x w => ?_) fun hnone => absurd hnone (Option.some_ne_none _)
    obtain rfl := Option.some.inj hg
    rw [ifSet_freeWith]
    exact freeWith_spec _ (fun y _ => clearRec_spec hfuel List.length_nil.symm r y) x

/-- `clear_*` frees what is behind a record. -/
theorem clearRec_spec {v i : Nat} {pre post : List (Option Nat)} {ws : List Nat} (hfuel : m < fuel)
    (hi : i = pre.length) : (r : RecTy) → (x : r.Val .client) →
      Clears v pre post ws (ownsRec m r x ws) (clearRec fuel v i r)
  | .struct fs, x => clearFields_spec hfuel hi fs x
  | .counted elem _, x =>
    (clearCounted_spec hi hfuel fun _ y _ _ _ _ hj => clearRec_spec hfuel hj elem y).weaken
      (mul_le_mul_right (ownsRec_counted x ws) _) fun _ => le_rfl

theorem clearFields_spec {v i : Nat} {pre post : List (Option Nat)} {ws : List Nat} (hfuel : m < fuel)
    (hi : i = pre.length) : (fs : FieldsTy) → (x : fs.Val .client) →
      Clears v pre post ws (ownsFields m fs x ws) (clearFields fuel v i fs)
  | .nil, _ => Clears.ret (lift_le_one _)
  | .cons _ true k fs, x => by
    rw [ownsFields_carried, clearFields]
    exact Clears.seq (fun us post => clearField_spec hfuel hi k x.1) fun us us' hus =>
      clearFields_spec hfuel (hi ▸ hus) fs x.2
  | .cons _ false k fs, x => by
    have hleft us post : Clears v pre post us (left k x.1 us) (pure ()) := Clears.ret (lift_le_one _)
    rw [ownsFields_left, clearFields]
    exact Clears.seq hleft fun us us' hus => clearFields_spec hfuel (hi ▸ hus) fs x.2
end

/-- `free_*` frees a record. -/
theorem freeRec_spec {p : Nat} (hfuel : m < fuel) (r : RecTy) (x : Option (r.Val .client)) :
    Writes (boxed (fun y us => ownsRec m r y us) x p) (freeWith (fun p => clearRec fuel p 0 r) p) 1 :=
  freeWith_spec _ (fun y _ => clearRec_spec hfuel List.length_nil.symm r y) x

/-! ## What is held -/

def Shape.owns (m : Nat) : (t : Shape) → t.Val → Nat → Blocks Nat
  | .record r => ownsPtr m r
  | .list e => ownsList m e

/-- A value that is held at a pointer. -/
def owns (m : Nat) (x : Sigma Shape.Val) (h : Shape × Nat) : Blocks Nat :=
  Assn.lift (h.1 = x.1) * x.1.owns m x.2 h.2

def Use.Bounded (m : Nat) : Use → Prop
  | make _ n => Gen.Bounded m n
  | release _ => True

theorem make_spec {n : Option Tree} (hn : Bounded m n) {t : Shape} (ht : t.NoPkgs) :
    Spec 1 (t.make place register n) fun p => made (t.read n) fun x => t.owns m x p := by
  cases t with
  | record r => exact getWith_spec fun _ => makeRec_spec hn List.length_nil.symm r ht
  | list e =>
    exact buildWith_spec (registerList_of_noPkgs ht) hn.length fun _ hx =>
      makeElem_spec (hn.child hx) e ht

theorem release_spec {p : Nat} (hfuel : m < fuel) (t : Shape) (x : t.Val) :
    Writes (t.owns m x p) (t.release fuel p) 1 := by
  cases t with
  | record r =>
    exact freeRec_spec hfuel r x
  | list e => exact elemFree_spec hfuel e x

theorem use_spec {vs : List (Sigma Shape.Val)} {held : List (Shape × Nat)} (hfuel : m < fuel) {u : Use}
    (hu : u.Bounded m) (hpkgs : u.NoPkgs) :
    Spec (Assn.all₂ (owns m) vs held) (use place register fuel held u) fun held' =>
      made (u.values vs) fun vs' => Assn.all₂ (owns m) vs' held' := by
  cases u with
  | make t n =>
    let add (x : t.Val) : List (Sigma Shape.Val) := vs ++ [⟨t, x⟩]
    have hadd (x : t.Val) (p : Nat) : t.owns m x p * Assn.all₂ (owns m) vs held ≤
        Assn.all₂ (owns m) (add x) (held ++ [(t, p)]) := by
      rw [mul_comm]
      refine (mul_le_mul_right ?_ _).trans (Assn.all₂_append (owns m) vs [⟨t, x⟩] held [(t, p)])
      exact (Assn.le_lift_mul rfl le_rfl).trans (mul_one _).ge
    exact Spec.step_made (g := add) (make_spec hu hpkgs) (one_mul _).ge fun p x =>
      Spec.ret_made (hadd x p)
  | release i =>
    cases hh : held[i]? with
    | none =>
      have huse : use place register fuel held (.release i) = pure held := by rw [use, hh, Option.elim_none]
      rw [huse]
      refine Spec.known (Assn.all₂_length _ _ _) fun hlen => Spec.ret_made ?_
      rw [List.getElem?_eq_none_iff, ← hlen] at hh
      rw [Use.values, List.eraseIdx_of_length_le hh]
    | some h =>
      obtain ⟨t, p⟩ := h
      have huse : use place register fuel held (.release i) =
          (t.release fuel p >>= fun _ => pure (held.eraseIdx i)) := by
        rw [use, hh, Option.elim_some]
      rw [huse]
      refine Spec.conseq (Spec.ex fun x => ?_) (Assn.all₂_eraseIdx (owns m) hh) fun _ _ => le_rfl
      rw [owns, mul_assoc]
      refine Spec.fact fun ht => ?_
      obtain rfl : t = x.1 := ht
      refine Writes.next (release_spec hfuel x.1 x.2) rfl (Spec.ret_made ?_)
      rw [one_mul]
      exact le_rfl

theorem useAll_spec (vs : List (Sigma Shape.Val)) (held : List (Shape × Nat)) (hfuel : m < fuel)
    {us : List Use} (hus : ∀ u ∈ us, u.Bounded m) (hpkgs : ∀ u ∈ us, u.NoPkgs) :
    Spec (Assn.all₂ (owns m) vs held) (useAll place register fuel held us) fun held' =>
      made (us.foldl Use.values vs) fun vs' => Assn.all₂ (owns m) vs' held' := by
  induction us generalizing vs held with
  | nil => exact Spec.ret_made le_rfl
  | cons u us ih =>
    obtain ⟨hu, hus⟩ := List.forall_mem_cons.1 hus
    obtain ⟨hup, hpkgs⟩ := List.forall_mem_cons.1 hpkgs
    refine (use_spec hfuel hu hup).step_made (g := us.foldl Use.values) (mul_one _).ge fun held' vs' => ?_
    rw [mul_one]
    exact ih vs' held' hus hpkgs

theorem Bounded.mono {m m' : Nat} {n : Option Tree} (hn : Bounded m n) (hm : m ≤ m') : Bounded m' n :=
  fun t ht => (hn t ht).trans hm

theorem Use.Bounded.mono {m m' : Nat} {u : Use} (hu : u.Bounded m) (hm : m ≤ m') : u.Bounded m' := by
  cases u with
  | make t n => exact Gen.Bounded.mono hu hm
  | release i => trivial

theorem exists_bounded (n : Option Tree) : ∃ m, Bounded m n := by
  cases n with
  | none => exact ⟨0, fun t ht => absurd ht (Option.not_mem_none t)⟩
  | some t => exact ⟨size t, fun u hu => Option.some.inj hu ▸ le_rfl⟩

theorem exists_bounded_all (us : List Use) : ∃ m, ∀ u ∈ us, u.Bounded m := by
  induction us with
  | nil => exact ⟨0, fun u hu => absurd hu List.not_mem_nil⟩
  | cons u us ih =>
    obtain ⟨m', hm'⟩ := ih
    have hu : ∃ m, u.Bounded m := by
      cases u with
      | make t n => exact exists_bounded n
      | release i => exact ⟨0, trivial⟩
    obtain ⟨m, hm⟩ := hu
    refine ⟨max m m', List.forall_mem_cons.2 ⟨hm.mono (le_max_left _ _), fun v hv => ?_⟩⟩
    exact (hm' v hv).mono (le_max_right _ _)

/-- Whatever a caller has of replies and frees, but for lists of packages, in any order and with any
allocator: nothing is done that must not be, what is held has the values the replies say, and of what else was allocated nothing
is left. Where an allocation was refused, the values may be others and memory may be lost, but what
there was before is as it was. -/
theorem useAll_owned (place : Nat → Nat) (register : Nat → Cmd Nat Unit) (us : List Use)
    (hpkgs : ∀ u ∈ us, u.NoPkgs) : ∃ m, ∀ fuel > m, ∀ s : Mem Nat,
    s.refused = false → ∃ held s', useAll place register fuel [] us s = .ok held s' ∧
      (∀ a b, s.heap a = some b → s'.heap a = some b) ∧
      ∃ vs, (Assn.all₂ (owns m) vs held * Assn.lost s'.refused * exactly s.heap).Holds s'.heap ∧
        (s'.refused = false → vs = us.foldl Use.values []) := by
  obtain ⟨m, hm⟩ := exists_bounded_all us
  refine ⟨m, fun fuel hfuel s hs => ?_⟩
  have hrun : Spec 1 (useAll place register fuel [] us) fun held =>
      made (us.foldl Use.values []) fun vs => Assn.all₂ (owns m) vs held :=
    useAll_spec [] [] hfuel hm hpkgs
  obtain ⟨held, s', r, hok, hr, hpost⟩ := hrun.run (R := exactly s.heap) (holds_mul_exactly.2 rfl)
  rw [hs, Bool.false_or] at hr
  refine ⟨held, s', hok, fun a b hb => kept_of_holds hpost hb, ?_⟩
  rw [made, Assn.iSup_mul, Assn.holds_iSup] at hpost
  obtain ⟨vs, hpost⟩ := hpost
  rw [mul_assoc] at hpost
  obtain ⟨hvs, hpost⟩ := Assn.holds_lift_mul.1 hpost
  exact ⟨vs, hr ▸ hpost, hr ▸ hvs⟩

/-- `alpm_conflict_t`, less its second package. -/
def conflictRec : RecTy :=
  .struct (.cons (lit "package1") true (.handle .pkg) (.cons (lit "reason") true
    (.structPtr (.struct (.cons (lit "name") true (.string false) (.cons (lit "mod") true
      (.scalar .uint) .nil)))) .nil))

/-- A list of conflicts and one of strings, of which the first is freed. -/
def conflictUses : List Use :=
  [.make (.list (.record conflictRec)) (some (.arr [.obj [(lit "package1", .num 5), (lit "reason",
      .obj [(lit "name", .str (lit "sh")), (lit "mod", .num 1)])], .null])),
    .make (.list .string) (some (.arr [.str (lit "a"), .null, .str (lit "b")])), .release 0]

/-- The memory of a group. -/
def allocGroup (_ : Nat) : Cmd Nat Unit := do
  let _ ← calloc (· + 1) 3

theorem useAll_owned_conflicts : ∃ m, ∀ fuel > m, ∀ s : Mem Nat, s.refused = false →
    ∃ held s', useAll (· + 1) allocGroup fuel [] conflictUses s = .ok held s' ∧
      (∀ a b, s.heap a = some b → s'.heap a = some b) ∧
      ∃ vs, (Assn.all₂ (owns m) vs held * Assn.lost s'.refused * exactly s.heap).Holds s'.heap ∧
        (s'.refused = false → vs = conflictUses.foldl Use.values []) := by
  refine useAll_owned (· + 1) allocGroup conflictUses fun u hu => ?_
  simp only [conflictUses, List.mem_cons, List.not_mem_nil, or_false] at hu
  rcases hu with rfl | rfl | rfl
  · exact ⟨trivial, ⟨trivial, trivial, trivial⟩, trivial⟩
  · exact trivial
  · exact trivial

end Gen
