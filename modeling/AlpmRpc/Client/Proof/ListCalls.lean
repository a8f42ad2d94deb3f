import AlpmRpc.Client.Proof.ListOps
import Mathlib.Algebra.BigOperators.Group.Finset.Basic

/-!
# What a caller makes of its lists

Any calls, one after another, on lists in any variables: each variable has the list that the calls make
of it, and there is no node that is in none, also where the allocator refuses.
-/

set_option autoImplicit false

namespace Client.AlpmList

open Store Sep

variable {place : Nat → Nat} {fn : Nat → Nat → Int} {fuel : Nat} {V : Type} [DecidableEq V]
  {xss yss : V → List Nat} {held : V → Nat} {v w t : V} {ys : List Nat} {l : Nat}

/-! ## What a call is to do -/

/-- A list is put where there is none. -/
def put (xss : V → List Nat) (t : V) (ys : List Nat) : V → List Nat :=
  if xss t = [] then Function.update xss t ys else xss

/-- What a call makes of the lists; `r` if a node was refused. An addition that is refused leaves the
list, and a copy that is refused is empty. -/
def Call.Makes (fn : Nat → Nat → Int) (r : Bool) (xss yss : V → List Nat) : Call V → Prop
  | add v d => yss = Function.update xss v (if r then xss v else xss v ++ [d])
  | addSorted v d =>
    yss = Function.update xss v (if r then xss v else (xss v).orderedInsert (fn · · ≤ 0) d)
  | join v w =>
    yss = if v = w then xss else Function.update (Function.update xss w []) v (xss v ++ xss w)
  | sort v => yss = Function.update xss v ((xss v).mergeSort (atMost fn))
  | remove v needle =>
    yss = Function.update xss v (if needle = 0 then xss v else (xss v).eraseP (sought fn needle))
  | copy v t => yss = put xss t (if r then [] else xss v)
  | reverse v t => yss = put xss t (if r then [] else (xss v).reverse)
  | removeDupes v t => yss = put xss t (if r then [] else dedup (xss v))
  | diff v w t => ∃ zs, (r = false → zs = difference fn (xss v) (xss w)) ∧
    zs.length ≤ (xss v).length ∧ yss = put xss t zs
  | free v => yss = Function.update xss v []

/-- What a row of calls makes of the lists. -/
def Makes (fn : Nat → Nat → Int) : Bool → (V → List Nat) → (V → List Nat) → List (Call V) → Prop
  | r, xss, yss, [] => r = false ∧ yss = xss
  | r, xss, yss, c :: cs => ∃ r₁ r₂ zss, r = (r₁ || r₂) ∧ c.Makes fn r₁ xss zss ∧ Makes fn r₂ zss yss cs

/-! ## The lists of the variables -/

variable [Fintype V]

/-- Each variable of a set has its list. -/
def listsOn (s : Finset V) (xss : V → List Nat) (held : V → Nat) : Blocks Nat :=
  ∏ u ∈ s, isList (xss u) (held u)

/-- Each variable has its list. -/
def lists (xss : V → List Nat) (held : V → Nat) : Blocks Nat := listsOn Finset.univ xss held

/-- The lists of the variables but one. -/
def others (v : V) (xss : V → List Nat) (held : V → Nat) : Blocks Nat :=
  listsOn (Finset.univ.erase v) xss held

omit [Fintype V] in
theorem listsOn_split {s : Finset V} (hv : v ∈ s) (xss : V → List Nat) (held : V → Nat) :
    listsOn s xss held = isList (xss v) (held v) * listsOn (s.erase v) xss held :=
  (Finset.mul_prod_erase s _ hv).symm

omit [Fintype V] in
theorem listsOn_update {s : Finset V} (hv : v ∈ s) (xss : V → List Nat) (held : V → Nat)
    (ys : List Nat) (l : Nat) : listsOn s (Function.update xss v ys) (Function.update held v l) =
      isList ys l * listsOn (s.erase v) xss held := by
  rw [listsOn_split hv, Function.update_self, Function.update_self, listsOn, listsOn]
  congr 1
  refine Finset.prod_congr rfl fun u hu => ?_
  rw [Function.update_of_ne (Finset.ne_of_mem_erase hu), Function.update_of_ne (Finset.ne_of_mem_erase hu)]

theorem lists_split (v : V) (xss : V → List Nat) (held : V → Nat) :
    lists xss held = isList (xss v) (held v) * others v xss held :=
  listsOn_split (Finset.mem_univ v) xss held

theorem lists_update (v : V) (xss : V → List Nat) (held : V → Nat) (ys : List Nat) (l : Nat) :
    lists (Function.update xss v ys) (Function.update held v l) = isList ys l * others v xss held :=
  listsOn_update (Finset.mem_univ v) xss held ys l

theorem isList_nil : isList [] 0 = 1 := by
  refine le_antisymm (iSup_le fun cs => Assn.lift_mul_le fun hcs => ?_) one_le_isList
  rw [List.map_eq_nil_iff.1 hcs.1]
  exact le_rfl

/-- `NULL` is the empty list, and no other list is. -/
theorem isList_null : isList ys l ≤ Assn.lift (l = 0 ↔ ys = []) * isList ys l := by
  refine iSup_le fun cs => Assn.lift_mul_le fun hcs => ?_
  cases cs with
  | nil => exact Assn.le_lift_mul ⟨fun _ => hcs.1.symm, fun _ => hcs.2.symm⟩ (le_isList hcs.1 hcs.2 le_rfl)
  | cons c cs =>
    refine chain_ne.le.trans (Assn.lift_mul_le fun hc => ?_)
    refine Assn.le_lift_mul ⟨fun hl => absurd (hcs.2.trans hl) hc, fun hys => ?_⟩
      (le_isList hcs.1 hcs.2 le_rfl)
    rw [hys] at hcs
    exact absurd hcs.1 (List.cons_ne_nil _ _)

theorem lists_null (v : V) (xss : V → List Nat) (held : V → Nat) :
    lists xss held ≤ Assn.lift (held v = 0 ↔ xss v = []) * lists xss held := by
  rw [lists_split v, ← mul_assoc]
  exact mul_le_mul_left isList_null _

/-- What holds after a call. -/
def after (fn : Nat → Nat → Int) (xss : V → List Nat) (c : Call V) (held : V → Nat) (r : Bool) :
    Blocks Nat := ⨆ yss, Assn.lift (c.Makes fn r xss yss) * lists yss held

theorem le_after {c : Call V} {r : Bool} {P : Blocks Nat} (hc : c.Makes fn r xss yss)
    (hP : P ≤ lists yss held) : P ≤ after fn xss c held r :=
  le_iSup_of_le yss (Assn.le_lift_mul hc hP)

/-- A list is changed in place. -/
theorem inPlace_spec {m : Cmd Nat Nat} {f : Bool → List Nat} {c : Call V}
    (hc : ∀ r, c.Makes fn r xss (Function.update xss v (f r)))
    (h : Spec (isList (xss v) (held v)) m fun l r => isList (f r) l) :
    Spec (lists xss held) (m >>= fun l => pure (Function.update held v l)) (after fn xss c) := by
  refine h.step (lists_split v xss held).le fun l r => Spec.pure ?_
  rw [Bool.or_false]
  exact le_after (hc r) (lists_update v xss held _ l).ge

/-- A new list. -/
theorem result_spec {m : Cmd Nat Nat} {p : Bool → List Nat → Prop} {c : Call V}
    (hc : ∀ r zs, p r zs → c.Makes fn r xss (put xss t zs)) (hp : ∃ zs, p false zs)
    (h : Spec (lists xss held) m fun l r => (⨆ zs, Assn.lift (p r zs) * isList zs l) * lists xss held) :
    Spec (lists xss held) (result held t m) (after fn xss c) := by
  refine Spec.known (lists_null t xss held) fun hnull => ?_
  by_cases ht : held t = 0
  · have hnil : xss t = [] := hnull.1 ht
    have hrest : lists xss held = others t xss held := by
      rw [lists_split t, ht, hnil, isList_nil, one_mul]
    rw [result, if_pos ht]
    refine h.step (mul_one _).ge fun l r => Spec.pure ?_
    rw [mul_one, Bool.or_false, Assn.iSup_mul]
    refine iSup_le fun zs => ?_
    rw [mul_assoc]
    refine Assn.lift_mul_le fun hzs => le_after (hc r zs hzs) ?_
    rw [put, if_pos hnil, lists_update, hrest]
  · obtain ⟨zs, hzs⟩ := hp
    rw [result, if_neg ht]
    refine Spec.pure (le_after (hc false zs hzs) ?_)
    rw [put, if_neg (mt hnull.2 ht)]

theorem copy_spec {m : Cmd Nat Nat} {f : List Nat} {c : Call V}
    (hc : ∀ r, c.Makes fn r xss (put xss t (if r then [] else f)))
    (h : Spec (isList (xss v) (held v)) m fun l r => copied f l r * isList (xss v) (held v)) :
    Spec (lists xss held) (result held t m) (after fn xss c) := by
  refine result_spec (p := fun r zs => zs = if r then [] else f) (fun r zs hzs => hzs ▸ hc r)
    ⟨f, rfl⟩ ?_
  rw [lists_split v]
  refine (h.frame (others v xss held)).conseq le_rfl fun l r => ?_
  rw [mul_assoc]
  refine mul_le_mul_left ?_ _
  exact le_iSup_of_le (if r then [] else f) (Assn.le_lift_mul rfl le_rfl)

theorem join_spec (hvw : v ≠ w) : Spec (lists xss held) (alpmListJoin (held v) (held w) >>= fun l =>
    pure (Function.update (Function.update held w 0) v l))
    (sure fun held' => lists (Function.update (Function.update xss w []) v (xss v ++ xss w)) held') := by
  have hw : w ∈ Finset.univ.erase v := Finset.mem_erase.2 ⟨hvw.symm, Finset.mem_univ w⟩
  have hjoin : Spec (isList (xss v) (held v) * isList (xss w) (held w))
      (alpmListJoin (held v) (held w)) (sure fun l => isList (xss v ++ xss w) l) := alpmListJoin_spec
  refine hjoin.step_sure (R := listsOn ((Finset.univ.erase v).erase w) xss held) ?_ fun l => Spec.ret ?_
  · rw [lists_split v, others, listsOn_split hw, ← mul_assoc]
  · rw [lists_update, others, listsOn_update hw, isList_nil, one_mul]

/-- A call makes what it is to make. -/
theorem call_spec (hfn : Compares fn) (hfuel : ∀ v, (xss v).length < fuel) (c : Call V) :
    Spec (lists xss held) (call place fn fuel held c) (after fn xss c) := by
  cases c with
  | add v d => exact inPlace_spec (fun r => rfl) alpmListAdd_spec
  | addSorted v d => exact inPlace_spec (fun r => rfl) (alpmListAddSorted_spec (hfuel v))
  | join v w =>
    rw [call]
    split
    · rename_i hvw
      exact Spec.pure (le_after (if_pos hvw).symm le_rfl)
    · rename_i hvw
      exact (join_spec hvw).conseq le_rfl (sure_le fun held' => le_after (if_neg hvw).symm le_rfl)
  | sort v =>
    refine (count_isList (hfuel v)).next (lists_split v xss held) (inPlace_spec (fun r => rfl) ?_)
    exact (sort_isList hfn rfl (Nat.lt_succ_self _)).conseq le_rfl (sure_le fun l => le_rfl)
  | remove v needle =>
    refine (alpmListRemove_spec (hfuel v)).step_sure (lists_split v xss held).le fun q => Spec.pure ?_
    refine le_after rfl ?_
    rw [lists_update]
    refine mul_le_mul_left ?_ _
    split
    · exact Assn.lift_mul_le fun _ => le_rfl
    · exact Assn.lift_mul_le fun _ => le_rfl
  | copy v t => exact copy_spec (fun r => rfl) (alpmListCopy_spec (hfuel v))
  | reverse v t => exact copy_spec (fun r => rfl) (alpmListReverse_spec (hfuel v))
  | removeDupes v t => exact copy_spec (fun r => rfl) (alpmListRemoveDupes_spec (hfuel v))
  | diff v w t =>
    refine result_spec (p := fun r zs => (r = false → zs = difference fn (xss v) (xss w)) ∧
      zs.length ≤ (xss v).length) (fun r zs hzs => ⟨zs, hzs.1, hzs.2, rfl⟩)
      ⟨_, fun _ => rfl, difference_length fn _ _⟩ ?_
    exact alpmListDiff_spec hfn (hfuel v) (hfuel w) (lists_split v xss held) (lists_split w xss held)
  | free v =>
    refine (free_isList (hfuel v)).next (lists_split v xss held) (Spec.pure (le_after rfl ?_))
    rw [lists_update, isList_nil]

/-! ## Rows of calls -/

section
variable {T : ℕ} {r : Bool}

omit [Fintype V] in
theorem update_bound (hxss : ∀ u, (xss u).length ≤ T) (hys : ys.length ≤ T) (u : V) :
    (Function.update xss v ys u).length ≤ T := by
  by_cases hu : u = v
  · rw [hu, Function.update_self]
    exact hys
  · rw [Function.update_of_ne hu]
    exact hxss u

omit [Fintype V] in
theorem put_bound (hxss : ∀ u, (xss u).length ≤ T) (hys : ys.length ≤ T) (u : V) :
    (put xss t ys u).length ≤ T := by
  rw [put]
  split
  · exact update_bound hxss hys u
  · exact hxss u

omit [Fintype V] in
/-- One call makes no list more than twice as long as the longest, and one more. -/
theorem Call.Makes.bound {c : Call V} (hc : c.Makes fn r xss yss) (hT : ∀ u, (xss u).length ≤ T)
    (u : V) : (yss u).length ≤ 2 * T + 1 := by
  have hxss (u : V) : (xss u).length ≤ 2 * T + 1 := (hT u).trans (by omega)
  have hmore (v : V) {ys : List Nat} (hys : ys.length = (xss v).length + 1) :
      (if r then xss v else ys).length ≤ 2 * T + 1 := by
    have := hT v
    split <;> omega
  have hnew (v : V) {ys : List Nat} (hys : ys.length ≤ (xss v).length) :
      (if r then [] else ys).length ≤ 2 * T + 1 := by
    split
    · exact Nat.zero_le _
    · exact hys.trans (hxss v)
  cases c with
  | add v d =>
    obtain rfl := hc
    exact update_bound hxss (hmore v List.length_append) u
  | addSorted v d =>
    obtain rfl := hc
    exact update_bound hxss (hmore v (List.orderedInsert_length _ _ _)) u
  | join v w =>
    obtain rfl := hc
    split
    · exact hxss u
    · refine update_bound (update_bound hxss (Nat.zero_le _)) ?_ u
      rw [List.length_append]
      have := hT v
      have := hT w
      omega
  | sort v =>
    obtain rfl := hc
    exact update_bound hxss ((List.length_mergeSort _).le.trans (hxss v)) u
  | remove v needle =>
    obtain rfl := hc
    refine update_bound hxss ?_ u
    split
    · exact hxss v
    · exact List.eraseP_sublist.length_le.trans (hxss v)
  | copy v t =>
    obtain rfl := hc
    exact put_bound hxss (hnew v le_rfl) u
  | reverse v t =>
    obtain rfl := hc
    exact put_bound hxss (hnew v List.length_reverse.le) u
  | removeDupes v t =>
    obtain rfl := hc
    exact put_bound hxss (hnew v (dedup_length _)) u
  | diff v w t =>
    obtain ⟨zs, -, hzs, rfl⟩ := hc
    exact put_bound hxss (hzs.trans (hxss v)) u
  | free v =>
    obtain rfl := hc
    exact update_bound hxss (Nat.zero_le _) u

end

theorem calls_spec (place : Nat → Nat) (hfn : Compares fn) (cs : List (Call V)) (T : ℕ) :
    ∃ N, ∀ fuel > N, ∀ (xss : V → List Nat) (held : V → Nat), (∀ u, (xss u).length ≤ T) →
      Spec (lists xss held) (calls place fn fuel held cs) fun held' r =>
        ⨆ yss, Assn.lift (Makes fn r xss yss cs) * lists yss held' := by
  induction cs generalizing T with
  | nil =>
    refine ⟨0, fun fuel _ xss held _ => Spec.pure ?_⟩
    exact le_iSup_of_le xss (Assn.le_lift_mul ⟨rfl, rfl⟩ le_rfl)
  | cons c cs ih =>
    obtain ⟨N, hN⟩ := ih (2 * T + 1)
    refine ⟨max N T, fun fuel hfuel xss held hT => ?_⟩
    have hlong (u : V) : (xss u).length < fuel :=
      (hT u).trans_lt (lt_of_le_of_lt (le_max_right N T) hfuel)
    refine (call_spec hfn hlong c).bind fun held' r => Spec.ex fun zss => Spec.fact fun hzss => ?_
    refine (hN fuel (lt_of_le_of_lt (le_max_left N T) hfuel) zss held' (hzss.bound hT)).conseq le_rfl
      fun held'' r' => iSup_le fun yss => Assn.lift_mul_le fun hyss => ?_
    exact le_iSup_of_le yss (Assn.le_lift_mul ⟨r, r', zss, rfl, hzss, hyss⟩ le_rfl)

omit [DecidableEq V] in
theorem lists_none : lists (fun _ : V => []) (fun _ => 0) = 1 := by
  rw [lists, listsOn]
  exact Finset.prod_eq_one fun _ _ => isList_nil

/-- Whatever calls a caller makes, on lists in any variables, in any order, and with any allocator:
none does what it must not, each variable has the list that the calls make of it, and the nodes of
these lists are all the memory there is more than before. -/
theorem calls_exact (place : Nat → Nat) (hfn : Compares fn) (cs : List (Call V)) : ∃ N, ∀ fuel > N,
    ∀ s : Mem Nat, s.refused = false → ∃ held s' xss,
      calls place fn fuel (fun _ => 0) cs s = .ok held s' ∧ Makes fn s'.refused (fun _ => []) xss cs ∧
      (lists xss held * exactly s.heap).Holds s'.heap := by
  obtain ⟨N, hN⟩ := calls_spec place hfn cs 0
  refine ⟨N, fun fuel hfuel s hs => ?_⟩
  have hrun := hN fuel hfuel (fun _ => []) (fun _ => 0) fun _ => le_rfl
  rw [lists_none] at hrun
  obtain ⟨held, s', r, hok, hr, hpost⟩ := hrun.run (R := exactly s.heap) (holds_mul_exactly.2 rfl)
  rw [hs, Bool.false_or] at hr
  rw [Assn.iSup_mul, Assn.holds_iSup] at hpost
  obtain ⟨xss, hpost⟩ := hpost
  rw [mul_assoc] at hpost
  obtain ⟨hxss, hlists⟩ := Assn.holds_lift_mul.1 hpost
  exact ⟨held, s', xss, hok, hr ▸ hxss, hlists⟩

/-- Two unsorted lists, the first with an element twice; the difference goes to a third variable. -/
def sortThenDiff : List (Call (Fin 3)) :=
  [.add 0 5, .add 0 3, .add 0 5, .sort 0, .add 1 7, .add 1 5, .diff 0 1 2, .join 0 1, .free 2]

theorem calls_exact_sort : ∃ fuel held s' xss,
    calls (fun k => 2 * k + 2) (fun x y => (x : Int) - y) fuel (fun _ => 0) sortThenDiff {} =
        .ok held s' ∧
    Makes (fun x y => (x : Int) - y) s'.refused (fun _ => []) xss sortThenDiff ∧
    (lists xss held * exactly Heap.empty).Holds s'.heap := by
  obtain ⟨N, hN⟩ := calls_exact (fun k => 2 * k + 2) compares_sub sortThenDiff
  exact ⟨N + 1, hN (N + 1) (Nat.lt_succ_self N) {} rfl⟩

end Client.AlpmList
