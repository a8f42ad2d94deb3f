import AlpmRpc.Client.Proof.AlpmList
import AlpmRpc.Lib.StableSort

/-!
# Sorting a list in place

`alpm_list_msort` cuts a list in two, sorts the halves and merges them, without a node more:
what it leaves is the list with its nodes in another order, the stable one where the comparison ranks
the `data` (`alpmListMsort_spec`). The loop of `alpm_list_mmerge` has three chains: what is merged, and
what is left of the two lists.
-/

set_option autoImplicit false

namespace Client.AlpmList

open Store Sep

variable {fn : Nat → Nat → Int} {cs ds ls rs : Nodes} {p q n : Nat} {c d : Nat × Nat}

/-! ## The order of the nodes -/

def atMost (fn : Nat → Nat → Int) (x y : Nat) : Bool := fn x y ≤ 0

def before (fn : Nat → Nat → Int) (c d : Nat × Nat) : Bool := atMost fn c.2 d.2

/-- The order `alpm_list_msort` leaves the nodes in. -/
def msort (fn : Nat → Nat → Int) : Nat → Nodes → Nodes
  | 0, cs => cs
  | fuel + 1, cs =>
    if 1 < cs.length then
      (msort fn fuel (cs.take (cs.length / 2))).merge (msort fn fuel (cs.drop (cs.length / 2))) (before fn)
    else cs

theorem length_merge (ls rs : Nodes) : (ls.merge rs (before fn)).length = ls.length + rs.length := by
  rw [(List.merge_perm_append (before fn)).length_eq, List.length_append]

theorem msort_length (fuel : Nat) (cs : Nodes) : (msort fn fuel cs).length = cs.length := by
  induction fuel generalizing cs with
  | zero => rfl
  | succ fuel ih =>
    rw [msort]
    split
    · rw [length_merge, ih, ih, ← List.length_append, List.take_append_drop]
    · rfl

/-- A comparison that ranks what it compares. -/
structure Compares (fn : Nat → Nat → Int) : Prop where
  sign : ∀ x y, 0 < fn x y ↔ fn y x < 0
  trans : ∀ x y z, fn x y ≤ 0 → fn y z ≤ 0 → fn x z ≤ 0

theorem Compares.atMost (hfn : Compares fn) : StableSort.Ranks (atMost fn) where
  trans x y z hxy hyz := decide_eq_true (hfn.trans x y z (of_decide_eq_true hxy) (of_decide_eq_true hyz))
  total x y := by
    have := hfn.sign x y
    simp only [AlpmList.atMost, Bool.or_eq_true, decide_eq_true_eq]
    omega

theorem Compares.before (hfn : Compares fn) : StableSort.Ranks (before fn) :=
  ⟨fun a b c => hfn.atMost.trans a.2 b.2 c.2, fun a b => hfn.atMost.total a.2 b.2⟩

theorem msort_eq (hfn : Compares fn) (fuel : Nat) (hfuel : cs.length ≤ fuel) :
    msort fn fuel cs = cs.mergeSort (before fn) := by
  induction fuel generalizing cs with
  | zero =>
    rw [List.length_eq_zero_iff.1 (Nat.le_zero.1 hfuel), List.mergeSort_nil]
    rfl
  | succ fuel ih =>
    rw [msort]
    split
    · rw [ih (by rw [List.length_take]; omega), ih (by rw [List.length_drop]; omega),
        StableSort.merge_mergeSort hfn.before, List.take_append_drop]
    · rename_i hlen
      cases cs with
      | nil => rw [List.mergeSort_nil]
      | cons c cs =>
        obtain rfl : cs = [] := by simpa using hlen
        rw [List.mergeSort_singleton]

/-! ## Merging -/

theorem lastOf_ne (hcs : cs ≠ []) (p q : Nat) : lastOf p cs = lastOf q cs := by
  cases cs with
  | nil => exact absurd rfl hcs
  | cons c cs => rfl

theorem last_reads (hcs : cs ≠ []) : Reads (chain p cs n) (load (lastOf p cs) next) n := by
  obtain ⟨ds, c, rfl⟩ := (List.eq_nil_or_concat' cs).resolve_left hcs
  rw [chain_last, lastOf_last, mul_comm]
  exact load_next.frame _

/-- The loop takes a node `c`. -/
theorem take_step {α : Type} {m : Nat → Nat → Cmd Nat α} {P : Blocks Nat} {T : α → Bool → Blocks Nat}
    (hds : ds ≠ [])
    (h : Spec (chain q (ds ++ [c]) 0 * (chain c.1 cs 0 * P)) (m (first cs 0) c.1) T) :
    Spec (chain q ds 0 * (chain p (c :: cs) 0 * P)) (do
      store (lastOf q ds) next c.1
      store c.1 prev (lastOf q ds)
      let x ← load c.1 next
      let y ← load (lastOf q ds) next
      store y next 0
      m x y) T := by
  refine (store_last_next hds).next rfl ?_
  rw [mul_left_comm]
  refine store_head_prev.next rfl ?_
  refine (head_reads load_next).next rfl ?_
  rw [mul_left_comm]
  refine (last_reads hds).next rfl ?_
  rw [chain_cons, mul_assoc, mul_left_comm]
  refine store_next.next rfl ?_
  rwa [mul_left_comm, ← mul_assoc, ← chain_last]

/-- What is merged, with `prev` of its head set. -/
theorem ring_of_chain (hds : ds ≠ []) {newlist tail : Nat} (hnew : newlist = first ds 0)
    (htail : tail = lastOf 0 ds) :
    Writes (chain q ds 0) (store newlist prev tail) (ring ds) := by
  cases ds with
  | nil => exact absurd rfl hds
  | cons d ds =>
    rw [hnew, htail]
    exact store_head_prev

theorem first_append_ne {newlist : Nat} (hds : ds ≠ []) (hnew : newlist = first ds 0) (cs : Nodes) :
    newlist = first (ds ++ cs) 0 := by
  cases ds with
  | nil => exact absurd rfl hds
  | cons d ds => exact hnew

/-- The loop has what is left of the one list follow. -/
theorem attach_step {newlist tail : Nat} (hds : ds ≠ []) (hnew : newlist = first ds 0)
    (htail : tail = lastOf 0 (c :: cs)) :
    Spec (chain q ds 0 * chain p (c :: cs) 0) (do
      store (lastOf q ds) next c.1
      store c.1 prev (lastOf q ds)
      store newlist prev tail
      return newlist) (sure fun a => Assn.lift (a = newlist) * ring (ds ++ c :: cs)) := by
  refine (store_last_next hds).next rfl ?_
  rw [mul_comm]
  refine store_head_prev.next rfl ?_
  have hjoin : chain (lastOf q ds) (c :: cs) 0 * chain q ds c.1 = chain q (ds ++ c :: cs) 0 := by
    rw [mul_comm, chain_append, first_cons]
  rw [hjoin]
  have htail' : tail = lastOf 0 (ds ++ c :: cs) := by
    rw [htail, lastOf_append, lastOf_cons, lastOf_cons]
  refine (ring_of_chain (List.append_ne_nil_of_left_ne_nil hds _) (first_append_ne hds hnew _)
    htail').next (mul_one _).symm (Spec.ret ?_)
  rw [mul_one]
  exact Assn.le_lift_mul rfl le_rfl

theorem lastOf_tail {tail : Nat} (h : c :: cs ≠ [] → tail = lastOf 0 (c :: cs)) (hcs : cs ≠ []) :
    tail = lastOf 0 cs := by
  rw [h (List.cons_ne_nil c cs), lastOf_cons, lastOf_ne hcs]

theorem mergeLoop_spec {fuel lp leftTail rightTail newlist : Nat} (hds : ds ≠ [])
    (hnew : newlist = first ds 0) (hlp : lp = lastOf q ds) (hleft : ls ≠ [] → leftTail = lastOf 0 ls)
    (hright : rs ≠ [] → rightTail = lastOf 0 rs) (hfuel : ls.length + rs.length < fuel) (p p' : Nat) :
    Spec (chain q ds 0 * (chain p ls 0 * chain p' rs 0))
      (mergeLoop fn newlist leftTail rightTail fuel lp (first ls 0) (first rs 0))
      (sure fun a => Assn.lift (a = newlist) * ring (ds ++ ls.merge rs (before fn))) := by
  induction fuel generalizing ds ls rs lp p p' with
  | zero => exact absurd hfuel (Nat.not_lt_zero _)
  | succ fuel ih =>
    rw [mergeLoop, hlp]
    cases ls with
    | nil =>
      rw [first_nil, if_neg (fun h => h.1 rfl), if_neg (not_not_intro rfl), chain_nil, one_mul,
        List.nil_merge]
      cases rs with
      | nil =>
        rw [first_nil, if_neg (not_not_intro rfl), List.append_nil]
        refine (ring_of_chain hds hnew (lastOf_ne hds q 0)).next rfl (Spec.ret ?_)
        rw [chain_nil, mul_one]
        exact Assn.le_lift_mul rfl le_rfl
      | cons d rs =>
        refine Spec.known (q := d.1 ≠ 0) ?_ fun hd => ?_
        · rw [mul_comm]
          exact chain_ne_mul _
        · rw [first_cons, if_pos hd]
          exact attach_step hds hnew (hright (List.cons_ne_nil d rs))
    | cons c ls =>
      refine Spec.known (q := c.1 ≠ 0) ?_ fun hc => ?_
      · rw [mul_left_comm]
        exact chain_ne_mul _
      cases rs with
      | nil =>
        rw [first_nil, if_neg (fun h => h.2 rfl), first_cons, if_pos hc, chain_nil, mul_one,
          List.merge_right]
        exact attach_step hds hnew (hleft (List.cons_ne_nil c ls))
      | cons d rs =>
        refine Spec.known (q := d.1 ≠ 0) ?_ fun hd => ?_
        · rw [← mul_assoc, mul_comm]
          exact chain_ne_mul _
        rw [first_cons, first_cons, if_pos ⟨hc, hd⟩]
        refine (head_reads load_data).next (mul_left_comm _ _ _) ?_
        refine (head_reads load_data).next (by rw [← mul_assoc, mul_comm]) ?_
        by_cases hcmp : fn c.2 d.2 ≤ 0
        · have hfuel' : ls.length + (d :: rs).length < fuel := by
            rw [List.length_cons] at hfuel
            omega
          have hloop := ih (List.append_ne_nil_of_left_ne_nil hds [c]) (first_append_ne hds hnew [c])
            (lastOf_last q ds c).symm (lastOf_tail hleft) hright hfuel' c.1 p'
          rw [if_pos hcmp, List.cons_merge_cons_pos _ _ _ (decide_eq_true hcmp), List.append_cons]
          exact take_step (m := fun x y => mergeLoop fn newlist leftTail rightTail fuel y x d.1) hds hloop
        · have hfuel' : (c :: ls).length + rs.length < fuel := by
            simp only [List.length_cons] at hfuel ⊢
            omega
          have hloop := ih (List.append_ne_nil_of_left_ne_nil hds [d]) (first_append_ne hds hnew [d])
            (lastOf_last q ds d).symm hleft (lastOf_tail hright) hfuel' p d.1
          rw [if_neg hcmp, List.cons_merge_cons_neg _ _ _ (mt of_decide_eq_true hcmp), List.append_cons,
            mul_comm (chain p _ 0)]
          rw [mul_comm (chain p _ 0)] at hloop
          exact take_step (m := fun x y => mergeLoop fn newlist leftTail rightTail fuel y c.1 x) hds hloop

/-- The head of a list, by itself. -/
theorem detach_step {α : Type} {m : Nat → Cmd Nat α} {P : Blocks Nat} {T : α → Bool → Blocks Nat}
    (h : Spec (chain 0 [c] 0 * (chain c.1 cs 0 * P)) (m (first cs 0)) T) :
    Spec (chain p (c :: cs) 0 * P) (do
      let x ← load c.1 next
      store c.1 prev 0
      store c.1 next 0
      m x) T := by
  refine (head_reads load_next).next rfl ?_
  refine store_head_prev.next rfl ?_
  rw [chain_cons, mul_assoc]
  refine store_next.next rfl ?_
  rwa [chain_cons, chain_nil, mul_one] at h

theorem alpmListMmerge_spec {fuel : Nat} (hfuel : ls.length + rs.length ≤ fuel) :
    Spec (ring ls * ring rs) (alpmListMmerge fn fuel (first ls 0) (first rs 0))
      (sure fun a =>
        Assn.lift (a = first (ls.merge rs (before fn)) 0) * ring (ls.merge rs (before fn))) := by
  cases ls with
  | nil =>
    rw [List.nil_merge]
    exact Spec.ret ((one_mul _).le.trans (Assn.le_lift_mul rfl le_rfl))
  | cons c ls =>
    refine Spec.known (chain_ne_mul _) fun hc => ?_
    cases rs with
    | nil =>
      rw [List.merge_right, alpmListMmerge, first_cons, if_neg hc, first_nil, if_pos rfl]
      exact Spec.ret ((mul_one _).le.trans (Assn.le_lift_mul rfl le_rfl))
    | cons d rs =>
      refine Spec.known (q := d.1 ≠ 0) ?_ fun hd => ?_
      · rw [mul_comm]
        exact chain_ne_mul _
      rw [alpmListMmerge, first_cons, first_cons, if_neg hc, if_neg hd]
      refine (head_reads load_prev).next rfl ?_
      refine (head_reads load_prev).next (mul_comm _ _) ?_
      refine (head_reads load_data).next rfl ?_
      refine (head_reads load_data).next (mul_comm _ _) ?_
      by_cases hcmp : fn c.2 d.2 ≤ 0
      · rw [if_pos hcmp, List.cons_merge_cons_pos _ _ _ (decide_eq_true hcmp)]
        have hfuel' : ls.length + (d :: rs).length < fuel := by
          simp only [List.length_cons] at hfuel ⊢
          omega
        exact detach_step (m := fun x => mergeLoop fn c.1 _ _ fuel c.1 x d.1)
          (mergeLoop_spec (List.cons_ne_nil c []) rfl rfl (fun hls => lastOf_ne hls _ _) (fun _ => rfl)
            hfuel' _ _)
      · rw [if_neg hcmp, List.cons_merge_cons_neg _ _ _ (mt of_decide_eq_true hcmp), mul_comm]
        have hfuel' : (c :: ls).length + rs.length < fuel := by
          simp only [List.length_cons] at hfuel ⊢
          omega
        have hloop : Spec (chain 0 [d] 0 * (ring (c :: ls) * chain d.1 rs 0))
            (mergeLoop fn d.1 _ _ fuel d.1 c.1 (first rs 0)) _ :=
          mergeLoop_spec (List.cons_ne_nil d []) rfl rfl (fun _ => rfl)
            (fun hrs => lastOf_ne hrs d.1 0) hfuel' _ _
        rw [mul_comm (ring _)] at hloop
        exact detach_step (m := fun x => mergeLoop fn d.1 _ _ fuel d.1 c.1 x) hloop

/-! ## Sorting -/

theorem alpmListNth_spec (hn : n ≤ cs.length) {e : Nat} :
    Reads (chain p cs e) (alpmListNth (first cs e) n) (first (cs.drop n) e) := by
  induction n generalizing p cs with
  | zero => exact Reads.pure _ _
  | succ n ih =>
    cases cs with
    | nil => exact absurd hn (Nat.not_succ_le_zero n)
    | cons c cs =>
      refine (head_reads load_next).bind ?_
      rw [chain_cons, mul_comm]
      exact (ih (Nat.le_of_succ_le_succ hn)).frame _

theorem first_reads (hcs : cs ≠ []) : Reads (chain p cs n) (load (first cs 0) prev) p := by
  cases cs with
  | nil => exact absurd rfl hcs
  | cons c cs => exact head_reads load_prev

/-- A list is cut in two lists, at the node `lastleft`. -/
theorem cut_step {α : Type} {m : Nat → Cmd Nat α} {T : α → Bool → Blocks Nat} {lastleft : Nat}
    (hls : ls ≠ []) (hrs : rs ≠ []) (hlast : lastleft = lastOf 0 ls)
    (h : Spec (ring ls * ring rs) (m (first rs 0)) T) :
    Spec (ring (ls ++ rs)) (do
      let right ← load lastleft next
      store lastleft next 0
      let l ← load (first (ls ++ rs) 0) prev
      store right prev l
      store (first (ls ++ rs) 0) prev lastleft
      m right) T := by
  obtain ⟨d, rs, rfl⟩ := List.exists_cons_of_ne_nil hrs
  generalize htail : lastOf 0 (ls ++ d :: rs) = tail
  have hlast' : lastleft = lastOf tail ls := hlast.trans (lastOf_ne hls _ _)
  have hright : ring (d :: rs) = chain tail (d :: rs) 0 := by
    rw [ring, ← htail, lastOf_append, lastOf_cons, lastOf_cons]
  rw [ring, htail, chain_append, ← first_append_ne hls rfl, hlast']
  refine (last_reads hls).next rfl ?_
  refine (store_last_next hls).next rfl ?_
  refine (first_reads hls).next rfl ?_
  rw [mul_comm]
  refine store_head_prev.next rfl ?_
  rw [mul_comm]
  refine (ring_of_chain hls rfl (lastOf_ne hls _ _)).next rfl ?_
  rwa [← hright]

/-- The last of the first nodes. -/
theorem lastOf_take (hn : n < cs.length) (p e : Nat) :
    lastOf p (cs.take (n + 1)) = first (cs.drop n) e := by
  induction cs generalizing n p with
  | nil => exact absurd hn (Nat.not_lt_zero n)
  | cons c cs ih =>
    cases n with
    | zero => rw [List.take_succ_cons, List.take_zero, lastOf_cons, lastOf_nil, List.drop_zero, first_cons]
    | succ n =>
      rw [List.take_succ_cons, lastOf_cons, List.drop_succ_cons]
      exact ih (Nat.lt_of_succ_lt_succ hn) c.1

theorem alpmListMsort_spec {fuel : Nat} (hn : n = cs.length) (hfuel : n < fuel) :
    Spec (ring cs) (alpmListMsort fn fuel (first cs 0) n)
      (sure fun a => Assn.lift (a = first (msort fn fuel cs) 0) * ring (msort fn fuel cs)) := by
  induction fuel generalizing cs n with
  | zero => exact absurd hfuel (Nat.not_lt_zero n)
  | succ fuel ih =>
    rw [alpmListMsort, msort, ← hn]
    split
    · rename_i hlen
      have hbound : n / 2 - 1 < cs.length := by omega
      have hnth : Reads (ring cs) (alpmListNth (first cs 0) (n / 2 - 1)) _ := alpmListNth_spec hbound.le
      have hlast := lastOf_take hbound 0 0
      rw [Nat.sub_add_cancel (by omega)] at hlast
      have hls : (cs.take (n / 2)).length = n / 2 := by
        rw [List.length_take]
        omega
      have hrs : (cs.drop (n / 2)).length = n - n / 2 := by
        rw [List.length_drop, hn]
      generalize hleft : cs.take (n / 2) = ls at hls hlast
      generalize hright : cs.drop (n / 2) = rs at hrs
      have hcs : cs = ls ++ rs := by rw [← hleft, ← hright, List.take_append_drop]
      refine hnth.next (mul_one _).symm ?_
      have hlsne : ls ≠ [] := fun hnil => by
        rw [hnil, List.length_nil] at hls
        omega
      have hrsne : rs ≠ [] := fun hnil => by
        rw [hnil, List.length_nil] at hrs
        omega
      rw [← hlast, hcs]
      refine cut_step hlsne hrsne rfl ?_
      rw [← first_append_ne hlsne rfl]
      refine (ih hls.symm (by omega)).step_sure le_rfl fun left => ?_
      rw [mul_assoc]
      refine Spec.fact fun hl => ?_
      refine (ih hrs.symm (by omega)).step_sure (mul_comm _ _).le fun right => ?_
      rw [mul_assoc]
      refine Spec.fact fun hr => ?_
      rw [mul_comm, hl, hr]
      refine alpmListMmerge_spec ?_
      rw [msort_length, msort_length]
      omega
    · exact Spec.ret (Assn.le_lift_mul rfl le_rfl)

theorem sorted_data (fn : Nat → Nat → Int) (cs : Nodes) :
    (cs.mergeSort (before fn)).map (·.2) = (cs.map (·.2)).mergeSort (atMost fn) :=
  List.map_mergeSort fun _ _ _ _ => rfl

end Client.AlpmList
