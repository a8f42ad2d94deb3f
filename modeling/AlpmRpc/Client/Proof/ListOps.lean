import AlpmRpc.Client.Proof.ListSort
import Mathlib.Data.List.Induction

/-!
# The list functions

What each function of `alpm_list.c` makes of lists with the `data` `xs`: of an append that is refused
nothing, and of a copy that is refused part of the way nothing either.
-/

set_option autoImplicit false

namespace Client.AlpmList

open Store Sep

variable {place : Nat → Nat} {fn : Nat → Nat → Int} {cs ds ls rs : Nodes} {c : Nat × Nat}
  {p n l d needle fuel total : Nat} {xs ys : List Nat}

/-! ## Nodes of a chain -/

/-- What is read at a node of a chain. -/
theorem at_reads {α : Type} {m : Cmd Nat α} {w : α}
    (h : Reads (node c.1 c.2 (lastOf p ls) (first rs n)) m w) :
    Reads (chain p (ls ++ c :: rs) n) m w := by
  rw [chain_append, mul_comm]
  exact (head_reads h).frame _

/-- What is written at a node of a chain. -/
theorem chain_split (p : Nat) (ls : Nodes) (c : Nat × Nat) (rs : Nodes) (n : Nat) :
    chain p (ls ++ c :: rs) n =
      chain p ls c.1 * (node c.1 c.2 (lastOf p ls) (first rs n) * chain c.1 rs n) := by
  rw [chain_append, chain_cons, first_cons]

theorem node_apart {a x v m b y w k : Nat} :
    node a x v m * node b y w k ≤ Assn.lift (a ≠ b) * (node a x v m * node b y w k) := pts_apart

/-- A node of a chain, and the others. -/
theorem chain_mem (hc : c ∈ cs) (p n : Nat) :
    ∃ v m, ∃ F : Blocks Nat, chain p cs n = node c.1 c.2 v m * F := by
  obtain ⟨ls, rs, rfl⟩ := List.append_of_mem hc
  refine ⟨lastOf p ls, first rs n, chain p ls c.1 * chain c.1 rs n, ?_⟩
  rw [chain_split, mul_left_comm]

theorem at_ne_zero (hc : c ∈ cs) (F : Blocks Nat) :
    chain p cs n * F ≤ Assn.lift (c.1 ≠ 0) * (chain p cs n * F) := by
  obtain ⟨v, m, G, hG⟩ := chain_mem hc p n
  rw [hG, mul_assoc, ← mul_assoc (Assn.lift _), ← node_ne]

theorem lastOf_mem (hcs : cs ≠ []) (p : Nat) : ∃ c ∈ cs, lastOf p cs = c.1 := by
  obtain ⟨ds, c, rfl⟩ := (List.eq_nil_or_concat' cs).resolve_left hcs
  exact ⟨c, List.mem_append_right ds (List.mem_singleton_self c), lastOf_last p ds c⟩

/-- No other node of a chain is at the address of a node. -/
theorem chain_apart {b : Nat × Nat} (hb : b ∈ ls ++ rs) : chain p (ls ++ c :: rs) n ≤
    Assn.lift (c.1 ≠ b.1) * chain p (ls ++ c :: rs) n := by
  obtain ⟨v, m, F, hF⟩ : ∃ v m, ∃ F : Blocks Nat,
      chain p ls c.1 * chain c.1 rs n = node b.1 b.2 v m * F := by
    obtain hb | hb := List.mem_append.1 hb
    · obtain ⟨v, m, F, hF⟩ := chain_mem hb p c.1
      exact ⟨v, m, F * chain c.1 rs n, by rw [hF, mul_assoc]⟩
    · obtain ⟨v, m, F, hF⟩ := chain_mem hb c.1 n
      exact ⟨v, m, chain p ls c.1 * F, by rw [hF, mul_left_comm]⟩
  rw [chain_split, mul_left_comm, hF, ← mul_assoc, ← mul_assoc]
  exact mul_le_mul_left node_apart F

/-! ## Reading -/

theorem countLoop_spec {i : Nat} (hfuel : cs.length < fuel) :
    Reads (chain p cs 0) (countLoop fuel i (first cs 0)) (i + cs.length) := by
  induction cs generalizing p fuel i with
  | nil =>
    obtain ⟨fuel, rfl, -⟩ := turn hfuel
    exact Reads.pure _ _
  | cons c cs ih =>
    obtain ⟨fuel, rfl, hturn⟩ := turn hfuel
    refine Spec.known chain_ne.le fun hc => ?_
    rw [countLoop, first_cons, if_neg hc]
    refine (head_reads load_next).bind ?_
    rw [chain_cons, mul_comm, List.length_cons, Nat.add_comm cs.length, ← Nat.add_assoc]
    exact (ih hturn).frame _

/-- What `alpm_list_find` and `alpm_list_remove` look for. -/
def sought (fn : Nat → Nat → Int) (needle x : Nat) : Bool := x ≠ 0 ∧ fn x needle = 0

theorem sought_of {x : Nat} (h : x ≠ 0 ∧ fn x needle = 0) : sought fn needle x := decide_eq_true h

theorem not_sought_of {x : Nat} (h : ¬(x ≠ 0 ∧ fn x needle = 0)) : ¬sought fn needle x :=
  mt of_decide_eq_true h

/-- The `data` that `alpm_list_find` returns. -/
def found (fn : Nat → Nat → Int) (needle : Nat) (xs : List Nat) : Nat :=
  (xs.find? (sought fn needle)).getD 0

theorem alpmListFind_spec (hfuel : cs.length < fuel) :
    Reads (chain p cs 0) (alpmListFind fn fuel (first cs 0) needle)
      (found fn needle (cs.map (·.2))) := by
  induction cs generalizing p fuel with
  | nil =>
    obtain ⟨fuel, rfl, -⟩ := turn hfuel
    exact Reads.pure _ _
  | cons c cs ih =>
    obtain ⟨fuel, rfl, hturn⟩ := turn hfuel
    refine Spec.known chain_ne.le fun hc => ?_
    rw [alpmListFind, first_cons, if_neg hc]
    refine (head_reads load_data).bind ?_
    rw [found, List.map_cons]
    by_cases h : c.2 ≠ 0 ∧ fn c.2 needle = 0
    · rw [if_pos h, List.find?_cons_of_pos (sought_of h)]
      exact head_reads load_data
    · rw [if_neg h, List.find?_cons_of_neg (not_sought_of h)]
      refine (head_reads load_next).bind ?_
      rw [chain_cons, mul_comm]
      exact (ih hturn).frame _

/-! ## Lists by their data -/

theorem le_isList {P : Blocks Nat} (hxs : cs.map (·.2) = xs) (hl : first cs 0 = l)
    (hP : P ≤ ring cs) : P ≤ isList xs l := le_iSup_of_le cs (Assn.le_lift_mul ⟨hxs, hl⟩ hP)

theorem one_le_isList : 1 ≤ isList [] 0 := le_iSup_of_le [] (Assn.le_lift_mul ⟨rfl, rfl⟩ le_rfl)

/-- A list is some nodes. -/
theorem isList_cases {α : Type} {m : Cmd Nat α} {P : Blocks Nat} {T : α → Bool → Blocks Nat}
    (h : ∀ cs : Nodes, cs.map (·.2) = xs → first cs 0 = l → Spec (ring cs * P) m T) :
    Spec (isList xs l * P) m T := by
  rw [isList, Assn.iSup_mul]
  refine Spec.ex fun cs => ?_
  rw [mul_assoc]
  exact Spec.fact fun hcs => h cs hcs.1 hcs.2

theorem length_of_data (hcs : cs.map (·.2) = xs) : cs.length = xs.length := by
  rw [← hcs, List.length_map]

theorem free_isList (hfuel : xs.length < fuel) : Writes (isList xs l) (alpmListFree fuel l) 1 := by
  have hfree : Spec (isList xs l * 1) (alpmListFree fuel l) (sure fun _ => 1) := by
    refine isList_cases fun cs hcs hl => ?_
    rw [mul_one, ← hl]
    exact alpmListFree_spec ((length_of_data hcs).trans_lt hfuel)
  rwa [mul_one] at hfree

/-- What is read of a list. -/
theorem isList_reads {α : Type} {m : Cmd Nat α} {w : α}
    (h : ∀ cs : Nodes, cs.map (·.2) = xs → first cs 0 = l → Reads (ring cs) m w) :
    Reads (isList xs l) m w := by
  have hread : Spec (isList xs l * 1) m (sure fun v => Assn.lift (v = w) * isList xs l) := by
    refine isList_cases fun cs hcs hl => ?_
    rw [mul_one]
    exact Spec.weaken (h cs hcs hl) le_rfl fun v => mul_le_mul_right (le_isList hcs hl le_rfl) _
  rwa [mul_one] at hread

theorem find_isList (hfuel : xs.length < fuel) :
    Reads (isList xs l) (alpmListFind fn fuel l needle) (found fn needle xs) := by
  refine isList_reads fun cs hcs hl => ?_
  rw [← hcs, ← hl]
  exact alpmListFind_spec ((length_of_data hcs).trans_lt hfuel)

/-- Something is appended, or the list is given up. -/
theorem append_or {α : Type} {P : Blocks Nat} {z : Cmd Nat α} {k : Nat → Cmd Nat α}
    {T : α → Bool → Blocks Nat} (hlen : xs.length < total) (hno : Spec P z fun a _ => T a true)
    (hyes : ∀ l', Spec (isList (xs ++ [d]) l' * P) (k l') T) :
    Spec (isList xs l * P) (alpmListAppend place l d >>= fun q =>
      if q.1 = 0 then alpmListFree total q.2 >>= fun _ => z else k q.2) T := by
  refine isList_cases fun cs hcs hl => ?_
  rw [← hl]
  refine (alpmListAppend_spec d).step le_rfl fun q r => ?_
  cases r with
  | true =>
    rw [appended, if_pos rfl, mul_assoc]
    refine Spec.fact fun hq => ?_
    rw [hq, if_pos rfl]
    refine Writes.next (alpmListFree_spec ((length_of_data hcs).trans_lt hlen)) rfl ?_
    rw [one_mul]
    simpa only [Bool.true_or] using hno
  | false =>
    rw [appended, if_neg Bool.false_ne_true, mul_assoc]
    refine Spec.fact fun hq => ?_
    rw [if_neg hq.1]
    refine (hyes q.2).conseq (mul_le_mul_left (le_isList ?_ hq.2.symm le_rfl) P) fun _ _ => ?_
    · rw [List.map_append, hcs]
      rfl
    · rw [Bool.false_or]

/-! ## Copies -/

/-- The copy, or nothing where a node was refused. -/
def copied (xs : List Nat) (q : Nat) (r : Bool) : Blocks Nat := isList (if r then [] else xs) q

theorem copyLoop_spec (newlist : Nat) (ls rs : Nodes) (htotal : (ls ++ rs).length < total)
    (hfuel : rs.length < fuel) :
    Spec (isList (ls.map (·.2)) newlist * chain p (ls ++ rs) 0)
      (copyLoop place total fuel newlist (first rs 0))
      fun q r => copied ((ls ++ rs).map (·.2)) q r * chain p (ls ++ rs) 0 := by
  induction rs generalizing ls newlist fuel with
  | nil =>
    obtain ⟨fuel, rfl, -⟩ := turn hfuel
    rw [List.append_nil]
    exact Spec.pure le_rfl
  | cons c rs ih =>
    obtain ⟨fuel, rfl, hturn⟩ := turn hfuel
    have hc : c ∈ ls ++ c :: rs := List.mem_append_right ls List.mem_cons_self
    refine Spec.known (q := c.1 ≠ 0) ?_ fun hne => ?_
    · rw [mul_comm]
      exact at_ne_zero hc _
    rw [copyLoop, first_cons, if_neg hne]
    refine (at_reads load_data).next (mul_comm _ _) ?_
    have hlen : (ls.map (·.2)).length < total := by
      rw [List.length_map]
      rw [List.length_append] at htotal
      omega
    refine append_or (z := pure 0) (k := fun l' => do
      let lp ← load c.1 next
      copyLoop place total fuel l' lp) hlen (Spec.pure ?_) fun l' => ?_
    · exact (one_mul _).ge.trans (mul_le_mul_left one_le_isList _)
    · refine (at_reads load_next).next (mul_comm _ _) ?_
      have hloop := ih l' (ls ++ [c]) (by rwa [← List.append_cons]) hturn
      rwa [← List.append_cons, List.map_append] at hloop

/-- `xs` without what it has had before; `NULL` is not found. -/
def dedup (xs : List Nat) : List Nat :=
  xs.foldl (fun ys d => if found ptrCmp d ys = 0 then ys ++ [d] else ys) []

theorem dedup_concat (xs : List Nat) (d : Nat) :
    dedup (xs ++ [d]) = if found ptrCmp d (dedup xs) = 0 then dedup xs ++ [d] else dedup xs := by
  rw [dedup, List.foldl_append]
  rfl

theorem dedup_length (xs : List Nat) : (dedup xs).length ≤ xs.length := by
  induction xs using List.reverseRecOn with
  | nil => exact le_rfl
  | append_singleton xs d ih =>
    rw [dedup_concat, List.length_append]
    split
    · rw [List.length_append]
      exact Nat.add_le_add_right ih _
    · exact ih.trans (Nat.le_succ _)

theorem dupesLoop_spec (newlist : Nat) (ls rs : Nodes) (htotal : (ls ++ rs).length < total)
    (hfuel : rs.length < fuel) :
    Spec (isList (dedup (ls.map (·.2))) newlist * chain p (ls ++ rs) 0)
      (dupesLoop place total fuel newlist (first rs 0))
      fun q r => copied (dedup ((ls ++ rs).map (·.2))) q r * chain p (ls ++ rs) 0 := by
  induction rs generalizing ls newlist fuel with
  | nil =>
    obtain ⟨fuel, rfl, -⟩ := turn hfuel
    rw [List.append_nil]
    exact Spec.pure le_rfl
  | cons c rs ih =>
    obtain ⟨fuel, rfl, hturn⟩ := turn hfuel
    refine Spec.known (q := c.1 ≠ 0) ?_ fun hne => ?_
    · rw [mul_comm]
      exact at_ne_zero (List.mem_append_right ls List.mem_cons_self) _
    rw [dupesLoop, first_cons, if_neg hne]
    refine (at_reads load_data).next (mul_comm _ _) ?_
    have hlen : (dedup (ls.map (·.2))).length < total := by
      refine (dedup_length _).trans_lt ?_
      rw [List.length_map]
      rw [List.length_append] at htotal
      omega
    have hloop l' := ih l' (ls ++ [c]) (by rwa [← List.append_cons]) hturn
    rw [← List.append_cons, List.map_append, List.map_cons, List.map_nil, dedup_concat] at hloop
    refine (find_isList hlen).next rfl ?_
    split at hloop
    · rename_i hfound
      rw [if_pos hfound]
      refine append_or (z := pure 0) (k := fun l' => do
        let lp ← load c.1 next
        dupesLoop place total fuel l' lp) hlen (Spec.pure ?_) fun l' => ?_
      · exact (one_mul _).ge.trans (mul_le_mul_left one_le_isList _)
      · exact (at_reads load_next).next (mul_comm _ _) (hloop l')
    · rename_i hfound
      rw [if_neg hfound]
      exact (at_reads load_next).next (mul_comm _ _) (hloop newlist)

theorem reverseLoop_spec (newlist : Nat) (ls rs : Nodes) (htotal : (ls ++ rs).length < total)
    (hfuel : ls.length < fuel) :
    Spec (isList (rs.map (·.2)).reverse newlist * chain 0 (ls ++ rs) 0)
      (reverseLoop place total fuel newlist (lastOf 0 ls))
      fun q r => (if r then Assn.lift (q = none)
        else ⨆ l, Assn.lift (q = some l) * isList ((ls ++ rs).map (·.2)).reverse l) *
          chain 0 (ls ++ rs) 0 := by
  induction ls using List.reverseRecOn generalizing rs newlist fuel with
  | nil =>
    obtain ⟨fuel, rfl, -⟩ := turn hfuel
    refine Spec.pure (mul_le_mul_left (le_iSup_of_le newlist (Assn.le_lift_mul rfl le_rfl)) _)
  | append_singleton ls c ih =>
    obtain ⟨fuel, rfl, hturn⟩ := turn hfuel
    rw [List.append_assoc, List.singleton_append] at htotal ⊢
    refine Spec.known (q := c.1 ≠ 0) ?_ fun hne => ?_
    · rw [mul_comm]
      exact at_ne_zero (List.mem_append_right ls List.mem_cons_self) _
    rw [reverseLoop, lastOf_last, if_neg hne]
    refine (at_reads load_data).next (mul_comm _ _) ?_
    have hlen : (rs.map (·.2)).reverse.length < total := by
      rw [List.length_reverse, List.length_map]
      simp only [List.length_append, List.length_cons] at htotal
      omega
    refine append_or (z := pure none) (k := fun l' => do
      let lp ← load c.1 prev
      reverseLoop place total fuel l' lp) hlen (Spec.pure ?_) fun l' => ?_
    · exact (one_mul _).ge.trans (mul_le_mul_left (Assn.lift_of rfl).ge _)
    · refine (at_reads load_prev).next (mul_comm _ _) ?_
      have hloop := ih l' (c :: rs) htotal (by
        rw [List.length_append] at hturn
        exact hturn)
      rwa [List.map_cons, List.reverse_cons] at hloop

theorem ring_le_isList (hcs : cs.map (·.2) = xs) (hl : first cs 0 = l) : ring cs ≤ isList xs l :=
  le_isList hcs hl le_rfl

/-- A loop that makes a copy of a list, from its start. -/
theorem copy_of_loop {f : List Nat → List Nat} {m : Cmd Nat Nat}
    (h : ∀ cs : Nodes, cs.map (·.2) = xs → first cs 0 = l →
      Spec (isList [] 0 * ring cs) m fun q r => copied (f xs) q r * ring cs) :
    Spec (isList xs l) m fun q r => copied (f xs) q r * isList xs l := by
  have hcopy : Spec (isList xs l * 1) m fun q r => copied (f xs) q r * isList xs l := by
    refine isList_cases fun cs hcs hl => ?_
    refine (h cs hcs hl).conseq ?_ fun q r => mul_le_mul_right (ring_le_isList hcs hl) _
    rw [mul_comm]
    exact mul_le_mul_left one_le_isList _
  rwa [mul_one] at hcopy

theorem alpmListCopy_spec (hfuel : xs.length < fuel) :
    Spec (isList xs l) (alpmListCopy place fuel l) fun q r => copied xs q r * isList xs l := by
  refine copy_of_loop (f := id) fun cs hcs hl => ?_
  rw [← hcs, ← hl]
  have hlen := (length_of_data hcs).trans_lt hfuel
  exact copyLoop_spec 0 [] cs hlen hlen

theorem alpmListRemoveDupes_spec (hfuel : xs.length < fuel) :
    Spec (isList xs l) (alpmListRemoveDupes place fuel l) fun q r =>
      copied (dedup xs) q r * isList xs l := by
  refine copy_of_loop fun cs hcs hl => ?_
  rw [← hcs, ← hl]
  have hlen := (length_of_data hcs).trans_lt hfuel
  exact dupesLoop_spec 0 [] cs hlen hlen

theorem alpmListReverse_spec (hfuel : xs.length < fuel) :
    Spec (isList xs l) (alpmListReverse place fuel l) fun q r =>
      copied xs.reverse q r * isList xs l := by
  refine copy_of_loop fun cs hcs hl => ?_
  have hlen := (length_of_data hcs).trans_lt hfuel
  rw [← hl]
  cases cs with
  | nil =>
    rw [← hcs]
    exact Spec.pure le_rfl
  | cons c cs =>
    refine Spec.known (q := c.1 ≠ 0) ?_ fun hc => ?_
    · rw [mul_comm]
      exact chain_ne_mul _
    have hlast : Reads (ring (c :: cs)) (alpmListLast c.1) (lastOf 0 (c :: cs)) := by
      rw [alpmListLast, if_pos hc]
      exact head_reads load_prev
    rw [alpmListReverse, first_cons, if_neg hc]
    refine hlast.next (mul_comm _ _) ?_
    refine (head_reads load_prev).next (mul_comm _ _) ?_
    refine store_head_prev.next (mul_comm _ _) ?_
    have hloop : Spec _ (reverseLoop place fuel fuel 0 (lastOf 0 (c :: cs))) _ :=
      reverseLoop_spec 0 (c :: cs) [] (by rwa [List.append_nil]) hlen
    rw [List.append_nil, hcs] at hloop
    refine hloop.step (R := 1) ?_ fun q r => ?_
    · rw [mul_one, mul_comm]
      exact le_rfl
    · rw [mul_one]
      cases r with
      | true =>
        refine Spec.fact fun hq => ?_
        rw [hq]
        refine store_head_prev.next (mul_one _).symm (Spec.pure ?_)
        rw [mul_one]
        exact (one_mul _).ge.trans (mul_le_mul_left one_le_isList _)
      | false =>
        rw [if_neg Bool.false_ne_true, Assn.iSup_mul]
        refine Spec.ex fun newlist => ?_
        rw [mul_assoc]
        refine Spec.fact fun hq => ?_
        rw [hq]
        refine store_head_prev.next (mul_comm _ _) (Spec.pure ?_)
        rw [mul_comm]
        exact le_rfl

/-! ## Adding -/

/-- A list with something done to it, or as it was where a node was refused. -/
def changed (f : List Nat → List Nat) (xs : List Nat) (q : Nat) (r : Bool) : Blocks Nat :=
  isList (if r then xs else f xs) q

theorem alpmListAdd_spec : Spec (isList xs l) (alpmListAdd place l d) (changed (· ++ [d]) xs) := by
  have hadd : Spec (isList xs l * 1) (alpmListAdd place l d) (changed (· ++ [d]) xs) := by
    refine isList_cases fun cs hcs hl => ?_
    rw [mul_one, ← hl]
    refine (alpmListAppend_spec d).step (mul_one _).ge fun q r => Spec.pure ?_
    rw [mul_one]
    cases r with
    | true => exact Assn.lift_mul_le fun hq => le_isList hcs (by rw [hq]) le_rfl
    | false =>
      refine Assn.lift_mul_le fun hq => le_isList ?_ hq.2.symm le_rfl
      rw [List.map_append, hcs]
      rfl
  rwa [mul_one] at hadd

theorem alpmListJoin_spec {l' : Nat} : Spec (isList xs l * isList ys l') (alpmListJoin l l')
    (sure fun q => isList (xs ++ ys) q) := by
  refine isList_cases fun ls hls hl => ?_
  rw [mul_comm]
  refine isList_cases fun rs hrs hl' => ?_
  rw [mul_comm, ← hl, ← hl']
  have hmap : (ls ++ rs).map (·.2) = xs ++ ys := by rw [List.map_append, hls, hrs]
  cases ls with
  | nil =>
    exact Spec.ret ((one_mul _).le.trans (le_isList hmap rfl le_rfl))
  | cons c ls =>
    refine Spec.known (chain_ne_mul _) fun hc => ?_
    cases rs with
    | nil =>
      rw [alpmListJoin, first_cons, if_neg hc, first_nil, if_pos rfl]
      refine Spec.ret ((mul_one _).le.trans (le_isList ?_ rfl le_rfl))
      rw [← hmap, List.append_nil]
    | cons d rs =>
      refine Spec.known (q := d.1 ≠ 0) ?_ fun hd => ?_
      · rw [mul_comm]
        exact chain_ne_mul _
      rw [alpmListJoin, first_cons, first_cons, if_neg hc, if_neg hd]
      refine (head_reads load_prev).next rfl ?_
      refine (store_last_next (p := lastOf 0 (c :: ls)) (List.cons_ne_nil c ls)).next rfl ?_
      refine (head_reads load_prev).next (mul_comm _ _) ?_
      refine store_head_prev.next rfl ?_
      rw [mul_comm]
      refine store_head_prev.next rfl (Spec.ret (le_isList hmap rfl ?_))
      rw [ring, chain_append, mul_comm, lastOf_append]
      exact le_rfl

/-- Where `alpm_list_add_sorted` goes past. -/
def past (fn : Nat → Nat → Int) (d : Nat) (c : Nat × Nat) : Bool := !decide (fn d c.2 ≤ 0)

theorem insertionPoint_spec (ls rs : Nodes) (hfuel : rs.length < fuel) :
    Reads (chain p (ls ++ rs) 0) (insertionPoint fn d fuel (lastOf 0 ls) (first rs 0))
      (lastOf 0 (ls ++ rs.takeWhile (past fn d)), first (rs.dropWhile (past fn d)) 0) := by
  induction rs generalizing ls fuel with
  | nil =>
    obtain ⟨fuel, rfl, -⟩ := turn hfuel
    rw [List.takeWhile_nil, List.append_nil]
    exact Reads.pure _ _
  | cons c rs ih =>
    obtain ⟨fuel, rfl, hturn⟩ := turn hfuel
    refine Spec.known (q := c.1 ≠ 0) ?_ fun hne => ?_
    · rw [← mul_one (chain p _ 0)]
      exact at_ne_zero (List.mem_append_right ls List.mem_cons_self) _
    rw [insertionPoint, first_cons, if_neg hne]
    refine (at_reads load_data).bind ?_
    by_cases hcmp : fn d c.2 ≤ 0
    · have hpast : past fn d c = false := by rw [past, decide_eq_true hcmp, Bool.not_true]
      rw [if_pos hcmp, List.takeWhile_cons_of_neg (by rw [hpast]; exact Bool.false_ne_true),
        List.dropWhile_cons_of_neg (by rw [hpast]; exact Bool.false_ne_true), List.append_nil]
      exact Reads.pure _ _
    · have hpast : past fn d c = true := by rw [past, decide_eq_false hcmp, Bool.not_false]
      rw [if_neg hcmp, List.takeWhile_cons_of_pos hpast, List.dropWhile_cons_of_pos hpast]
      refine (at_reads load_next).bind ?_
      have hloop := ih (ls ++ [c]) hturn
      rwa [← List.append_cons, lastOf_last, ← List.append_cons] at hloop

/-- A new node, between two that follow each other. -/
theorem insert_spec {a : Nat} (ls rs : Nodes) (hne : ls ++ rs ≠ []) :
    Spec (pts a [some d, none, none] * ring (ls ++ rs)) (
      if lastOf 0 ls = 0 then do
        let l ← load (first (ls ++ rs) 0) prev
        store a prev l
        store a next (first (ls ++ rs) 0)
        store (first (ls ++ rs) 0) prev a
        return a
      else if first rs 0 = 0 then do
        store a prev (lastOf 0 ls)
        store a next 0
        store (lastOf 0 ls) next a
        store (first (ls ++ rs) 0) prev a
        return first (ls ++ rs) 0
      else do
        store a prev (lastOf 0 ls)
        store a next (first rs 0)
        store (first rs 0) prev a
        store (lastOf 0 ls) next a
        return first (ls ++ rs) 0)
      (sure fun q => Assn.lift (q = first (ls ++ (a, d) :: rs) 0) * ring (ls ++ (a, d) :: rs)) := by
  cases ls with
  | nil =>
    obtain ⟨c, rs, rfl⟩ := List.exists_cons_of_ne_nil hne
    rw [lastOf_nil, if_pos rfl, List.nil_append, List.nil_append]
    refine (head_reads load_prev).next (mul_comm _ _) ?_
    refine (store_spec (show 1 < 3 by decide)).step_sure le_rfl fun _ => ?_
    refine (store_spec (show 2 < 3 by decide)).step_sure le_rfl fun _ => ?_
    refine store_head_prev.next (mul_comm _ _) (Spec.ret (Assn.le_lift_mul rfl ?_))
    rw [mul_comm]
    exact le_rfl
  | cons b ls =>
    refine Spec.known (q := lastOf 0 (b :: ls) ≠ 0) ?_ fun hlast => ?_
    · obtain ⟨c, hc, hlast⟩ := lastOf_mem (List.cons_ne_nil b ls) 0
      rw [hlast, mul_comm]
      exact at_ne_zero (List.mem_append_left rs hc) _
    rw [if_neg hlast]
    cases rs with
    | nil =>
      rw [first_nil, if_pos rfl, List.append_nil]
      refine (store_spec (show 1 < 3 by decide)).step_sure le_rfl fun _ => ?_
      refine (store_spec (show 2 < 3 by decide)).step_sure le_rfl fun _ => ?_
      refine (store_last_next (p := lastOf 0 (b :: ls)) (List.cons_ne_nil b ls)).next (mul_comm _ _) ?_
      refine store_head_prev.next rfl (Spec.ret (Assn.le_lift_mul rfl ?_))
      rw [ring_append]
      exact le_rfl
    | cons c rs =>
      refine Spec.known (q := c.1 ≠ 0) ?_ fun hc => ?_
      · rw [mul_comm]
        exact at_ne_zero (List.mem_append_right (b :: ls) List.mem_cons_self) _
      rw [first_cons, if_neg hc, ring, chain_append]
      refine (store_spec (show 1 < 3 by decide)).step_sure le_rfl fun _ => ?_
      refine (store_spec (show 2 < 3 by decide)).step_sure le_rfl fun _ => ?_
      rw [← mul_assoc]
      refine store_head_prev.next (mul_comm _ _) ?_
      rw [← mul_assoc, mul_comm]
      refine (store_last_next (p := lastOf 0 (b :: ls ++ c :: rs)) (List.cons_ne_nil b ls)).next rfl
        (Spec.ret (Assn.le_lift_mul rfl ?_))
      have htail : lastOf 0 (b :: ls ++ (a, d) :: c :: rs) = lastOf 0 (b :: ls ++ c :: rs) := by
        rw [lastOf_append, lastOf_append, lastOf_cons, lastOf_cons, lastOf_cons]
      rw [ring, chain_split, htail, mul_comm (chain a _ 0)]
      exact le_rfl

theorem orderedInsert_eq (fn : Nat → Nat → Int) (d : Nat) (cs : Nodes) (a : Nat) :
    (cs.takeWhile (past fn d) ++ (a, d) :: cs.dropWhile (past fn d)).map (·.2) =
      List.orderedInsert (fn · · ≤ 0) d (cs.map (·.2)) := by
  induction cs with
  | nil => rfl
  | cons c cs ih =>
    by_cases hcmp : fn d c.2 ≤ 0
    · have hpast : past fn d c = false := by rw [past, decide_eq_true hcmp, Bool.not_true]
      rw [List.map_cons, List.orderedInsert_cons, if_pos hcmp, List.takeWhile_cons, hpast,
        List.dropWhile_cons, hpast]
      rfl
    · have hpast : past fn d c = true := by rw [past, decide_eq_false hcmp, Bool.not_false]
      rw [List.map_cons, List.orderedInsert_cons, if_neg hcmp, ← ih, List.takeWhile_cons, hpast,
        List.dropWhile_cons, hpast]
      rfl

theorem ring_ne (hcs : cs ≠ []) : ring cs ≤ Assn.lift (first cs 0 ≠ 0) * ring cs := by
  cases cs with
  | nil => exact absurd rfl hcs
  | cons c cs => exact chain_ne.le

theorem alpmListAddSorted_spec (hfuel : xs.length < fuel) :
    Spec (isList xs l) (alpmListAddSorted place fn fuel l d)
      (changed (List.orderedInsert (fn · · ≤ 0) d) xs) := by
  have hadd : Spec (isList xs l * 1) (alpmListAddSorted place fn fuel l d)
      (changed (List.orderedInsert (fn · · ≤ 0) d) xs) := by
    refine isList_cases fun cs hcs hl => ?_
    rw [mul_one, ← hl]
    by_cases hne : cs = []
    · rw [← hcs, hne]
      exact alpmListAdd_spec.conseq one_le_isList fun _ _ => le_rfl
    · refine Spec.known (ring_ne hne) fun hfirst => ?_
      rw [alpmListAddSorted, if_neg hfirst]
      refine Spec.alloc_then (Spec.pure (ring_le_isList hcs rfl)) fun a _ => ?_
      refine (store_spec (show 0 < 3 by decide)).step_sure le_rfl fun _ => ?_
      have hpoint : Reads (ring cs) (insertionPoint fn d fuel 0 (first cs 0)) _ :=
        insertionPoint_spec [] cs ((length_of_data hcs).trans_lt hfuel)
      have hinsert := insert_spec (d := d) (a := a) (cs.takeWhile (past fn d)) (cs.dropWhile (past fn d))
        (by rwa [List.takeWhile_append_dropWhile])
      rw [List.takeWhile_append_dropWhile] at hinsert
      refine hpoint.next (mul_comm _ _) (hinsert.conseq le_rfl (sure_le fun q => ?_))
      exact Assn.lift_mul_le fun hq => le_isList (hcs ▸ orderedInsert_eq fn d cs a) hq.symm le_rfl
  rwa [mul_one] at hadd

/-! ## Removing -/

/-- A node that is in no list. -/
def loose (c : Nat × Nat) : Blocks Nat := ⨆ v, ⨆ m, node c.1 c.2 v m

theorem node_le_loose {v m : Nat} : node c.1 c.2 v m ≤ loose c := le_iSup_of_le v (le_iSup_of_le m le_rfl)

/-- What `alpm_list_remove_item` leaves. -/
def removed (ls rs : Nodes) (c : Nat × Nat) (q : Nat) : Blocks Nat :=
  Assn.lift (q = first (ls ++ rs) 0) * (ring (ls ++ rs) * loose c)

theorem ifSet_pos (hp : p ≠ 0) (m : Cmd Nat Unit) : ifSet p m = m := if_neg hp

theorem removeHead_spec :
    Spec (ring (c :: rs)) (alpmListRemoveItem c.1 c.1) (sure (removed [] rs c)) := by
  refine Spec.known chain_ne.le fun hc => ?_
  rw [alpmListRemoveItem, if_neg (by simp [hc]), if_pos rfl]
  refine (head_reads load_next).next (mul_one _).symm ?_
  cases rs with
  | nil =>
    refine store_head_prev.next (mul_one _).symm (Spec.ret (Assn.le_lift_mul rfl ?_))
    rw [mul_one, chain_cons, chain_nil, mul_one]
    exact node_le_loose.trans (one_mul _).ge
  | cons d rs =>
    refine Spec.known (q := d.1 ≠ 0) ?_ fun hd => ?_
    · rw [← mul_one (ring _)]
      exact at_ne_zero (List.mem_cons_of_mem c List.mem_cons_self) 1
    have hlink : Writes (ring (c :: d :: rs)) (load c.1 prev >>= fun p => store d.1 prev p)
        (ring (d :: rs) * node c.1 c.2 (lastOf c.1 (d :: rs)) d.1) := by
      refine (head_reads load_prev).next (mul_one _).symm ?_
      rw [ring, chain_cons, mul_comm]
      exact store_head_prev.frame _
    rw [first_cons, ifSet_pos hd]
    refine hlink.next (mul_one _).symm ?_
    rw [mul_one, mul_comm]
    refine store_prev.next rfl (Spec.ret (Assn.le_lift_mul rfl ?_))
    rw [mul_comm]
    exact mul_le_mul_right node_le_loose _

/-- The last node of a list with others before it. -/
theorem removeLast_spec (hls : ls ≠ []) (hp : p = lastOf 0 ls) :
    Writes (ring (ls ++ [c])) (do
      let n ← load c.1 next
      store p next n
      store (first ls 0) prev p
      store c.1 prev 0) (ring ls * loose c) := by
  have hlast : p = lastOf c.1 ls := hp.trans (lastOf_ne hls _ _)
  rw [ring_append]
  refine load_next.next (mul_comm _ _) ?_
  rw [hlast]
  refine (store_last_next hls).next rfl ?_
  refine (ring_of_chain hls rfl (lastOf_ne hls _ _)).next rfl ?_
  rw [mul_comm]
  refine (store_prev.frame (ring ls)).weaken le_rfl fun _ => ?_
  rw [mul_comm]
  exact mul_le_mul_right node_le_loose _

/-- A node with others before it and behind it. -/
theorem removeInner_spec {b : Nat} (hls : ls ≠ []) (hrs : rs ≠ []) :
    Spec (ring (ls ++ c :: rs)) (do
      let n ← load c.1 next
      ifSet n do
        let p ← load c.1 prev
        store n prev p
      let p ← load c.1 prev
      ifSet p do
        let n ← load c.1 next
        store p next n
      return b) (sure fun q => Assn.lift (q = b) * (ring (ls ++ rs) * loose c)) := by
  obtain ⟨d, rs, rfl⟩ := List.exists_cons_of_ne_nil hrs
  generalize htail : lastOf 0 (ls ++ c :: d :: rs) = tail
  have hring : ring (ls ++ d :: rs) = chain tail ls d.1 * chain (lastOf tail ls) (d :: rs) 0 := by
    rw [ring, chain_append, first_cons, ← htail, lastOf_append, lastOf_append, lastOf_cons, lastOf_cons,
      lastOf_cons]
  refine Spec.known (q := d.1 ≠ 0) ?_ fun hd => ?_
  · rw [← mul_one (ring _)]
    exact at_ne_zero (List.mem_append_right ls (List.mem_cons_of_mem c List.mem_cons_self)) 1
  refine Spec.known (q := lastOf tail ls ≠ 0) ?_ fun hlast => ?_
  · obtain ⟨e, he, hlast⟩ := lastOf_mem hls tail
    rw [hlast, ← mul_one (ring _)]
    exact at_ne_zero (List.mem_append_left _ he) 1
  rw [ring, htail]
  refine (at_reads load_next).next (mul_one _).symm ?_
  rw [chain_split, first_cons, ifSet_pos hd]
  have hprev : Writes (chain tail ls c.1 * (node c.1 c.2 (lastOf tail ls) d.1 * chain c.1 (d :: rs) 0))
      (load c.1 prev >>= fun p => store d.1 prev p)
      (chain tail ls c.1 * (node c.1 c.2 (lastOf tail ls) d.1 * chain (lastOf tail ls) (d :: rs) 0)) := by
    refine load_prev.next (mul_left_comm _ _ _) ?_
    rw [← mul_assoc, ← mul_assoc, mul_comm, mul_comm _ (chain _ (d :: rs) 0)]
    exact store_head_prev.frame _
  refine hprev.next (mul_one _).symm ?_
  rw [mul_one]
  refine load_prev.next (mul_left_comm _ _ _) ?_
  rw [ifSet_pos hlast]
  have hnext : Writes (chain tail ls c.1 * (node c.1 c.2 (lastOf tail ls) d.1 *
        chain (lastOf tail ls) (d :: rs) 0)) (load c.1 next >>= fun n => store (lastOf tail ls) next n)
      (chain tail ls d.1 * (node c.1 c.2 (lastOf tail ls) d.1 * chain (lastOf tail ls) (d :: rs) 0)) := by
    refine load_next.next (mul_left_comm _ _ _) ?_
    exact (store_last_next hls).frame _
  refine hnext.next (mul_one _).symm (Spec.ret (Assn.le_lift_mul rfl ?_))
  rw [mul_one, hring, mul_left_comm, mul_comm]
  exact mul_le_mul_right node_le_loose _

theorem alpmListRemoveItem_spec : Spec (ring (ls ++ c :: rs))
    (alpmListRemoveItem (first (ls ++ c :: rs) 0) c.1) (sure (removed ls rs c)) := by
  cases ls with
  | nil => exact removeHead_spec
  | cons b ls =>
    have hmem : c ∈ b :: ls ++ c :: rs := List.mem_append_right _ List.mem_cons_self
    refine Spec.known (q := c.1 ≠ 0) ?_ fun hc => ?_
    · rw [← mul_one (ring _)]
      exact at_ne_zero hmem 1
    refine Spec.known (q := b.1 ≠ 0) chain_ne.le fun hb => ?_
    refine Spec.known (chain_apart (List.mem_append_left rs (List.mem_cons_self (a := b) (l := ls))))
      fun hcb => ?_
    rw [alpmListRemoveItem, List.cons_append, first_cons, if_neg (by simp [hb, hc]), if_neg hcb]
    refine (head_reads load_prev).next (mul_one _).symm ?_
    cases rs with
    | nil =>
      rw [← List.cons_append, lastOf_last, if_pos rfl]
      obtain ⟨e, he, hlast⟩ := lastOf_mem (List.cons_ne_nil b ls) c.1
      refine Spec.known (q := e.1 ≠ 0) ?_ fun hne => ?_
      · rw [← mul_one (ring _)]
        exact at_ne_zero (List.mem_append_left [c] he) 1
      refine (at_reads load_prev).next (mul_one _).symm ?_
      rw [lastOf_cons, ← lastOf_cons c.1 b, hlast, ifSet_pos hne]
      refine (removeLast_spec (List.cons_ne_nil b ls) ?_).next (mul_one _).symm (Spec.ret ?_)
      · rw [← hlast, lastOf_cons, lastOf_cons]
      · rw [mul_one]
        refine Assn.le_lift_mul rfl ?_
        rw [List.append_nil]
    | cons d rs =>
      obtain ⟨e, he, hlast⟩ := lastOf_mem (List.cons_ne_nil d rs) c.1
      refine Spec.known (chain_apart (List.mem_append_right (b :: ls) he)) fun hce => ?_
      rw [← List.cons_append, lastOf_append, lastOf_cons _ c, hlast, if_neg hce]
      exact removeInner_spec (List.cons_ne_nil b ls) (List.cons_ne_nil d rs)

theorem loose_reads : Reads (loose c) (load c.1 data) c.2 := by
  refine Spec.ex fun v => Spec.ex fun m => ?_
  exact Spec.weaken load_data le_rfl fun w => mul_le_mul_right node_le_loose _

theorem free_loose : Writes (loose c) (free c.1) 1 := Spec.ex fun _ => Spec.ex fun _ => free_node

/-- What `alpm_list_remove` leaves, and what was removed. -/
def removal (fn : Nat → Nat → Int) (needle : Nat) (ys xs : List Nat) (q : Nat × Nat) : Blocks Nat :=
  Assn.lift (q.2 = found fn needle xs) * isList (ys ++ xs.eraseP (sought fn needle)) q.1

theorem removeLoop_spec (ls rs : Nodes) (hfuel : rs.length < fuel) :
    Spec (ring (ls ++ rs)) (removeLoop fn (first (ls ++ rs) 0) needle fuel (first rs 0))
      (sure (removal fn needle (ls.map (·.2)) (rs.map (·.2)))) := by
  induction rs generalizing ls fuel with
  | nil =>
    obtain ⟨fuel, rfl, -⟩ := turn hfuel
    exact Spec.ret (Assn.le_lift_mul rfl (le_isList (by rw [List.map_append]; rfl) rfl le_rfl))
  | cons c rs ih =>
    obtain ⟨fuel, rfl, hturn⟩ := turn hfuel
    refine Spec.known (q := c.1 ≠ 0) ?_ fun hne => ?_
    · rw [← mul_one (ring _)]
      exact at_ne_zero (List.mem_append_right ls List.mem_cons_self) 1
    rw [removeLoop, first_cons, if_neg hne]
    refine (at_reads load_data).next (mul_one _).symm ?_
    by_cases hc : c.2 ≠ 0 ∧ fn c.2 needle = 0
    · rw [if_neg hc.1, if_pos hc.2]
      refine alpmListRemoveItem_spec.step_sure (mul_one _).ge fun q => ?_
      rw [mul_one, removed]
      refine Spec.fact fun hq => ?_
      refine loose_reads.next (mul_comm _ _) ?_
      refine free_loose.next (mul_comm _ _) (Spec.ret ?_)
      rw [one_mul]
      refine Assn.le_lift_mul ?_ (le_isList ?_ hq.symm le_rfl)
      · rw [found, List.map_cons, List.find?_cons_of_pos (sought_of hc)]
        rfl
      · rw [List.map_cons, List.eraseP_cons_of_pos (sought_of hc), List.map_append]
    · have hloop := ih (ls ++ [c]) hturn
      have hdata : removal fn needle (ls.map (·.2)) ((c :: rs).map (·.2)) =
          removal fn needle ((ls ++ [c]).map (·.2)) (rs.map (·.2)) := by
        funext q
        rw [removal, removal, found, found, List.map_cons, List.map_append,
          List.find?_cons_of_neg (not_sought_of hc), List.eraseP_cons_of_neg (not_sought_of hc),
          List.append_assoc]
        rfl
      have hnext : Spec (ring (ls ++ c :: rs)) (load c.1 next >>= fun i =>
          removeLoop fn (first (ls ++ c :: rs) 0) needle fuel i)
          (sure (removal fn needle (ls.map (·.2)) ((c :: rs).map (·.2)))) := by
        refine (at_reads load_next).next (mul_one _).symm ?_
        rw [hdata]
        rwa [← List.append_cons] at hloop
      by_cases hnull : c.2 = 0
      · rw [if_pos hnull]
        exact hnext
      · rw [if_neg hnull, if_neg fun hcmp => hc ⟨hnull, hcmp⟩]
        exact hnext

theorem alpmListRemove_spec (hfuel : xs.length < fuel) :
    Spec (isList xs l) (alpmListRemove fn fuel l needle)
      (sure fun q => if needle = 0 then Assn.lift (q.2 = 0) * isList xs q.1
        else removal fn needle [] xs q) := by
  have hremove : Spec (isList xs l * 1) (alpmListRemove fn fuel l needle)
      (sure fun q => if needle = 0 then Assn.lift (q.2 = 0) * isList xs q.1
        else removal fn needle [] xs q) := by
    refine isList_cases fun cs hcs hl => ?_
    rw [mul_one, ← hl, alpmListRemove]
    by_cases hneedle : needle = 0
    · rw [if_pos hneedle]
      refine Spec.ret ?_
      rw [if_pos hneedle]
      exact Assn.le_lift_mul rfl (le_isList hcs rfl le_rfl)
    · rw [if_neg hneedle]
      refine Spec.weaken (removeLoop_spec [] cs ((length_of_data hcs).trans_lt hfuel)) le_rfl
        fun q => ?_
      rw [if_neg hneedle, ← hcs]
      exact le_rfl
  rwa [mul_one] at hremove

/-! ## Sorting and difference -/

/-- A sort in place. -/
theorem sort_isList (hfn : Compares fn) (hn : n = xs.length) (hfuel : n < fuel) :
    Spec (isList xs l) (alpmListMsort fn fuel l n)
      (sure fun q => isList (xs.mergeSort (atMost fn)) q) := by
  have hsort : Spec (isList xs l * 1) (alpmListMsort fn fuel l n)
      (sure fun q => isList (xs.mergeSort (atMost fn)) q) := by
    refine isList_cases fun cs hcs hl => ?_
    have hlen : n = cs.length := hn.trans (length_of_data hcs).symm
    rw [mul_one, ← hl]
    refine Spec.weaken (alpmListMsort_spec hlen hfuel) le_rfl fun q => Assn.lift_mul_le fun hq => ?_
    rw [hq, msort_eq hfn fuel (hlen ▸ hfuel.le)]
    refine le_isList ?_ rfl le_rfl
    rw [sorted_data, hcs]
  rwa [mul_one] at hsort

theorem count_isList (hfuel : xs.length < fuel) :
    Reads (isList xs l) (alpmListCount fuel l) xs.length := by
  refine isList_reads fun cs hcs hl => ?_
  have hlen := length_of_data hcs
  rw [← hl, ← hlen, ← Nat.zero_add cs.length]
  exact countLoop_spec (hlen.trans_lt hfuel)

/-- The node is added, or the list is as it was; and on. -/
theorem add_step {α : Type} {P : Blocks Nat} {k : Nat → Cmd Nat α} {T : α → Bool → Blocks Nat}
    (h : ∀ zs l' r, (r = false → zs = xs ++ [d]) → zs.length ≤ xs.length + 1 →
      Spec (isList zs l' * P) (k l') fun a r' => T a (r || r')) :
    Spec (isList xs l * P) (alpmListAdd place l d >>= k) T := by
  refine alpmListAdd_spec.step le_rfl fun l' r => h _ l' r (fun hr => by rw [hr]; rfl) ?_
  split
  · exact Nat.le_succ _
  · rw [List.length_append, List.length_singleton]

/-- A list of at most `k` nodes, which is `xs` where no node was refused. -/
def attempted (k : Nat) (xs : List Nat) (q : Nat) (r : Bool) : Blocks Nat :=
  ⨆ zs, Assn.lift ((r = false → zs = xs) ∧ zs.length ≤ k) * isList zs q

theorem attempted_mono {k k' q : Nat} {r r' : Bool} (h : r = false → xs = ys) (hk : k ≤ k') :
    attempted k xs q r' ≤ attempted k' ys q (r || r') := by
  refine iSup_mono fun zs => Assn.lift_mul_le fun hzs => Assn.le_lift_mul ⟨fun hr => ?_, ?_⟩ le_rfl
  · rw [Bool.or_eq_false_iff] at hr
    rw [hzs.1 hr.2, h hr.1]
  · exact hzs.2.trans hk

theorem minus_nil_right (xs : List Nat) : StableSort.minus (atMost fn) xs [] = xs := by
  cases xs with
  | nil => rw [StableSort.minus]
  | cons x xs => rw [StableSort.minus]

/-- What `alpm_list_diff_sorted` adds to `zs` for what is left of two lists. -/
def only (fn : Nat → Nat → Int) (zs : List Nat) (rs rs' : Nodes) : List Nat :=
  zs ++ StableSort.minus (atMost fn) (rs.map (·.2)) (rs'.map (·.2))

theorem only_nil (zs : List Nat) (rs' : Nodes) : only fn zs [] rs' = zs := by
  rw [only, List.map_nil, StableSort.minus, List.append_nil]

theorem only_left (zs : List Nat) (c : Nat × Nat) (rs : Nodes) :
    only fn (zs ++ [c.2]) rs [] = only fn zs (c :: rs) [] := by
  rw [only, only, List.map_nil, minus_nil_right, minus_nil_right, List.map_cons, ← List.append_cons]

section
variable {c d : Nat × Nat} {zs : List Nat} {rs rs' : Nodes}

theorem only_less (hfn : Compares fn) (h : fn c.2 d.2 < 0) :
    only fn (zs ++ [c.2]) rs (d :: rs') = only fn zs (c :: rs) (d :: rs') := by
  have hle : atMost fn c.2 d.2 := decide_eq_true h.le
  have hnot : ¬atMost fn d.2 c.2 := fun hdc => by
    have := (hfn.sign d.2 c.2).2 h
    have := of_decide_eq_true hdc
    omega
  rw [only, only, List.map_cons, List.map_cons, StableSort.minus, if_pos hle, if_neg hnot, ← List.append_cons]

theorem only_greater (h : 0 < fn c.2 d.2) :
    only fn zs (c :: rs) rs' = only fn zs (c :: rs) (d :: rs') := by
  have hnot : ¬atMost fn c.2 d.2 := fun hcd => by
    have := of_decide_eq_true hcd
    omega
  rw [only, only, List.map_cons, List.map_cons, StableSort.minus, if_neg hnot]

theorem only_same (hfn : Compares fn) (h : ¬fn c.2 d.2 < 0) (h' : ¬0 < fn c.2 d.2) :
    only fn zs rs rs' = only fn zs (c :: rs) (d :: rs') := by
  have hle : atMost fn c.2 d.2 := decide_eq_true (by omega)
  have hle' : atMost fn d.2 c.2 := decide_eq_true (by
    have := hfn.sign d.2 c.2
    omega)
  rw [only, only, List.map_cons, List.map_cons, StableSort.minus, if_pos hle, if_pos hle']

end

theorem diffLoop_spec (hfn : Compares fn) {p' : Nat} (zs : List Nat) (onlyleft : Nat)
    (ls rs ls' rs' : Nodes)
    (hfuel : rs.length + rs'.length < fuel) :
    Spec (isList zs onlyleft * (chain p (ls ++ rs) 0 * chain p' (ls' ++ rs') 0))
      (diffLoop place fn fuel onlyleft (first rs 0) (first rs' 0))
      fun q r => attempted (zs.length + rs.length) (only fn zs rs rs') q r *
        (chain p (ls ++ rs) 0 * chain p' (ls' ++ rs') 0) := by
  induction fuel generalizing zs onlyleft ls rs ls' rs' with
  | zero => exact absurd hfuel (Nat.not_lt_zero _)
  | succ fuel ih =>
    have hright (A B C : Blocks Nat) : A * (B * C) = C * (A * B) := by
      rw [mul_comm C, mul_assoc]
    cases rs with
    | nil =>
      cases rs' with
      | nil =>
        rw [diffLoop, first_nil, if_neg (fun h => h.1 rfl), if_neg (not_not_intro rfl),
          if_neg (not_not_intro rfl), only_nil]
        exact Spec.pure (mul_le_mul_left
          (le_iSup_of_le zs (Assn.le_lift_mul ⟨fun _ => rfl, le_rfl⟩ le_rfl)) _)
      | cons d rs' =>
        refine Spec.known (q := d.1 ≠ 0) ?_ fun hd => ?_
        · rw [hright]
          exact at_ne_zero (List.mem_append_right ls' List.mem_cons_self) _
        rw [diffLoop, first_nil, first_cons, if_neg (fun h => h.1 rfl), if_neg (not_not_intro rfl),
          if_pos hd, only_nil]
        refine (at_reads load_next).next (hright _ _ _) ?_
        have hloop := ih zs onlyleft ls [] (ls' ++ [d]) rs'
          (by simp only [List.length_cons] at hfuel; omega)
        rwa [← List.append_cons, only_nil] at hloop
    | cons c rs =>
      refine Spec.known (q := c.1 ≠ 0) ?_ fun hc => ?_
      · rw [mul_left_comm]
        exact at_ne_zero (List.mem_append_right ls List.mem_cons_self) _
      cases rs' with
      | nil =>
        rw [diffLoop, first_cons, first_nil, if_neg (fun h => h.2 rfl), if_pos hc]
        refine (at_reads load_data).next (mul_left_comm _ _ _) (add_step fun zs' l' r hzs hlen => ?_)
        refine (at_reads load_next).next (mul_left_comm _ _ _) ?_
        have hloop := ih zs' l' (ls ++ [c]) rs ls' [] (Nat.lt_of_succ_lt_succ hfuel)
        rw [← List.append_cons] at hloop
        refine hloop.conseq le_rfl fun q r' => mul_le_mul_left (attempted_mono (fun hr => ?_) ?_) _
        · rw [hzs hr, only_left]
        · rw [List.length_cons]
          omega
      | cons d rs' =>
        refine Spec.known (q := d.1 ≠ 0) ?_ fun hd => ?_
        · rw [hright]
          exact at_ne_zero (List.mem_append_right ls' List.mem_cons_self) _
        rw [diffLoop, first_cons, first_cons, if_pos ⟨hc, hd⟩]
        simp only [List.length_cons] at hfuel
        refine (at_reads load_data).next (mul_left_comm _ _ _) ?_
        refine (at_reads load_data).next (hright _ _ _) ?_
        by_cases hless : fn c.2 d.2 < 0
        · rw [if_pos hless]
          refine add_step fun zs' l' r hzs hlen => ?_
          refine (at_reads load_next).next (mul_left_comm _ _ _) ?_
          have hloop := ih zs' l' (ls ++ [c]) rs ls' (d :: rs') (by simp only [List.length_cons]; omega)
          rw [← List.append_cons] at hloop
          refine hloop.conseq le_rfl fun q r' => mul_le_mul_left (attempted_mono (fun hr => ?_) ?_) _
          · rw [hzs hr, only_less hfn hless]
          · rw [List.length_cons]
            omega
        · rw [if_neg hless]
          by_cases hgreater : 0 < fn c.2 d.2
          · rw [if_pos hgreater]
            refine (at_reads load_next).next (hright _ _ _) ?_
            have hloop := ih zs onlyleft ls (c :: rs) (ls' ++ [d]) rs'
              (by simp only [List.length_cons]; omega)
            rwa [← List.append_cons, only_greater hgreater] at hloop
          · rw [if_neg hgreater]
            refine (at_reads load_next).next (mul_left_comm _ _ _) ?_
            refine (at_reads load_next).next (hright _ _ _) ?_
            have hloop := ih zs onlyleft (ls ++ [c]) rs (ls' ++ [d]) rs' (by omega)
            rw [← List.append_cons, ← List.append_cons, only_same hfn hless hgreater] at hloop
            refine hloop.conseq le_rfl fun q r' => mul_le_mul_left ?_ _
            exact attempted_mono (r := false) (fun _ => rfl) (Nat.add_le_add_left (Nat.le_succ _) _)

/-- A sorted copy, of nothing where a node was refused; and on. -/
theorem sortedCopy_step {α : Type} {P Q R : Blocks Nat} {k : Nat → Cmd Nat α}
    {T : α → Bool → Blocks Nat} (hfn : Compares fn) (hfuel : xs.length < fuel) (hP : P = isList xs l * R)
    (h : ∀ zs q r, zs.length ≤ xs.length → (r = false → zs = xs.mergeSort (atMost fn)) →
      Spec (isList zs q * Q * P) (k q) fun a r' => T a (r || r')) :
    Spec (Q * P) (do
      let left ← alpmListCopy place fuel l
      let n ← alpmListCount fuel left
      let left ← alpmListMsort fn (n + 1) left n
      k left) T := by
  refine (alpmListCopy_spec hfuel).step (R := Q * R) ?_ fun q r => ?_
  · rw [hP, mul_left_comm]
  rw [copied, mul_assoc]
  generalize hzs : (if r then [] else xs) = zs
  have hlen : zs.length ≤ xs.length := by
    rw [← hzs]
    split
    · exact Nat.zero_le _
    · exact le_rfl
  refine (count_isList (hlen.trans_lt hfuel)).next rfl ?_
  refine (sort_isList hfn rfl (Nat.lt_succ_self _)).step_sure le_rfl fun q' => ?_
  have hrest (A B C D : Blocks Nat) : A * (B * (C * D)) = A * C * (B * D) := by ac_rfl
  rw [hrest, ← hP]
  refine h _ q' r ?_ fun hr => ?_
  · rwa [List.length_mergeSort]
  · rw [← hzs, hr]
    rfl

/-- What `alpm_list_diff` returns. -/
def difference (fn : Nat → Nat → Int) (xs ys : List Nat) : List Nat :=
  StableSort.minus (atMost fn) (xs.mergeSort (atMost fn)) (ys.mergeSort (atMost fn))

theorem difference_length (fn : Nat → Nat → Int) (xs ys : List Nat) :
    (difference fn xs ys).length ≤ xs.length :=
  ((StableSort.minus_sublist _ _ _).length_le).trans (List.length_mergeSort xs).le

theorem diffSorted_spec (hfn : Compares fn) {l' : Nat} (hfuel : xs.length + ys.length < fuel) :
    Spec (isList xs l * isList ys l') (diffLoop place fn fuel 0 l l')
      fun q r => attempted xs.length (StableSort.minus (atMost fn) xs ys) q r *
        (isList xs l * isList ys l') := by
  refine isList_cases fun cs hcs hl => ?_
  rw [mul_comm]
  refine isList_cases fun ds hds hl' => ?_
  rw [mul_comm, ← hl, ← hl']
  have hloop : Spec (isList [] 0 * (ring cs * ring ds))
      (diffLoop place fn fuel 0 (first cs 0) (first ds 0)) _ :=
    diffLoop_spec hfn [] 0 [] cs [] ds (by rwa [length_of_data hcs, length_of_data hds])
  refine hloop.conseq ((one_mul _).ge.trans (mul_le_mul_left one_le_isList _)) fun q r => ?_
  rw [only, List.nil_append, hcs, hds, length_of_data hcs, List.length_nil, Nat.zero_add]
  exact mul_le_mul_right (mul_le_mul' (ring_le_isList hcs rfl) (ring_le_isList hds rfl)) _

theorem alpmListDiff_spec {P R R' : Blocks Nat} (hfn : Compares fn) {l' : Nat} (hxs : xs.length < fuel)
    (hys : ys.length < fuel) (hP : P = isList xs l * R) (hP' : P = isList ys l' * R') :
    Spec P (alpmListDiff place fn fuel l l') fun q r =>
      attempted xs.length (difference fn xs ys) q r * P := by
  rw [← one_mul P]
  refine sortedCopy_step hfn hxs hP fun zs q r hzs hz => ?_
  refine sortedCopy_step hfn hys hP' fun zs' q' r' hzs' hz' => ?_
  have hloop : Spec (isList zs q * isList zs' q') (diffLoop place fn (2 * fuel) 0 q q') _ :=
    diffSorted_spec hfn (by omega)
  refine hloop.step (R := P) ?_ fun ret r'' => ?_
  · rw [mul_one, mul_comm (isList zs' q')]
  · rw [attempted, Assn.iSup_mul, Assn.iSup_mul]
    refine Spec.ex fun us => ?_
    rw [mul_assoc, mul_assoc]
    refine Spec.fact fun hus => ?_
    have hall (A B C D : Blocks Nat) : A * (B * C * D) = B * (C * (A * D)) := by ac_rfl
    rw [hall]
    refine (free_isList (by omega)).next rfl ?_
    rw [one_mul]
    refine (free_isList (by omega)).next rfl (Spec.pure ?_)
    rw [one_mul, one_mul]
    refine mul_le_mul_left (le_iSup_of_le us (Assn.le_lift_mul ⟨fun hr => ?_, hus.2.trans hzs⟩ le_rfl)) _
    simp only [Bool.or_eq_false_iff] at hr
    rw [hus.1 hr.2.2.1, hz hr.1, hz' hr.2.1, difference]

theorem difference_sorted (hfn : Compares fn) (xs ys : List Nat) :
    StableSort.Sorted (atMost fn) (difference fn xs ys) :=
  (List.pairwise_mergeSort hfn.atMost.trans hfn.atMost.total xs).sublist
    (StableSort.minus_sublist _ _ _)

theorem filter_difference (hfn : Compares fn) (xs ys : List Nat) (a : Nat) :
    (difference fn xs ys).filter (StableSort.same (atMost fn) a) =
      (xs.filter (StableSort.same (atMost fn) a)).drop (ys.countP (StableSort.same (atMost fn) a)) := by
  have hsorted (zs : List Nat) := List.pairwise_mergeSort hfn.atMost.trans hfn.atMost.total zs
  rw [difference, StableSort.filter_minus hfn.atMost (hsorted xs) (hsorted ys),
    StableSort.filter_mergeSort hfn.atMost, (List.mergeSort_perm ys _).countP_eq]

/-- The difference of two lists, which may be one: what is new in memory is a list in order that has,
of the elements `fn` does not tell apart, those of the first list past as many as the second has. -/
theorem alpmListDiff_leaves {P R R' : Blocks Nat} (hfn : Compares fn) {l' : Nat}
    (hP : P = isList xs l * R) (hP' : P = isList ys l' * R') (hxs : xs.length < fuel)
    (hys : ys.length < fuel) {s : Mem Nat} (hs : P.Holds s.heap) (hnone : s.refused = false) :
    ∃ q s' zs, alpmListDiff place fn fuel l l' s = .ok q s' ∧ (isList zs q * P).Holds s'.heap ∧
      (s'.refused = false → StableSort.Sorted (atMost fn) zs ∧
        ∀ a, zs.filter (StableSort.same (atMost fn) a) =
          (xs.filter (StableSort.same (atMost fn) a)).drop
            (ys.countP (StableSort.same (atMost fn) a))) := by
  have hdiff : Spec P (alpmListDiff place fn fuel l l') _ := alpmListDiff_spec hfn hxs hys hP hP'
  obtain ⟨q, s', r, hok, hr, hpost⟩ := hdiff.run ((mul_one P).symm ▸ hs)
  rw [mul_one, attempted, Assn.iSup_mul, Assn.holds_iSup] at hpost
  obtain ⟨zs, hpost⟩ := hpost
  rw [mul_assoc] at hpost
  obtain ⟨hzs, hlists⟩ := Assn.holds_lift_mul.1 hpost
  rw [hnone, Bool.false_or] at hr
  refine ⟨q, s', zs, hok, hlists, fun hr' => ?_⟩
  rw [hzs.1 (hr ▸ hr')]
  exact ⟨difference_sorted hfn xs ys, filter_difference hfn xs ys⟩

/-- Numbers, by their size. -/
theorem compares_sub : Compares fun x y => (x : Int) - y :=
  ⟨fun x y => by omega, fun x y z hxy hyz => by omega⟩

/-- The nodes of two lists. -/
def fives : Nodes := [(8, 5), (16, 3), (24, 5), (32, 3)]

def fours : Nodes := [(40, 4), (48, 5), (56, 4)]

/-- The blocks of `fives` and `fours`. -/
def twoLists : Heap Nat (List (Option Nat)) :=
  [(8, 5, 32, 16), (16, 3, 8, 24), (24, 5, 16, 32), (32, 3, 24, 0), (40, 4, 56, 48), (48, 5, 40, 56),
    (56, 4, 48, 0)].foldr
      (fun c h => Function.update h c.1 (some [some c.2.1, some c.2.2.1, some c.2.2.2])) Heap.empty

theorem rings_twoLists : (ring fives * ring fours).Holds twoLists := by
  have hnodes : ring fives * ring fours = node 8 5 32 16 * (node 16 3 8 24 * (node 24 5 16 32 *
      (node 32 3 24 0 * (node 40 4 56 48 * (node 48 5 40 56 * (node 56 4 48 0 * 1)))))) := by
    simp only [ring, fives, fours, chain, lastOf, first, mul_assoc, one_mul]
  rw [hnodes]
  iterate 7 refine holds_pts_update (by decide) rfl ?_
  rfl

theorem alpmListDiff_leaves_twoLists : ∃ q s' zs,
    alpmListDiff (fun k => 64 + 8 * k) (fun x y => (x : Int) - y) 5 8 40 { heap := twoLists } = .ok q s' ∧
    (isList zs q * (isList [5, 3, 5, 3] 8 * isList [4, 5, 4] 40)).Holds s'.heap ∧
    (s'.refused = false → StableSort.Sorted (atMost fun x y => (x : Int) - y) zs ∧
      ∀ a, zs.filter (StableSort.same (atMost fun x y => (x : Int) - y) a) =
        ([5, 3, 5, 3].filter (StableSort.same (atMost fun x y => (x : Int) - y) a)).drop
          ([4, 5, 4].countP (StableSort.same (atMost fun x y => (x : Int) - y) a))) := by
  have hfives : ring fives ≤ isList [5, 3, 5, 3] 8 := le_isList rfl rfl le_rfl
  have hfours : ring fours ≤ isList [4, 5, 4] 40 := le_isList rfl rfl le_rfl
  exact alpmListDiff_leaves compares_sub rfl (mul_comm _ _) (by decide) (by decide)
    (rings_twoLists.mono (mul_le_mul' hfives hfours)) rfl

end Client.AlpmList
