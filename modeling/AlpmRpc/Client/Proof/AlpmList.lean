import AlpmRpc.Client.AlpmList

/-!
# What the list functions do to memory

`chain p cs n` is a row of nodes, each with its address and `data`, that has `p` before it and `n`
behind; a list is a chain whose head has the last node before it. Each function has one lemma that says
what it makes of the lists it is given.
-/

set_option autoImplicit false

namespace Client.AlpmList

open Store Sep

variable {place : Nat → Nat} {fn : Nat → Nat → Int}

/-! ## Nodes and chains -/

/-- The node at `a`. -/
def node (a x p n : Nat) : Blocks Nat := pts a [some x, some p, some n]

/-- Nodes, by address and `data`. -/
abbrev Nodes := List (Nat × Nat)

def first (cs : Nodes) (n : Nat) : Nat :=
  match cs with
  | [] => n
  | c :: _ => c.1

def lastOf (p : Nat) : Nodes → Nat
  | [] => p
  | c :: cs => lastOf c.1 cs

def chain (p : Nat) : Nodes → Nat → Blocks Nat
  | [], _ => 1
  | c :: cs, n => node c.1 c.2 p (first cs n) * chain c.1 cs n

/-- The nodes of a list. -/
def ring (cs : Nodes) : Blocks Nat := chain (lastOf 0 cs) cs 0

/-- The list at `list` has the `data` `xs`. -/
def isList (xs : List Nat) (list : Nat) : Blocks Nat :=
  ⨆ cs : Nodes, Assn.lift (cs.map (·.2) = xs ∧ first cs 0 = list) * ring cs

section
variable {a x p n v : Nat} {c : Nat × Nat} {cs ds : Nodes}

@[simp]
theorem first_nil (n : Nat) : first [] n = n := rfl

@[simp]
theorem first_cons (c : Nat × Nat) (cs : Nodes) (n : Nat) : first (c :: cs) n = c.1 := rfl

theorem first_append (cs ds : Nodes) (n : Nat) : first (cs ++ ds) n = first cs (first ds n) := by
  cases cs <;> rfl

@[simp]
theorem lastOf_nil (p : Nat) : lastOf p [] = p := rfl

@[simp]
theorem lastOf_cons (p : Nat) (c : Nat × Nat) (cs : Nodes) : lastOf p (c :: cs) = lastOf c.1 cs := rfl

theorem lastOf_append (p : Nat) (cs ds : Nodes) :
    lastOf p (cs ++ ds) = lastOf (lastOf p cs) ds := by
  induction cs generalizing p with
  | nil => rfl
  | cons c cs ih => exact ih c.1

@[simp]
theorem chain_nil (p n : Nat) : chain p [] n = 1 := rfl

theorem chain_cons (p : Nat) (c : Nat × Nat) (cs : Nodes) (n : Nat) :
    chain p (c :: cs) n = node c.1 c.2 p (first cs n) * chain c.1 cs n := rfl

theorem chain_append (p : Nat) (cs ds : Nodes) (n : Nat) :
    chain p (cs ++ ds) n = chain p cs (first ds n) * chain (lastOf p cs) ds n := by
  induction cs generalizing p with
  | nil => rw [List.nil_append, chain_nil, one_mul, lastOf_nil]
  | cons c cs ih =>
    rw [List.cons_append, chain_cons, chain_cons, ih, first_append, mul_assoc, lastOf_cons]

theorem node_ne : node a x p n = Assn.lift (a ≠ 0) * node a x p n := pts_ne

/-- A chain with a node does not begin at `NULL`. -/
theorem chain_ne : chain p (c :: cs) n = Assn.lift (c.1 ≠ 0) * chain p (c :: cs) n := by
  rw [chain_cons, ← mul_assoc, ← node_ne]

theorem chain_ne_mul (F : Blocks Nat) :
    chain p (c :: cs) n * F ≤ Assn.lift (c.1 ≠ 0) * (chain p (c :: cs) n * F) := by
  rw [← mul_assoc, ← chain_ne]

/-! ## Reads and writes -/

theorem load_data : Reads (node a x p n) (load a data) x := load_spec rfl

theorem load_prev : Reads (node a x p n) (load a prev) p := load_spec rfl

theorem load_next : Reads (node a x p n) (load a next) n := load_spec rfl

theorem store_prev : Writes (node a x p n) (store a prev v) (node a x v n) :=
  store_spec (show 1 < 3 by decide)

theorem store_next : Writes (node a x p n) (store a next v) (node a x p v) :=
  store_spec (show 2 < 3 by decide)

/-- What is read at the head of a chain. -/
theorem head_reads {α : Type} {m : Cmd Nat α} {w : α}
    (h : Reads (node c.1 c.2 p (first cs n)) m w) : Reads (chain p (c :: cs) n) m w :=
  h.frame (chain c.1 cs n)

theorem store_head_prev :
    Writes (chain p (c :: cs) n) (store c.1 prev v) (chain v (c :: cs) n) :=
  store_prev.frame (chain c.1 cs n)

/-- A chain at its last node. -/
theorem chain_last (p : Nat) (cs : Nodes) (c : Nat × Nat) (n : Nat) :
    chain p (cs ++ [c]) n = chain p cs c.1 * node c.1 c.2 (lastOf p cs) n := by
  rw [chain_append, chain_cons, chain_nil, mul_one, first_cons, first_nil]

theorem lastOf_last (p : Nat) (cs : Nodes) (c : Nat × Nat) : lastOf p (cs ++ [c]) = c.1 := by
  rw [lastOf_append, lastOf_cons, lastOf_nil]

theorem store_last_next (hcs : cs ≠ []) :
    Writes (chain p cs n) (store (lastOf p cs) next v) (chain p cs v) := by
  obtain ⟨ds, c, rfl⟩ := (List.eq_nil_or_concat' cs).resolve_left hcs
  rw [chain_last, chain_last, lastOf_last, mul_comm, mul_comm (chain p ds c.1)]
  exact store_next.frame _

/-- There is fuel for one more turn. -/
theorem turn {m fuel : Nat} (hfuel : m < fuel) : ∃ k, fuel = k + 1 ∧ m ≤ k := ⟨fuel - 1, by omega⟩

/-! ## Freeing -/

theorem free_node : Spec (node a x p n) (free a) (sure fun _ => 1) := free_spec

theorem alpmListFree_spec {fuel : Nat} (hf : cs.length < fuel) :
    Spec (chain p cs 0) (alpmListFree fuel (first cs 0)) (sure fun _ => 1) := by
  induction cs generalizing p fuel with
  | nil =>
    obtain ⟨fuel, rfl⟩ : ∃ f, fuel = f + 1 := ⟨fuel - 1, by simp at hf; omega⟩
    exact Spec.ret le_rfl
  | cons c cs ih =>
    obtain ⟨fuel, rfl⟩ : ∃ f, fuel = f + 1 := ⟨fuel - 1, by omega⟩
    refine Spec.known chain_ne.le fun hc => ?_
    rw [alpmListFree, first_cons, if_neg hc]
    refine (head_reads load_next).next (mul_one _).symm ?_
    refine free_node.step_sure le_rfl fun _ => ?_
    rw [one_mul]
    exact ih (Nat.lt_of_succ_lt_succ hf)

section
variable {α : Type} {R : α → Nat → Blocks Nat} {f : Nat → Cmd Nat Unit}

theorem all₂_none {β : Type} (R : α → β → Blocks Nat) (xs : List α) : Assn.all₂ R xs [] ≤ 1 := by
  cases xs with
  | nil => exact le_rfl
  | cons x xs => exact bot_le

theorem alpmListFreeInner_spec {xs : List α} {fuel : Nat}
    (hfree : ∀ x ∈ xs, ∀ w, Spec (R x w) (ifSet w (f w)) (sure fun _ => 1))
    (hfuel : cs.length < fuel) :
    Spec (chain p cs 0 * Assn.all₂ R xs (cs.map (·.2))) (alpmListFreeInner f fuel (first cs 0))
      (sure fun _ => chain p cs 0) := by
  induction cs generalizing p fuel xs with
  | nil =>
    obtain ⟨fuel, rfl⟩ : ∃ f, fuel = f + 1 := ⟨fuel - 1, by simp at hfuel; omega⟩
    exact Spec.ret ((mul_le_mul_right (all₂_none R xs) _).trans (mul_one _).le)
  | cons c cs ih =>
    obtain ⟨fuel, rfl⟩ : ∃ f, fuel = f + 1 := ⟨fuel - 1, by omega⟩
    cases xs with
    | nil =>
      rw [show Assn.all₂ R [] ((c :: cs).map (·.2)) = ⊥ from rfl, mul_comm, Assn.bot_mul]
      exact Spec.bot
    | cons x xs =>
      obtain ⟨hx, hxs⟩ := List.forall_mem_cons.1 hfree
      refine Spec.known (chain_ne_mul _) fun hc => ?_
      rw [alpmListFreeInner, first_cons, if_neg hc]
      refine (head_reads load_data).next rfl ?_
      rw [List.map_cons, Assn.all₂_cons, mul_left_comm]
      refine (hx c.2).step_sure le_rfl fun _ => ?_
      rw [one_mul]
      refine (head_reads load_next).next rfl ?_
      rw [chain_cons, mul_assoc, mul_comm]
      exact Spec.frame_sure (ih hxs (Nat.lt_of_succ_lt_succ hfuel)) _ |>.weaken le_rfl
        fun _ => (mul_comm _ _).le

/-- `arpc_free_list`, of elements that `elemFree` frees. -/
theorem arpcFreeList_spec {xs : List α} {fuel : Nat} {elemFree : Option (Nat → Cmd Nat Unit)}
    (hsome : ∀ f, elemFree = some f → ∀ x ∈ xs, ∀ w, Spec (R x w) (ifSet w (f w)) (sure fun _ => 1))
    (hnone : elemFree = none → ∀ ws, Assn.all₂ R xs ws ≤ 1) (hfuel : cs.length < fuel) :
    Spec (ring cs * Assn.all₂ R xs (cs.map (·.2))) (arpcFreeList fuel (first cs 0) elemFree)
      (sure fun _ => 1) := by
  cases cs with
  | nil =>
    refine Spec.ret ?_
    rw [ring, chain_nil, one_mul]
    exact all₂_none R xs
  | cons c cs =>
    refine Spec.known (chain_ne_mul _) fun hc => ?_
    rw [arpcFreeList, first_cons, if_neg hc]
    cases elemFree with
    | none =>
      refine Spec.step_sure (Q := fun _ => ring (c :: cs)) (R := 1) ?_ (mul_one _).ge fun _ => ?_
      · exact Spec.ret ((mul_le_mul_right (hnone rfl _) _).trans (mul_one _).le)
      · rw [mul_one]
        exact alpmListFree_spec hfuel
    | some f =>
      refine (alpmListFreeInner_spec (hsome f rfl) hfuel).step_sure (mul_one _).ge fun _ => ?_
      rw [mul_one]
      exact alpmListFree_spec hfuel

end

/-! ## Appending -/

/-- What `alpm_list_append` makes of a list: one with a node more, or the same where it was refused. -/
def appended (cs : Nodes) (d : Nat) (r : Nat × Nat) (f : Bool) : Blocks Nat :=
  if f then Assn.lift (r = (0, first cs 0)) * ring cs
  else Assn.lift (r.1 ≠ 0 ∧ r.2 = first (cs ++ [(r.1, d)]) 0) * ring (cs ++ [(r.1, d)])

theorem ring_append (cs : Nodes) (c : Nat × Nat) :
    ring (cs ++ [c]) = chain c.1 cs c.1 * node c.1 c.2 (lastOf c.1 cs) 0 := by
  rw [ring, lastOf_last, chain_last]

theorem alpmListAppend_spec (d : Nat) :
    Spec (ring cs) (alpmListAppend place (first cs 0) d) (appended cs d) := by
  refine Spec.alloc_then (Spec.pure (Assn.le_lift_mul rfl le_rfl)) fun ptr hptr => ?_
  refine (store_spec (show 0 < 3 by decide)).step_sure le_rfl fun _ => ?_
  refine (store_spec (show 2 < 3 by decide)).step_sure le_rfl fun _ => ?_
  cases cs with
  | nil =>
    refine (store_spec (show 1 < 3 by decide)).step_sure le_rfl fun _ => ?_
    refine Spec.pure (Assn.le_lift_mul ⟨hptr, rfl⟩ ?_)
    rw [ring_append, chain_nil, one_mul]
    exact (mul_one _).le
  | cons c cs =>
    rw [mul_comm]
    refine Spec.known (chain_ne_mul _) fun hc => ?_
    have hring : ring (c :: cs) = chain (lastOf c.1 cs) (c :: cs) 0 := rfl
    have hread : Reads (chain (lastOf c.1 cs) (c :: cs) 0) (alpmListLast c.1) (lastOf c.1 cs) := by
      rw [alpmListLast, if_pos hc]
      exact head_reads load_prev
    rw [first_cons, if_neg hc, hring]
    refine hread.next rfl ?_
    refine (store_last_next (List.cons_ne_nil c cs)).next rfl ?_
    rw [mul_comm]
    refine (store_spec (show 1 < 3 by decide)).step_sure le_rfl fun _ => ?_
    rw [mul_comm]
    refine store_head_prev.next rfl ?_
    refine Spec.pure (Assn.le_lift_mul ⟨hptr, rfl⟩ ?_)
    rw [ring_append]
    exact le_rfl

end

end Client.AlpmList
