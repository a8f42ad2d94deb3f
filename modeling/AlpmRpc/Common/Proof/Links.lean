import AlpmRpc.Common.Links
import AlpmRpc.Common.Proof.Walk

/-!
# Links go forward

In a layout every link goes forward (`forward_nodesOf`) and every node after the first has one
(`targets_nodesOf`): both by induction on the tree. A loop over siblings that go forward ends within
as many turns as there are nodes (`walk_ends`), and then the loops of the accessors do what the list
of the nodes they see says.
-/

set_option autoImplicit false

namespace Json

/-! ## Forward -/

/-- The links of the nodes `ns`, the first of them node `i`, go forward and stay below `hi`. -/
def Forward (i hi : Nat) (ns : List Node) : Prop :=
  ∀ m n, ns[m]? = some n → ∀ j, n.firstChild = some j ∨ n.nextSibling = some j → i + m < j ∧ j < hi

theorem Forward.nil (i hi : Nat) : Forward i hi [] := by
  intro m n h
  simp at h

theorem Forward.append {i hi : Nat} {ns ns' : List Node} (h : Forward i hi ns)
    (h' : Forward (i + ns.length) hi ns') : Forward i hi (ns ++ ns') := by
  intro m n hm j hj
  by_cases hlt : m < ns.length
  · rw [List.getElem?_append_left hlt] at hm
    exact h m n hm j hj
  · rw [List.getElem?_append_right (by omega)] at hm
    obtain ⟨h₁, h₂⟩ := h' _ n hm j hj
    exact ⟨by omega, h₂⟩

theorem Forward.single {i hi : Nat} {n : Node} (hf : ∀ j, n.firstChild = some j → i < j ∧ j < hi)
    (hn : ∀ j, n.nextSibling = some j → i < j ∧ j < hi) : Forward i hi [n] := by
  intro m n' hm j hj
  cases m with
  | zero =>
    obtain rfl : n = n' := by simpa using hm
    rcases hj with hj | hj
    · exact hf j hj
    · exact hn j hj
  | succ m => simp at hm

theorem headIndex_some {α : Type} {i j : Nat} {l : List α} (h : headIndex i l = some j) :
    j = i ∧ l ≠ [] := by
  cases l with
  | nil => cases h
  | cons a l =>
    cases h
    exact ⟨rfl, List.cons_ne_nil a l⟩

theorem elemsSize_pos {es : List Tree} (h : es ≠ []) : 0 < elemsSize es := by
  obtain ⟨v, vs, rfl⟩ := List.exists_cons_of_ne_nil h
  have := size_pos v
  rw [elemsSize]
  omega

theorem membersSize_pos {ms : List (Bytes × Tree)} (h : ms ≠ []) : 0 < membersSize ms := by
  obtain ⟨⟨k, v⟩, ms, rfl⟩ := List.exists_cons_of_ne_nil h
  have := size_pos v
  rw [membersSize]
  omega

mutual
theorem forward_nodesOf {i off key hi : Nat} {next : Option Nat}
    (hx : ∀ j, next = some j → i < j ∧ j < hi) : ∀ v, i + size v ≤ hi →
    Forward i hi (nodesOf i off key next v)
  | .null, _ => by
    rw [nodesOf]
    exact .single nofun hx
  | .bool b, _ => by
    rw [nodesOf]
    exact .single nofun hx
  | .num v, _ => by
    rw [nodesOf]
    exact .single nofun hx
  | .str s, _ => by
    rw [nodesOf]
    exact .single nofun hx
  | .arr es, hhi => by
    rw [size] at hhi
    rw [nodesOf]
    refine Forward.append (.single (fun j hj => ?_) hx) (forward_elemsNodes es (by simp; omega))
    obtain ⟨rfl, hne⟩ := headIndex_some hj
    have := elemsSize_pos hne
    omega
  | .obj ms, hhi => by
    rw [size] at hhi
    rw [nodesOf]
    refine Forward.append (.single (fun j hj => ?_) hx) (forward_membersNodes ms (by simp; omega))
    obtain ⟨rfl, hne⟩ := headIndex_some hj
    have := membersSize_pos hne
    omega

theorem forward_elemsNodes {i off hi : Nat} : ∀ es, i + elemsSize es ≤ hi →
    Forward i hi (elemsNodes i off es)
  | [], _ => by
    rw [elemsNodes]
    exact .nil i hi
  | v :: vs, hhi => by
    rw [elemsSize] at hhi
    rw [elemsNodes]
    refine Forward.append (forward_nodesOf (fun j hj => ?_) v (by omega)) ?_
    · obtain ⟨rfl, hne⟩ := headIndex_some hj
      have := elemsSize_pos hne
      have := size_pos v
      omega
    · rw [nodesOf_length]
      exact forward_elemsNodes vs (by omega)

theorem forward_membersNodes {i off hi : Nat} : ∀ ms, i + membersSize ms ≤ hi →
    Forward i hi (membersNodes i off ms)
  | [], _ => by
    rw [membersNodes]
    exact .nil i hi
  | (k, v) :: ms, hhi => by
    rw [membersSize] at hhi
    rw [membersNodes]
    refine Forward.append (forward_nodesOf (fun j hj => ?_) v (by omega)) ?_
    · obtain ⟨rfl, hne⟩ := headIndex_some hj
      have := membersSize_pos hne
      have := size_pos v
      omega
    · rw [nodesOf_length]
      exact forward_membersNodes ms (by omega)
end

/-! ## Once -/

/-- What the links of nodes lead to. -/
def targets (ns : List Node) : List Nat :=
  ns.flatMap fun n => n.firstChild.toList ++ n.nextSibling.toList

theorem targets_append (ns ns' : List Node) : targets (ns ++ ns') = targets ns ++ targets ns' :=
  List.flatMap_append

theorem targets_cons (n : Node) (ns : List Node) :
    targets (n :: ns) = n.firstChild.toList ++ n.nextSibling.toList ++ targets ns := rfl

theorem count_links (ns : List Node) (j : Nat) :
    (ns.map (·.firstChild) ++ ns.map (·.nextSibling)).count (some j) = (targets ns).count j := by
  have hone : ∀ o : Option Nat, [o].count (some j) = o.toList.count j := by
    intro o
    cases o <;> simp [List.count_cons]
  induction ns with
  | nil => rfl
  | cons n ns ih =>
    rw [List.count_append] at ih
    have h₁ := hone n.firstChild
    have h₂ := hone n.nextSibling
    rw [List.count_append, List.map_cons, List.map_cons, targets_cons, List.count_append,
      List.count_append, List.count_cons, List.count_cons]
    rw [List.count_singleton] at h₁ h₂
    omega

/-- One item and the rest of them. -/
theorem targets_items {i s s' : Nat} {next : Option Nat} {ns ns' : List Node} (hs : 0 < s)
    (hv : (targets ns).Perm (next.toList ++ List.range' (i + 1) (s - 1)))
    (hvs : (next.toList ++ targets ns').Perm (List.range' (i + s) s')) :
    (i :: targets (ns ++ ns')).Perm (List.range' i (s + s')) := by
  have hself : i :: List.range' (i + 1) (s - 1) = List.range' i s := by
    rw [← List.range'_succ, Nat.sub_add_cancel hs]
  rw [targets_append, ← List.range'_append_1, ← hself, List.cons_append]
  refine List.Perm.cons i ?_
  calc
    List.Perm (targets ns ++ targets ns')
        (next.toList ++ List.range' (i + 1) (s - 1) ++ targets ns') := hv.append_right _
    List.Perm _ (List.range' (i + 1) (s - 1) ++ next.toList ++ targets ns') :=
      List.perm_append_comm.append_right _
    List.Perm _ (List.range' (i + 1) (s - 1) ++ List.range' (i + s) s') := by
      rw [List.append_assoc]
      exact hvs.append_left _

mutual
theorem targets_nodesOf (i off key : Nat) (next : Option Nat) : ∀ v,
    (targets (nodesOf i off key next v)).Perm (next.toList ++ List.range' (i + 1) (size v - 1))
  | .null => by simp [nodesOf, targets, size]
  | .bool b => by simp [nodesOf, targets, size]
  | .num v => by simp [nodesOf, targets, size]
  | .str s => by simp [nodesOf, targets, size]
  | .arr es => by
    have hitems := targets_elemsNodes (i + 1) off es
    rw [nodesOf, targets_cons, size, Nat.add_sub_cancel_left]
    refine (List.perm_append_comm.append_right _).trans ?_
    rw [List.append_assoc]
    exact hitems.append_left _
  | .obj ms => by
    have hitems := targets_membersNodes (i + 1) off ms
    rw [nodesOf, targets_cons, size, Nat.add_sub_cancel_left]
    refine (List.perm_append_comm.append_right _).trans ?_
    rw [List.append_assoc]
    exact hitems.append_left _

/-- With the link to the first of them, elements are linked to once. -/
theorem targets_elemsNodes (i off : Nat) : ∀ es,
    ((headIndex i es).toList ++ targets (elemsNodes i off es)).Perm (List.range' i (elemsSize es))
  | [] => by simp [headIndex, elemsNodes, targets, elemsSize]
  | v :: vs => by
    have hv := targets_nodesOf i off 0 (headIndex (i + size v) vs) v
    have hvs := targets_elemsNodes (i + size v) (off + (bytesOf v).length) vs
    rw [elemsNodes, elemsSize]
    exact targets_items (size_pos v) hv hvs

theorem targets_membersNodes (i off : Nat) : ∀ ms,
    ((headIndex i ms).toList ++ targets (membersNodes i off ms)).Perm
      (List.range' i (membersSize ms))
  | [] => by simp [headIndex, membersNodes, targets, membersSize]
  | (k, v) :: ms => by
    have hv := targets_nodesOf i (off + k.length + 1) (off + 1) (headIndex (i + size v) ms) v
    have hms := targets_membersNodes (i + size v) (off + k.length + 1 + (bytesOf v).length) ms
    rw [membersNodes, membersSize]
    exact targets_items (size_pos v) hv hms
end

mutual
theorem child_nodesOf (i off key : Nat) (next : Option Nat) : ∀ v, ∀ n ∈ nodesOf i off key next v,
    n.type ≠ .arr → n.type ≠ .obj → n.firstChild = none
  | .null => by simp [nodesOf]
  | .bool b => by simp [nodesOf]
  | .num v => by simp [nodesOf]
  | .str s => by simp [nodesOf]
  | .arr es => by
    rw [nodesOf]
    exact List.forall_mem_cons.2 ⟨fun h _ => absurd rfl h, child_elemsNodes (i + 1) off es⟩
  | .obj ms => by
    rw [nodesOf]
    exact List.forall_mem_cons.2 ⟨fun _ h => absurd rfl h, child_membersNodes (i + 1) off ms⟩

theorem child_elemsNodes (i off : Nat) : ∀ es, ∀ n ∈ elemsNodes i off es,
    n.type ≠ .arr → n.type ≠ .obj → n.firstChild = none
  | [] => by simp [elemsNodes]
  | v :: vs => by
    rw [elemsNodes]
    exact List.forall_mem_append.2 ⟨child_nodesOf _ _ _ _ v, child_elemsNodes _ _ vs⟩

theorem child_membersNodes (i off : Nat) : ∀ ms, ∀ n ∈ membersNodes i off ms,
    n.type ≠ .arr → n.type ≠ .obj → n.firstChild = none
  | [] => by simp [membersNodes]
  | (k, v) :: ms => by
    rw [membersNodes]
    exact List.forall_mem_append.2 ⟨child_nodesOf _ _ _ _ v, child_membersNodes _ _ ms⟩
end

/-- **A laid-out tree is linked.** -/
theorem linked_docOf (v : Tree) : (docOf v).Linked := by
  have hlen : (docOf v).nodes.length = size v := nodesOf_length 0 0 0 none v
  refine ⟨fun i n j hn hj => ?_, fun j hpos hlt => ?_, child_nodesOf 0 0 0 none v⟩
  · rw [hlen]
    have hfwd : Forward 0 (size v) (nodesOf 0 0 0 none v) :=
      forward_nodesOf (by simp) v (Nat.le_of_eq (Nat.zero_add (size v)))
    have := hfwd i n hn j hj
    omega
  · have hperm : (targets (docOf v).nodes).Perm (List.range' 1 (size v - 1)) :=
      targets_nodesOf 0 0 0 none v
    rw [hlen] at hlt
    rw [Doc.links, count_links, hperm.count_eq]
    have hmem : j ∈ List.range' 1 (size v - 1) := List.mem_range'_1.2 ⟨hpos, by omega⟩
    rw [(List.nodup_range' 1).count, if_pos hmem]

/-! ## Loops -/

variable {d : Doc}

/-- There are nodes ahead, or none. -/
def Ahead (d : Doc) (j : Option Nat) : Prop := ∀ i, j = some i → i < d.nodes.length

theorem next_eq {i : Nat} {n : Node} (hn : d.nodes[i]? = some n) : d.next (some i) = n.nextSibling := by
  rw [Doc.next, Doc.node, Option.bind_some, hn]
  rfl

/-- The turns that are left, at most. -/
def turns (d : Doc) : Option Nat → Nat
  | none => 0
  | some i => d.nodes.length - i

/-- **The walk ends**, and its nodes are in the document. -/
theorem walk_ends (h : d.Linked) {fuel : Nat} {j : Option Nat} (hj : Ahead d j)
    (hfuel : turns d j < fuel) :
    ∃ l, d.walkLoop fuel j = some l ∧ l.length ≤ turns d j ∧ ∀ i ∈ l, i < d.nodes.length := by
  induction fuel generalizing j with
  | zero => omega
  | succ fuel ih =>
    cases j with
    | none => exact ⟨[], rfl, Nat.zero_le _, nofun⟩
    | some i =>
      have hi := hj i rfl
      have hn : d.nodes[i]? = some d.nodes[i] := List.getElem?_eq_getElem hi
      rw [turns] at hfuel
      have hnext : Ahead d (d.next (some i)) ∧ turns d (d.next (some i)) < d.nodes.length - i := by
        rw [next_eq hn]
        cases hs : d.nodes[i].nextSibling with
        | none => exact ⟨nofun, by rw [turns]; omega⟩
        | some j =>
          obtain ⟨h₁, h₂⟩ := h.forward i _ j hn (.inr hs)
          refine ⟨fun k hk => by cases hk; exact h₂, ?_⟩
          rw [turns]
          omega
      obtain ⟨l, hl, hlen, hin⟩ := ih hnext.1 (by omega)
      refine ⟨i :: l, by rw [Doc.walkLoop, hl]; rfl, ?_, List.forall_mem_cons.2 ⟨hi, hin⟩⟩
      rw [List.length_cons, turns]
      omega

/-- What the loops do of which the walk is known. -/
theorem loops_eq {fuel : Nat} {j : Option Nat} {l : List Nat} (hw : d.walkLoop fuel j = some l)
    (hin : ∀ i ∈ l, i < d.nodes.length) :
    (∀ index : Nat, d.elemLoop fuel j index = some l[index]?) ∧
      (∀ m, d.countLoop fuel j m = some (m + l.length)) ∧
      ∀ key, d.memberLoop key fuel j =
        some (l.find? fun i => (d.node (some i)).bind d.keyOf = some key) := by
  induction fuel generalizing j l with
  | zero => cases hw
  | succ fuel ih =>
    cases j with
    | none =>
      cases hw
      exact ⟨fun _ => rfl, fun _ => rfl, fun _ => rfl⟩
    | some i =>
      obtain ⟨l, hl, rfl⟩ := Option.map_eq_some_iff.1 hw
      obtain ⟨hi, hin⟩ := List.forall_mem_cons.1 hin
      have hn : d.nodes[i]? = some d.nodes[i] := List.getElem?_eq_getElem hi
      rw [next_eq hn] at hl
      obtain ⟨helem, hcount, hmember⟩ := ih hl hin
      refine ⟨fun index => ?_, fun m => ?_, fun key => ?_⟩
      · cases index with
        | zero => rfl
        | succ index =>
          have hne : ((index + 1 : Nat) : Int) ≠ 0 := by omega
          have hpred : ((index + 1 : Nat) : Int) - 1 = index := by omega
          rw [Doc.elemLoop, if_neg hne, hn, hpred]
          exact helem index
      · rw [Doc.countLoop, hn, List.length_cons]
        refine (hcount (m + 1)).trans (congrArg some ?_)
        omega
      · have hkey : (d.node (some i)).bind d.keyOf = d.keyOf d.nodes[i] := by
          rw [Doc.node, Option.bind_some, hn]
          rfl
        rw [Doc.memberLoop, hn, List.find?_cons, hkey, Option.bind_eq_bind, Option.bind_some]
        by_cases hk : d.keyOf d.nodes[i] = some key
        · rw [if_pos hk]
          simp [hk]
        · rw [if_neg hk, hmember key]
          simp [hk]

/-- The walk, as the accessors of `Common/Doc.lean` have it. -/
theorem siblings_eq {fuel fuel' : Nat} {j : Option Nat} {l : List Nat}
    (hw : d.walkLoop fuel j = some l) (hlen : l.length ≤ fuel') : d.siblings fuel' j = l := by
  induction fuel generalizing j l fuel' with
  | zero => cases hw
  | succ fuel ih =>
    cases j with
    | none =>
      cases hw
      cases fuel' <;> rfl
    | some i =>
      obtain ⟨l, hl, rfl⟩ := Option.map_eq_some_iff.1 hw
      cases fuel' with
      | zero => simp at hlen
      | succ fuel' =>
        rw [Doc.siblings]
        exact congrArg (i :: ·) (ih hl (by simpa using hlen))

theorem ahead_first (h : d.Linked) (c : Option Nat) : Ahead d (d.first c) := by
  intro j hj
  rw [Doc.first] at hj
  split at hj
  · rename_i n hn
    split at hj
    · obtain ⟨i, -, hn⟩ := Option.bind_eq_some_iff.1 hn
      exact (h.forward i n j hn (.inl hj)).2
    · cases hj
  · cases hj

theorem turns_le (d : Doc) (j : Option Nat) : turns d j ≤ d.nodes.length := by
  cases j with
  | none => exact Nat.zero_le _
  | some i => exact Nat.sub_le _ _

/-- **The accessors agree** when links go forward: all of them see the nodes of one walk. -/
theorem agree_of_linked (h : d.Linked) (c : Option Nat) {fuel : Nat} (hfuel : d.nodes.length < fuel) :
    d.Agree c fuel (d.siblings d.nodes.length (d.first c)) := by
  obtain ⟨l, hw, hlen, hin⟩ := walk_ends h (ahead_first h c)
    (Nat.lt_of_le_of_lt (turns_le d (d.first c)) hfuel)
  have hl : d.siblings d.nodes.length (d.first c) = l :=
    siblings_eq hw (Nat.le_trans hlen (turns_le d _))
  obtain ⟨helem, hcount, hmember⟩ := loops_eq hw hin
  have hcontainer : ∀ a, d.node c = some a → a.type = .arr ∨ a.type = .obj →
      d.first c = a.firstChild := by
    intro a ha ht
    rw [Doc.first, ha]
    exact if_pos ht
  have hmember' : ∀ a, d.node c = some a → a.type = .obj → ∀ key, d.ajMember fuel c key =
      some (l.find? fun i => (d.node (some i)).bind d.keyOf = some key) := by
    intro a ha ht key
    rw [← hmember key, hcontainer a ha (.inr ht), Doc.ajMember, ha]
    exact if_pos ht
  -- what is no container has no nodes
  have hnone : (∀ a, d.node c = some a → ¬(a.type = .arr ∨ a.type = .obj)) → l = [] := by
    intro hno
    have hfirst : d.first c = none := by
      rw [Doc.first]
      split
      · rename_i a ha
        exact if_neg (hno a ha)
      · rfl
    rw [← hl, hfirst]
    cases d.nodes.length <;> rfl
  rw [hl]
  refine ⟨hw, fun index => ?_, ?_, hmember', fun index => ?_, ?_, fun key => ?_⟩
  · rw [Doc.ajElem]
    cases ha : d.node c with
    | none =>
      rw [hnone (fun a h => by rw [ha] at h; cases h)]
      simp
    | some a =>
      dsimp only
      by_cases ht : a.type = .arr ∨ a.type = .obj
      · by_cases hi : 0 ≤ index
        · rw [if_pos ⟨ht, hi⟩, if_pos hi, ← hcontainer a ha ht, ← helem, Int.toNat_of_nonneg hi]
        · rw [if_neg (fun hh => hi hh.2), if_neg hi]
      · rw [if_neg (fun hh => ht hh.1), hnone (fun b hb => by rw [ha] at hb; cases hb; exact ht)]
        simp
  · rw [Doc.ajCount]
    cases ha : d.node c with
    | none =>
      rw [hnone (fun a h => by rw [ha] at h; cases h)]
      rfl
    | some a =>
      dsimp only
      by_cases ht : a.type = .arr ∨ a.type = .obj
      · rw [if_pos ht, ← hcontainer a ha ht, hcount, Nat.zero_add]
      · rw [if_neg ht, hnone (fun b hb => by rw [ha] at hb; cases hb; exact ht)]
        rfl
  · rw [Doc.elem, hl]
  · rw [Doc.count, hl]
  · rw [Doc.member]
    cases ha : d.node c with
    | none => rw [Doc.ajMember, ha]
    | some a =>
      dsimp only
      by_cases ht : a.type = .obj
      · rw [if_pos ht, hmember' a ha ht, ← hcontainer a ha (.inr ht), hl]
      · rw [if_neg ht, Doc.ajMember, ha]
        exact if_neg ht

/-- **Parsed documents are forests that every accessor walks alike**: their links go forward, to every
node but the root once, and with more turns than nodes every loop is over, having seen what a walk
from `aj_first` sees. -/
theorem docParse_linked (s : Bytes) (d : Doc) (h : docParse s = some d) :
    d.Linked ∧ ∀ c, ∃ l, ∀ fuel, d.nodes.length < fuel → d.Agree c fuel l := by
  rw [docParse_eq] at h
  obtain ⟨v, -, rfl⟩ := Option.map_eq_some_iff.1 h
  have hlinked := linked_docOf v
  exact ⟨hlinked, fun c => ⟨_, fun fuel hfuel => agree_of_linked hlinked c hfuel⟩⟩

theorem docParse_linked_pair : ∃ d, docParse (lit "[1,[2],3]") = some d ∧ d.Linked ∧
    d.ajCount 6 (some 0) = some 3 ∧ d.ajElem 6 (some 0) 2 = some (some 4) := by
  have hsome : (docParse (lit "[1,[2],3]")).isSome = true := by decide +kernel
  obtain ⟨d, hd⟩ := Option.isSome_iff_exists.1 hsome
  obtain ⟨hlinked, -⟩ := docParse_linked _ d hd
  refine ⟨d, hd, hlinked, ?_⟩
  have hall : ∀ d, docParse (lit "[1,[2],3]") = some d → d.ajCount 6 (some 0) = some 3 ∧
      d.ajElem 6 (some 0) 2 = some (some 4) := by decide +kernel
  exact hall d hd

end Json
