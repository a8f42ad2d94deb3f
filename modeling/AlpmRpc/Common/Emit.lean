import AlpmRpc.Common.Proof.Walk

/-!
# Writing in pieces

A tree may be written by several writers: a subtree goes to a writer of its own, whose output
`ajw_raw` splices in. `emit_eq` says that the bytes are those of the tree all the same, and
`walk_emit` that a reader gets the tree back.
-/

set_option autoImplicit false

namespace Json

/-- A tree and which of its subtrees are spliced in. -/
inductive Plan where
  | null
  | num (v : Int)
  | str (s : Bytes)
  | arr (es : List Plan)
  | obj (ms : List (Bytes × Plan))
  | raw (p : Plan)

namespace Plan

mutual
/-- The tree that is written. -/
def tree : Plan → Tree
  | .null => .null
  | .num v => .num v
  | .str s => .str s
  | .arr es => .arr (elemTrees es)
  | .obj ms => .obj (memberTrees ms)
  | .raw p => p.tree

def elemTrees : List Plan → List Tree
  | [] => []
  | p :: ps => p.tree :: elemTrees ps

def memberTrees : List (Bytes × Plan) → List (Bytes × Tree)
  | [] => []
  | (k, p) :: ms => (k, p.tree) :: memberTrees ms
end

/-- `Placed r p`: whatever `p` splices stands after a key or first in its array; `r` says that this
is true of `p` itself, or that `p` is all its writer writes. -/
inductive Placed : Bool → Plan → Prop where
  | null {r : Bool} : Placed r .null
  | num {r : Bool} {v : Int} : Placed r (.num v)
  | str {r : Bool} {s : Bytes} : Placed r (.str s)
  | empty {r : Bool} : Placed r (.arr [])
  | arr {r : Bool} {p : Plan} {ps : List Plan} (h : Placed true p)
      (hs : ∀ q ∈ ps, Placed false q) : Placed r (.arr (p :: ps))
  | obj {r : Bool} {ms : List (Bytes × Plan)} (h : ∀ m ∈ ms, Placed true m.2) : Placed r (.obj ms)
  | raw {p : Plan} (h : Placed true p) : Placed true (.raw p)

mutual
/-- The `ajw_*` calls that write a tree so. -/
def emit (w : Writer) : Plan → Writer
  | .null => ajwNull w
  | .num v => ajwI64 w v
  | .str s => ajwStr w (some s)
  | .arr es => ajwArrEnd (emitElems (ajwArrBegin w) es)
  | .obj ms => ajwObjEnd (emitMembers (ajwObjBegin w) ms)
  | .raw p => ajwRaw w (p.emit {}).buf

def emitElems (w : Writer) : List Plan → Writer
  | [] => w
  | p :: ps => emitElems (p.emit w) ps

def emitMembers (w : Writer) : List (Bytes × Plan) → Writer
  | [] => w
  | (k, p) :: ms => emitMembers (p.emit (ajwKey w k)) ms
end

/-! ## The bytes written -/

theorem emitElems_eq {ps : List Plan}
    (ih : ∀ p ∈ ps, ∀ w, Written w (p.emit w) (text p.tree)) (w : Writer) :
    emitElems w ps =
      ⟨w.buf ++ elemsText w.needComma (elemTrees ps), w.needComma || !ps.isEmpty⟩ := by
  induction ps generalizing w with
  | nil => simp [emitElems, elemTrees, elemsText]
  | cons p ps ihs =>
    rw [emitElems, ih p List.mem_cons_self w, ihs fun q hq => ih q (List.mem_cons_of_mem _ hq)]
    simp [elemTrees, elemsText]

theorem emitMembers_eq {ms : List (Bytes × Plan)}
    (ih : ∀ m ∈ ms, ∀ w : Writer, w.needComma = false → Written w (m.2.emit w) (text m.2.tree))
    (w : Writer) :
    emitMembers w ms =
      ⟨w.buf ++ membersText w.needComma (memberTrees ms), w.needComma || !ms.isEmpty⟩ := by
  induction ms generalizing w with
  | nil => simp [emitMembers, memberTrees, membersText]
  | cons m ms ihs =>
    obtain ⟨k, p⟩ := m
    rw [emitMembers, ih (k, p) List.mem_cons_self _ rfl,
      ihs fun q hq => ih q (List.mem_cons_of_mem _ hq)]
    simp [memberTrees, membersText, ajwKey, wstrEscaped_eq, wput, wsep_eq, sepText]

/-- **Splicing does not show**: the bytes are those of the whole tree. -/
theorem emit_eq {r : Bool} {p : Plan} (h : Placed r p) (w : Writer)
    (hw : r = true → w.needComma = false) : Written w (p.emit w) (text p.tree) := by
  induction h generalizing w with
  | null => simp [Written, emit, tree, ajwNull, wput, wsep_eq, text]
  | num => simp [Written, emit, tree, ajwI64, wput, wsep_eq, text]
  | str => simp [Written, emit, tree, ajwStr, wstrEscaped_eq, wput, wsep_eq, text]
  | empty =>
    simp [Written, emit, tree, emitElems, elemTrees, elemsText, ajwArrBegin, ajwArrEnd, wopen,
      wclose, wsep_eq, text]
  | @arr _ p ps _ _ ih ihs =>
    rw [Written, emit, emitElems, ih (ajwArrBegin w) (fun _ => rfl),
      emitElems_eq (fun q hq w => ihs q hq w fun hf => (by cases hf))]
    simp [tree, elemTrees, elemsText, ajwArrBegin, ajwArrEnd, wopen, wclose, wsep_eq, text, sepText]
  | obj _ ih =>
    rw [Written, emit, emitMembers_eq fun m hm w hw => ih m hm w fun _ => hw]
    simp [tree, ajwObjBegin, ajwObjEnd, wopen, wclose, wsep_eq, text]
  | @raw p _ ih =>
    have hin := ih {} fun _ => rfl
    rw [Written, emit, hin, ajwRaw, hw rfl]
    simp [tree, sepText]

theorem emit_buf {p : Plan} (h : Placed true p) : (p.emit {}).buf = text p.tree := by
  rw [emit_eq h {} fun _ => rfl]
  rfl

end Plan

/-! ## No control bytes -/

theorem escape_printable : ∀ n < 256, (escape (UInt8.ofNat n)).all (0x20 ≤ ·) = true := by
  decide +kernel

theorem quoted_printable (s : Bytes) : ∀ c ∈ quoted s, 0x20 ≤ c := by
  intro c hc
  have hesc : ∀ b : UInt8, c ∈ escape b → 0x20 ≤ c := by
    intro b hb
    have hall := escape_printable b.toNat b.toNat_lt
    rw [UInt8.ofNat_toNat] at hall
    exact of_decide_eq_true (List.all_eq_true.1 hall c hb)
  simp only [quoted, List.mem_append, List.mem_cons, List.not_mem_nil, or_false,
    List.mem_flatMap] at hc
  rcases hc with (rfl | ⟨b, -, hb⟩) | rfl
  · decide
  · exact hesc b hb
  · decide

theorem digit_printable {c : UInt8} (h : c = ch '-' ∨ isDigit c = true) : 0x20 ≤ c := by
  rcases h with rfl | h
  · decide
  · rw [isDigit, Bool.and_eq_true] at h
    have h0 : ch '0' ≤ c := of_decide_eq_true h.1
    exact UInt8.le_trans (by decide) h0

theorem number_printable {s : Bytes} {v : Int} (h : Number s v) : ∀ c ∈ s, 0x20 ≤ c := by
  obtain ⟨-, ds, u, ⟨-, hds, -⟩, hs⟩ := h
  intro c hc
  rcases hs with ⟨rfl, -⟩ | ⟨rfl, -⟩
  · exact digit_printable (.inr (hds c hc))
  · rcases List.mem_cons.1 hc with rfl | hc
    · decide
    · exact digit_printable (.inr (hds c hc))

theorem printable_of_all {s : Bytes} (h : (s.all fun c => decide (0x20 ≤ c)) = true) :
    ∀ c ∈ s, 0x20 ≤ c :=
  fun c hc => of_decide_eq_true (List.all_eq_true.1 h c hc)

theorem sepText_printable (sep : Bool) : ∀ c ∈ sepText sep, 0x20 ≤ c := by
  cases sep with
  | false => exact printable_of_all rfl
  | true => exact printable_of_all rfl

theorem elemsText_printable {es : List Tree} (ih : ∀ v ∈ es, ∀ c ∈ text v, 0x20 ≤ c) (sep : Bool) :
    ∀ c ∈ elemsText sep es, 0x20 ≤ c := by
  induction es generalizing sep with
  | nil => simp [elemsText]
  | cons v es ihs =>
    intro c hc
    rw [elemsText, List.mem_append, List.mem_append] at hc
    rcases hc with (hc | hc) | hc
    · exact sepText_printable sep c hc
    · exact ih v List.mem_cons_self c hc
    · exact ihs (fun u hu => ih u (List.mem_cons_of_mem _ hu)) true c hc

theorem membersText_printable {ms : List (Bytes × Tree)}
    (ih : ∀ m ∈ ms, ∀ c ∈ text m.2, 0x20 ≤ c) (sep : Bool) :
    ∀ c ∈ membersText sep ms, 0x20 ≤ c := by
  induction ms generalizing sep with
  | nil => simp [membersText]
  | cons m ms ihs =>
    intro c hc
    simp only [membersText, List.mem_append, List.mem_cons] at hc
    rcases hc with ((hc | hc) | (rfl | hc)) | hc
    · exact sepText_printable sep c hc
    · exact quoted_printable m.1 c hc
    · decide
    · exact ih m List.mem_cons_self c hc
    · exact ihs (fun u hu => ih u (List.mem_cons_of_mem _ hu)) true c hc

theorem text_printable {d : Nat} {v : Tree} (h : Fits d v) : ∀ c ∈ text v, 0x20 ≤ c := by
  induction h with
  | null =>
    rw [text]
    exact printable_of_all rfl
  | num h =>
    rw [text]
    exact number_printable (number_i64Text h)
  | str h =>
    rw [text]
    exact quoted_printable _
  | arr h ih =>
    intro c hc
    simp only [text, List.mem_append, List.mem_cons, List.not_mem_nil, or_false] at hc
    rcases hc with (rfl | hc) | rfl
    · decide
    · exact elemsText_printable ih false c hc
    · decide
  | obj hk h ih =>
    intro c hc
    simp only [text, List.mem_append, List.mem_cons, List.not_mem_nil, or_false] at hc
    rcases hc with (rfl | hc) | rfl
    · decide
    · exact membersText_printable ih false c hc
    · decide

theorem docParse_text {v : Tree} (h : Fits maxDepth v) : docParse (text v) = some (docOf v) := by
  have hdoc : Document (text v) v := ⟨[], text v, [], by simp, .nil, .nil, derives_text h⟩
  rw [docParse_eq, ajParse_iff.2 hdoc]
  rfl

/-- **Reading undoes writing**, in one piece or in several: no control bytes, one document, and the
tree that was written. -/
theorem walk_emit (p : Plan) (hp : p.Placed true) (h : Fits maxDepth p.tree) :
    (∀ c ∈ (p.emit {}).buf, 0x20 ≤ c) ∧
    ∃ d, docParse (p.emit {}).buf = some d ∧ d.walk (2 * d.nodes.length) 0 = some p.tree := by
  have hf := forest_docOf p.tree
  rw [Plan.emit_buf hp]
  refine ⟨text_printable h, docOf p.tree, docParse_text h, ?_⟩
  rw [hf.count]
  exact walk_holds h hf.root (Nat.le_refl _)

/-- `{"k":"a\"","r":[7]}` with `[7]` spliced in. -/
def splicedPlan : Plan :=
  .obj [(lit "k", .str (lit "a\"")), (lit "r", .raw (.arr [.num 7]))]

theorem splicedPlan_placed : splicedPlan.Placed true := by
  refine .obj fun m hm => ?_
  simp only [List.mem_cons, List.not_mem_nil, or_false] at hm
  rcases hm with rfl | rfl
  · exact .str
  · exact .raw (.arr .num fun q hq => (by cases hq))

theorem splicedPlan_fits : Fits maxDepth splicedPlan.tree := by
  refine .obj ?_ fun m hm => ?_
  · decide
  · simp only [List.mem_cons, List.not_mem_nil, or_false, Plan.memberTrees] at hm
    rcases hm with rfl | rfl
    · exact .str (by decide)
    · refine .arr fun v hv => ?_
      simp only [Plan.elemTrees, List.mem_cons, List.not_mem_nil, or_false] at hv
      subst hv
      exact .num (by decide)

theorem walk_emit_spliced :
    (∀ c ∈ (splicedPlan.emit {}).buf, 0x20 ≤ c) ∧
    ∃ d, docParse (splicedPlan.emit {}).buf = some d ∧
      d.walk (2 * d.nodes.length) 0 = some splicedPlan.tree :=
  walk_emit splicedPlan splicedPlan_placed splicedPlan_fits

end Json
