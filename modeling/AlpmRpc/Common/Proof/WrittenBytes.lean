import AlpmRpc.Common.Framing
import AlpmRpc.Common.Proof.RawWriter
import AlpmRpc.Common.Writer

/-!
# The bytes of a written tree

No byte that the writer writes is NUL, and a tree takes no more than its `room`.
-/

set_option autoImplicit false

namespace Json

/-! ## No NUL -/

theorem escape_nulFree (c : UInt8) : NulFree (escape c) := by
  have h : ∀ n < 256, NulFree (escape (UInt8.ofNat n)) := by decide +kernel
  have hof : UInt8.ofNat c.toNat = c := UInt8.ofNat_toNat
  exact hof ▸ h c.toNat c.toNat_lt

theorem nulFree_append {s t : Bytes} : NulFree (s ++ t) ↔ NulFree s ∧ NulFree t :=
  List.forall_mem_append

theorem tmpDigits_nulFree (n u : Nat) : NulFree (tmpDigits n u) := by
  have hdigit : ∀ d < 10, ch '0' + UInt8.ofNat d ≠ 0 := by decide
  induction n generalizing u with
  | zero => exact fun b hb => absurd hb List.not_mem_nil
  | succ n ih =>
    rw [tmpDigits]
    refine List.forall_mem_cons.2 ⟨hdigit _ (Nat.mod_lt _ (by decide)), ?_⟩
    split
    · exact fun b hb => absurd hb List.not_mem_nil
    · exact ih _

theorem i64Text_nulFree (v : Int) : NulFree (i64Text v) := by
  refine nulFree_append.2 ⟨?_, fun b hb => tmpDigits_nulFree _ _ b (List.mem_reverse.1 hb)⟩
  split <;> decide

section
variable {w : Writer}

theorem wsep_nulFree (h : NulFree w.buf) : NulFree (wsep w).buf := by
  rw [wsep]
  dsimp only
  split
  · exact nulFree_append.2 ⟨h, by decide⟩
  · exact h

theorem wopen_nulFree (h : NulFree w.buf) {c : UInt8} (hc : c ≠ 0) : NulFree (wopen w c).buf :=
  nulFree_append.2 ⟨wsep_nulFree h, List.forall_mem_singleton.2 hc⟩

theorem wclose_nulFree (h : NulFree w.buf) {c : UInt8} (hc : c ≠ 0) : NulFree (wclose w c).buf :=
  nulFree_append.2 ⟨h, List.forall_mem_singleton.2 hc⟩

theorem wstrEscaped_nulFree (h : NulFree w.buf) (s : Bytes) : NulFree (wstrEscaped w s).buf := by
  have hquote : NulFree [ch '"'] := by decide
  have hbody : NulFree ((cstr s).flatMap escape) := by
    intro b hb
    obtain ⟨c, -, hb⟩ := List.mem_flatMap.1 hb
    exact escape_nulFree c b hb
  exact nulFree_append.2 ⟨h, List.forall_mem_append.2
    ⟨List.forall_mem_cons.2 ⟨by decide, hbody⟩, hquote⟩⟩

theorem ajwKey_nulFree (h : NulFree w.buf) (key : Bytes) : NulFree (ajwKey w key).buf :=
  nulFree_append.2 ⟨wstrEscaped_nulFree (wsep_nulFree h) key, by decide⟩

end

mutual
theorem ajwTree_nulFree {w : Writer} (h : NulFree w.buf) : ∀ v : Tree, NulFree (ajwTree w v).buf
  | .null => nulFree_append.2 ⟨wsep_nulFree h, by decide⟩
  | .bool _ => h
  | .num v => nulFree_append.2 ⟨wsep_nulFree h, i64Text_nulFree v⟩
  | .str s => wstrEscaped_nulFree (wsep_nulFree h) s
  | .arr es => wclose_nulFree (ajwElems_nulFree (wopen_nulFree h (by decide)) es) (by decide)
  | .obj ms => wclose_nulFree (ajwMembers_nulFree (wopen_nulFree h (by decide)) ms) (by decide)

theorem ajwElems_nulFree {w : Writer} (h : NulFree w.buf) :
    ∀ es : List Tree, NulFree (ajwElems w es).buf
  | [] => h
  | v :: vs => ajwElems_nulFree (ajwTree_nulFree h v) vs

theorem ajwMembers_nulFree {w : Writer} (h : NulFree w.buf) :
    ∀ ms : List (Bytes × Tree), NulFree (ajwMembers w ms).buf
  | [] => h
  | (k, v) :: ms => ajwMembers_nulFree (ajwTree_nulFree (ajwKey_nulFree h k) v) ms
end

/-! ## How long it is -/

mutual
/-- The bytes that a tree may take. -/
def room : Tree → Nat
  | .null => 5
  | .bool _ => 0
  | .num _ => 26
  | .str s => 6 * s.length + 3
  | .arr es => elemsRoom es + 3
  | .obj ms => membersRoom ms + 3

def elemsRoom : List Tree → Nat
  | [] => 0
  | v :: vs => room v + elemsRoom vs

def membersRoom : List (Bytes × Tree) → Nat
  | [] => 0
  | (k, v) :: ms => 6 * k.length + 4 + room v + membersRoom ms
end

theorem i64Text_length (v : Int) : (i64Text v).length ≤ 25 := by
  have hd : ∀ u, (tmpDigits 24 u).length ≤ 24 := RawWriter.length_tmpDigits 24
  have hd1 := hd ((-(v + 1)).toNat + 1)
  have hd2 := hd v.toNat
  rw [i64Text, List.length_append, List.length_reverse]
  split
  · exact Nat.add_comm _ _ ▸ Nat.add_le_add_right hd1 1
  · exact Nat.le_succ_of_le (Nat.zero_add _ ▸ hd2)

theorem escape_length : ∀ c, (escape c).length ≤ 6 := by
  have h : ∀ n < 256, (escape (UInt8.ofNat n)).length ≤ 6 := by decide +kernel
  intro c
  have hof : UInt8.ofNat c.toNat = c := UInt8.ofNat_toNat
  exact hof ▸ h c.toNat c.toNat_lt

/-- Escaping shortens nothing. -/
theorem length_le_escaped (s : Bytes) : s.length ≤ (s.flatMap escape).length := by
  have h : ∀ n < 256, 1 ≤ (escape (UInt8.ofNat n)).length := by decide +kernel
  induction s with
  | nil => exact Nat.zero_le _
  | cons c s ih =>
    have hof : UInt8.ofNat c.toNat = c := UInt8.ofNat_toNat
    have hc : 1 ≤ (escape c).length := hof ▸ h c.toNat c.toNat_lt
    rw [List.flatMap_cons, List.length_append, List.length_cons]
    omega

section
variable {w : Writer}

theorem wsep_length (w : Writer) : (wsep w).buf.length ≤ w.buf.length + 1 := by
  rw [wsep]
  dsimp only
  split
  · rw [List.length_append, List.length_singleton]
  · exact Nat.le_succ _

theorem wstrEscaped_length (w : Writer) (s : Bytes) :
    (wstrEscaped w s).buf.length ≤ w.buf.length + 6 * s.length + 2 := by
  have hbody : ((cstr s).flatMap escape).length ≤ 6 * s.length := by
    have hc : (cstr s).length ≤ s.length := (List.takeWhile_prefix _).length_le
    refine Nat.le_trans ?_ (Nat.mul_le_mul_left 6 hc)
    induction cstr s with
    | nil => exact Nat.zero_le _
    | cons c cs ih =>
      rw [List.flatMap_cons, List.length_append, List.length_cons]
      have hc6 := escape_length c
      omega
  simp only [wstrEscaped, wput, List.length_append, List.length_cons, List.length_nil]
  omega

end

mutual
theorem ajwTree_length (w : Writer) : ∀ v : Tree, (ajwTree w v).buf.length ≤ w.buf.length + room v
  | .null => by
    have h := wsep_length w
    simp only [ajwTree, ajwNull, wput, List.length_append, room]
    have hn : (lit "null").length = 4 := rfl
    omega
  | .bool _ => Nat.le_refl _
  | .num v => by
    have h := wsep_length w
    have hv := i64Text_length v
    simp only [ajwTree, ajwI64, wput, List.length_append, room]
    omega
  | .str s => by
    have h := wsep_length w
    have hs := wstrEscaped_length (wsep w) s
    simp only [ajwTree, ajwStr, room]
    omega
  | .arr es => by
    have h := wsep_length w
    have hes := ajwElems_length (ajwArrBegin w) es
    simp only [ajwTree, ajwArrEnd, wclose, List.length_append, List.length_singleton, room]
    simp only [ajwArrBegin, wopen, List.length_append, List.length_singleton] at hes ⊢
    omega
  | .obj ms => by
    have h := wsep_length w
    have hms := ajwMembers_length (ajwObjBegin w) ms
    simp only [ajwTree, ajwObjEnd, wclose, List.length_append, List.length_singleton, room]
    simp only [ajwObjBegin, wopen, List.length_append, List.length_singleton] at hms ⊢
    omega

theorem ajwElems_length (w : Writer) :
    ∀ es : List Tree, (ajwElems w es).buf.length ≤ w.buf.length + elemsRoom es
  | [] => Nat.le_refl _
  | v :: vs => by
    have hv := ajwTree_length w v
    have hvs := ajwElems_length (ajwTree w v) vs
    rw [ajwElems, elemsRoom]
    omega

theorem ajwMembers_length (w : Writer) :
    ∀ ms : List (Bytes × Tree), (ajwMembers w ms).buf.length ≤ w.buf.length + membersRoom ms
  | [] => Nat.le_refl _
  | (k, v) :: ms => by
    have h := wsep_length w
    have hk := wstrEscaped_length (wsep w) k
    have hv := ajwTree_length (ajwKey w k) v
    have hms := ajwMembers_length (ajwTree (ajwKey w k) v) ms
    simp only [ajwKey, List.length_append, List.length_singleton] at hv
    rw [ajwMembers, membersRoom]
    simp only [ajwKey] at hms ⊢
    omega
end

/-- An object with room in a frame. -/
theorem sendable_obj {ms : List (Bytes × Tree)} (h : room (.obj ms) ≤ Wire.maxFrame) :
    Wire.Sendable (ajwTree {} (.obj ms)).buf := by
  have hlen := ajwTree_length {} (.obj ms)
  have hpos : 0 < (ajwTree {} (.obj ms)).buf.length := by
    simp only [ajwTree, ajwObjEnd, wclose, List.length_append, List.length_singleton]
    omega
  exact ⟨hpos, Nat.le_trans hlen (by simpa using h)⟩

end Json
