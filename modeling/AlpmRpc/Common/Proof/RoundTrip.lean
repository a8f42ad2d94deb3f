import AlpmRpc.Common.Writer
import AlpmRpc.Common.Proof.Grammar

/-!
# Reading undoes writing

`text v` is what the writer appends for the tree `v` (`ajwTree_eq`), and the grammar derives `v`
from it (`derives_text`). As the parser accepts the grammar, `ajParse_ajwTree` follows.
-/

set_option autoImplicit false

namespace Json

/-- A tree the writer can be asked for: numbers of 64 bits, C strings, and at most `d` containers
deep. -/
inductive Fits : Nat → Tree → Prop where
  | null {d : Nat} : Fits d .null
  | num {d : Nat} {v : Int} (h : I64 v) : Fits d (.num v)
  | str {d : Nat} {s : Bytes} (h : NulFree s) : Fits d (.str s)
  | arr {d : Nat} {es : List Tree} (h : ∀ v ∈ es, Fits d v) : Fits (d + 1) (.arr es)
  | obj {d : Nat} {ms : List (Bytes × Tree)} (hk : ∀ m ∈ ms, NulFree m.1)
      (h : ∀ m ∈ ms, Fits d m.2) : Fits (d + 1) (.obj ms)

/-- A string in quotes. -/
def quoted (s : Bytes) : Bytes := ch '"' :: (cstr s).flatMap escape ++ [ch '"']

/-- The separator `wsep` writes. -/
def sepText (sep : Bool) : Bytes := if sep then [ch ','] else []

mutual
/-- What the writer appends for a tree. -/
def text : Tree → Bytes
  | .null => lit "null"
  | .bool _ => []
  | .num v => i64Text v
  | .str s => quoted s
  | .arr es => ch '[' :: elemsText false es ++ [ch ']']
  | .obj ms => ch '{' :: membersText false ms ++ [ch '}']

def elemsText (sep : Bool) : List Tree → Bytes
  | [] => []
  | v :: vs => sepText sep ++ text v ++ elemsText true vs

def membersText (sep : Bool) : List (Bytes × Tree) → Bytes
  | [] => []
  | (k, v) :: ms => sepText sep ++ quoted k ++ ch ':' :: text v ++ membersText true ms
end

/-! ## Writing -/

theorem wsep_eq (w : Writer) : wsep w = ⟨w.buf ++ sepText w.needComma, true⟩ := by
  unfold wsep sepText
  split <;> simp [*]

theorem wstrEscaped_eq (w : Writer) (s : Bytes) : wstrEscaped w s = wput w (quoted s) := rfl

/-- A tree of strings and numbers is written as its text, after the separator. -/
def Written (w w' : Writer) (s : Bytes) : Prop := w' = ⟨w.buf ++ sepText w.needComma ++ s, true⟩

theorem written_elems {es : List Tree} (ih : ∀ v ∈ es, ∀ w, Written w (ajwTree w v) (text v))
    (w : Writer) :
    ajwElems w es = ⟨w.buf ++ elemsText w.needComma es, w.needComma || !es.isEmpty⟩ := by
  induction es generalizing w with
  | nil => simp [ajwElems, elemsText]
  | cons v vs ihs =>
    rw [ajwElems, ih v List.mem_cons_self w, ihs fun u hu => ih u (List.mem_cons_of_mem _ hu)]
    simp [elemsText]

theorem written_members {ms : List (Bytes × Tree)}
    (ih : ∀ m ∈ ms, ∀ w, Written w (ajwTree w m.2) (text m.2)) (w : Writer) :
    ajwMembers w ms = ⟨w.buf ++ membersText w.needComma ms, w.needComma || !ms.isEmpty⟩ := by
  induction ms generalizing w with
  | nil => simp [ajwMembers, membersText]
  | cons m ms ihs =>
    obtain ⟨k, v⟩ := m
    rw [ajwMembers, ih (k, v) List.mem_cons_self, ihs fun u hu => ih u (List.mem_cons_of_mem _ hu)]
    simp [membersText, ajwKey, wstrEscaped_eq, wput, wsep_eq, sepText]

/-- **What the writer appends for a tree.** -/
theorem ajwTree_eq {d : Nat} {v : Tree} (h : Fits d v) (w : Writer) :
    Written w (ajwTree w v) (text v) := by
  induction h generalizing w with
  | null => simp [Written, ajwTree, ajwNull, wput, wsep_eq, text]
  | num h => simp [Written, ajwTree, ajwI64, wput, wsep_eq, text]
  | str h => simp [Written, ajwTree, ajwStr, wstrEscaped_eq, wput, wsep_eq, text]
  | arr h ih =>
    rw [Written, ajwTree, written_elems ih]
    simp [ajwArrBegin, ajwArrEnd, wopen, wclose, wsep_eq, text]
  | obj hk h ih =>
    rw [Written, ajwTree, written_members ih]
    simp [ajwObjBegin, ajwObjEnd, wopen, wclose, wsep_eq, text]

/-! ## Strings are in the grammar -/

theorem hexDigitVal_nibbles : ∀ n < 32,
    hexDigitVal (hexDig (UInt8.ofNat n >>> 4)) = some (n / 16) ∧
      hexDigitVal (hexDig (UInt8.ofNat n &&& 0xF)) = some (n % 16) := by
  decide

theorem hexWord_control {c : UInt8} (hc : c < 0x20) :
    HexWord [ch '0', ch '0', hexDig (c >>> 4), hexDig (c &&& 0xF)] c.toNat := by
  have hlt : c.toNat < 0x20 := hc
  obtain ⟨h1, h2⟩ := hexDigitVal_nibbles c.toNat hlt
  rw [UInt8.ofNat_toNat] at h1 h2
  have h0 : hexDigitVal (ch '0') = some 0 := by decide
  have h3 : ((0 * 16 + 0) * 16 + c.toNat / 16) * 16 + c.toNat % 16 = c.toNat := by omega
  refine ⟨rfl, ?_⟩
  simp only [hex4, h0, h1, h2, Option.bind_eq_bind, Option.bind_some, Option.pure_def, h3]

theorem utf8_control {c : UInt8} (hc : c < 0x20) : utf8 c.toNat = [c] := by
  have hlt : c.toNat < 0x20 := hc
  rw [utf8, if_pos (by omega), UInt8.ofNat_toNat]

/-- One escaped byte stands for that byte. -/
theorem chars_escape (c : UInt8) {t s : Bytes} (h : Chars t s) : Chars (escape c ++ t) (c :: s) := by
  -- the one-character escapes, each read by `simpleEscape`
  have hsimple : ∀ e : UInt8, simpleEscape e = some c → Chars ([ch '\\', e] ++ t) (c :: s) :=
    fun e he => .escape he h
  unfold escape
  split
  · rename_i hp
    obtain ⟨h1, h2, h3⟩ := hp
    exact .plain h1 h2 h3 h
  rename_i h0
  split
  · rename_i hc; exact hsimple _ (by rw [hc]; decide)
  split
  · rename_i hc; exact hsimple _ (by rw [hc]; decide)
  split
  · rename_i hc; exact hsimple _ (by rw [hc]; decide)
  split
  · rename_i hc; exact hsimple _ (by rw [hc]; decide)
  split
  · rename_i hc; exact hsimple _ (by rw [hc]; decide)
  split
  · rename_i hc; exact hsimple _ (by rw [hc]; decide)
  split
  · rename_i hc; exact hsimple _ (by rw [hc]; decide)
  rename_i hq hb _ _ _ _ _
  have hc : c < 0x20 := by
    rcases UInt8.lt_or_le c 0x20 with hlt | hle
    · exact hlt
    · exact absurd ⟨hle, hq, hb⟩ h0
  have hlow : ¬(isHigh c.toNat ∧ LowNext t) := by
    have hlt : c.toNat < 0x20 := hc
    intro hh
    have := hh.1.1
    omega
  have hu := Chars.unicode (hexWord_control hc) hlow h
  rw [utf8_control hc] at hu
  exact hu

theorem chars_flatMap (s : Bytes) : Chars (s.flatMap escape) s := by
  induction s with
  | nil => exact .nil
  | cons c s ih =>
    rw [List.flatMap_cons]
    exact chars_escape c ih

theorem quoted_spec {s : Bytes} (hs : NulFree s) : Quoted (quoted s) s := by
  rw [quoted, cstr_eq hs]
  exact ⟨_, rfl, chars_flatMap s⟩

/-! ## Numbers are in the grammar -/

theorem isDigit_digit : ∀ d < 10, isDigit (ch '0' + UInt8.ofNat d) = true ∧
    (ch '0' + UInt8.ofNat d).toNat - 48 = d := by
  decide

theorem digitsFrom_append (u : Nat) (x y : Bytes) :
    digitsFrom u (x ++ y) = digitsFrom (digitsFrom u x) y := List.foldl_append

/-- The digits of `u`, one after another, make `u`. -/
theorem digits_tmpDigits (n u : Nat) (hn : u < 10 ^ (n + 1)) :
    Digits (tmpDigits (n + 1) u).reverse u := by
  induction n generalizing u with
  | zero =>
    obtain ⟨h1, h2⟩ := isDigit_digit (u % 10) (by omega)
    have hd : (tmpDigits (0 + 1) u).reverse = [ch '0' + UInt8.ofNat (u % 10)] := by
      rw [tmpDigits, if_pos (by omega)]
      rfl
    rw [hd]
    refine ⟨by simp, ?_, ?_⟩
    · intro c hc
      rw [List.mem_singleton.1 hc]
      exact h1
    · rw [digitsFrom, List.foldl_cons, List.foldl_nil, h2]
      omega
  | succ n ih =>
    obtain ⟨h1, h2⟩ := isDigit_digit (u % 10) (by omega)
    have hlast : digitsFrom (u / 10) [ch '0' + UInt8.ofNat (u % 10)] = u := by
      rw [digitsFrom, List.foldl_cons, List.foldl_nil, h2]
      omega
    rw [tmpDigits, List.reverse_cons]
    split
    · rename_i h0
      refine ⟨by simp, ?_, ?_⟩
      · intro c hc
        rw [List.reverse_nil, List.nil_append] at hc
        rw [List.mem_singleton.1 hc]
        exact h1
      · rw [h0] at hlast
        exact hlast.symm
    · have hu : u / 10 < 10 ^ (n + 1) := by
        rw [Nat.pow_succ] at hn
        omega
      obtain ⟨-, hds, hval⟩ := ih (u / 10) hu
      refine ⟨by simp, ?_, ?_⟩
      · intro c hc
        rcases List.mem_append.1 hc with hc | hc
        · exact hds c hc
        · rw [List.mem_singleton.1 hc]
          exact h1
      · rw [digitsFrom_append, ← hval, hlast]

/-- The magnitude `ajw_i64` writes. -/
def magnitude (v : Int) : Nat := if v < 0 then (-(v + 1)).toNat + 1 else v.toNat

theorem number_i64Text {v : Int} (hv : I64 v) : Number (i64Text v) v := by
  have hm : magnitude v < 10 ^ 24 := by
    obtain ⟨h1, h2⟩ := hv
    unfold magnitude
    split <;> omega
  have htext : i64Text v =
      (if v < 0 then [ch '-'] else []) ++ (tmpDigits 24 (magnitude v)).reverse := rfl
  refine ⟨hv, _, _, digits_tmpDigits 23 (magnitude v) hm, ?_⟩
  rw [htext]
  by_cases hneg : v < 0
  · refine .inr ⟨by rw [if_pos hneg]; rfl, ?_⟩
    rw [magnitude, if_pos hneg]
    omega
  · refine .inl ⟨by rw [if_neg hneg]; rfl, ?_⟩
    rw [magnitude, if_neg hneg]
    omega

/-! ## Trees are in the grammar -/

theorem derives_elems {d : Nat} {v : Tree} {es : List Tree}
    (h : ∀ e ∈ v :: es, Derives d (text e) e) :
    DerivesItems d false (elemsText false (v :: es)) ((v :: es).map fun e => ([], e)) := by
  induction es generalizing v with
  | nil =>
    have hv := DerivesItem.elem .nil (h v List.mem_cons_self) .nil
    simp only [List.nil_append, List.append_nil] at hv
    simpa [elemsText, sepText] using DerivesItems.last hv
  | cons v' es ih =>
    have hv := DerivesItem.elem .nil (h v List.mem_cons_self) .nil
    simp only [List.nil_append, List.append_nil] at hv
    have hes := ih fun e he => h e (List.mem_cons_of_mem _ he)
    have := DerivesItems.more hv hes
    simpa [elemsText, sepText] using this

theorem derives_members {d : Nat} {m : Bytes × Tree} {ms : List (Bytes × Tree)}
    (hk : ∀ m' ∈ m :: ms, NulFree m'.1) (h : ∀ m' ∈ m :: ms, Derives d (text m'.2) m'.2) :
    DerivesItems d true (membersText false (m :: ms)) (m :: ms) := by
  induction ms generalizing m with
  | nil =>
    have hm := DerivesItem.member .nil (quoted_spec (hk m List.mem_cons_self)) .nil .nil
      (h m List.mem_cons_self) .nil
    simp only [List.nil_append, List.append_nil] at hm
    simpa [membersText, sepText] using DerivesItems.last hm
  | cons m' ms ih =>
    have hm := DerivesItem.member .nil (quoted_spec (hk m List.mem_cons_self)) .nil .nil
      (h m List.mem_cons_self) .nil
    simp only [List.nil_append, List.append_nil] at hm
    have hms := ih (fun u hu => hk u (List.mem_cons_of_mem _ hu))
      (fun u hu => h u (List.mem_cons_of_mem _ hu))
    have := DerivesItems.more hm hms
    simpa [membersText, sepText] using this

/-- **What is written for a tree is a text of it.** -/
theorem derives_text {d : Nat} {v : Tree} (h : Fits d v) : Derives d (text v) v := by
  induction h with
  | null => exact .null
  | num h => exact .num (number_i64Text h)
  | str h => exact .str (quoted_spec h)
  | @arr d es h ih =>
    rw [text]
    cases es with
    | nil => exact .empty false .nil
    | cons v es =>
      have := Derives.items (derives_elems ih)
      simpa [container, closer, Function.comp_def] using this
  | @obj d ms hk h ih =>
    rw [text]
    cases ms with
    | nil => exact .empty true .nil
    | cons m ms =>
      have := Derives.items (derives_members hk ih)
      simpa [container, closer] using this

/-- **Reading undoes writing.** -/
theorem ajParse_ajwTree {v : Tree} (h : Fits maxDepth v) : ajParse (ajwTree {} v).buf = some v := by
  have hbuf : (ajwTree {} v).buf = text v := by
    rw [ajwTree_eq h {}]
    simp [sepText]
  rw [hbuf, ajParse_iff]
  exact ⟨[], text v, [], by simp, .nil, .nil, derives_text h⟩

end Json
