import AlpmRpc.Common.Base64
import Mathlib.Data.List.Basic

/-!
# What the base64 decoder accepts

The loop takes a text of digits with two places at its end where `=` may stand (`b64Groups_good`,
`b64Groups_sound`), and `b64Pad` refuses the one order of these two that is not padding. The bytes are
the digits' bits, regrouped (`stream_octets`). `arpc_b64_encode` writes such a text (`b64Encode_padded`).
-/

set_option autoImplicit false

namespace Json

open Bits

/-! ## The alphabet -/

theorem b64val_table : ∀ n < 256, b64val (UInt8.ofNat n) =
    if UInt8.ofNat n ∈ b64Table then some (digitValue (UInt8.ofNat n)) else none := by
  decide +kernel

theorem b64val_eq (c : UInt8) :
    b64val c = if c ∈ b64Table then some (digitValue c) else none := by
  have h := b64val_table c.toNat c.toNat_lt
  rwa [UInt8.ofNat_toNat] at h

theorem b64val_digit {c : UInt8} (h : c ∈ b64Table) : b64val c = some (digitValue c) := by
  rw [b64val_eq, if_pos h]

theorem mem_of_b64val {c : UInt8} {v : Nat} (h : b64val c = some v) : c ∈ b64Table := by
  rw [b64val_eq] at h
  split at h
  · assumption
  · cases h

theorem ne_pad {c : UInt8} (h : c ∈ b64Table) : c ≠ ch '=' := by
  intro he
  rw [he] at h
  exact absurd h (by decide +kernel)

theorem digitValue_lt {c : UInt8} (h : c ∈ b64Table) : digitValue c < 64 :=
  List.idxOf_lt_length_of_mem h

theorem b64Digit_table : ∀ v < 64, b64Table.getD v 0 ∈ b64Table ∧
    digitValue (b64Table.getD v 0) = v := by
  decide +kernel

theorem b64Digit_mem (v : Nat) : b64Digit v ∈ b64Table :=
  (b64Digit_table _ (Nat.lt_succ_of_le Nat.and_le_right)).1

theorem digitValue_b64Digit (v : Nat) : digitValue (b64Digit v) = v % 64 := by
  rw [b64Digit, (b64Digit_table _ (Nat.lt_succ_of_le Nat.and_le_right)).2,
    show 63 = 2 ^ 6 - 1 by rfl, Nat.and_two_pow_sub_one_eq_mod]

/-! ## Words -/

theorem b64Word_eq {v₀ v₁ v₂ v₃ : Nat} (h₁ : v₁ < 64) (h₂ : v₂ < 64) (h₃ : v₃ < 64) :
    b64Word v₀ v₁ v₂ v₃ = v₀ * 2 ^ 18 + v₁ * 2 ^ 12 + v₂ * 2 ^ 6 + v₃ := by
  have hw : b64Word v₀ v₁ v₂ v₃ = ((v₀ <<< 6 ||| v₁) <<< 6 ||| v₂) <<< 6 ||| v₃ := by
    rw [b64Word]
    simp only [Nat.shiftLeft_or_distrib, ← Nat.shiftLeft_add]
  rw [hw, ← Nat.shiftLeft_add_eq_or_of_lt h₃, ← Nat.shiftLeft_add_eq_or_of_lt h₂,
    ← Nat.shiftLeft_add_eq_or_of_lt h₁]
  simp only [Nat.shiftLeft_eq]
  omega

/-- Four digits are a word of 24 bits. -/
theorem bits_word {v₀ v₁ v₂ v₃ : Nat} (h₁ : v₁ < 64) (h₂ : v₂ < 64) (h₃ : v₃ < 64) :
    bits 24 (b64Word v₀ v₁ v₂ v₃) = bits 6 v₀ ++ bits 6 v₁ ++ bits 6 v₂ ++ bits 6 v₃ := by
  rw [b64Word_eq h₁ h₂ h₃, bits_add 18 6, bits_add 12 6, bits_add 6 6]
  congr 1
  · congr 1
    · congr 1
      all_goals refine bits_congr ?_; omega
    · refine bits_congr ?_
      omega
  · refine bits_congr ?_
    omega

/-- A word of 24 bits is three bytes. -/
theorem bits_octets (w : Nat) :
    bits 24 w = stream 8 [w >>> 16 % 256, w >>> 8 % 256, w % 256] := by
  have hmod : ∀ x, bits 8 (x % 256) = bits 8 x := fun x => bits_congr (Nat.mod_mod _ _)
  rw [bits_add 16 8, bits_add 8 8]
  simp only [stream_cons, stream_nil, hmod, Nat.shiftRight_eq_div_pow, List.append_nil,
    List.append_assoc, Nat.div_div_eq_div_mul, ← Nat.pow_add]

/-- The bytes of digits in groups of four. -/
def octets : List Nat → List Nat
  | v₀ :: v₁ :: v₂ :: v₃ :: vs =>
    let w := b64Word v₀ v₁ v₂ v₃
    [w >>> 16 % 256, w >>> 8 % 256, w % 256] ++ octets vs
  | _ => []

/-- **Regrouping keeps the bits.** -/
theorem stream_octets : ∀ {vs : List Nat}, vs.length % 4 = 0 → (∀ v ∈ vs, v < 64) →
    stream 8 (octets vs) = stream 6 vs
  | [], _, _ => rfl
  | [_], h, _ | [_, _], h, _ | [_, _, _], h, _ => by cases h
  | v₀ :: v₁ :: v₂ :: v₃ :: vs, h, hv => by
    have hrest := @stream_octets vs (by simp only [List.length_cons] at h; omega)
      fun v hm => hv v (by simp [hm])
    rw [octets, stream_append, hrest, ← bits_octets,
      bits_word (hv v₁ (by simp)) (hv v₂ (by simp)) (hv v₃ (by simp))]
    simp only [stream_cons, List.append_assoc]

theorem octets_lt : ∀ {vs : List Nat}, ∀ v ∈ octets vs, v < 256
  | [], _, h | [_], _, h | [_, _], _, h | [_, _, _], _, h => by cases h
  | v₀ :: v₁ :: v₂ :: v₃ :: vs, v, h => by
    rw [octets, List.mem_append] at h
    rcases h with h | h
    · simp only [List.mem_cons, List.not_mem_nil, or_false] at h
      rcases h with rfl | rfl | rfl <;> exact Nat.mod_lt _ (by decide)
    · exact octets_lt v h

theorem octets_length : ∀ {vs : List Nat}, vs.length % 4 = 0 →
    (octets vs).length = vs.length / 4 * 3
  | [], _ => rfl
  | [_], h | [_, _], h | [_, _, _], h => by cases h
  | v₀ :: v₁ :: v₂ :: v₃ :: vs, h => by
    have hrest := @octets_length vs (by simp only [List.length_cons] at h; omega)
    simp only [octets, List.length_append, List.length_cons, List.length_nil, hrest]
    omega

/-! ## The loop -/

theorem b64Put_eq {n : Nat} {out : Bytes} (ho : out.length ≤ n) (w : Nat) :
    b64Put n out w = (out ++ [UInt8.ofNat (w % 256)]).take n := by
  rw [b64Put, show 0xff = 2 ^ 8 - 1 by rfl, Nat.and_two_pow_sub_one_eq_mod]
  split
  · rw [List.take_of_length_le (by rw [List.length_append, List.length_singleton]; omega)]
  · rw [List.take_append_of_le_length (by omega), List.take_of_length_le ho]

/-- Writing behind what fits adds nothing. -/
theorem take_append_take (n : Nat) (xs ys : Bytes) :
    (xs.take n ++ ys).take n = (xs ++ ys).take n := by
  rw [List.take_append, List.take_append, List.take_take, Nat.min_self, List.length_take]
  by_cases h : xs.length ≤ n
  · rw [Nat.min_eq_right h]
  · rw [Nat.min_eq_left (by omega), Nat.sub_self, Nat.sub_eq_zero_of_le (by omega), List.take_zero]

theorem b64Put_three {n : Nat} {out : Bytes} (ho : out.length ≤ n) (w : Nat) :
    b64Put n (b64Put n (b64Put n out (w >>> 16)) (w >>> 8)) w =
      (out ++ [w >>> 16 % 256, w >>> 8 % 256, w % 256].map UInt8.ofNat).take n := by
  have hle : ∀ xs : Bytes, (xs.take n).length ≤ n := fun xs => by
    rw [List.length_take]
    omega
  rw [b64Put_eq ho, b64Put_eq (hle _), take_append_take, b64Put_eq (hle _), take_append_take]
  simp

/-- What a character stands for, in the places where `=` may stand. -/
def sextet (c : UInt8) : Nat := if c = ch '=' then 0 else digitValue c

/-- A digit, or padding. -/
def Fills (c : UInt8) : Prop := c = ch '=' ∨ c ∈ b64Table

theorem sextet_pad : sextet (ch '=') = 0 := rfl

theorem sextet_digit {c : UInt8} (h : c ∈ b64Table) : sextet c = digitValue c := by
  rw [sextet, if_neg (ne_pad h)]

theorem Fills.lt {c : UInt8} (h : Fills c) : sextet c < 64 := by
  rw [sextet]
  split
  · exact Nat.succ_pos _
  · rename_i hne
    exact digitValue_lt (h.resolve_left hne)

theorem b64Sextet_digit {c : UInt8} (h : c ∈ b64Table) (last : Bool) (k : Nat) :
    b64Sextet last k c = some (sextet c) := by
  rw [b64Sextet, if_neg fun he => ne_pad h he.2.2, b64val_digit h, sextet_digit h]

theorem b64Sextet_fills {c : UInt8} (h : Fills c) {k : Nat} (hk : 2 ≤ k) :
    b64Sextet true k c = some (sextet c) := by
  rcases h with rfl | h
  · rw [b64Sextet, if_pos ⟨rfl, hk, rfl⟩]
    rfl
  · exact b64Sextet_digit h _ _

theorem b64Groups_nil (n : Nat) (out : Bytes) : b64Groups n out [] = some out := by simp [b64Groups]

/-- **A text with digits in front and two filled places at its end** is decoded. -/
theorem b64Groups_good : ∀ {front : Bytes} {x y : UInt8} {n : Nat} {out : Bytes}, out.length ≤ n →
    front.length % 4 = 2 → (∀ c ∈ front, c ∈ b64Table) → Fills x → Fills y →
    b64Groups n out (front ++ [x, y]) =
      some ((out ++ (octets ((front ++ [x, y]).map sextet)).map UInt8.ofNat).take n)
  | [], _, _, _, _, _, h, _, _, _ | [_], _, _, _, _, _, h, _, _, _
  | [_, _, _], _, _, _, _, _, h, _, _, _ => by cases h
  | [a, b], x, y, n, out, ho, _, hf, hx, hy => by
    rw [List.cons_append, List.cons_append, List.nil_append, b64Groups]
    simp only [List.isEmpty_nil, b64Sextet_digit (hf a (by simp)), b64Sextet_digit (hf b (by simp)),
      b64Sextet_fills hx (k := 2) (Nat.le_refl 2), b64Sextet_fills hy (k := 3) (by omega),
      Option.bind_eq_bind, Option.bind_some]
    rw [b64Put_three ho, b64Groups_nil]
    simp [octets]
  | a :: b :: c :: d :: front, x, y, n, out, ho, h, hf, hx, hy => by
    have hne : (front ++ [x, y]).isEmpty = false := by simp
    have hlen : front.length % 4 = 2 := by
      simp only [List.length_cons] at h
      omega
    rw [List.cons_append, List.cons_append, List.cons_append, List.cons_append, b64Groups]
    simp only [hne, b64Sextet_digit (hf a (by simp)), b64Sextet_digit (hf b (by simp)),
      b64Sextet_digit (hf c (by simp)), b64Sextet_digit (hf d (by simp)), Option.bind_eq_bind,
      Option.bind_some]
    rw [b64Put_three ho, b64Groups_good (by rw [List.length_take]; omega) hlen
      (fun e he => hf e (by simp [he])) hx hy, take_append_take, List.append_assoc, ← List.map_append]
    rfl

/-- The loop accepts nothing else. -/
theorem b64Groups_sound : ∀ {front : Bytes} {x y : UInt8} {n : Nat} {out res : Bytes},
    front.length % 4 = 2 → b64Groups n out (front ++ [x, y]) = some res →
    (∀ c ∈ front, c ∈ b64Table) ∧ Fills x ∧ Fills y
  | [], _, _, _, _, _, h, _ | [_], _, _, _, _, _, h, _
  | [_, _, _], _, _, _, _, _, h, _ => by cases h
  | [a, b], x, y, n, out, res, _, hres => by
    have hfills : ∀ {k : Nat} {c : UInt8} {v : Nat}, b64Sextet true k c = some v → Fills c := by
      intro k c v hs
      rw [b64Sextet] at hs
      split at hs
      · rename_i hc
        exact .inl hc.2.2
      · exact .inr (mem_of_b64val hs)
    rw [List.cons_append, List.cons_append, List.nil_append, b64Groups] at hres
    simp only [Option.bind_eq_bind, Option.bind_eq_some_iff] at hres
    obtain ⟨v₀, h₀, v₁, h₁, v₂, h₂, v₃, h₃, -⟩ := hres
    rw [b64Sextet, if_neg (by simp)] at h₀ h₁
    refine ⟨?_, hfills h₂, hfills h₃⟩
    intro c hc
    simp only [List.mem_cons, List.not_mem_nil, or_false] at hc
    rcases hc with rfl | rfl
    · exact mem_of_b64val h₀
    · exact mem_of_b64val h₁
  | a :: b :: c :: d :: front, x, y, n, out, res, h, hres => by
    have hne : (front ++ [x, y]).isEmpty = false := by simp
    have hlen : front.length % 4 = 2 := by
      simp only [List.length_cons] at h
      omega
    rw [List.cons_append, List.cons_append, List.cons_append, List.cons_append, b64Groups] at hres
    simp only [hne, Option.bind_eq_bind, Option.bind_eq_some_iff] at hres
    obtain ⟨v₀, h₀, v₁, h₁, v₂, h₂, v₃, h₃, hrest⟩ := hres
    rw [b64Sextet, if_neg (by simp)] at h₀ h₁ h₂ h₃
    obtain ⟨hf, hx, hy⟩ := b64Groups_sound hlen hrest
    refine ⟨?_, hx, hy⟩
    intro e he
    simp only [List.mem_cons] at he
    rcases he with rfl | rfl | rfl | rfl | he
    · exact mem_of_b64val h₀
    · exact mem_of_b64val h₁
    · exact mem_of_b64val h₂
    · exact mem_of_b64val h₃
    · exact hf e he

/-! ## The padding -/

theorem b64Pad_append (front : Bytes) (x y : UInt8) :
    b64Pad (front ++ [x, y]) =
      if y = ch '=' then some (if x = ch '=' then 2 else 1)
      else if x = ch '=' then none else some 0 := by
  have hlen : (front ++ [x, y]).length = front.length + 2 := by simp
  have hy : (front ++ [x, y]).getD (front.length + 2 - 1) 0 = y := by
    rw [List.getD_append_right _ _ _ _ (by omega), Nat.add_sub_assoc (by decide),
      Nat.add_sub_cancel_left]
    rfl
  have hx : (front ++ [x, y]).getD (front.length + 2 - 2) 0 = x := by
    rw [List.getD_append_right _ _ _ _ (by omega), Nat.add_sub_cancel, Nat.sub_self]
    rfl
  rw [b64Pad, hlen, hx, hy, if_neg (by omega)]

/-- A text that is not empty, with its last two places. -/
theorem split_last {s : Bytes} (hs : s.length % 4 = 0) (hne : s ≠ []) :
    ∃ front x y, s = front ++ [x, y] ∧ front.length % 4 = 2 := by
  have hpos := List.length_pos_iff.2 hne
  have hdrop : (s.drop (s.length - 2)).length = 2 := by
    rw [List.length_drop]
    omega
  obtain ⟨x, y, hxy⟩ := List.length_eq_two.1 hdrop
  refine ⟨s.take (s.length - 2), x, y, ?_, ?_⟩
  · rw [← hxy, List.take_append_drop]
  · rw [List.length_take]
    omega

/-- The last two places of a well-formed text. -/
theorem Padded.places {front ds : Bytes} {x y : UInt8} {pad : Nat}
    (h : Padded (front ++ [x, y]) ds pad) :
    (∀ c ∈ front, c ∈ b64Table) ∧
      ((pad = 0 ∧ ds = front ++ [x, y] ∧ x ∈ b64Table ∧ y ∈ b64Table) ∨
        (pad = 1 ∧ ds = front ++ [x] ∧ x ∈ b64Table ∧ y = ch '=') ∨
          (pad = 2 ∧ ds = front ∧ x = ch '=' ∧ y = ch '=')) := by
  obtain ⟨heq, hd, -, hs⟩ := h
  rcases hs with rfl | ⟨rfl, -⟩ | ⟨rfl, -⟩
  · rw [List.replicate_zero, List.append_nil] at heq
    subst heq
    exact ⟨fun c hc => hd c (by simp [hc]), .inl ⟨rfl, rfl, hd x (by simp), hd y (by simp)⟩⟩
  · have h2 : front ++ [x] ++ [y] = ds ++ [ch '='] := by simpa using heq
    obtain ⟨rfl, hy⟩ := List.append_inj' h2 rfl
    exact ⟨fun c hc => hd c (by simp [hc]),
      .inr (.inl ⟨rfl, rfl, hd x (by simp), (List.cons.inj hy).1⟩)⟩
  · obtain ⟨rfl, hxy⟩ := List.append_inj' heq rfl
    obtain ⟨hx, hy⟩ := List.cons.inj hxy
    exact ⟨hd, .inr (.inr ⟨rfl, rfl, hx, (List.cons.inj hy).1⟩)⟩

/-! ## The decoder -/

/-- **A well-formed text is decoded** to the bits of its digits, cut to whole bytes. -/
theorem b64Decode_padded {s ds : Bytes} {pad : Nat} (h : Padded (cstr s) ds pad) :
    ∃ out, b64Decode (some s) = (some out, out.length) ∧
      out.length = 3 * (cstr s).length / 4 - pad ∧
      stream 8 (out.map (·.toNat)) = (stream 6 (ds.map digitValue)).take (8 * out.length) := by
  generalize ht : cstr s = t at h
  have hmod := h.whole
  rw [b64Decode]
  dsimp only
  rw [ht, if_neg (by omega)]
  by_cases hne : t = []
  · subst hne
    have hds : ds = [] := (List.append_eq_nil_iff.1 h.eq.symm).1
    exact ⟨[], rfl, by simp, by rw [hds]; rfl⟩
  obtain ⟨front, x, y, rfl, hfront⟩ := split_last hmod hne
  obtain ⟨hf, hplaces⟩ := h.places
  have hpad : b64Pad (front ++ [x, y]) = some pad := by
    rw [b64Pad_append]
    rcases hplaces with ⟨rfl, -, hx, hy⟩ | ⟨rfl, -, hx, hy⟩ | ⟨rfl, -, hx, hy⟩
    · rw [if_neg (ne_pad hy), if_neg (ne_pad hx)]
    · rw [if_pos hy, if_neg (ne_pad hx)]
    · rw [if_pos hy, if_pos hx]
  have hxy : Fills x ∧ Fills y := by
    rcases hplaces with ⟨-, -, hx, hy⟩ | ⟨-, -, hx, hy⟩ | ⟨-, -, hx, hy⟩
    · exact ⟨.inr hx, .inr hy⟩
    · exact ⟨.inr hx, .inl hy⟩
    · exact ⟨.inl hx, .inl hy⟩
  have hvals : (front ++ [x, y]).map sextet = ds.map digitValue ++ List.replicate pad 0 := by
    have hfv : front.map sextet = front.map digitValue :=
      List.map_congr_left fun c hc => sextet_digit (hf c hc)
    rw [List.map_append, hfv]
    rcases hplaces with ⟨rfl, rfl, hx, hy⟩ | ⟨rfl, rfl, hx, hy⟩ | ⟨rfl, rfl, hx, hy⟩
    · simp [sextet_digit hx, sextet_digit hy]
    · simp [sextet_digit hx, hy, sextet_pad]
    · simp [hx, hy, sextet_pad]
  generalize hvs : (front ++ [x, y]).map sextet = vs at hvals
  have hvl : vs.length = (front ++ [x, y]).length := by rw [← hvs, List.length_map]
  have hlt : ∀ v ∈ vs, v < 64 := by
    intro v hv
    rw [← hvs] at hv
    obtain ⟨c, hc, rfl⟩ := List.mem_map.1 hv
    rcases List.mem_append.1 hc with hc | hc
    · exact Fills.lt (.inr (hf c hc))
    · simp only [List.mem_cons, List.not_mem_nil, or_false] at hc
      rcases hc with rfl | rfl
      · exact hxy.1.lt
      · exact hxy.2.lt
  have hbytes : (octets vs).map (fun v => (UInt8.ofNat v).toNat) = octets vs := by
    refine (List.map_congr_left fun v hv => ?_).trans (List.map_id _)
    rw [UInt8.toNat_ofNat', Nat.mod_eq_of_lt (octets_lt v hv), id]
  have hol := @octets_length vs (by omega)
  have hdl := congrArg List.length hvals
  simp only [List.length_append, List.length_map, List.length_replicate] at hdl
  have hp := h.short
  rw [hpad]
  dsimp only
  rw [b64Groups_good (Nat.zero_le _) hfront hf hxy.1 hxy.2, hvs, List.nil_append]
  have hlen : (((octets vs).map UInt8.ofNat).take ((front ++ [x, y]).length / 4 * 3 - pad)).length =
      (front ++ [x, y]).length / 4 * 3 - pad := by
    rw [List.length_take, List.length_map, hol]
    omega
  refine ⟨_, by rw [hlen], by rw [hlen]; omega, ?_⟩
  rw [hlen, List.map_take, List.map_map, Function.comp_def, hbytes, stream_take,
    stream_octets (by omega) hlt, hvals, stream_append, List.take_append_of_le_length]
  rw [stream_length, List.length_map]
  omega

/-- **Nothing else is accepted.** -/
theorem b64Decode_sound {s : Bytes} (h : (b64Decode (some s)).1.isSome = true) :
    ∃ ds pad, Padded (cstr s) ds pad := by
  generalize ht : cstr s = t
  rw [b64Decode] at h
  dsimp only at h
  rw [ht] at h
  by_cases hmod : t.length % 4 ≠ 0
  · rw [if_pos hmod] at h
    cases h
  rw [if_neg hmod] at h
  have hwhole : t.length % 4 = 0 := by omega
  by_cases hne : t = []
  · subst hne
    exact ⟨[], 0, rfl, by simp, rfl, .inl rfl⟩
  obtain ⟨front, x, y, rfl, hfront⟩ := split_last hwhole hne
  cases hpad : b64Pad (front ++ [x, y]) with
  | none =>
    rw [hpad] at h
    cases h
  | some pad =>
    rw [hpad] at h
    dsimp only at h
    cases hg : b64Groups ((front ++ [x, y]).length / 4 * 3 - pad) [] (front ++ [x, y]) with
    | none =>
      rw [hg] at h
      cases h
    | some out =>
      obtain ⟨hf, hx, hy⟩ := b64Groups_sound hfront hg
      rw [b64Pad_append] at hpad
      by_cases hye : y = ch '='
      · by_cases hxe : x = ch '='
        · subst hxe hye
          exact ⟨front, 2, rfl, hf, hwhole, .inr (.inr ⟨rfl, hfront⟩)⟩
        · subst hye
          refine ⟨front ++ [x], 1, by simp, fun c hc => ?_, hwhole, .inr (.inl ⟨rfl, ?_⟩)⟩
          · rcases List.mem_append.1 hc with hc | hc
            · exact hf c hc
            · exact List.mem_singleton.1 hc ▸ hx.resolve_left hxe
          · simp only [List.length_append, List.length_singleton]
            omega
      · by_cases hxe : x = ch '='
        · rw [if_neg hye, if_pos hxe] at hpad
          cases hpad
        · refine ⟨front ++ [x, y], 0, by simp, fun c hc => ?_, hwhole, .inl rfl⟩
          rcases List.mem_append.1 hc with hc | hc
          · exact hf c hc
          · simp only [List.mem_cons, List.not_mem_nil, or_false] at hc
            rcases hc with rfl | rfl
            · exact hx.resolve_left hxe
            · exact hy.resolve_left hye

theorem b64Decode_cases (s : Bytes) :
    b64Decode (some s) = (none, 0) ∨ ∃ out n, b64Decode (some s) = (some out, n) := by
  rw [b64Decode]
  dsimp only
  split
  · exact .inl rfl
  · split
    · exact .inl rfl
    · split
      · exact .inl rfl
      · exact .inr ⟨_, _, rfl⟩

/-- **The decoder accepts exactly well-formed text**, and the buffer is the digits' bits. -/
theorem b64Decode_spec (s : Bytes) :
    ((b64Decode (some s)).1.isSome = true ↔ ∃ ds pad, Padded (cstr s) ds pad) ∧
      (∀ ds pad, Padded (cstr s) ds pad →
        ∃ out, b64Decode (some s) = (some out, out.length) ∧
          out.length = 3 * (cstr s).length / 4 - pad ∧
          stream 8 (out.map (·.toNat)) = (stream 6 (ds.map digitValue)).take (8 * out.length)) ∧
      ((b64Decode (some s)).1 = none → (b64Decode (some s)).2 = 0) := by
  refine ⟨⟨b64Decode_sound, ?_⟩, fun ds pad h => b64Decode_padded h, ?_⟩
  · rintro ⟨ds, pad, h⟩
    obtain ⟨out, hout, -⟩ := b64Decode_padded h
    rw [hout]
    rfl
  · intro h
    rcases b64Decode_cases s with hn | ⟨out, n, hn⟩
    · rw [hn]
    · rw [hn] at h
      cases h

/-! ## The encoder -/

/-- Three bytes are a word of 24 bits. -/
theorem bits_bytes {a b c : Nat} (hb : b < 256) (hc : c < 256) :
    bits 24 (a <<< 16 ||| b <<< 8 ||| c) = stream 8 [a, b, c] := by
  have hv : a <<< 16 ||| b <<< 8 ||| c = a * 2 ^ 16 + b * 2 ^ 8 + c := by
    have hw : a <<< 16 ||| b <<< 8 ||| c = (a <<< 8 ||| b) <<< 8 ||| c := by
      simp only [Nat.shiftLeft_or_distrib, ← Nat.shiftLeft_add]
    rw [hw, ← Nat.shiftLeft_add_eq_or_of_lt hc, ← Nat.shiftLeft_add_eq_or_of_lt hb]
    simp only [Nat.shiftLeft_eq]
    omega
  rw [hv, bits_add 16 8, bits_add 8 8]
  simp only [stream_cons, stream_nil, List.append_nil, List.append_assoc]
  congr 1
  · refine bits_congr ?_
    omega
  · congr 1
    · refine bits_congr ?_
      omega
    · refine bits_congr ?_
      omega

/-- The four digits of a word of 24 bits. -/
def quad (v : Nat) : Bytes :=
  [b64Digit (v >>> 18), b64Digit (v >>> 12), b64Digit (v >>> 6), b64Digit v]

theorem quad_mem {v : Nat} {c : UInt8} (h : c ∈ quad v) : c ∈ b64Table := by
  simp only [quad, List.mem_cons, List.not_mem_nil, or_false] at h
  rcases h with rfl | rfl | rfl | rfl <;> exact b64Digit_mem _

theorem stream_quad (v : Nat) : stream 6 ((quad v).map digitValue) = bits 24 v := by
  have hmod : ∀ x, bits 6 (x % 64) = bits 6 x := fun x => bits_congr (Nat.mod_mod _ _)
  rw [bits_add 18 6, bits_add 12 6, bits_add 6 6]
  simp only [quad, List.map_cons, List.map_nil, digitValue_b64Digit, stream_cons, stream_nil, hmod,
    Nat.shiftRight_eq_div_pow, List.append_nil, List.append_assoc, Nat.div_div_eq_div_mul,
    ← Nat.pow_add]

/-- The first `k` digits of a word start with the bits of its first `n` bytes. -/
theorem stream_quad_take {v k n : Nat} {bs : List Nat} (hw : bits 24 v = stream 8 bs)
    (hn : 8 * n ≤ 6 * k) :
    (stream 6 (((quad v).take k).map digitValue)).take (8 * n) = stream 8 (bs.take n) := by
  rw [List.map_take, stream_take, List.take_take, Nat.min_eq_left hn, stream_quad, hw, stream_take]

/-- What the encoder writes for `b`: the digits `ds` with their bits, and the padding. -/
structure Encodes (b ds : Bytes) (pad : Nat) : Prop where
  padded : Padded (b64Encode b) ds pad
  length : 3 * (b64Encode b).length / 4 - pad = b.length
  bits : (stream 6 (ds.map digitValue)).take (8 * b.length) = stream 8 (b.map (·.toNat))

/-- **The encoder writes well-formed text** with the bits of its bytes. -/
theorem b64Encode_encodes : ∀ b : Bytes, ∃ ds pad, Encodes b ds pad
  | [] => ⟨[], 0, ⟨rfl, by simp, rfl, .inl rfl⟩, rfl, rfl⟩
  | [a] => by
    have hw := @bits_bytes a.toNat 0 0 (by decide) (by decide)
    rw [Nat.zero_shiftLeft, Nat.or_zero, Nat.or_zero] at hw
    refine ⟨(quad (a.toNat <<< 16)).take 2, 2,
      ⟨rfl, fun c hc => quad_mem (List.mem_of_mem_take hc), by simp [b64Encode],
        .inr (.inr ⟨rfl, rfl⟩)⟩, by simp [b64Encode], ?_⟩
    exact stream_quad_take (n := 1) hw (by decide)
  | [a, b] => by
    have hw := @bits_bytes a.toNat b.toNat 0 b.toNat_lt (by decide)
    rw [Nat.or_zero] at hw
    refine ⟨(quad (a.toNat <<< 16 ||| b.toNat <<< 8)).take 3, 1,
      ⟨rfl, fun c hc => quad_mem (List.mem_of_mem_take hc), by simp [b64Encode],
        .inr (.inl ⟨rfl, rfl⟩)⟩, by simp [b64Encode], ?_⟩
    exact stream_quad_take (n := 2) hw (by decide)
  | a :: b :: c :: src => by
    obtain ⟨ds, pad, hp, hl, hb⟩ := b64Encode_encodes src
    have hw := @bits_bytes a.toNat b.toNat c.toNat b.toNat_lt c.toNat_lt
    generalize hv : a.toNat <<< 16 ||| b.toNat <<< 8 ||| c.toNat = v at hw
    have he : b64Encode (a :: b :: c :: src) = quad v ++ b64Encode src := by
      rw [b64Encode, ← hv]
      rfl
    have hq : (quad v).length = 4 := rfl
    have hwhole := hp.whole
    have hshort := hp.short
    have hlen := congrArg List.length hp.eq
    rw [List.length_append, List.length_replicate] at hlen
    refine ⟨quad v ++ ds, pad, ⟨?_, ?_, ?_, ?_⟩, ?_, ?_⟩
    · rw [he, hp.eq, List.append_assoc]
    · intro e hm
      exact (List.mem_append.1 hm).elim quad_mem (hp.digits e)
    · rw [he, List.length_append, hq]
      omega
    · rw [List.length_append, hq]
      omega
    · rw [he, List.length_append, hq]
      simp only [List.length_cons]
      omega
    · have hthree : (stream 8 [a.toNat, b.toNat, c.toNat]).length = 24 := by simp
      have hcut : 8 * (a :: b :: c :: src).length = 24 + 8 * src.length := by
        simp only [List.length_cons]
        omega
      rw [List.map_append, stream_append, stream_quad, hw, hcut, ← hthree, List.take_append,
        List.take_of_length_le (Nat.le_add_right _ _), Nat.add_sub_cancel_left, hb, ← stream_append]
      rfl

theorem b64Encode_nulFree (b : Bytes) : NulFree (b64Encode b) := by
  obtain ⟨ds, pad, hp, -⟩ := b64Encode_encodes b
  intro c hc h0
  rw [hp.eq] at hc
  rcases List.mem_append.1 hc with hc | hc
  · have := hp.digits c hc
    rw [h0] at this
    exact absurd this (by decide +kernel)
  · rw [(List.mem_replicate.1 hc).2] at h0
    exact absurd h0 (by decide)

/-- **Decoding undoes encoding.** -/
theorem b64Decode_encode (b : Bytes) : b64Decode (some (b64Encode b)) = (some b, b.length) := by
  obtain ⟨ds, pad, hp, hl, hb⟩ := b64Encode_encodes b
  rw [← cstr_eq (b64Encode_nulFree b)] at hp hl
  obtain ⟨out, hout, hlen, hbits⟩ := b64Decode_padded hp
  rw [hlen.trans hl, hb] at hbits
  have hmap := stream_inj (k := 8) (by decide) (by simpa using fun c _ => UInt8.toNat_lt c)
    (by simpa using fun c _ => UInt8.toNat_lt c) hbits
  have hb : out = b := List.map_injective_iff.2 (fun _ _ h => UInt8.toNat_inj.1 h) hmap
  rw [hout, hb]

end Json
