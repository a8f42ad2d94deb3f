import AlpmRpc.Common.Grammar

/-!
# The parser accepts exactly the grammar

For each part of the parser a soundness lemma (what it takes off the input is a text of what it
returns) and a completeness lemma (a text, followed by something that cannot be part of it, is taken
off). `ajParse_iff` puts them together.
-/

set_option autoImplicit false

namespace Json

/-! ## Whitespace -/

theorem skipWs_sound (s : Bytes) : ∃ w, s = w ++ skipWs s ∧ Ws w :=
  ⟨s.takeWhile isWs, List.takeWhile_append_dropWhile.symm, fun _ hc => List.mem_takeWhile_imp hc⟩

theorem skipWs_ws {w : Bytes} (h : Ws w) (s : Bytes) : skipWs (w ++ s) = skipWs s := by
  induction w with
  | nil => rfl
  | cons c w ih =>
    rw [List.cons_append, skipWs, List.dropWhile_cons, if_pos (h c List.mem_cons_self)]
    exact ih fun x hx => h x (List.mem_cons_of_mem _ hx)

theorem skipWs_head {c : UInt8} (hc : isWs c = false) (s : Bytes) :
    skipWs (c :: s) = c :: s := by
  rw [skipWs, List.dropWhile_cons, if_neg (by simp [hc])]

theorem skipWs_nil_iff {s : Bytes} : skipWs s = [] ↔ Ws s := by
  rw [skipWs, List.dropWhile_eq_nil_iff]
  exact Iff.rfl

/-! ## Strings -/

theorem hex4_take {s : Bytes} {v : Nat} (h : hex4 s = some v) :
    ∃ x t, s = x ++ t ∧ HexWord x v := by
  match s, h with
  | a :: b :: c :: d :: t, h => exact ⟨[a, b, c, d], t, rfl, rfl, h⟩

theorem hex4_append {x : Bytes} {v : Nat} (h : HexWord x v) (t : Bytes) : hex4 (x ++ t) = some v := by
  obtain ⟨hl, hv⟩ := h
  match x, hl, hv with
  | [a, b, c, d], _, hv => exact hv

theorem hexDigitVal_quote : hexDigitVal (ch '"') = none := by decide

/-- The digits of a word are hexadecimal, so a quote ends it. -/
theorem HexWord.not_mem {x : Bytes} {v : Nat} (h : HexWord x v) {c : UInt8}
    (hc : hexDigitVal c = none) : c ∉ x := by
  obtain ⟨hl, hv⟩ := h
  match x, hl, hv with
  | [a, b, d, e], _, hv =>
    simp only [hex4, Option.bind_eq_bind, Option.bind_eq_some_iff] at hv
    obtain ⟨_, ha, _, hb, _, hd, _, he, -⟩ := hv
    simp only [List.mem_cons, List.not_mem_nil, or_false]
    intro hm
    rcases hm with rfl | rfl | rfl | rfl
    · rw [hc] at ha; cases ha
    · rw [hc] at hb; cases hb
    · rw [hc] at hd; cases hd
    · rw [hc] at he; cases he

/-- What a low surrogate's escape is followed by does not matter. -/
theorem lowNext_append {t r : Bytes} : LowNext (t ++ ch '"' :: r) ↔ LowNext t := by
  refine ⟨fun ⟨y, lo, t', he, hy, hlo⟩ => ?_, fun ⟨y, lo, t', he, hy, hlo⟩ => ?_⟩
  · -- the quote is not among the six bytes
    have hnq : ch '"' ∉ ch '\\' :: ch 'u' :: y := by
      simp only [List.mem_cons, not_or]
      exact ⟨by decide, by decide, hy.not_mem hexDigitVal_quote⟩
    rcases List.append_eq_append_iff.1 he with ⟨a, ha, hb⟩ | ⟨c, hc, hd⟩
    · cases a with
      | nil => exact ⟨y, lo, [], by rw [List.append_nil] at ha ⊢; exact ha.symm, hy, hlo⟩
      | cons q a =>
        injection hb with hq _
        exact absurd (by rw [ha, hq]; simp) hnq
    · exact ⟨y, lo, c, hc, hy, hlo⟩
  · exact ⟨y, lo, t' ++ ch '"' :: r, by rw [he, List.append_assoc], hy, hlo⟩

/-- What `codePoint` looks for after a high surrogate. -/
theorem lowNext_iff {t : Bytes} :
    LowNext t ↔ ∃ lo, t[0]? = some (ch '\\') ∧ t[1]? = some (ch 'u') ∧ hex4 (t.drop 2) = some lo ∧
      isLow lo := by
  refine ⟨fun ⟨y, lo, t', he, hy, hlo⟩ => ?_, fun ⟨lo, h0, h1, h2, hlo⟩ => ?_⟩
  · subst he
    exact ⟨lo, rfl, rfl, hex4_append hy t', hlo⟩
  · match t, h0, h1, h2 with
    | a :: b :: t', h0, h1, h2 =>
      obtain ⟨y, t'', he, hy⟩ := hex4_take h2
      simp only [List.getElem?_cons_zero, List.getElem?_cons_succ, Option.some.injEq] at h0 h1
      simp only [List.drop_succ_cons, List.drop_zero] at he
      exact ⟨y, lo, t'', by rw [h0, h1, he]; rfl, hy, hlo⟩

/-- A word that no low surrogate follows. -/
theorem codePoint_word {x : Bytes} {v : Nat} (h : HexWord x v) {t : Bytes}
    (hn : ¬(isHigh v ∧ LowNext t)) : codePoint (x ++ t) = some (v, 4) := by
  have hd : (x ++ t).drop 4 = t := by rw [← h.1, List.drop_left]
  have h4 : (x ++ t)[4]? = t[0]? := by
    rw [List.getElem?_append_right (by rw [h.1])]
    simp [h.1]
  have h5 : (x ++ t)[5]? = t[1]? := by
    rw [List.getElem?_append_right (by rw [h.1]; omega)]
    simp [h.1]
  have h6 : (x ++ t).drop 6 = t.drop 2 := by
    rw [show 6 = 4 + 2 from rfl, ← List.drop_drop, hd]
  simp only [codePoint, hex4_append h, Option.bind_eq_bind, Option.bind_some, hd, h4, h5, h6]
  split
  · rename_i hc
    cases hlo : hex4 (t.drop 2) with
    | none => rfl
    | some lo =>
      dsimp only
      split
      · rename_i hl
        exact absurd ⟨⟨hc.1, hc.2.1⟩, lowNext_iff.2 ⟨lo, hc.2.2.2.1, hc.2.2.2.2, hlo, hl⟩⟩ hn
      · rfl
  · rfl

/-- A pair of surrogates. -/
theorem codePoint_pair {x y : Bytes} {hi lo : Nat} (hx : HexWord x hi) (hh : isHigh hi)
    (hy : HexWord y lo) (hl : isLow lo) (t : Bytes) :
    codePoint (x ++ ch '\\' :: ch 'u' :: y ++ t) =
      some (0x10000 + ((hi - 0xD800) <<< 10) + (lo - 0xDC00), 10) := by
  rw [List.append_assoc]
  have hd : (x ++ (ch '\\' :: ch 'u' :: y ++ t)).drop 4 = ch '\\' :: ch 'u' :: y ++ t := by
    rw [← hx.1, List.drop_left]
  have h4 : (x ++ (ch '\\' :: ch 'u' :: y ++ t))[4]? = some (ch '\\') := by
    rw [List.getElem?_append_right (by rw [hx.1])]
    simp [hx.1]
  have h5 : (x ++ (ch '\\' :: ch 'u' :: y ++ t))[5]? = some (ch 'u') := by
    rw [List.getElem?_append_right (by rw [hx.1]; omega)]
    simp [hx.1]
  have h6 : (x ++ (ch '\\' :: ch 'u' :: y ++ t)).drop 6 = y ++ t := by
    rw [show 6 = 4 + 2 from rfl, ← List.drop_drop, hd]
    rfl
  have hlen : (ch '\\' :: ch 'u' :: y ++ t).length ≥ 6 := by
    simp only [List.cons_append, List.length_cons, List.length_append, hy.1]
    omega
  simp only [codePoint, hex4_append hx, Option.bind_eq_bind, Option.bind_some, hd, h4, h5, h6,
    hex4_append hy]
  rw [if_pos ⟨hh.1, hh.2, hlen, trivial, trivial⟩, if_pos ⟨hl.1, hl.2⟩]
  rfl

/-- The two forms of a `\u` escape. -/
theorem codePoint_sound {s : Bytes} {cp k : Nat} (h : codePoint s = some (cp, k)) :
    (k = 4 ∧ ∃ x t, s = x ++ t ∧ HexWord x cp ∧ ¬(isHigh cp ∧ LowNext t)) ∨
    (k = 10 ∧ ∃ x y t hi lo, s = x ++ ch '\\' :: ch 'u' :: y ++ t ∧ HexWord x hi ∧ isHigh hi ∧
      HexWord y lo ∧ isLow lo ∧ cp = 0x10000 + ((hi - 0xD800) <<< 10) + (lo - 0xDC00)) := by
  have hhex : ∃ hi, hex4 s = some hi := by
    cases hx : hex4 s with
    | none => simp [codePoint, hx] at h
    | some hi => exact ⟨hi, rfl⟩
  obtain ⟨hi, hhi⟩ := hhex
  obtain ⟨x, t, rfl, hx⟩ := hex4_take hhi
  by_cases hn : isHigh hi ∧ LowNext t
  · obtain ⟨hh, y, lo, t', rfl, hy, hl⟩ := hn
    have hp := codePoint_pair hx hh hy hl t'
    rw [List.append_assoc] at hp
    rw [hp] at h
    injection h with h
    injection h with h1 h2
    exact .inr ⟨h2.symm, x, y, t', hi, lo, by rw [List.append_assoc], hx, hh, hy, hl, h1.symm⟩
  · rw [codePoint_word hx hn] at h
    injection h with h
    injection h with h1 h2
    subst h1
    exact .inl ⟨h2.symm, x, t, rfl, hx, hn⟩

/-- The loop of `parse_string_raw` after a backslash. -/
def parseEscape (n : Nat) : Bytes → Option (Bytes × Bytes)
  | [] => none
  | e :: s =>
    if e = ch 'u' then do
      let (cp, k) ← codePoint s
      let (cs, r) ← parseChars n (s.drop k)
      return (utf8 cp ++ cs, r)
    else do
      let b ← simpleEscape e
      let (cs, r) ← parseChars n s
      return (b :: cs, r)

theorem parseChars_cons (n : Nat) (c : UInt8) (s : Bytes) :
    parseChars (n + 1) (c :: s) =
      if c = ch '"' then some ([], s)
      else if c ≠ ch '\\' then
        if c < 0x20 then none
        else do
          let (cs, r) ← parseChars n s
          return (c :: cs, r)
      else parseEscape n s := by
  cases s <;> rfl

theorem parseChars_sound {n : Nat} {s b r : Bytes} (h : parseChars n s = some (b, r)) :
    ∃ t, s = t ++ ch '"' :: r ∧ Chars t b := by
  induction n generalizing s b r with
  | zero => cases h
  | succ n ih =>
    cases s with
    | nil => cases h
    | cons c s =>
      rw [parseChars_cons] at h
      split at h
      · rename_i hc
        cases h
        exact ⟨[], by rw [hc]; rfl, .nil⟩
      · rename_i hq
        split at h
        · rename_i hb
          split at h
          · cases h
          · rename_i hctl
            obtain ⟨⟨cs, r'⟩, h1, h2⟩ := Option.bind_eq_some_iff.1 h
            cases h2
            obtain ⟨t, rfl, ht⟩ := ih h1
            exact ⟨c :: t, rfl, .plain (UInt8.not_lt.1 hctl) hq hb ht⟩
        · rename_i hb
          have hb : c = ch '\\' := by simpa using hb
          subst hb
          cases s with
          | nil => cases h
          | cons e s =>
            rw [parseEscape] at h
            split at h
            · rename_i he
              subst he
              obtain ⟨⟨cp, k⟩, h1, h2⟩ := Option.bind_eq_some_iff.1 h
              obtain ⟨⟨cs, r'⟩, h3, h4⟩ := Option.bind_eq_some_iff.1 h2
              cases h4
              obtain ⟨t, hs, ht⟩ := ih h3
              rcases codePoint_sound h1 with ⟨rfl, x, t', rfl, hx, hn⟩ |
                ⟨rfl, x, y, t', hi, lo, rfl, hx, hh, hy, hl, hcp⟩
              · rw [← hx.1, List.drop_left] at hs
                subst hs
                rw [lowNext_append] at hn
                exact ⟨_, by simp, .unicode hx hn ht⟩
              · have hdrop : (x ++ ch '\\' :: ch 'u' :: y ++ t').drop 10 = t' := by
                  have hlen : (x ++ ch '\\' :: ch 'u' :: y).length = 10 := by
                    simp [hx.1, hy.1]
                  rw [← hlen, List.drop_left]
                rw [hdrop] at hs
                subst hs
                rw [hcp]
                exact ⟨_, by simp, .surrogates hx hh hy hl ht⟩
            · obtain ⟨b', h1, h2⟩ := Option.bind_eq_some_iff.1 h
              obtain ⟨⟨cs, r'⟩, h3, h4⟩ := Option.bind_eq_some_iff.1 h2
              cases h4
              obtain ⟨t, rfl, ht⟩ := ih h3
              exact ⟨ch '\\' :: e :: t, by simp, .escape h1 ht⟩

/-- An escape of one character is not the one of a code point. -/
theorem simpleEscape_ne_u {e b : UInt8} (h : simpleEscape e = some b) : e ≠ ch 'u' := by
  intro he
  have hu : simpleEscape (ch 'u') = none := by decide
  rw [he, hu] at h
  cases h

theorem parseChars_complete {t b : Bytes} (h : Chars t b) (r : Bytes) {n : Nat}
    (hn : t.length < n) : parseChars n (t ++ ch '"' :: r) = some (b, r) := by
  induction h generalizing n with
  | nil =>
    obtain ⟨n, rfl⟩ : ∃ m, n = m + 1 := ⟨n - 1, by simp at hn; omega⟩
    rw [List.nil_append, parseChars_cons, if_pos rfl]
  | @plain c t s hc hq hb _ ih =>
    obtain ⟨n, rfl⟩ : ∃ m, n = m + 1 := ⟨n - 1, by omega⟩
    rw [List.length_cons] at hn
    rw [List.cons_append, parseChars_cons, if_neg hq, if_pos hb, if_neg (UInt8.not_lt.2 hc),
      ih (by omega)]
    rfl
  | @escape e b t s he _ ih =>
    obtain ⟨n, rfl⟩ : ∃ m, n = m + 1 := ⟨n - 1, by omega⟩
    rw [List.length_cons, List.length_cons] at hn
    rw [List.cons_append, List.cons_append, parseChars_cons, if_neg (by decide), if_neg (by simp),
      parseEscape, if_neg (simpleEscape_ne_u he), he, ih (by omega)]
    rfl
  | @unicode x t s v hx hn' _ ih =>
    obtain ⟨n, rfl⟩ : ∃ m, n = m + 1 := ⟨n - 1, by omega⟩
    simp only [List.cons_append, List.length_cons, List.length_append, hx.1] at hn
    rw [← lowNext_append (r := r)] at hn'
    simp only [List.cons_append, List.append_assoc]
    rw [parseChars_cons, if_neg (by decide), if_neg (by simp), parseEscape, if_pos rfl,
      codePoint_word hx hn']
    simp only [Option.bind_eq_bind, Option.bind_some]
    rw [show (4 : Nat) = x.length from hx.1.symm, List.drop_left, ih (by omega)]
    rfl
  | @surrogates x y t s hi lo hx hh hy hl _ ih =>
    obtain ⟨n, rfl⟩ : ∃ m, n = m + 1 := ⟨n - 1, by omega⟩
    simp only [List.cons_append, List.length_cons, List.length_append, hx.1, hy.1] at hn
    have hcp := codePoint_pair hx hh hy hl (t ++ ch '"' :: r)
    have hdrop : (x ++ ch '\\' :: ch 'u' :: y ++ (t ++ ch '"' :: r)).drop 10 =
        t ++ ch '"' :: r := by
      have hlen : (x ++ ch '\\' :: ch 'u' :: y).length = 10 := by
        simp [hx.1, hy.1]
      rw [← hlen, List.drop_left]
    simp only [List.cons_append, List.append_assoc] at hcp hdrop ⊢
    rw [parseChars_cons, if_neg (by decide), if_neg (by simp), parseEscape, if_pos rfl, hcp]
    simp only [Option.bind_eq_bind, Option.bind_some]
    rw [hdrop, ih (by omega)]
    rfl

theorem parseStringRaw_sound {s b r : Bytes} (h : parseStringRaw s = some (b, r)) :
    ∃ q, s = q ++ r ∧ Quoted q b := by
  cases s with
  | nil => cases h
  | cons c s =>
    rw [parseStringRaw] at h
    split at h
    · rename_i hc
      subst hc
      obtain ⟨t, rfl, ht⟩ := parseChars_sound h
      exact ⟨ch '"' :: t ++ [ch '"'], by simp, t, rfl, ht⟩
    · cases h

theorem parseStringRaw_complete {q b : Bytes} (h : Quoted q b) (r : Bytes) :
    parseStringRaw (q ++ r) = some (b, r) := by
  obtain ⟨t, rfl, ht⟩ := h
  have he : ch '"' :: t ++ [ch '"'] ++ r = ch '"' :: (t ++ ch '"' :: r) := by simp
  rw [he, parseStringRaw, if_pos rfl]
  exact parseChars_complete ht r (by rw [List.length_append]; omega)

/-! ## Numbers -/

theorem le_digitsFrom (u : Nat) (ds : Bytes) : u ≤ digitsFrom u ds := by
  induction ds generalizing u with
  | nil => exact Nat.le_refl u
  | cons c ds ih =>
    rw [digitsFrom, List.foldl_cons]
    exact le_trans (by omega) (ih (u * 10 + (c.toNat - 48)))

theorem digit_le {c : UInt8} (h : isDigit c = true) : c.toNat - 48 ≤ 9 := by
  rw [isDigit, Bool.and_eq_true] at h
  have h9 : c.toNat ≤ 57 := UInt8.le_iff_toNat_le.1 (of_decide_eq_true h.2)
  omega

/-- The text ends the digits before it. -/
def NoDigit (r : Bytes) : Prop := ∀ c, r.head? = some c → isDigit c = false

theorem parseDigits_sound {u w : Nat} {s r : Bytes} (h : parseDigits u s = some (w, r)) :
    ∃ ds, s = ds ++ r ∧ (∀ c ∈ ds, isDigit c = true) ∧ w = digitsFrom u ds := by
  induction s generalizing u with
  | nil =>
    cases h
    exact ⟨[], rfl, by simp, rfl⟩
  | cons c s ih =>
    rw [parseDigits] at h
    split at h
    · rename_i hc
      dsimp only at h
      split at h
      · cases h
      · obtain ⟨ds, rfl, hds, rfl⟩ := ih h
        refine ⟨c :: ds, rfl, fun x hx => ?_, rfl⟩
        rcases List.mem_cons.1 hx with rfl | hx
        · exact hc
        · exact hds x hx
    · cases h
      exact ⟨[], rfl, by simp, rfl⟩

theorem parseDigits_complete {ds r : Bytes} (hds : ∀ c ∈ ds, isDigit c = true) (hr : NoDigit r)
    (u : Nat) (hb : digitsFrom u ds < 2 ^ 64) :
    parseDigits u (ds ++ r) = some (digitsFrom u ds, r) := by
  induction ds generalizing u with
  | nil =>
    cases r with
    | nil => rfl
    | cons c r =>
      rw [List.nil_append, parseDigits, if_neg (by simp [hr c rfl])]
      rfl
  | cons c ds ih =>
    have hc := hds c List.mem_cons_self
    have hle := le_digitsFrom (u * 10 + (c.toNat - 48)) ds
    have hb' : digitsFrom (u * 10 + (c.toNat - 48)) ds < 2 ^ 64 := hb
    have h9 := digit_le hc
    rw [List.cons_append, parseDigits, if_pos hc]
    dsimp only
    rw [if_neg (by omega)]
    exact ih (fun x hx => hds x (List.mem_cons_of_mem _ hx)) _ hb'

/-- What `signed` gives back is the value, in range. -/
theorem signed_eq_some {neg : Bool} {u : Nat} {v : Int} :
    signed neg u = some v ↔ v = (if neg then -(u : Int) else u) ∧ I64 v := by
  unfold signed I64
  cases neg with
  | true =>
    simp only [if_true]
    split
    · refine ⟨fun h => (by cases h), fun ⟨h, h1, h2⟩ => ?_⟩
      omega
    · rw [Option.some_inj]
      refine ⟨fun h => ⟨h.symm, by omega, by omega⟩, fun h => h.1.symm⟩
  | false =>
    simp only [Bool.false_eq_true, if_false]
    split
    · refine ⟨fun h => (by cases h), fun ⟨h, h1, h2⟩ => ?_⟩
      omega
    · rw [Option.some_inj]
      refine ⟨fun h => ⟨h.symm, by omega, by omega⟩, fun h => h.1.symm⟩

/-- The number after its sign. -/
def parseMagnitude (neg : Bool) : Bytes → Option (Tree × Bytes)
  | [] => none
  | c :: s =>
    if !isDigit c then none
    else do
      let (u, r) ← parseDigits 0 (c :: s)
      if r.head? = some (ch '.') ∨ r.head? = some (ch 'e') ∨ r.head? = some (ch 'E') then none
      else do
        let v ← signed neg u
        return (.num v, r)

theorem parseNumber_minus (s : Bytes) : parseNumber (ch '-' :: s) = parseMagnitude true s := by
  cases s <;> rfl

theorem parseNumber_plain {s : Bytes} (h : s.head? ≠ some (ch '-')) :
    parseNumber s = parseMagnitude false s := by
  cases s with
  | nil => rfl
  | cons c s =>
    have hc : c ≠ ch '-' := fun he => h (by rw [he]; rfl)
    simp only [parseNumber, if_neg hc]
    rfl

theorem parseMagnitude_sound {neg : Bool} {s r : Bytes} {v : Tree}
    (h : parseMagnitude neg s = some (v, r)) :
    ∃ ds u i, s = ds ++ r ∧ Digits ds u ∧ v = .num i ∧ i = (if neg then -(u : Int) else u) ∧
      I64 i := by
  cases s with
  | nil => cases h
  | cons c s =>
    rw [parseMagnitude] at h
    split at h
    · cases h
    · rename_i hc
      obtain ⟨⟨u, r'⟩, h1, h2⟩ := Option.bind_eq_some_iff.1 h
      dsimp only at h2
      split at h2
      · cases h2
      · obtain ⟨i, h3, h4⟩ := Option.bind_eq_some_iff.1 h2
        cases h4
        obtain ⟨ds, hs, hds, rfl⟩ := parseDigits_sound h1
        obtain ⟨hi, hr⟩ := signed_eq_some.1 h3
        refine ⟨ds, _, i, hs, ⟨fun he => ?_, hds, rfl⟩, rfl, hi, hr⟩
        -- the first byte is a digit, so some were taken
        subst he
        rw [List.nil_append] at hs
        have hlen : parseDigits 0 (c :: s) = some (digitsFrom 0 [], c :: s) := by rw [h1, hs]
        rw [parseDigits, if_pos (by simpa using hc)] at hlen
        dsimp only at hlen
        split at hlen
        · cases hlen
        · obtain ⟨ds', hs', -, -⟩ := parseDigits_sound hlen
          have := congrArg List.length hs'
          simp at this
          omega

theorem parseMagnitude_complete {neg : Bool} {ds r : Bytes} {u : Nat} {i : Int}
    (h : Digits ds u) (hi : i = (if neg then -(u : Int) else u)) (hr : I64 i) (hd : NoDigit r)
    (hreal : ¬(r.head? = some (ch '.') ∨ r.head? = some (ch 'e') ∨ r.head? = some (ch 'E'))) :
    parseMagnitude neg (ds ++ r) = some (.num i, r) := by
  obtain ⟨hne, hds, rfl⟩ := h
  have hlt : digitsFrom 0 ds < 2 ^ 64 := by
    obtain ⟨h1, h2⟩ := hr
    cases neg <;> simp at hi <;> omega
  have hp := parseDigits_complete hds hd 0 hlt
  cases ds with
  | nil => exact absurd rfl hne
  | cons c ds =>
    rw [List.cons_append] at hp ⊢
    rw [parseMagnitude, if_neg (by simp [hds c List.mem_cons_self]), hp]
    simp only [Option.bind_eq_bind, Option.bind_some]
    rw [if_neg hreal, signed_eq_some.2 ⟨hi, hr⟩]
    rfl

/-! ## What a value starts with, and what may follow it -/

/-- The bytes `parse_value` looks for before it comes to numbers, and the closing brackets. -/
def otherHeads : Bytes :=
  [ch '{', ch '}', ch '[', ch ']', ch '"', ch 't', ch 'f', ch 'n']

theorem head_number : ∀ n < 256, UInt8.ofNat n = ch '-' ∨ isDigit (UInt8.ofNat n) = true →
    isWs (UInt8.ofNat n) = false ∧ ∀ c ∈ otherHeads, UInt8.ofNat n ≠ c := by
  decide +kernel

theorem number_head {c : UInt8} (h : c = ch '-' ∨ isDigit c = true) :
    isWs c = false ∧ ∀ d ∈ otherHeads, c ≠ d := by
  have := head_number c.toNat c.toNat_lt
  rw [UInt8.ofNat_toNat] at this
  exact this h

/-- What can stand after a value: nothing, a space, a comma or a closing bracket. -/
def Follows (r : Bytes) : Prop :=
  ∀ c, r.head? = some c → isWs c = true ∨ c = ch ',' ∨ c = ch ']' ∨ c = ch '}'

theorem follows_head : ∀ n < 256,
    (isWs (UInt8.ofNat n) = true ∨ UInt8.ofNat n = ch ',' ∨ UInt8.ofNat n = ch ']' ∨
      UInt8.ofNat n = ch '}') →
    isDigit (UInt8.ofNat n) = false ∧ UInt8.ofNat n ≠ ch '.' ∧ UInt8.ofNat n ≠ ch 'e' ∧
      UInt8.ofNat n ≠ ch 'E' := by
  decide +kernel

theorem Follows.head {r : Bytes} (h : Follows r) {c : UInt8} (hc : r.head? = some c) :
    isDigit c = false ∧ c ≠ ch '.' ∧ c ≠ ch 'e' ∧ c ≠ ch 'E' := by
  have := follows_head c.toNat c.toNat_lt
  rw [UInt8.ofNat_toNat] at this
  exact this (h c hc)

theorem Follows.nil : Follows [] := by
  intro c h
  cases h

theorem Follows.cons {c : UInt8} (h : isWs c = true ∨ c = ch ',' ∨ c = ch ']' ∨ c = ch '}')
    (r : Bytes) : Follows (c :: r) := by
  intro c' h'
  injection h' with h'
  rw [← h']
  exact h

theorem Follows.ws {w r : Bytes} (hw : Ws w) (h : Follows r) : Follows (w ++ r) := by
  cases w with
  | nil => exact h
  | cons c w => exact .cons (.inl (hw c List.mem_cons_self)) _

theorem Follows.closer (isObj : Bool) (r : Bytes) : Follows (closer isObj :: r) := by
  cases isObj with
  | true => exact .cons (.inr (.inr (.inr rfl))) r
  | false => exact .cons (.inr (.inr (.inl rfl))) r

theorem parseNumber_complete {s : Bytes} {v : Int} (h : Number s v) {r : Bytes} (hr : Follows r) :
    parseNumber (s ++ r) = some (.num v, r) := by
  obtain ⟨hrange, ds, u, hd, hs⟩ := h
  have hnd : NoDigit r := fun c hc => (hr.head hc).1
  have hreal : ¬(r.head? = some (ch '.') ∨ r.head? = some (ch 'e') ∨ r.head? = some (ch 'E')) := by
    intro hx
    rcases hx with hx | hx | hx
    · exact (hr.head hx).2.1 rfl
    · exact (hr.head hx).2.2.1 rfl
    · exact (hr.head hx).2.2.2 rfl
  rcases hs with ⟨rfl, hv⟩ | ⟨rfl, hv⟩
  · rw [parseNumber_plain, parseMagnitude_complete hd (by simpa using hv) hrange hnd hreal]
    obtain ⟨hne, hds, -⟩ := hd
    cases s with
    | nil => exact absurd rfl hne
    | cons c s =>
      intro hc
      injection hc with hc
      have := hds c List.mem_cons_self
      rw [hc] at this
      exact absurd this (by decide)
  · rw [List.cons_append, parseNumber_minus,
      parseMagnitude_complete hd (by simpa using hv) hrange hnd hreal]

theorem parseNumber_sound {s r : Bytes} {v : Tree} (h : parseNumber s = some (v, r)) :
    ∃ t i, s = t ++ r ∧ v = .num i ∧ Number t i := by
  by_cases hm : s.head? = some (ch '-')
  · obtain ⟨s', rfl⟩ : ∃ s', s = ch '-' :: s' := by
      cases s with
      | nil => cases hm
      | cons c s' =>
        injection hm with hm
        exact ⟨s', by rw [hm]⟩
    rw [parseNumber_minus] at h
    obtain ⟨ds, u, i, rfl, hd, rfl, hi, hr⟩ := parseMagnitude_sound h
    exact ⟨ch '-' :: ds, i, rfl, rfl, hr, ds, u, hd, .inr ⟨rfl, by simpa using hi⟩⟩
  · rw [parseNumber_plain hm] at h
    obtain ⟨ds, u, i, rfl, hd, rfl, hi, hr⟩ := parseMagnitude_sound h
    exact ⟨ds, i, rfl, rfl, hr, ds, u, hd, .inl ⟨rfl, by simpa using hi⟩⟩

theorem Number.head {s : Bytes} {v : Int} (h : Number s v) :
    ∃ c x, s = c :: x ∧ (c = ch '-' ∨ isDigit c = true) := by
  obtain ⟨-, ds, u, ⟨hne, hds, -⟩, hs⟩ := h
  rcases hs with ⟨rfl, -⟩ | ⟨rfl, -⟩
  · cases s with
    | nil => exact absurd rfl hne
    | cons c x => exact ⟨c, x, rfl, .inr (hds c List.mem_cons_self)⟩
  · exact ⟨ch '-', ds, rfl, .inl rfl⟩

/-- A value starts with neither a space nor a closing bracket. -/
theorem Derives.head {n : Nat} {s : Bytes} {v : Tree} (h : Derives n s v) :
    ∃ c x, s = c :: x ∧ isWs c = Bool.false ∧ c ≠ ch ']' ∧ c ≠ ch '}' := by
  cases h with
  | null => exact ⟨_, _, rfl, by decide, by decide, by decide⟩
  | true => exact ⟨_, _, rfl, by decide, by decide, by decide⟩
  | false => exact ⟨_, _, rfl, by decide, by decide, by decide⟩
  | num h =>
    obtain ⟨c, x, rfl, hc⟩ := h.head
    obtain ⟨hws, hne⟩ := number_head hc
    exact ⟨c, x, rfl, hws, hne _ (by decide), hne _ (by decide)⟩
  | str h =>
    obtain ⟨t, rfl, -⟩ := h
    exact ⟨_, _, rfl, by decide, by decide, by decide⟩
  | empty isObj h => cases isObj <;> exact ⟨_, _, rfl, by decide, by decide, by decide⟩
  | @items _ isObj _ _ h => cases isObj <;> exact ⟨_, _, rfl, by decide, by decide, by decide⟩

/-! ## Values -/

theorem parseKey_sound {isObj : Bool} {s k r : Bytes} (h : parseKey isObj s = some (k, r)) :
    (isObj = false ∧ k = [] ∧ r = s) ∨
      (isObj = true ∧ ∃ w q w₁, s = w ++ q ++ w₁ ++ ch ':' :: r ∧ Ws w ∧ Quoted q k ∧ Ws w₁) := by
  cases isObj with
  | false =>
    cases h
    exact .inl ⟨rfl, rfl, rfl⟩
  | true =>
    refine .inr ⟨rfl, ?_⟩
    simp only [parseKey, if_true] at h
    obtain ⟨⟨k', s'⟩, h1, h2⟩ := Option.bind_eq_some_iff.1 h
    dsimp only at h2
    obtain ⟨w, hs, hw⟩ := skipWs_sound s
    obtain ⟨q, hq, hqk⟩ := parseStringRaw_sound h1
    obtain ⟨w₁, hs', hw₁⟩ := skipWs_sound s'
    cases hc : skipWs s' with
    | nil => rw [hc] at h2; cases h2
    | cons c s'' =>
      rw [hc] at h2 hs'
      dsimp only at h2
      split at h2
      · rename_i hcc
        cases h2
        refine ⟨w, q, w₁, ?_, hw, hqk, hw₁⟩
        rw [hs, hq, hs', hcc]
        simp
      · cases h2

theorem Ws.append {w w' : Bytes} (h : Ws w) (h' : Ws w') : Ws (w ++ w') := by
  intro c hc
  rcases List.mem_append.1 hc with hc | hc
  · exact h c hc
  · exact h' c hc

theorem DerivesItem.ws_head {n : Nat} {isObj : Bool} {w s k : Bytes} {v : Tree} (hw : Ws w)
    (h : DerivesItem n isObj s k v) : DerivesItem n isObj (w ++ s) k v := by
  cases h with
  | elem hw₀ h hw' =>
    rw [← List.append_assoc, ← List.append_assoc]
    exact .elem (hw.append hw₀) h hw'
  | member hw₀ hq h₁ h₂ h hw' =>
    have := DerivesItem.member (hw.append hw₀) hq h₁ h₂ h hw'
    simpa only [List.append_assoc] using this

/-- Space before the first item is part of it. -/
theorem DerivesItems.ws_head {n : Nat} {isObj : Bool} {w s : Bytes} {ms : List (Bytes × Tree)}
    (hw : Ws w) (h : DerivesItems n isObj s ms) : DerivesItems n isObj (w ++ s) ms := by
  cases h with
  | last h => exact .last (h.ws_head hw)
  | @more _ _ s s' _ _ _ h hs =>
    rw [← List.append_assoc]
    exact .more (h.ws_head hw) hs

theorem parseContainer_sound {items : Bytes → Option (List (Bytes × Tree) × Bytes)} {depth : Nat}
    (isObj : Bool) {s r : Bytes} {v : Tree}
    (hitems : depth + 1 ≤ maxDepth → ∀ s ms r, items s = some (ms, r) →
      ∃ t, s = t ++ closer isObj :: r ∧ DerivesItems (maxDepth - (depth + 1)) isObj t ms)
    (h : parseContainer items depth isObj s = some (v, r)) :
    ∃ t, (if isObj then ch '{' else ch '[') :: s = t ++ r ∧ Derives (maxDepth - depth) t v := by
  rw [parseContainer] at h
  split at h
  · cases h
  · rename_i hd
    have hn : maxDepth - depth = maxDepth - (depth + 1) + 1 := by omega
    rw [hn]
    obtain ⟨w, hs, hw⟩ := skipWs_sound s
    cases hc : skipWs s with
    | nil => rw [hc] at h; cases h
    | cons c s' =>
      rw [hc] at h hs
      dsimp only at h
      split at h
      · rename_i hcc
        cases h
        refine ⟨_, ?_, .empty isObj hw⟩
        rw [hs, hcc]
        simp
      · obtain ⟨⟨ms, r'⟩, h1, h2⟩ := Option.bind_eq_some_iff.1 h
        cases h2
        obtain ⟨t, ht, hms⟩ := hitems (by omega) _ _ _ h1
        -- the space before the first item is part of it
        refine ⟨_, ?_, .items (hms.ws_head hw)⟩
        rw [hs, ht]
        simp

/-- A literal that starts the input is taken off it. -/
theorem append_drop_of_isPrefix {l s : Bytes} (h : l <+: s) : s = l ++ s.drop l.length := by
  obtain ⟨r, rfl⟩ := h
  rw [List.drop_left]

/-- What `parseValue` takes off the input, given that its containers are read soundly. -/
theorem parseValue_step_sound {fuel depth : Nat} {s r : Bytes} {v : Tree}
    (hitems : ∀ isObj s ms r, parseItems fuel (depth + 1) isObj s = some (ms, r) →
      ∃ t, s = t ++ closer isObj :: r ∧ DerivesItems (maxDepth - (depth + 1)) isObj t ms)
    (h : parseValue (fuel + 1) depth s = some (v, r)) :
    ∃ w t, s = w ++ t ++ r ∧ Ws w ∧ Derives (maxDepth - depth) t v := by
  obtain ⟨w, hs, hw⟩ := skipWs_sound s
  rw [parseValue] at h
  cases hc : skipWs s with
  | nil => rw [hc] at h; cases h
  | cons c s' =>
    rw [hc] at h hs
    dsimp only at h
    suffices ∃ t, c :: s' = t ++ r ∧ Derives (maxDepth - depth) t v by
      obtain ⟨t, ht, hv⟩ := this
      exact ⟨w, t, by rw [hs, ht, List.append_assoc], hw, hv⟩
    split at h
    · rename_i hcc
      subst hcc
      exact parseContainer_sound true (fun _ => hitems true) h
    · split at h
      · rename_i hcc
        subst hcc
        exact parseContainer_sound false (fun _ => hitems false) h
      · split at h
        · obtain ⟨⟨b, r'⟩, h1, h2⟩ := Option.bind_eq_some_iff.1 h
          cases h2
          obtain ⟨q, hq, hqb⟩ := parseStringRaw_sound h1
          exact ⟨q, hq, .str hqb⟩
        · split at h
          · rename_i hl
            cases h
            exact ⟨lit "true", append_drop_of_isPrefix hl, .true⟩
          · split at h
            · rename_i hl
              cases h
              exact ⟨lit "false", append_drop_of_isPrefix hl, .false⟩
            · split at h
              · rename_i hl
                cases h
                exact ⟨lit "null", append_drop_of_isPrefix hl, .null⟩
              · split at h
                · obtain ⟨t, i, ht, rfl, hi⟩ := parseNumber_sound h
                  exact ⟨t, ht, .num hi⟩
                · cases h

theorem parseItems_step_sound {fuel depth : Nat} {isObj : Bool} {s r : Bytes}
    {ms : List (Bytes × Tree)}
    (hvalue : ∀ s v r, parseValue fuel depth s = some (v, r) →
      ∃ w t, s = w ++ t ++ r ∧ Ws w ∧ Derives (maxDepth - depth) t v)
    (hitems : ∀ s ms r, parseItems fuel depth isObj s = some (ms, r) →
      ∃ t, s = t ++ closer isObj :: r ∧ DerivesItems (maxDepth - depth) isObj t ms)
    (h : parseItems (fuel + 1) depth isObj s = some (ms, r)) :
    ∃ t, s = t ++ closer isObj :: r ∧ DerivesItems (maxDepth - depth) isObj t ms := by
  rw [parseItems] at h
  obtain ⟨⟨k, s₁⟩, h1, h2⟩ := Option.bind_eq_some_iff.1 h
  obtain ⟨⟨v, s₂⟩, h3, h4⟩ := Option.bind_eq_some_iff.1 h2
  dsimp only at h4
  obtain ⟨w₂, t, hs₁, hw₂, hv⟩ := hvalue _ _ _ h3
  obtain ⟨w', hs₂, hw'⟩ := skipWs_sound s₂
  -- the item that was read, in front of the space and the rest
  have hitem : ∃ t, s = t ++ skipWs s₂ ∧ DerivesItem (maxDepth - depth) isObj t k v := by
    rcases parseKey_sound h1 with ⟨rfl, rfl, rfl⟩ | ⟨rfl, w, q, w₁, rfl, hw, hq, hw₁⟩
    · refine ⟨w₂ ++ t ++ w', ?_, .elem hw₂ hv hw'⟩
      rw [hs₁, hs₂, ← hs₂, List.append_assoc _ w', ← hs₂]
    · refine ⟨w ++ q ++ w₁ ++ ch ':' :: w₂ ++ t ++ w', ?_, .member hw hq hw₁ hw₂ hv hw'⟩
      rw [hs₁, List.append_assoc _ w', ← hs₂]
      simp
  obtain ⟨ti, hs, hi⟩ := hitem
  cases hc : skipWs s₂ with
  | nil => rw [hc] at h4; cases h4
  | cons c s₃ =>
    rw [hc] at h4 hs
    dsimp only at h4
    split at h4
    · rename_i hcc
      subst hcc
      obtain ⟨⟨ms', r'⟩, h5, h6⟩ := Option.bind_eq_some_iff.1 h4
      cases h6
      obtain ⟨t', rfl, hms⟩ := hitems _ _ _ h5
      exact ⟨ti ++ ch ',' :: t', by rw [hs]; simp, .more hi hms⟩
    · split at h4
      · rename_i hcc
        cases h4
        exact ⟨ti, by rw [hs, hcc], .last hi⟩
      · cases h4

/-- **What the parser takes off the input is a text of what it returns.** -/
theorem parse_sound (fuel : Nat) :
    (∀ depth s v r, parseValue fuel depth s = some (v, r) →
      ∃ w t, s = w ++ t ++ r ∧ Ws w ∧ Derives (maxDepth - depth) t v) ∧
    (∀ depth isObj s ms r, parseItems fuel depth isObj s = some (ms, r) →
      ∃ t, s = t ++ closer isObj :: r ∧ DerivesItems (maxDepth - depth) isObj t ms) := by
  induction fuel with
  | zero =>
    refine ⟨fun depth s v r h => ?_, fun depth isObj s ms r h => ?_⟩
    · rw [parseValue] at h; cases h
    · rw [parseItems] at h; cases h
  | succ fuel ih =>
    refine ⟨fun depth s v r h => ?_, fun depth isObj s ms r h => ?_⟩
    · exact parseValue_step_sound (fun isObj => ih.2 (depth + 1) isObj) h
    · exact parseItems_step_sound (ih.1 depth) (ih.2 depth isObj) h

/-! ## Every text is taken -/

/-- An item in front of `rest`: its key is read, and its value comes next. -/
theorem DerivesItem.parseKey {n : Nat} {isObj : Bool} {s k : Bytes} {v : Tree}
    (h : DerivesItem n isObj s k v) (rest : Bytes) :
    ∃ w t w', Json.parseKey isObj (s ++ rest) = some (k, w ++ t ++ (w' ++ rest)) ∧
      Ws w ∧ Ws w' ∧ Derives n t v ∧ t.length ≤ s.length := by
  cases h with
  | @elem _ w t w' _ hw h hw' =>
    refine ⟨w, t, w', ?_, hw, hw', h, by simp; omega⟩
    rw [Json.parseKey, if_neg (by simp), List.append_assoc (w ++ t)]
  | @member _ w q _ w₁ w₂ t w' _ hw hq h₁ h₂ h hw' =>
    refine ⟨w₂, t, w', ?_, h₂, hw', h, by simp; omega⟩
    have hws : isWs (ch '"') = false := by decide
    obtain ⟨q', hq', -⟩ := id hq
    have hskip : ∀ x, skipWs (q ++ x) = q ++ x := by
      intro x
      rw [hq']
      exact skipWs_head hws _
    have hcolon : isWs (ch ':') = false := by decide
    simp only [List.append_assoc, List.cons_append, Json.parseKey, if_true]
    rw [skipWs_ws hw, hskip, parseStringRaw_complete hq]
    simp only [Option.bind_eq_bind, Option.bind_some]
    rw [skipWs_ws h₁, skipWs_head hcolon]
    exact if_pos rfl

theorem Ws.nil : Ws [] := by
  intro c hc
  cases hc

/-- An item starts, after space, with a byte that does not close the container. -/
theorem DerivesItem.head {n : Nat} {isObj : Bool} {s k : Bytes} {v : Tree}
    (h : DerivesItem n isObj s k v) :
    ∃ w c x, s = w ++ c :: x ∧ Ws w ∧ isWs c = false ∧ c ≠ closer isObj ∧
      DerivesItem n isObj (c :: x) k v := by
  cases h with
  | @elem _ w t w' _ hw h hw' =>
    obtain ⟨c, x, rfl, hc, hne, -⟩ := h.head
    exact ⟨w, c, x ++ w', by simp, hw, hc, hne, .elem .nil h hw'⟩
  | @member _ w q _ w₁ w₂ t w' _ hw hq h₁ h₂ h hw' =>
    obtain ⟨q', rfl, -⟩ := id hq
    refine ⟨w, ch '"', _, ?_, hw, by decide, by decide, .member .nil hq h₁ h₂ h hw'⟩
    simp

theorem DerivesItems.ne_nil {n : Nat} {isObj : Bool} {s : Bytes} {ms : List (Bytes × Tree)}
    (h : DerivesItems n isObj s ms) : ms ≠ [] := by
  cases h <;> exact List.cons_ne_nil _ _

theorem DerivesItems.head {n : Nat} {isObj : Bool} {s : Bytes} {ms : List (Bytes × Tree)}
    (h : DerivesItems n isObj s ms) :
    ∃ w c x, s = w ++ c :: x ∧ Ws w ∧ isWs c = false ∧ c ≠ closer isObj ∧
      DerivesItems n isObj (c :: x) ms := by
  cases h with
  | last h =>
    obtain ⟨w, c, x, rfl, hw, hc, hne, h⟩ := h.head
    exact ⟨w, c, x, rfl, hw, hc, hne, .last h⟩
  | @more _ _ _ s' _ _ _ h hs =>
    obtain ⟨w, c, x, rfl, hw, hc, hne, h⟩ := h.head
    exact ⟨w, c, x ++ ch ',' :: s', by simp, hw, hc, hne, .more h hs⟩

/-- A container whose items, of at most `k` bytes, are all taken is taken. -/
theorem parseContainer_complete {items : Bytes → Option (List (Bytes × Tree) × Bytes)}
    {depth : Nat} {isObj : Bool} {s r : Bytes} {ms : List (Bytes × Tree)}
    (hd : depth < maxDepth)
    (hs : DerivesItems (maxDepth - (depth + 1)) isObj s ms)
    (hitems : ∀ t, t.length ≤ s.length → DerivesItems (maxDepth - (depth + 1)) isObj t ms →
      items (t ++ closer isObj :: r) = some (ms, r)) :
    parseContainer items depth isObj (s ++ closer isObj :: r) = some (container isObj ms, r) := by
  obtain ⟨w, c, x, rfl, hw, hc, hne, hms⟩ := hs.head
  rw [parseContainer, if_neg (by omega), List.append_assoc, skipWs_ws hw, List.cons_append,
    skipWs_head hc]
  dsimp only
  rw [if_neg hne, ← List.cons_append, hitems (c :: x) (by simp) hms]
  rfl

theorem parseContainer_empty {items : Bytes → Option (List (Bytes × Tree) × Bytes)}
    {depth : Nat} {isObj : Bool} {w r : Bytes} (hd : depth < maxDepth) (hw : Ws w) :
    parseContainer items depth isObj (w ++ closer isObj :: r) = some (container isObj [], r) := by
  have hc : isWs (closer isObj) = false := by cases isObj <;> decide
  rw [parseContainer, if_neg (by omega), skipWs_ws hw, skipWs_head hc]
  exact if_pos rfl

theorem not_isPrefix_of_head {l l' s : Bytes} {c d : UInt8} (hl : l = d :: l') (h : c ≠ d) :
    ¬l <+: c :: s := by
  intro hp
  rw [hl] at hp
  exact h (List.cons_prefix_cons.1 hp).1.symm

/-- A value is taken when the items of shorter texts are. -/
theorem parseValue_step_complete {fuel depth : Nat} {w t r : Bytes} {v : Tree}
    (hitems : ∀ isObj s ms, s.length + 2 ≤ t.length →
      DerivesItems (maxDepth - (depth + 1)) isObj s ms →
      parseItems fuel (depth + 1) isObj (s ++ closer isObj :: r) = some (ms, r))
    (hw : Ws w) (h : Derives (maxDepth - depth) t v) (hr : Follows r) :
    parseValue (fuel + 1) depth (w ++ t ++ r) = some (v, r) := by
  obtain ⟨c, x, ht, hc, -⟩ := h.head
  have hskip : skipWs (w ++ t ++ r) = t ++ r := by
    rw [List.append_assoc, skipWs_ws hw, ht, List.cons_append, skipWs_head hc]
  rw [parseValue, hskip]
  generalize hn : maxDepth - depth = n at h
  cases h with
  | null => rfl
  | true => rfl
  | false => rfl
  | num h =>
    obtain ⟨c, x, rfl, hc⟩ := h.head
    obtain ⟨-, hne⟩ := number_head hc
    have hp := parseNumber_complete h hr
    rw [List.cons_append] at hp ⊢
    dsimp only
    rw [if_neg (hne _ (by decide)), if_neg (hne _ (by decide)), if_neg (hne _ (by decide)),
      if_neg (not_isPrefix_of_head (l := lit "true") rfl (hne _ (by decide))),
      if_neg (not_isPrefix_of_head (l := lit "false") rfl (hne _ (by decide))),
      if_neg (not_isPrefix_of_head (l := lit "null") rfl (hne _ (by decide))), if_pos hc, hp]
  | str h =>
    have hp := parseStringRaw_complete h r
    obtain ⟨q, rfl, -⟩ := id h
    rw [List.cons_append, List.cons_append] at hp ⊢
    dsimp only
    rw [if_neg (by decide), if_neg (by decide), if_pos rfl, hp]
    rfl
  | @empty n w' isObj h =>
    have hd : depth < maxDepth := by omega
    rw [List.cons_append, List.cons_append, List.append_assoc, List.singleton_append]
    cases isObj with
    | true => exact (if_pos rfl).trans (parseContainer_empty hd h)
    | false =>
      exact (if_neg (by decide)).trans ((if_pos rfl).trans (parseContainer_empty hd h))
  | @items n isObj s ms h =>
    have hd : depth < maxDepth := by omega
    have hn' : n = maxDepth - (depth + 1) := by omega
    subst hn'
    rw [List.cons_append, List.cons_append, List.append_assoc, List.singleton_append]
    have hp : parseContainer (parseItems fuel (depth + 1) isObj) depth isObj
        (s ++ closer isObj :: r) = some (container isObj ms, r) := by
      refine parseContainer_complete hd h fun t ht hms => hitems isObj t ms ?_ hms
      simp only [List.cons_append, List.length_cons, List.length_append]
      omega
    cases isObj with
    | true => exact (if_pos rfl).trans hp
    | false => exact (if_neg (by decide)).trans ((if_pos rfl).trans hp)

/-- Items are taken when their values, and the items of shorter texts, are. -/
theorem parseItems_step_complete {fuel depth : Nat} {isObj : Bool} {s r : Bytes}
    {ms : List (Bytes × Tree)}
    (hvalue : ∀ w t v r, t.length ≤ s.length → Ws w → Derives (maxDepth - depth) t v →
      Follows r → parseValue fuel depth (w ++ t ++ r) = some (v, r))
    (hitems : ∀ t ms, t.length + 1 ≤ s.length → DerivesItems (maxDepth - depth) isObj t ms →
      parseItems fuel depth isObj (t ++ closer isObj :: r) = some (ms, r))
    (h : DerivesItems (maxDepth - depth) isObj s ms) :
    parseItems (fuel + 1) depth isObj (s ++ closer isObj :: r) = some (ms, r) := by
  cases h with
  | last h =>
    obtain ⟨w, t, w', hk, hw, hw', hv, hle⟩ := h.parseKey (closer isObj :: r)
    have hws : isWs (closer isObj) = false := by cases isObj <;> decide
    have hf : Follows (w' ++ closer isObj :: r) := Follows.ws hw' (Follows.closer isObj r)
    rw [parseItems, hk]
    simp only [Option.bind_eq_bind, Option.bind_some]
    rw [hvalue w t _ _ hle hw hv hf]
    simp only [Option.bind_some]
    rw [skipWs_ws hw', skipWs_head hws]
    dsimp only
    rw [if_neg (by cases isObj <;> decide), if_pos rfl]
  | @more _ _ s s' _ _ ms h hs =>
    rw [List.append_assoc, List.cons_append]
    obtain ⟨w, t, w', hk, hw, hw', hv, hle⟩ := h.parseKey (ch ',' :: (s' ++ closer isObj :: r))
    have hws : isWs (ch ',') = false := by decide
    have hf : Follows (w' ++ ch ',' :: (s' ++ closer isObj :: r)) :=
      Follows.ws hw' (.cons (.inr (.inl rfl)) _)
    rw [parseItems, hk]
    simp only [Option.bind_eq_bind, Option.bind_some]
    rw [hvalue w t _ _ (by simp; omega) hw hv hf]
    simp only [Option.bind_some]
    rw [skipWs_ws hw', skipWs_head hws]
    dsimp only
    rw [if_pos rfl, hitems s' ms (by simp) hs]
    rfl

/-- **A text is taken off the input**, by induction on its length: the items of a container are
shorter than it, and an item's value is no longer than the items. -/
theorem parse_complete (k : Nat) :
    (∀ depth w t v r fuel, t.length ≤ k → 2 * t.length ≤ fuel → Ws w →
      Derives (maxDepth - depth) t v → Follows r →
      parseValue fuel depth (w ++ t ++ r) = some (v, r)) ∧
    (∀ depth isObj s ms r fuel, s.length ≤ k → 2 * s.length + 1 ≤ fuel →
      DerivesItems (maxDepth - depth) isObj s ms →
      parseItems fuel depth isObj (s ++ closer isObj :: r) = some (ms, r)) := by
  induction k with
  | zero =>
    refine ⟨fun depth w t v r fuel hk _ _ h _ => ?_, fun depth isObj s ms r fuel hk _ h => ?_⟩
    · obtain ⟨c, x, rfl, -⟩ := h.head
      simp at hk
    · obtain ⟨w, c, x, rfl, -⟩ := h.head
      simp at hk
  | succ k ih =>
    have hval : ∀ depth w t v r fuel, t.length ≤ k + 1 → 2 * t.length ≤ fuel → Ws w →
        Derives (maxDepth - depth) t v → Follows r →
        parseValue fuel depth (w ++ t ++ r) = some (v, r) := by
      intro depth w t v r fuel hk hf hw h hr
      have hpos : 0 < t.length := by
        obtain ⟨c, x, rfl, -⟩ := h.head
        simp
      obtain ⟨fuel, rfl⟩ : ∃ m, fuel = m + 1 := ⟨fuel - 1, by omega⟩
      apply parseValue_step_complete _ hw h hr
      intro isObj s ms hs hms
      exact ih.2 (depth + 1) isObj s ms r fuel (by omega) (by omega) hms
    refine ⟨hval, fun depth isObj s ms r fuel hk hf h => ?_⟩
    obtain ⟨fuel, rfl⟩ : ∃ m, fuel = m + 1 := ⟨fuel - 1, by omega⟩
    refine parseItems_step_complete ?_ ?_ h
    · intro w t v r ht hw hv hr
      exact hval depth w t v r fuel (by omega) (by omega) hw hv hr
    · intro t ms ht hms
      exact ih.2 depth isObj t ms r fuel (by omega) (by omega) hms

theorem parseValue_derives {t r : Bytes} {v : Tree} (h : Derives maxDepth t v) {w : Bytes}
    (hw : Ws w) (hr : Follows r) {fuel : Nat} (hf : 2 * t.length ≤ fuel) :
    parseValue fuel 0 (w ++ t ++ r) = some (v, r) :=
  (parse_complete t.length).1 0 w t v r fuel (Nat.le_refl _) hf hw h hr

/-- **`aj_parse` accepts exactly the texts of the grammar, each as the tree it derives.** -/
theorem ajParse_iff {s : Bytes} {v : Tree} : ajParse s = some v ↔ Document s v := by
  rw [ajParse, Option.bind_eq_bind, Option.bind_eq_some_iff]
  refine ⟨fun ⟨⟨v', r⟩, h1, h2⟩ => ?_, fun ⟨w, t, w', hs, hw, hw', h⟩ => ?_⟩
  · dsimp only at h2
    split at h2
    · rename_i hr
      cases h2
      obtain ⟨w, t, hs, hw, hv⟩ := (parse_sound _).1 0 s v r h1
      exact ⟨w, t, r, hs, hw, skipWs_nil_iff.1 hr, hv⟩
    · cases h2
  · refine ⟨(v, w'), ?_, if_pos (skipWs_nil_iff.2 hw')⟩
    have hf : Follows w' := by
      have := Follows.ws hw' Follows.nil
      rwa [List.append_nil] at this
    rw [hs]
    exact parseValue_derives h hw hf (by simp; omega)

/-! ## Numbers in a document -/

theorem Derives.num_range {n : Nat} {s : Bytes} {v : Int} (h : Derives n s (.num v)) : I64 v := by
  generalize ht : Tree.num v = t at h
  cases h with
  | num h =>
    cases ht
    exact h.1
  | empty isObj _ => cases isObj <;> cases ht
  | @items _ isObj _ _ _ => cases isObj <;> cases ht
  | null => cases ht
  | true => cases ht
  | false => cases ht
  | str _ => cases ht

theorem DerivesItems.mem {n : Nat} {isObj : Bool} {s : Bytes} {ms : List (Bytes × Tree)}
    (h : DerivesItems n isObj s ms) {m : Bytes × Tree} (hm : m ∈ ms) : ∃ t, Derives n t m.2 := by
  induction ms generalizing s with
  | nil => cases hm
  | cons m' ms ih =>
    have hitem : ∀ {s k v}, DerivesItem n isObj s k v → ∃ t, Derives n t v := by
      intro s k v hi
      cases hi with
      | elem _ h _ => exact ⟨_, h⟩
      | member _ _ _ _ h _ => exact ⟨_, h⟩
    cases h with
    | last h =>
      rw [List.mem_singleton.1 hm]
      exact hitem h
    | more h hs =>
      rcases List.mem_cons.1 hm with rfl | hm
      · exact hitem h
      · exact ih hs hm

/-- A number in a parsed object is in range. -/
theorem member_range {s : Bytes} {ms : List (Bytes × Tree)} {k : Bytes} {v : Int}
    (h : ajParse s = some (.obj ms)) (hm : (k, .num v) ∈ ms) : I64 v := by
  obtain ⟨w, t, w', -, -, -, hd⟩ := ajParse_iff.1 h
  generalize ht : Tree.obj ms = o at hd
  cases hd with
  | @items _ isObj _ ms' hi =>
    cases isObj with
    | false => cases ht
    | true =>
      cases ht
      obtain ⟨t, hv⟩ := hi.mem hm
      exact hv.num_range
  | empty isObj _ =>
    cases isObj with
    | false => cases ht
    | true =>
      cases ht
      cases hm
  | num _ => cases ht
  | null => cases ht
  | true => cases ht
  | false => cases ht
  | str _ => cases ht

end Json
