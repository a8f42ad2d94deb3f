import AlpmRpc.Common.Proof.RoundTrip

/-!
# What a text of a tree cannot do without

A frame is put together from its own members and bytes from elsewhere. Two facts say what the
reader makes of one whatever those bytes are:

* `text_le_of_ajParse`: no text of a tree is shorter than the one the writer makes of it, so bytes
  that are missing are missed;
* `ajParse_head`: the first member and the second key of what it parses to.
-/

set_option autoImplicit false

namespace Json

/-! ## Strings -/

/-- How long the bytes are between the quotes, up to the NUL. -/
def escapedLen (s : Bytes) : Nat := ((cstr s).flatMap escape).length

theorem escapedLen_cons (c : UInt8) (s : Bytes) :
    escapedLen (c :: s) ≤ (escape c).length + escapedLen s := by
  unfold escapedLen cstr
  rw [List.takeWhile_cons]
  split
  · rw [List.flatMap_cons, List.length_append]
  · exact Nat.zero_le _

theorem escape_length_le (c : UInt8) : (escape c).length ≤ 6 := by
  unfold escape
  repeat' split
  all_goals simp

theorem escape_high {c : UInt8} (h : 0x80 ≤ c) : (escape c).length = 1 := by
  have hc : 0x20 ≤ c ∧ c ≠ ch '"' ∧ c ≠ ch '\\' := by
    refine ⟨UInt8.le_trans (by decide) h, fun he => ?_, fun he => ?_⟩
    · rw [he] at h
      exact absurd h (by decide)
    · rw [he] at h
      exact absurd h (by decide)
  rw [escape, if_pos hc]
  rfl

theorem escapedLen_high {x : Bytes} (h : ∀ c ∈ x, 0x80 ≤ c) (s : Bytes) :
    escapedLen (x ++ s) ≤ x.length + escapedLen s := by
  induction x with
  | nil => simp
  | cons c x ih =>
    have hc := escape_high (h c List.mem_cons_self)
    have hx := ih fun c hc => h c (List.mem_cons_of_mem _ hc)
    have := escapedLen_cons c (x ++ s)
    rw [List.cons_append, List.length_cons]
    omega

theorem high_or {a : UInt8} (ha : 0x80 ≤ a) (x : UInt8) : 0x80 ≤ a ||| x := by
  rw [UInt8.le_iff_toNat_le, UInt8.toNat_or]
  exact Nat.le_trans ha Nat.left_le_or

/-- The bytes of a code point are one, or all high. -/
theorem utf8_cases (cp : Nat) :
    (∃ c, utf8 cp = [c]) ∨ ((utf8 cp).length ≤ 4 ∧ ∀ c ∈ utf8 cp, 0x80 ≤ c) := by
  have h80 := high_or (a := 0x80) (by decide)
  have hC0 := high_or (a := 0xC0) (by decide)
  have hE0 := high_or (a := 0xE0) (by decide)
  have hF0 := high_or (a := 0xF0) (by decide)
  unfold utf8
  split
  · exact .inl ⟨_, rfl⟩
  right
  split
  · simp [h80, hC0]
  split
  · simp [h80, hE0]
  · simp [h80, hF0]

theorem escapedLen_utf8 (cp : Nat) (s : Bytes) :
    escapedLen (utf8 cp ++ s) ≤ 6 + escapedLen s := by
  rcases utf8_cases cp with ⟨c, hc⟩ | ⟨hlen, hhigh⟩
  · have h1 := escapedLen_cons c s
    have h2 := escape_length_le c
    rw [hc, List.singleton_append]
    omega
  · have h1 := escapedLen_high hhigh s
    omega

/-- A byte with a one-character escape is escaped so. -/
theorem simpleEscape_length {e b : UInt8} (h : simpleEscape e = some b) :
    (escape b).length ≤ 2 := by
  unfold simpleEscape at h
  repeat' split at h
  all_goals cases h
  all_goals decide

/-- No text of a string is shorter than the writer's. -/
theorem Chars.escapedLen_le {t s : Bytes} (h : Chars t s) : escapedLen s ≤ t.length := by
  induction h with
  | nil => exact Nat.le_refl _
  | @plain c t s h hq hb _ ih =>
    have hc := escapedLen_cons c s
    rw [Json.escape, if_pos ⟨h, hq, hb⟩] at hc
    simp only [List.length_cons, List.length_nil] at hc ⊢
    omega
  | @escape e b t s h _ ih =>
    have hb := escapedLen_cons b s
    have hlen := simpleEscape_length h
    simp only [List.length_cons]
    omega
  | @unicode x t s v hx _ _ ih =>
    have hv := escapedLen_utf8 v s
    have hlen := hx.1
    simp only [List.cons_append, List.length_cons, List.length_append]
    omega
  | @surrogates x y t s hi lo hx _ hy _ _ ih =>
    have hv := escapedLen_utf8 (0x10000 + ((hi - 0xD800) <<< 10) + (lo - 0xDC00)) s
    have hlen := hx.1
    have hlen' := hy.1
    simp only [List.cons_append, List.length_cons, List.length_append]
    omega

theorem Quoted.length_le {q b : Bytes} (h : Quoted q b) : (quoted b).length ≤ q.length := by
  obtain ⟨t, rfl, ht⟩ := h
  have hlen := ht.escapedLen_le
  unfold escapedLen at hlen
  simp only [quoted, List.cons_append, List.length_cons, List.length_append, List.length_nil]
  omega

/-! ## Numbers -/

theorem tmpDigits_length_le {u k : Nat} (n : Nat) (hk : 0 < k) (hu : u < 10 ^ k) :
    (tmpDigits n u).length ≤ k := by
  induction n generalizing u k with
  | zero => exact Nat.zero_le _
  | succ n ih =>
    rw [tmpDigits]
    split
    · exact hk
    · rename_i hne
      obtain ⟨k, rfl⟩ : ∃ k', k = k' + 1 := ⟨k - 1, by omega⟩
      rw [Nat.pow_succ] at hu
      have hk' : 0 < k := by
        apply Nat.pos_of_ne_zero
        intro h0
        rw [h0] at hu
        omega
      have := ih hk' (u := u / 10) (by omega)
      simp only [List.length_cons]
      omega

theorem digitsFrom_lt {ds : Bytes} (h : ∀ c ∈ ds, isDigit c = true) (u : Nat) :
    digitsFrom u ds < (u + 1) * 10 ^ ds.length := by
  induction ds generalizing u with
  | nil => simp [digitsFrom]
  | cons c ds ih =>
    have hc := digit_le (h c List.mem_cons_self)
    calc digitsFrom u (c :: ds) = digitsFrom (u * 10 + (c.toNat - 48)) ds := rfl
      _ < (u * 10 + (c.toNat - 48) + 1) * 10 ^ ds.length :=
        ih (fun c hc => h c (List.mem_cons_of_mem _ hc)) _
      _ ≤ ((u + 1) * 10) * 10 ^ ds.length := Nat.mul_le_mul_right _ (by omega)
      _ = (u + 1) * 10 ^ (ds.length + 1) := by rw [Nat.mul_assoc, Nat.pow_succ']

theorem Digits.lt {ds : Bytes} {u : Nat} (h : Digits ds u) : 0 < ds.length ∧ u < 10 ^ ds.length := by
  obtain ⟨hne, hds, rfl⟩ := h
  have hlt := digitsFrom_lt hds 0
  rw [Nat.zero_add, Nat.one_mul] at hlt
  exact ⟨List.length_pos_iff.2 hne, hlt⟩

theorem Number.length_le {s : Bytes} {v : Int} (h : Number s v) : (i64Text v).length ≤ s.length := by
  obtain ⟨-, ds, u, hds, hv⟩ := h
  obtain ⟨hpos, hlt⟩ := hds.lt
  have htext : (i64Text v).length =
      (if v < 0 then [ch '-'] else []).length + (tmpDigits 24 (magnitude v)).length := by
    rw [show i64Text v = (if v < 0 then [ch '-'] else []) ++ (tmpDigits 24 (magnitude v)).reverse
      from rfl, List.length_append, List.length_reverse]
  have hmag : magnitude v = u := by
    unfold magnitude
    split <;> rcases hv with ⟨-, hv⟩ | ⟨-, hv⟩ <;> omega
  have hdig := tmpDigits_length_le 24 hpos hlt
  rw [htext, hmag]
  rcases hv with ⟨rfl, hv⟩ | ⟨rfl, hv⟩
  · rw [if_neg (by omega), List.length_nil]
    omega
  · split
    · simp only [List.length_cons, List.length_nil]
      omega
    · simp only [List.length_cons, List.length_nil]
      omega

/-! ## Values -/

/-- The text of the members or elements of a container. -/
def itemsText (isObj : Bool) (ms : List (Bytes × Tree)) : Bytes :=
  if isObj then membersText false ms else elemsText false (ms.map (·.2))

theorem text_container (isObj : Bool) (ms : List (Bytes × Tree)) :
    (text (container isObj ms)).length = (itemsText isObj ms).length + 2 := by
  cases isObj <;> simp [container, text, itemsText]

/-- The text of one item, without a separator. -/
def itemLen (isObj : Bool) (k : Bytes) (v : Tree) : Nat :=
  (if isObj then (quoted k).length + 1 else 0) + (text v).length

theorem itemsText_one (isObj : Bool) (k : Bytes) (v : Tree) :
    (itemsText isObj [(k, v)]).length = itemLen isObj k v := by
  cases isObj with
  | false => simp [itemsText, elemsText, sepText, itemLen]
  | true =>
    simp [itemsText, membersText, sepText, itemLen]
    omega

theorem itemsText_cons (isObj : Bool) (k : Bytes) (v : Tree) {ms : List (Bytes × Tree)}
    (h : ms ≠ []) :
    (itemsText isObj ((k, v) :: ms)).length =
      itemLen isObj k v + 1 + (itemsText isObj ms).length := by
  obtain ⟨m, ms, rfl⟩ := List.exists_cons_of_ne_nil h
  obtain ⟨k', v'⟩ := m
  cases isObj with
  | false =>
    simp [itemsText, elemsText, sepText, itemLen]
    omega
  | true =>
    simp [itemsText, membersText, sepText, itemLen]
    omega

mutual
/-- No text of a tree is shorter than the writer's. -/
theorem Derives.text_le {n : Nat} {s : Bytes} {v : Tree} :
    Derives n s v → (text v).length ≤ s.length
  | .null => by simp [text]
  | .true => by simp [text]
  | .false => by simp [text]
  | .num h => h.length_le
  | .str h => h.length_le
  | .empty isObj _ => by
    rw [text_container]
    cases isObj <;> simp [itemsText, membersText, elemsText]
  | .items h => by
    have hle := h.text_le
    rw [text_container]
    simp only [List.cons_append, List.length_cons, List.length_append, List.length_nil]
    omega

theorem DerivesItems.text_le {n : Nat} {isObj : Bool} {s : Bytes} {ms : List (Bytes × Tree)} :
    DerivesItems n isObj s ms → (itemsText isObj ms).length ≤ s.length
  | .last h => by
    rw [itemsText_one]
    exact h.text_le
  | .more h hs => by
    have h1 := h.text_le
    have h2 := hs.text_le
    rw [itemsText_cons _ _ _ hs.ne_nil]
    simp only [List.length_cons, List.length_append]
    omega

theorem DerivesItem.text_le {n : Nat} {isObj : Bool} {s k : Bytes} {v : Tree} :
    DerivesItem n isObj s k v → itemLen isObj k v ≤ s.length
  | .elem _ h _ => by
    have hv := h.text_le
    simp only [itemLen, Bool.false_eq_true, if_false, List.length_append]
    omega
  | .member _ hq _ _ h _ => by
    have hk := hq.length_le
    have hv := h.text_le
    simp only [itemLen, if_true, List.length_append, List.length_cons]
    omega
end

/-- **No text that parses to a tree is shorter than the one the writer makes of it.** -/
theorem text_le_of_ajParse {s : Bytes} {v : Tree} (h : ajParse s = some v) :
    (text v).length ≤ s.length := by
  obtain ⟨w, t, w', rfl, -, -, hd⟩ := ajParse_iff.1 h
  have hle := hd.text_le
  simp only [List.length_append]
  omega

/-! ## The head of an object -/

/-- A member whose key is read, in front of its value. -/
theorem parseKey_quoted {k : Bytes} (hk : NulFree k) (s : Bytes) :
    parseKey true (quoted k ++ ch ':' :: s) = some (k, s) := by
  have hq : ∀ x, skipWs (quoted k ++ x) = quoted k ++ x := fun x => skipWs_head (by decide) _
  have hc : skipWs (ch ':' :: s) = ch ':' :: s := skipWs_head (by decide) s
  rw [parseKey, if_pos rfl, hq, parseStringRaw_complete (quoted_spec hk)]
  simp only [Option.bind_eq_bind, Option.bind_some]
  rw [hc]
  exact if_pos rfl

theorem parseItems_key {fuel depth : Nat} {k s r : Bytes} {ms : List (Bytes × Tree)}
    (hk : NulFree k) (h : parseItems fuel depth true (quoted k ++ ch ':' :: s) = some (ms, r)) :
    ∃ v ms', ms = (k, v) :: ms' := by
  cases fuel with
  | zero =>
    rw [parseItems] at h
    cases h
  | succ fuel =>
    rw [parseItems, parseKey_quoted hk] at h
    simp only [Option.bind_eq_bind, Option.bind_some] at h
    obtain ⟨⟨v, s'⟩, -, h2⟩ := Option.bind_eq_some_iff.1 h
    dsimp only at h2
    split at h2
    · cases h2
    split at h2
    · obtain ⟨⟨ms', r'⟩, -, h3⟩ := Option.bind_eq_some_iff.1 h2
      cases h3
      exact ⟨v, ms', rfl⟩
    split at h2
    · cases h2
      exact ⟨v, [], rfl⟩
    · cases h2

theorem parseItems_member {fuel depth : Nat} {k s r : Bytes} {v : Tree} {ms : List (Bytes × Tree)}
    (hk : NulFree k) (hv : Derives (maxDepth - depth) (text v) v) (hf : 2 * (text v).length ≤ fuel)
    (h : parseItems (fuel + 1) depth true (quoted k ++ ch ':' :: (text v ++ ch ',' :: s)) =
      some (ms, r)) : ∃ ms', ms = (k, v) :: ms' ∧ parseItems fuel depth true s = some (ms', r) := by
  have hcomma : Follows (ch ',' :: s) := .cons (.inr (.inl rfl)) s
  have hval : parseValue fuel depth (text v ++ ch ',' :: s) = some (v, ch ',' :: s) :=
    (parse_complete (text v).length).1 depth [] (text v) v (ch ',' :: s) fuel (Nat.le_refl _) hf
      .nil hv hcomma
  have hskip : skipWs (ch ',' :: s) = ch ',' :: s := skipWs_head (by decide) s
  rw [parseItems, parseKey_quoted hk] at h
  simp only [Option.bind_eq_bind, Option.bind_some] at h
  rw [hval] at h
  simp only [Option.bind_some] at h
  rw [hskip] at h
  obtain ⟨⟨ms', r'⟩, h1, h2⟩ := Option.bind_eq_some_iff.1 ((if_pos rfl).symm.trans h)
  cases h2
  exact ⟨ms', rfl, h1⟩

/-- **What an object parses to starts with the member and the key that its text starts with**,
whatever comes after them. -/
theorem ajParse_head {k₁ k₂ s : Bytes} {v₁ v : Tree} (hk₁ : NulFree k₁) (hk₂ : NulFree k₂)
    (hv₁ : Derives (maxDepth - 1) (text v₁) v₁)
    (h : ajParse (ch '{' :: (quoted k₁ ++ ch ':' :: (text v₁ ++ ch ',' ::
      (quoted k₂ ++ ch ':' :: s)))) = some v) :
    ∃ v₂ ms, v = .obj ((k₁, v₁) :: (k₂, v₂) :: ms) := by
  obtain ⟨⟨v', r⟩, hv, hr⟩ := Option.bind_eq_some_iff.1 h
  dsimp only at hr
  split at hr
  · cases hr
    generalize hfuel : 2 * _ + 2 = fuel at hv
    simp only [List.length_cons, List.length_append] at hfuel
    obtain ⟨fuel, rfl⟩ : ∃ n, fuel = n + 2 := ⟨fuel - 2, by omega⟩
    rw [parseValue, skipWs_head (by decide)] at hv
    have hc := (if_pos rfl).symm.trans hv
    rw [parseContainer, if_neg (by decide)] at hc
    have hquote : ∀ x, skipWs (quoted k₁ ++ x) = quoted k₁ ++ x := fun x => skipWs_head (by decide) _
    rw [hquote] at hc
    obtain ⟨⟨ms, r'⟩, hms, he⟩ := Option.bind_eq_some_iff.1 ((if_neg (by decide)).symm.trans hc)
    cases he
    -- the first member is read whole, the second up to its value
    obtain ⟨ms', rfl, hms'⟩ := parseItems_member hk₁ hv₁ (by omega) hms
    obtain ⟨v₂, ms'', rfl⟩ := parseItems_key hk₂ hms'
    exact ⟨v₂, ms'', rfl⟩
  · cases hr

end Json
