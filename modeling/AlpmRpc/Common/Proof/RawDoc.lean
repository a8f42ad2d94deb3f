import AlpmRpc.Common.Proof.Grammar
import AlpmRpc.Common.Proof.RawParser

/-!
# The parser with positions builds the document

With every allocation succeeding, a function of `Common/RawParser.lean` at the position `i` does to the
document what the function of `Common/Doc.lean` does on `text.drop i`, and leaves the position where that
one leaves off. Here a fault is left open (`wp True`); `RawParser.lean` has that there is none, and
`ajParse_doc` is the two together.
-/

set_option autoImplicit false

namespace Json.Raw

open Checked
open Wire (maxFrame)

section
variable {text : Bytes} {mem : Nat → Bool} {E : State → Prop} {s : State}

/-! ## Reading -/

theorem drop_cons {i : Nat} {c : UInt8} {r : Bytes} (h : text.drop i = c :: r) :
    text.drop i = c :: text.drop (i + 1) := by
  rw [← List.drop_drop, h]
  rfl

theorem head?_drop_iff (i : Nat) (c : UInt8) :
    (text.drop i).head? = some c ↔ text.drop i = c :: text.drop (i + 1) := by
  constructor
  · intro h
    obtain ⟨r, hr⟩ := List.head?_eq_some_iff.1 h
    exact drop_cons hr
  · intro h
    rw [h]
    rfl

theorem byteAt_reads (i : Nat) :
    wp True (byteAt text i) (fun c s' => s' = s ∧ text.drop i = c :: text.drop (i + 1)) E s := by
  unfold byteAt
  cases hc : text[i]? with
  | none => trivial
  | some c =>
    obtain ⟨hi, rfl⟩ := List.getElem?_eq_some_iff.1 hc
    exact ⟨rfl, List.drop_eq_getElem_cons hi⟩

theorem here_reads :
    wp True (here text)
      (fun c s' => s' = s ∧ text.drop s.pos = c :: text.drop (s.pos + 1)) E s :=
  byteAt_reads s.pos

theorem sees_reads (c : UInt8) :
    wp True (sees text c)
      (fun b s' => s' = s ∧ (b = true ↔ text.drop s.pos = c :: text.drop (s.pos + 1))) E s := by
  simp only [sees, wp_bind, wp_atEnd, decide_eq_true_eq]
  refine wp_ite _ (fun he => ⟨rfl, ?_⟩) fun _ => ?_
  · simp [List.drop_eq_nil_of_le he]
  · refine wp_seq here_reads fun c' s' hr => ?_
    obtain ⟨rfl, hr⟩ := hr
    exact ⟨rfl, by simp [hr]⟩

theorem skipWsLoop_reads : ∀ (fuel : Nat) (s : State),
    wp True (skipWsLoop text fuel)
      (fun _ s' => ∃ i, s' = { s with pos := i } ∧ text.drop i = Json.skipWs (text.drop s.pos)) E s
  | 0, _ => trivial
  | fuel + 1, s => by
    simp only [skipWsLoop, wp_bind, wp_atEnd, decide_eq_true_eq]
    refine wp_ite _ (fun he => ⟨s.pos, rfl, ?_⟩) fun _ => ?_
    · rw [List.drop_eq_nil_of_le he]
      rfl
    · refine wp_seq here_reads fun c s' hr => ?_
      obtain ⟨rfl, hr⟩ := hr
      refine wp_ite _ (fun hc => ?_) fun hc => ⟨s'.pos, rfl, ?_⟩
      · rw [wp_bind, wp_seek]
        refine wp_mono (skipWsLoop_reads fuel _) (fun _ s₁ h₁ => ?_) fun _ he => he
        obtain ⟨i, rfl, hi⟩ := h₁
        exact ⟨i, rfl, by rw [hi, hr]; simp [Json.skipWs, hc]⟩
      · rw [hr]
        simp [Json.skipWs, hc]

theorem skipWs_reads :
    wp True (skipWs text)
      (fun _ s' => ∃ i, s' = { s with pos := i } ∧ text.drop i = Json.skipWs (text.drop s.pos)) E s :=
  skipWsLoop_reads _ s

theorem matchAt_reads : ∀ (w : Bytes) (i : Nat) (s : State),
    wp True (matchAt text i w) (fun b s' => s' = s ∧ (b = true ↔ w <+: text.drop i)) E s
  | [], _, _ => ⟨rfl, by simp⟩
  | c :: w, i, s => by
    rw [matchAt]
    refine wp_seq (byteAt_reads i) fun c' s' hr => ?_
    obtain ⟨rfl, hr⟩ := hr
    refine wp_ite _ (fun hc => ?_) fun hc => ⟨rfl, ?_⟩
    · refine wp_mono (matchAt_reads w (i + 1) s') (fun b s₁ h₁ => ?_) fun _ he => he
      obtain ⟨rfl, h₁⟩ := h₁
      exact ⟨rfl, by rw [h₁, hr, hc, List.cons_prefix_cons]; simp⟩
    · rw [hr, List.cons_prefix_cons]
      simp [Ne.symm hc]

theorem isWord_reads (w : Bytes) :
    wp True (isWord text w) (fun b s' => s' = s ∧ (b = true ↔ w <+: text.drop s.pos)) E s := by
  simp only [isWord, left, wp_bind, wp_pos, wp_check_assumed, wp_pure]
  intro _
  refine wp_ite _ (fun _ => matchAt_reads w s.pos s) fun hw => ⟨rfl, ?_⟩
  refine iff_of_false (by simp) fun hp => hw ?_
  have := hp.length_le
  rwa [List.length_drop] at this

/-! ## Memory -/

theorem growNodes_keeps (hmem : ∀ k, mem k = true) :
    wp True (growNodes mem) (fun _ s' => ∃ cap k, s' = { s with cap, allocs := k }) E s := by
  simp only [growNodes, wp_bind, wp_get]
  refine wp_ite _ (fun _ => ?_) fun _ => ⟨s.cap, s.allocs, rfl⟩
  simp only [wp_bind, wp_check_assumed]
  intro _
  simp only [alloc, wp, hmem, if_true]
  exact ⟨_, _, rfl⟩

theorem nodeNew_builds (hmem : ∀ k, mem k = true) (n : Node) :
    wp True (nodeNew mem n)
      (fun i s' => Json.nodeNew s.doc n = (i, s'.doc) ∧ s'.pos = s.pos) E s := by
  rw [nodeNew]
  refine wp_seq (growNodes_keeps hmem) fun _ s' h => ?_
  obtain ⟨cap, k, rfl⟩ := h
  simp only [note, wp_bind, wp_get, wp_check_assumed, wp_modify, wp_pure]
  exact fun _ => ⟨rfl, trivial⟩

theorem doubleLoop_keeps (need : Nat) : ∀ (fuel cap : Nat) (s : State),
    wp True (doubleLoop need fuel cap) (fun _ s' => s' = s) E s
  | 0, _, _ => trivial
  | fuel + 1, cap, s => by
    rw [doubleLoop]
    refine wp_ite _ (fun _ => ?_) fun _ => rfl
    rw [wp_bind, wp_check_assumed]
    exact fun _ => doubleLoop_keeps need fuel (cap * 2) s

theorem growBytes_keeps (hmem : ∀ k, mem k = true) (need : Nat) :
    wp True (growBytes mem need) (fun _ s' => ∃ scap k, s' = { s with scap, allocs := k }) E s := by
  simp only [growBytes, wp_bind, wp_get]
  refine wp_ite _ (fun _ => ?_) fun _ => ⟨s.scap, s.allocs, rfl⟩
  rw [wp_bind, wp_check_assumed]
  intro _
  refine wp_seq (doubleLoop_keeps need 64 _ s) fun c s' h => ?_
  subst h
  simp only [alloc, wp, bind, hmem, if_true]
  exact ⟨c, _, rfl⟩

theorem sbufPut_builds (hmem : ∀ k, mem k = true) (b : Bytes) :
    wp True (sbufPut mem b)
      (fun off s' => off = s.doc.sbuf.length ∧ s'.doc = Json.sbufPut s.doc b ∧ s'.pos = s.pos) E s := by
  simp only [sbufPut, wp_bind, wp_get, wp_pure]
  refine wp_mono (growBytes_keeps hmem _) (fun _ s' h => ?_) fun _ he => he
  obtain ⟨scap, k, rfl⟩ := h
  simp only [note, wp_check_assumed, wp_modify]
  exact fun _ _ => ⟨trivial, trivial, trivial⟩

/-! ## Strings -/

/-- `hex4`, of what is left of its digits. -/
def hexFrom : Nat → Nat → Bytes → Option Nat
  | 0, v, _ => some v
  | _ + 1, _, [] => none
  | k + 1, v, c :: s => (hexDigitVal c).bind fun d => hexFrom k (v * 16 + d) s

theorem hex4_eq (s : Bytes) : Json.hex4 s = hexFrom 4 0 s := by
  rcases s with _ | ⟨a, _ | ⟨b, _ | ⟨c, _ | ⟨d, s⟩⟩⟩⟩ <;> simp [Json.hex4, hexFrom]

theorem hex4_short {s : Bytes} (h : s.length < 4) : Json.hex4 s = none := by
  rcases s with _ | ⟨a, _ | ⟨b, _ | ⟨c, _ | ⟨d, s⟩⟩⟩⟩
  case cons.cons.cons.cons => simp at h; omega
  all_goals rfl

theorem hexLoop_reads : ∀ (k i v : Nat) (s : State),
    wp True (hexLoop text k i v) (fun r s' => s' = s ∧ r = hexFrom k v (text.drop i)) E s
  | 0, _, _, _ => ⟨rfl, rfl⟩
  | k + 1, i, v, s => by
    rw [hexLoop]
    refine wp_seq (byteAt_reads i) fun c s' hr => ?_
    obtain ⟨rfl, hr⟩ := hr
    rw [hr, hexFrom]
    cases hexDigitVal c with
    | none => exact ⟨rfl, rfl⟩
    | some d => exact hexLoop_reads k (i + 1) (v * 16 + d) s'

theorem hex4_reads (i : Nat) :
    wp True (hex4 text i) (fun r s' => s' = s ∧ r = Json.hex4 (text.drop i)) E s := by
  rw [hex4_eq]
  exact hexLoop_reads 4 i 0 s

/-- What a code unit `hi` is with the escape that may follow it, and how much of that it takes. -/
def lowCode (hi : Nat) (t : Bytes) : Nat × Nat :=
  if t[0]? = some (ch '\\') ∧ t[1]? = some (ch 'u') then
    match Json.hex4 (t.drop 2) with
    | some lo =>
      if 0xDC00 ≤ lo ∧ lo ≤ 0xDFFF then (0x10000 + ((hi - 0xD800) <<< 10) + (lo - 0xDC00), 6)
      else (hi, 0)
    | none => (hi, 0)
  else (hi, 0)

theorem codePoint_eq (s : Bytes) :
    Json.codePoint s = (Json.hex4 s).map fun hi =>
      if 0xD800 ≤ hi ∧ hi ≤ 0xDBFF ∧ (s.drop 4).length ≥ 6 then
        ((lowCode hi (s.drop 4)).1, (lowCode hi (s.drop 4)).2 + 4)
      else (hi, 4) := by
  cases hhi : Json.hex4 s with
  | none => simp [Json.codePoint, hhi]
  | some hi =>
    have h4 : (s.drop 4)[0]? = s[4]? := List.getElem?_drop
    have h5 : (s.drop 4)[1]? = s[5]? := List.getElem?_drop
    have h6 : (s.drop 4).drop 2 = s.drop 6 := List.drop_drop
    simp only [Json.codePoint, hhi, lowCode, h4, h5, h6, Option.bind_eq_bind, Option.bind_some,
      Option.map_some]
    by_cases hc : 0xD800 ≤ hi ∧ hi ≤ 0xDBFF ∧ (s.drop 4).length ≥ 6
    · by_cases hu : s[4]? = some (ch '\\') ∧ s[5]? = some (ch 'u')
      · rw [if_pos ⟨hc.1, hc.2.1, hc.2.2, hu⟩, if_pos hc, if_pos hu]
        cases Json.hex4 (s.drop 6) with
        | none => rfl
        | some lo => simp only; split <;> rfl
      · rw [if_neg fun h => hu h.2.2.2, if_pos hc, if_neg hu]
        rfl
    · rw [if_neg fun h => hc ⟨h.1, h.2.1, h.2.2.1⟩, if_neg hc]
      rfl

theorem lowSurrogate_reads (hi : Nat) :
    wp True (lowSurrogate text hi)
      (fun cp s' => ∃ k, lowCode hi (text.drop s.pos) = (cp, k) ∧
        s' = { s with pos := s.pos + k }) E s := by
  have h2 : (text.drop s.pos).drop 2 = text.drop (s.pos + 2) := List.drop_drop
  simp only [lowSurrogate, wp_bind, wp_pos]
  refine wp_mono (byteAt_reads s.pos) (fun c s' h => ?_) fun _ he => he
  obtain ⟨rfl, h0⟩ := h
  refine wp_ite _ (fun hc => ?_) fun hc => ⟨0, by simp [lowCode, h0, hc], rfl⟩
  refine wp_seq (byteAt_reads (s'.pos + 1)) fun c' s₁ h => ?_
  obtain ⟨rfl, h1⟩ := h
  refine wp_ite _ (fun hc' => ?_) fun hc' => ⟨0, by simp [lowCode, h0, h1, hc'], rfl⟩
  have hcode : lowCode hi (text.drop s₁.pos) = match Json.hex4 (text.drop (s₁.pos + 2)) with
      | some lo =>
        if 0xDC00 ≤ lo ∧ lo ≤ 0xDFFF then (0x10000 + ((hi - 0xD800) <<< 10) + (lo - 0xDC00), 6)
        else (hi, 0)
      | none => (hi, 0) := by
    rw [lowCode, h2, if_pos]
    simp [h0, h1, hc, hc']
  refine wp_seq (hex4_reads (s₁.pos + 2)) fun r s₂ h => ?_
  obtain ⟨rfl, rfl⟩ := h
  cases hlo : Json.hex4 (text.drop (s₂.pos + 2)) with
  | none => exact ⟨0, by rw [hcode, hlo], rfl⟩
  | some lo =>
    rw [hlo] at hcode
    refine wp_ite _ (fun hr => ?_) fun hr => ⟨0, by rw [hcode]; exact if_neg hr, rfl⟩
    exact ⟨6, by rw [hcode]; exact if_pos hr, rfl⟩

theorem codePoint_reads :
    wp True (codePoint text)
      (fun cp s' => ∃ k, Json.codePoint (text.drop s.pos) = some (cp, k) ∧
        s' = { s with pos := s.pos + k })
      (fun _ => Json.codePoint (text.drop s.pos) = none) s := by
  have h4 : ((text.drop s.pos).drop 4).length = text.length - (s.pos + 4) := by
    rw [List.drop_drop, List.length_drop]
  rw [codePoint_eq]
  simp only [codePoint, left, wp_bind, wp_pos, wp_check_assumed, wp_pure]
  refine fun _ => wp_ite _ (fun hlt => ?_) fun _ => ?_
  · have hshort : (text.drop s.pos).length < 4 := by rwa [List.length_drop]
    rw [wp_fail, hex4_short hshort]
    rfl
  · simp only [wp_bind, wp_pos]
    refine wp_mono (hex4_reads s.pos) (fun r s' h => ?_) fun _ he => he
    obtain ⟨rfl, rfl⟩ := h
    cases hhi : Json.hex4 (text.drop s'.pos) with
    | none => rfl
    | some hi =>
      simp only [wp_bind, wp_seek, wp_pos, wp_check_assumed, wp_pure, h4, Option.map_some]
      refine fun _ => wp_ite _ (fun hc => ?_) fun hc => ⟨4, by rw [if_neg hc], rfl⟩
      refine wp_mono (lowSurrogate_reads hi) (fun cp s₁ h => ?_) fun _ he => he
      obtain ⟨k, hk, rfl⟩ := h
      refine ⟨k + 4, ?_, by simp [Nat.add_assoc, Nat.add_comm 4]⟩
      rw [if_pos hc, List.drop_drop, hk]

/-- The characters up to the closing quote, and what follows it. -/
def chars (s : Bytes) : Option (Bytes × Bytes) := parseChars (s.length + 1) s

theorem parseChars_eq {n : Nat} {s : Bytes} (h : s.length < n) : parseChars n s = chars s := by
  have hle : ∀ {m m'}, s.length < m' → ∀ x, parseChars m s = some x → parseChars m' s = some x := by
    intro m m' hm x hx
    obtain ⟨t, hs, ht⟩ := parseChars_sound hx
    rw [hs] at hm ⊢
    exact parseChars_complete ht x.2 (by rw [List.length_append] at hm; omega)
  refine Option.ext fun x => ⟨hle (Nat.lt_succ_self _) x, hle h x⟩

/-- What the escape after a backslash stands for, and what follows it. -/
def escapeOf : Bytes → Option (Bytes × Bytes)
  | [] => none
  | e :: s =>
    if e = ch 'u' then (Json.codePoint s).map fun p => (utf8 p.1, s.drop p.2)
    else (simpleEscape e).map fun b => ([b], s)

/-- Bytes put before the characters. -/
def after (b : Bytes) (o : Option (Bytes × Bytes)) : Option (Bytes × Bytes) :=
  o.map fun p => (b ++ p.1, p.2)

theorem chars_plain {c : UInt8} {s : Bytes} (hq : c ≠ ch '"') (hb : c ≠ ch '\\')
    (hc : ¬c < 0x20) : chars (c :: s) = after [c] (chars s) := by
  rw [chars, List.length_cons, parseChars_cons, if_neg hq, if_pos hb, if_neg hc, chars]
  cases parseChars (s.length + 1) s <;> rfl

theorem chars_escape {s : Bytes} :
    chars (ch '\\' :: s) = (escapeOf s).bind fun p => after p.1 (chars p.2) := by
  rw [chars, List.length_cons, parseChars_cons, if_neg (by decide), if_neg (by simp)]
  cases s with
  | nil => rfl
  | cons e s =>
    rw [parseEscape, escapeOf]
    split
    · cases Json.codePoint s with
      | none => rfl
      | some p =>
        have hlen : (s.drop p.2).length < (e :: s).length + 1 := by
          rw [List.length_drop, List.length_cons]
          omega
        simp only [Option.bind_eq_bind, Option.bind_some, Option.map_some, parseChars_eq hlen]
        cases chars (s.drop p.2) <;> rfl
    · cases simpleEscape e with
      | none => rfl
      | some b =>
        have hlen : s.length < (e :: s).length + 1 := by
          rw [List.length_cons]
          omega
        simp only [Option.bind_eq_bind, Option.bind_some, Option.map_some, parseChars_eq hlen]
        cases chars s <;> rfl

theorem tmpRoom_keeps (hmem : ∀ k, mem k = true) (t : Tmp) :
    wp True (tmpRoom mem t)
      (fun t' s' => t'.bytes = t.bytes ∧ ∃ k, s' = { s with allocs := k }) E s := by
  refine wp_ite _ (fun _ => ?_) fun _ => ⟨rfl, s.allocs, rfl⟩
  rw [wp_bind, wp_check_assumed]
  intro _
  simp only [wp_bind, wp_check_assumed, wp_pure]
  simp only [alloc, wp, hmem, if_true]
  exact fun _ => ⟨trivial, _, rfl⟩

theorem tmpPut_keeps (t : Tmp) (b : Bytes) :
    wp True (tmpPut t b) (fun t' s' => t'.bytes = t.bytes ++ b ∧ s' = s) E s := by
  simp only [tmpPut, wp_bind, wp_check_assumed, wp_pure]
  exact fun _ => ⟨trivial, trivial⟩

theorem escape_reads (t : Tmp) :
    wp True (escape text t)
      (fun t' s' => ∃ b i, escapeOf (text.drop s.pos) = some (b, text.drop i) ∧
        t'.bytes = t.bytes ++ b ∧ s' = { s with pos := i })
      (fun _ => escapeOf (text.drop s.pos) = none) s := by
  simp only [escape, wp_bind, wp_atEnd, decide_eq_true_eq]
  refine wp_ite _ (fun he => ?_) fun _ => ?_
  · rw [wp_fail, List.drop_eq_nil_of_le he]
    rfl
  refine wp_seq here_reads fun e s' h => ?_
  obtain ⟨rfl, he⟩ := h
  rw [wp_bind, wp_seek, he]
  refine wp_ite _ (fun hu => ?_) fun hu => ?_
  · have hof : escapeOf (e :: text.drop (s'.pos + 1)) =
        (Json.codePoint (text.drop (s'.pos + 1))).map fun p =>
          (utf8 p.1, (text.drop (s'.pos + 1)).drop p.2) := if_pos hu
    rw [hof]
    refine wp_mono (Q := fun t' s₁ => ∃ cp k, Json.codePoint (text.drop (s'.pos + 1)) = some (cp, k) ∧
      t'.bytes = t.bytes ++ utf8 cp ∧ s₁ = { s' with pos := s'.pos + 1 + k })
      (E := fun _ => Json.codePoint (text.drop (s'.pos + 1)) = none) ?_ ?_ ?_
    · rw [wp_bind]
      refine wp_mono codePoint_reads (fun cp s₁ h => ?_) fun _ hn => hn
      obtain ⟨k, hk, rfl⟩ := h
      refine wp_mono (tmpPut_keeps t (utf8 cp)) (fun t' s₂ h => ?_) fun _ hn => hn
      obtain ⟨ht, rfl⟩ := h
      exact ⟨cp, k, hk, ht, rfl⟩
    · intro t' s₁ h
      obtain ⟨cp, k, hk, ht, rfl⟩ := h
      exact ⟨utf8 cp, s'.pos + 1 + k, by rw [hk, Option.map_some, List.drop_drop], ht, rfl⟩
    · intro _ hn
      rw [hn]
      rfl
  · have hof : escapeOf (e :: text.drop (s'.pos + 1)) =
        (simpleEscape e).map fun b => ([b], text.drop (s'.pos + 1)) := if_neg hu
    rw [hof]
    cases simpleEscape e with
    | none => rfl
    | some b =>
      refine wp_mono (tmpPut_keeps t [b]) (fun t' s₂ h => ?_) fun _ hn => hn
      obtain ⟨ht, rfl⟩ := h
      exact ⟨[b], s'.pos + 1, rfl, ht, rfl⟩

/-- The string `t` goes on with what is at `s`; the loop is done with it at `s'`, at its quote or at the
end of the text. -/
def Ended (text : Bytes) (t : Tmp) (s : State) (t' : Tmp) (s' : State) : Prop :=
  s'.doc = s.doc ∧
    (text.drop s'.pos = [] ∧ chars (text.drop s.pos) = none ∨
      ∃ cs r, text.drop s'.pos = ch '"' :: r ∧ t'.bytes = t.bytes ++ cs ∧
        chars (text.drop s.pos) = some (cs, r))

theorem charsLoop_reads (hmem : ∀ k, mem k = true) : ∀ (fuel : Nat) (t : Tmp) (s : State),
    wp True (charsLoop text mem fuel t) (Ended text t s)
      (fun _ => chars (text.drop s.pos) = none) s
  | 0, _, _ => trivial
  | fuel + 1, t, s => by
    -- one turn puts `b` and goes to `i`
    have turn : ∀ b i k t', chars (text.drop s.pos) = after b (chars (text.drop i)) →
        t'.bytes = t.bytes ++ b →
        wp True (charsLoop text mem fuel t') (Ended text t s)
          (fun _ => chars (text.drop s.pos) = none) { s with pos := i, allocs := k } := by
      intro b i k t' hb ht
      refine wp_mono (charsLoop_reads hmem fuel t' _) (fun t'' s' h => ?_) fun _ hn => ?_
      · obtain ⟨hdoc, ⟨hend, hn⟩ | ⟨cs, r, hq, hcs, hsome⟩⟩ := h
        · exact ⟨hdoc, .inl ⟨hend, by rw [hb, hn]; rfl⟩⟩
        · refine ⟨hdoc, .inr ⟨b ++ cs, r, hq, ?_, by rw [hb, hsome]; rfl⟩⟩
          rw [hcs, ht, List.append_assoc]
      · rw [hb, hn]
        rfl
    simp only [charsLoop, wp_bind, wp_atEnd, decide_eq_true_eq]
    refine wp_ite _ (fun he => ?_) fun _ => ?_
    · have hnil := List.drop_eq_nil_of_le he
      exact ⟨rfl, .inl ⟨hnil, by rw [hnil]; rfl⟩⟩
    refine wp_seq here_reads fun c s' h => ?_
    obtain ⟨rfl, hc⟩ := h
    refine wp_ite _ (fun hq => ⟨rfl, .inr ⟨[], text.drop (s'.pos + 1), ?_, by simp, ?_⟩⟩) fun hq => ?_
    · rw [hc, hq]
    · rw [hc, hq, chars, List.length_cons, parseChars_cons, if_pos rfl]
    refine wp_seq (tmpRoom_keeps hmem t) fun t₁ s₁ h => ?_
    obtain ⟨ht₁, k, rfl⟩ := h
    refine wp_seq here_reads fun c' s₂ h => ?_
    obtain ⟨rfl, hc'⟩ := h
    obtain rfl : c' = c := (List.cons.inj (hc'.symm.trans hc)).1
    refine wp_ite _ (fun hb => ?_) fun hb => ?_
    · refine wp_ite _ (fun hlt => ?_) fun hge => ?_
      · rw [wp_fail, hc, chars, List.length_cons, parseChars_cons, if_neg hq, if_pos hb, if_pos hlt]
      · refine wp_seq (tmpPut_keeps t₁ [c']) fun t₂ s₃ h => ?_
        obtain ⟨ht₂, rfl⟩ := h
        rw [wp_bind, wp_seek]
        refine turn [c'] (s'.pos + 1) k t₂ ?_ (by rw [ht₂, ht₁])
        rw [hc, chars_plain hq hb hge]
    · obtain rfl : c' = ch '\\' := not_not.1 hb
      rw [wp_bind, wp_seek]
      have hesc : chars (text.drop s'.pos) =
          (escapeOf (text.drop (s'.pos + 1))).bind fun p => after p.1 (chars p.2) := by
        rw [hc, chars_escape]
      rw [wp_bind]
      refine wp_mono (escape_reads t₁) (fun t₂ s₃ h => ?_) fun _ hn => ?_
      · obtain ⟨b, i, hof, ht₂, rfl⟩ := h
        refine turn b i k t₂ ?_ (by rw [ht₂, ht₁])
        rw [hesc, show escapeOf (text.drop (s'.pos + 1)) = _ from hof, Option.bind_some]
      · rw [hesc, show escapeOf (text.drop (s'.pos + 1)) = none from hn]
        rfl

theorem parseStringRaw_quote (s : Bytes) : Json.parseStringRaw (ch '"' :: s) = chars s := by
  rw [Json.parseStringRaw, if_pos rfl, chars]

theorem parseStringRaw_none {s : Bytes} (h : ∀ r, s ≠ ch '"' :: r) : Json.parseStringRaw s = none := by
  cases s with
  | nil => rfl
  | cons c s => exact if_neg fun hc => h s (by rw [hc])

theorem parseStringRaw_builds (hmem : ∀ k, mem k = true) :
    wp True (parseStringRaw text mem)
      (fun off s' => off = s.doc.sbuf.length ∧
        docParseString s.doc (text.drop s.pos) = some (s'.doc, text.drop s'.pos))
      (fun _ => docParseString s.doc (text.drop s.pos) = none) s := by
  have hnone : chars (text.drop (s.pos + 1)) = none →
      text.drop s.pos = ch '"' :: text.drop (s.pos + 1) →
        docParseString s.doc (text.drop s.pos) = none := by
    intro hn hq
    rw [docParseString, hq, parseStringRaw_quote, hn]
    rfl
  rw [parseStringRaw]
  refine wp_seq (sees_reads _) fun b s' h => ?_
  obtain ⟨rfl, hsee⟩ := h
  refine wp_ite _ (fun hb => ?_) fun hb => ?_
  swap
  · rw [wp_fail, docParseString, parseStringRaw_none fun r hr => hb (hsee.2 (drop_cons hr))]
    rfl
  have hq := hsee.1 hb
  rw [wp_bind, wp_seek, wp_bind]
  refine wp_mono (charsLoop_reads hmem _ {} _) (fun t s₁ h => ?_) fun _ hn => hnone hn hq
  obtain ⟨hdoc, hends⟩ := h
  refine wp_seq (sees_reads _) fun b' s₂ h => ?_
  obtain ⟨rfl, hsee'⟩ := h
  refine wp_ite _ (fun hb' => ?_) fun hb' => ?_
  · obtain ⟨hend, -⟩ | ⟨cs, r, hr, ht, hsome⟩ := hends
    · rw [hsee'.1 hb'] at hend
      cases hend
    rw [wp_bind, wp_seek]
    refine wp_mono (sbufPut_builds hmem t.bytes) (fun off s₃ h => ?_) fun _ hn => hn
    obtain ⟨hoff, hput, hpos⟩ := h
    have hrest : r = text.drop (s₂.pos + 1) := (List.cons.inj (hr.symm.trans (hsee'.1 hb'))).2
    refine ⟨by rw [hoff, hdoc], ?_⟩
    rw [docParseString, hq, parseStringRaw_quote, hsome, hput, hpos, hrest, ht, hdoc]
    rfl
  · obtain ⟨-, hn⟩ | ⟨cs, r, hr, -, -⟩ := hends
    · exact hnone hn hq
    · exact absurd (hsee'.2 (drop_cons hr)) hb'

/-! ## Values -/

theorem digitsLoop_reads : ∀ (fuel u : Nat) (s : State),
    wp True (digitsLoop text fuel u)
      (fun v s' => ∃ i, s' = { s with pos := i } ∧
        Json.parseDigits u (text.drop s.pos) = some (v, text.drop i))
      (fun _ => Json.parseDigits u (text.drop s.pos) = none) s
  | 0, _, _ => trivial
  | fuel + 1, u, s => by
    simp only [digitsLoop, wp_bind, wp_atEnd, decide_eq_true_eq]
    refine wp_ite _ (fun he => ⟨s.pos, rfl, ?_⟩) fun _ => ?_
    · rw [List.drop_eq_nil_of_le he]
      rfl
    refine wp_seq here_reads fun c s' h => ?_
    obtain ⟨rfl, hc⟩ := h
    rw [hc, Json.parseDigits]
    refine wp_ite _ (fun hd => ?_) fun hd => ⟨s'.pos, rfl, ?_⟩
    · rw [if_pos hd]
      refine wp_ite _ (fun hbig => if_pos hbig) fun hbig => ?_
      rw [if_neg hbig, wp_bind, wp_seek]
      exact wp_mono (digitsLoop_reads fuel _ _) (fun _ _ h => h) fun _ h => h
    · rw [if_neg hd, hc]

/-- A number after its sign. -/
def numberOf (neg : Bool) : Bytes → Option (Int × Bytes)
  | [] => none
  | c :: s =>
    if !isDigit c then none
    else (Json.parseDigits 0 (c :: s)).bind fun p =>
      if p.2.head? = some (ch '.') ∨ p.2.head? = some (ch 'e') ∨ p.2.head? = some (ch 'E') then none
      else (signed neg p.1).map fun v => (v, p.2)

theorem numberOf_cons (neg : Bool) (c : UInt8) (s : Bytes) :
    (if !isDigit c then none
      else do
        let (u, r) ← Json.parseDigits 0 (c :: s)
        if r.head? = some (ch '.') ∨ r.head? = some (ch 'e') ∨ r.head? = some (ch 'E') then none
        else do
          let v ← signed neg u
          return (Tree.num v, r)) = (numberOf neg (c :: s)).map fun p => (.num p.1, p.2) := by
  rw [numberOf]
  by_cases hd : (!isDigit c) = true
  · rw [if_pos hd, if_pos hd]
    rfl
  rw [if_neg hd, if_neg hd]
  cases Json.parseDigits 0 (c :: s) with
  | none => rfl
  | some p =>
    simp only [Option.bind_eq_bind, Option.bind_some]
    split
    · rfl
    · cases signed neg p.1 <;> rfl

theorem parseNumber_eq (c : UInt8) (s : Bytes) :
    Json.parseNumber (c :: s) =
      (if c = ch '-' then numberOf true s else numberOf false (c :: s)).map fun p => (.num p.1, p.2) := by
  by_cases hc : c = ch '-'
  · rw [if_pos hc]
    simp only [Json.parseNumber, if_pos hc]
    cases s with
    | nil => rfl
    | cons d s => exact numberOf_cons true d s
  · rw [if_neg hc]
    simp only [Json.parseNumber, if_neg hc]
    exact numberOf_cons false c s

theorem parseDigits_reads (neg : Bool) :
    wp True (parseDigits text neg)
      (fun v s' => ∃ i, s' = { s with pos := i } ∧
        numberOf neg (text.drop s.pos) = some (v, text.drop i))
      (fun _ => numberOf neg (text.drop s.pos) = none) s := by
  simp only [parseDigits, wp_bind, wp_atEnd, decide_eq_true_eq]
  refine wp_ite _ (fun he => ?_) fun _ => ?_
  · rw [wp_fail, List.drop_eq_nil_of_le he]
    rfl
  refine wp_seq here_reads fun c s' h => ?_
  obtain ⟨rfl, hc⟩ := h
  refine wp_ite _ (fun hd => ?_) fun hd => ?_
  · rw [wp_fail, hc, numberOf, if_pos hd]
  have hnum : numberOf neg (text.drop s'.pos) = (Json.parseDigits 0 (text.drop s'.pos)).bind fun p =>
      if p.2.head? = some (ch '.') ∨ p.2.head? = some (ch 'e') ∨ p.2.head? = some (ch 'E') then none
      else (signed neg p.1).map fun v => (v, p.2) := by
    rw [hc, numberOf, if_neg hd]
  rw [wp_bind, hnum]
  refine wp_mono (digitsLoop_reads _ 0 s') (fun u s₁ h => ?_) fun _ hn => by rw [hn]; rfl
  obtain ⟨i, rfl, hi⟩ := h
  rw [hi, Option.bind_some]
  refine wp_seq (sees_reads _) fun b₁ s₂ h => ?_
  obtain ⟨rfl, h₁⟩ := h
  refine wp_seq (sees_reads _) fun b₂ s₂ h => ?_
  obtain ⟨rfl, h₂⟩ := h
  refine wp_seq (sees_reads _) fun b₃ s₂ h => ?_
  obtain ⟨rfl, h₃⟩ := h
  simp only at h₁ h₂ h₃
  rw [← head?_drop_iff] at h₁ h₂ h₃
  have hreal : (b₁ || b₂ || b₃) = true ↔ (text.drop i).head? = some (ch '.') ∨
      (text.drop i).head? = some (ch 'e') ∨ (text.drop i).head? = some (ch 'E') := by
    rw [Bool.or_eq_true, Bool.or_eq_true, h₁, h₂, h₃, or_assoc]
  refine wp_ite _ (fun hb => if_pos (hreal.1 hb)) fun hb => ?_
  rw [if_neg fun hr => hb (hreal.2 hr)]
  cases signed neg u with
  | none => rfl
  | some v => exact ⟨i, rfl, rfl⟩

theorem parseNumber_reads {c : UInt8} (hc : text.drop s.pos = c :: text.drop (s.pos + 1)) :
    wp True (parseNumber text c)
      (fun v s' => ∃ i, s' = { s with pos := i } ∧
        Json.parseNumber (c :: text.drop (s.pos + 1)) = some (.num v, text.drop i))
      (fun _ => Json.parseNumber (c :: text.drop (s.pos + 1)) = none) s := by
  rw [parseNumber_eq]
  refine wp_ite _ (fun hneg => ?_) fun hneg => ?_
  · rw [if_pos hneg, wp_bind, wp_seek]
    refine wp_mono (parseDigits_reads true) (fun v s' h => ?_) fun _ hn => ?_
    · obtain ⟨i, rfl, hi⟩ := h
      exact ⟨i, rfl, by rw [hi]; rfl⟩
    · rw [hn]
      rfl
  · rw [if_neg hneg, ← hc]
    refine wp_mono (parseDigits_reads false) (fun v s' h => ?_) fun _ hn => ?_
    · obtain ⟨i, rfl, hi⟩ := h
      exact ⟨i, rfl, by rw [hi]; rfl⟩
    · rw [hn]
      rfl

theorem parseKey_builds (hmem : ∀ k, mem k = true) (isObj : Bool) :
    wp True (parseKey text mem isObj)
      (fun koff s' => (isObj = true → koff = s.doc.sbuf.length) ∧
        docParseKey isObj s.doc (text.drop s.pos) = some (s'.doc, text.drop s'.pos))
      (fun _ => docParseKey isObj s.doc (text.drop s.pos) = none) s := by
  cases isObj with
  | false => exact ⟨by simp, rfl⟩
  | true =>
    have hkey : docParseKey true s.doc (text.drop s.pos) =
        (docParseString s.doc (Json.skipWs (text.drop s.pos))).bind fun p =>
          match Json.skipWs p.2 with
          | [] => none
          | c :: r => if c = ch ':' then some (p.1, r) else none := rfl
    rw [hkey]
    refine wp_seq skipWs_reads fun _ s₁ h => ?_
    obtain ⟨i, rfl, hi⟩ := h
    rw [← hi, wp_bind]
    refine wp_mono (parseStringRaw_builds hmem) (fun koff s₂ h => ?_) fun _ hn => ?_
    swap
    · rw [show docParseString s.doc (text.drop i) = none from hn]
      rfl
    obtain ⟨hoff, hstr⟩ := h
    rw [show docParseString s.doc (text.drop i) = _ from hstr, Option.bind_some]
    refine wp_seq skipWs_reads fun _ s₃ h => ?_
    obtain ⟨j, rfl, hj⟩ := h
    rw [← hj]
    refine wp_seq (sees_reads _) fun b s₄ h => ?_
    obtain ⟨rfl, hsee⟩ := h
    refine wp_ite _ (fun hb => ?_) fun hb => ?_
    · simp only [wp_bind, wp_seek, wp_pure]
      refine ⟨fun _ => hoff, ?_⟩
      rw [hsee.1 hb]
      exact if_pos rfl
    · rw [wp_fail]
      cases hd : text.drop j with
      | nil => rfl
      | cons c r =>
        exact if_neg fun hc => hb (hsee.2 (drop_cons (hc ▸ hd)))

theorem setNode_builds (i : Nat) (f : Node → Node) :
    wp True (setNode i f) (fun _ s' => s' = { s with doc := s.doc.setNode i f }) E s := by
  simp only [setNode, wp_bind, wp_get, wp_check_assumed, wp_modify]
  exact fun _ => trivial

theorem setKey_builds {isObj : Bool} {koff off : Nat} (hk : isObj = true → koff = off) (child : Nat) :
    wp True (setKey isObj koff child)
      (fun _ s' => s' = { s with
        doc := if isObj then s.doc.setNode child fun n => { n with key := off + 1 } else s.doc }) E s := by
  cases isObj with
  | false => exact rfl
  | true =>
    obtain rfl := hk rfl
    simp only [setKey, if_true, wp_bind, wp_check_assumed]
    exact fun _ => setNode_builds child _

theorem linkChild_builds (self : Nat) (prev : Option Nat) (child : Nat) :
    wp True (linkChild self prev child)
      (fun _ s' => s' = { s with doc := Json.linkChild s.doc self prev child }) E s := by
  cases prev with
  | none => exact setNode_builds self _
  | some p => exact setNode_builds p _

section
variable {items : Nat → Doc → Bytes → Option (Doc × Bytes)} {depth : Nat} {isObj : Bool} {d d' : Doc}
  {r r' : Bytes} {self : Nat}

theorem docParseContainer_empty (hd : ¬depth ≥ maxDepth)
    (hnew : Json.nodeNew d { type := if isObj then .obj else .arr } = (self, d'))
    (hr : Json.skipWs r = closer isObj :: r') :
    docParseContainer items depth isObj d r = some (self, d', r') := by
  rw [docParseContainer, if_neg hd, hnew]
  simp only [hr, if_true]

theorem docParseContainer_items (hd : ¬depth ≥ maxDepth)
    (hnew : Json.nodeNew d { type := if isObj then .obj else .arr } = (self, d'))
    (hr : ∀ r', Json.skipWs r ≠ closer isObj :: r') (hnil : items self d' [] = none) :
    docParseContainer items depth isObj d r =
      (items self d' (Json.skipWs r)).map fun p => (self, p.1, p.2) := by
  rw [docParseContainer, if_neg hd, hnew]
  cases hs : Json.skipWs r with
  | nil =>
    rw [hnil]
    rfl
  | cons c r' =>
    have hc : c ≠ closer isObj := fun hc => hr r' (by rw [hs, hc])
    simp only [if_neg hc]
    cases items self d' (c :: r') <;> rfl

end

theorem parseContainer_builds (hmem : ∀ k, mem k = true) {items : Nat → Parser Unit}
    {docItems : Nat → Doc → Bytes → Option (Doc × Bytes)} (depth : Nat) (isObj : Bool)
    (hnil : ∀ self d, docItems self d [] = none)
    (hitems : ∀ self s, wp True (items self)
      (fun _ s' => docItems self s.doc (text.drop s.pos) = some (s'.doc, text.drop s'.pos))
      (fun _ => docItems self s.doc (text.drop s.pos) = none) s) :
    wp True (parseContainer text mem items depth isObj)
      (fun v s' => docParseContainer docItems depth isObj s.doc (text.drop (s.pos + 1)) =
        some (v, s'.doc, text.drop s'.pos))
      (fun _ => docParseContainer docItems depth isObj s.doc (text.drop (s.pos + 1)) = none) s := by
  refine wp_ite _ (fun hd => if_pos hd) fun hd => ?_
  refine wp_seq (nodeNew_builds hmem _) fun self s₁ h => ?_
  obtain ⟨hnew, hpos⟩ := h
  rw [wp_bind, wp_seek, hpos]
  refine wp_seq skipWs_reads fun _ s₂ h => ?_
  obtain ⟨i, rfl, hi⟩ := h
  refine wp_seq (sees_reads _) fun b s₃ h => ?_
  obtain ⟨rfl, hsee⟩ := h
  refine wp_ite _ (fun hb => ?_) fun hb => ?_
  · simp only [wp_bind, wp_seek, wp_pure]
    exact docParseContainer_empty hd hnew (hi.symm.trans (hsee.1 hb))
  have hrest := docParseContainer_items hd hnew (r := text.drop (s.pos + 1))
    (fun r' hr => hb (hsee.2 (drop_cons (hi.trans hr)))) (hnil self s₁.doc)
  rw [hrest, ← hi, wp_bind]
  refine wp_mono (hitems self _) (fun _ s₄ h => ?_) fun _ hn => ?_
  · rw [wp_pure, show docItems self s₁.doc (text.drop i) = _ from h]
    rfl
  · rw [show docItems self s₁.doc (text.drop i) = none from hn]
    rfl

end

/-- What is shown of the two parsers at once. -/
structure ValuesBuild (text : Bytes) (mem : Nat → Bool) (fuel : Nat) : Prop where
  value : ∀ depth s, wp True (parseValue text mem fuel depth)
    (fun v s' => docParseValue fuel depth s.doc (text.drop s.pos) = some (v, s'.doc, text.drop s'.pos))
    (fun _ => docParseValue fuel depth s.doc (text.drop s.pos) = none) s
  items : ∀ depth isObj self prev s, wp True (parseItems text mem fuel depth isObj self prev)
    (fun _ s' => docParseItems fuel depth isObj self prev s.doc (text.drop s.pos) =
      some (s'.doc, text.drop s'.pos))
    (fun _ => docParseItems fuel depth isObj self prev s.doc (text.drop s.pos) = none) s

theorem docParseItems_nil (fuel depth : Nat) (isObj : Bool) (self : Nat) (prev : Option Nat) (d : Doc) :
    docParseItems fuel depth isObj self prev d [] = none := by
  cases fuel with
  | zero => rfl
  | succ fuel =>
    rw [docParseItems]
    cases isObj with
    | true => rfl
    | false =>
      cases fuel with
      | zero => rfl
      | succ fuel =>
        simp only [docParseKey]
        rfl

section
variable {text : Bytes} {mem : Nat → Bool} {fuel : Nat}

theorem parseValue_builds (hmem : ∀ k, mem k = true) (ih : ValuesBuild text mem fuel) (depth : Nat)
    (s : State) :
    wp True (parseValue text mem (fuel + 1) depth)
      (fun v s' => docParseValue (fuel + 1) depth s.doc (text.drop s.pos) =
        some (v, s'.doc, text.drop s'.pos))
      (fun _ => docParseValue (fuel + 1) depth s.doc (text.drop s.pos) = none) s := by
  rw [parseValue]
  refine wp_seq skipWs_reads fun _ s₁ h => ?_
  obtain ⟨i, rfl, hi⟩ := h
  simp only [wp_bind, wp_atEnd, decide_eq_true_eq]
  refine wp_ite _ (fun he => ?_) fun _ => ?_
  · rw [wp_fail, docParseValue, ← hi, List.drop_eq_nil_of_le he]
  rw [wp_bind]
  refine wp_mono here_reads (fun c s₂ h => ?_) fun _ hn => hn
  obtain ⟨rfl, hc⟩ := h
  simp only at hc
  rw [docParseValue, ← hi, hc]
  simp only
  have leaf : ∀ (w : Nat) (n : Node), wp True (do seek w; nodeNew mem n)
      (fun v s' => some ((Json.nodeNew s.doc n).1, (Json.nodeNew s.doc n).2,
        (c :: text.drop (i + 1)).drop w) = some (v, s'.doc, text.drop s'.pos))
      (fun _ => some ((Json.nodeNew s.doc n).1, (Json.nodeNew s.doc n).2,
        (c :: text.drop (i + 1)).drop w) = none) { s with pos := i } := by
    intro w n
    rw [wp_bind, wp_seek]
    refine wp_mono (nodeNew_builds hmem n) (fun v s₁ h => ?_) fun _ hn => hn
    obtain ⟨hnew, hpos⟩ := h
    rw [hpos, show Json.nodeNew s.doc n = (v, s₁.doc) from hnew, ← hc, List.drop_drop]
  by_cases ho : c = ch '{'
  · simp only [if_pos ho]
    exact parseContainer_builds hmem depth true (fun _ _ => docParseItems_nil ..)
      fun self s => ih.items (depth + 1) true self none s
  simp only [if_neg ho]
  by_cases ha : c = ch '['
  · simp only [if_pos ha]
    exact parseContainer_builds hmem depth false (fun _ _ => docParseItems_nil ..)
      fun self s => ih.items (depth + 1) false self none s
  simp only [if_neg ha]
  by_cases hq : c = ch '"'
  · simp only [if_pos hq]
    rw [wp_bind, ← hc]
    refine wp_mono (parseStringRaw_builds hmem) (fun off s₁ h => ?_) fun _ hn => ?_
    · obtain ⟨rfl, hstr⟩ := h
      simp only at hstr
      rw [hstr]
      refine wp_mono (nodeNew_builds hmem _) (fun v s₂ h => ?_) fun _ hn => hn
      obtain ⟨hnew, hpos⟩ := h
      rw [hpos]
      simp only [Option.bind_eq_bind, Option.bind_some, hnew]
      rfl
    · simp only at hn
      rw [hn]
      rfl
  simp only [if_neg hq]
  refine wp_seq (isWord_reads _) fun b s₁ h => ?_
  obtain ⟨rfl, hw⟩ := h
  rw [hc] at hw
  refine wp_ite _ (fun hb => ?_) fun hb => ?_
  · simp only [if_pos (hw.1 hb)]
    exact leaf 4 _
  simp only [if_neg fun h => hb (hw.2 h)]
  refine wp_seq (isWord_reads _) fun b s₁ h => ?_
  obtain ⟨rfl, hw⟩ := h
  rw [hc] at hw
  refine wp_ite _ (fun hb => ?_) fun hb => ?_
  · simp only [if_pos (hw.1 hb)]
    exact leaf 5 _
  simp only [if_neg fun h => hb (hw.2 h)]
  refine wp_seq (isWord_reads _) fun b s₁ h => ?_
  obtain ⟨rfl, hw⟩ := h
  rw [hc] at hw
  refine wp_ite _ (fun hb => ?_) fun hb => ?_
  · simp only [if_pos (hw.1 hb)]
    exact leaf 4 _
  simp only [if_neg fun h => hb (hw.2 h)]
  refine wp_ite _ (fun hd => ?_) fun hd => if_neg hd
  rw [if_pos hd, wp_bind]
  refine wp_mono (parseNumber_reads hc) (fun v s₁ h => ?_) fun _ hn => ?_
  · obtain ⟨j, rfl, hj⟩ := h
    simp only at hj
    rw [hj]
    refine wp_mono (nodeNew_builds hmem _) (fun m s₂ h => ?_) fun _ hn => hn
    obtain ⟨hnew, hpos⟩ := h
    rw [hpos]
    simp only [Option.bind_eq_bind, Option.bind_some, ajI64] at hnew ⊢
    rw [hnew]
    rfl
  · simp only at hn
    rw [hn]
    rfl

theorem parseItems_builds (hmem : ∀ k, mem k = true) (ih : ValuesBuild text mem fuel) (depth : Nat)
    (isObj : Bool) (self : Nat) (prev : Option Nat) (s : State) :
    wp True (parseItems text mem (fuel + 1) depth isObj self prev)
      (fun _ s' => docParseItems (fuel + 1) depth isObj self prev s.doc (text.drop s.pos) =
        some (s'.doc, text.drop s'.pos))
      (fun _ => docParseItems (fuel + 1) depth isObj self prev s.doc (text.drop s.pos) = none) s := by
  rw [parseItems, docParseItems, wp_bind]
  refine wp_mono (parseKey_builds hmem isObj) (fun koff s₁ h => ?_) fun _ hn => ?_
  swap
  · rw [hn]
    rfl
  obtain ⟨hoff, hkey⟩ := h
  rw [hkey]
  simp only [Option.bind_eq_bind, Option.bind_some]
  rw [wp_bind]
  refine wp_mono (ih.value depth s₁) (fun child s₂ h => ?_) fun _ hn => ?_
  swap
  · rw [hn]
    rfl
  rw [h]
  simp only [Option.bind_some]
  refine wp_seq (setKey_builds hoff child) fun _ s₃ h => ?_
  subst h
  refine wp_seq (linkChild_builds self prev child) fun _ s₄ h => ?_
  subst h
  refine wp_seq skipWs_reads fun _ s₅ h => ?_
  obtain ⟨i, rfl, hi⟩ := h
  simp only at hi ⊢
  rw [← hi]
  refine wp_seq (sees_reads _) fun b s₆ h => ?_
  obtain ⟨rfl, hcomma⟩ := h
  simp only at hcomma
  refine wp_ite _ (fun hb => ?_) fun hb => ?_
  · rw [hcomma.1 hb, wp_bind, wp_seek]
    simp only [if_true]
    exact ih.items depth isObj self (some child) _
  refine wp_seq (sees_reads _) fun b' s₇ h => ?_
  obtain ⟨rfl, hclose⟩ := h
  simp only at hclose
  have hne : ∀ r, text.drop i ≠ ch ',' :: r := fun r hr => hb (hcomma.2 (drop_cons hr))
  refine wp_ite _ (fun hb' => ?_) fun hb' => ?_
  · rw [wp_seek]
    have hcl := hclose.1 hb'
    have hc : closer isObj ≠ ch ',' := fun hc => hne _ (hc ▸ hcl)
    rw [hcl]
    simp only [if_neg hc, if_true]
  · rw [wp_fail]
    cases hd : text.drop i with
    | nil => rfl
    | cons c r =>
      have hc : c ≠ ch ',' := fun hc => hne r (hc ▸ hd)
      have hc' : c ≠ closer isObj := fun hc => hb' (hclose.2 (drop_cons (hc ▸ hd)))
      simp only [if_neg hc, if_neg hc']

theorem values_build (hmem : ∀ k, mem k = true) : ∀ fuel, ValuesBuild text mem fuel
  | 0 => ⟨fun _ _ => trivial, fun _ _ _ _ _ => trivial⟩
  | fuel + 1 =>
    have ih := values_build hmem fuel
    ⟨parseValue_builds hmem ih, parseItems_builds hmem ih⟩

end

/-- On a text no longer than a frame, with memory to be had, the parser ends as `docParse` does. -/
theorem ajParse_doc {text : Bytes} {mem : Nat → Bool} (hm : text.length ≤ maxFrame)
    (hmem : ∀ k, mem k = true) :
    (∃ s, ajParse text mem {} = .ok () s ∧ docParse text = some s.doc) ∨
      ∃ s, ajParse text mem {} = .fail s ∧ docParse text = none := by
  have hrun : wp False (ajParse text mem) (fun _ s => docParse text = some s.doc)
      (fun _ => docParse text = none) {} := by
    have hfits : ValuesFit text mem (2 * text.length + 2) := values_fit hm _
    have hval := wp_and (hfits.value 0 {} (fits_start text) (by simp))
      ((values_build hmem _).value 0 {})
    rw [ajParse, docParse, wp_bind]
    refine wp_mono hval (fun root s h => ?_) fun _ h => ?_
    swap
    · rw [show docParseValue (2 * text.length + 2) 0 {} text = none from h.2]
      rfl
    obtain ⟨hfit, hdoc⟩ := h
    rw [show docParseValue (2 * text.length + 2) 0 {} text = _ from hdoc]
    simp only [Option.bind_eq_bind, Option.bind_some]
    refine wp_ite _ (fun hr => if_neg fun h => hr h.1) fun hr => ?_
    rw [wp_bind]
    refine wp_mono (wp_and (skipWs_spec (E := fun _ => False) hfit.fits.pos)
      (skipWs_reads (E := fun _ => False))) (fun _ s' h => ?_) fun _ h => h.1.elim
    obtain ⟨⟨i, -, hl, rfl⟩, j, hj, hskip⟩ := h
    obtain rfl : i = j := congrArg State.pos hj
    have hend : i = text.length ↔ Json.skipWs (text.drop s.pos) = [] := by
      rw [← hskip, List.drop_eq_nil_iff]
      omega
    simp only [wp_bind, wp_pos]
    refine wp_ite _ (fun hne => if_neg fun h => hne (hend.2 h.2)) fun heq => ?_
    exact if_pos ⟨not_not.1 hr, hend.1 (not_not.1 heq)⟩
  obtain ⟨_, s, heq, hs⟩ | ⟨s, heq, hs⟩ := wp_cases hrun
  · exact .inl ⟨s, heq, hs⟩
  · exact .inr ⟨s, heq, hs⟩

end Json.Raw
