import AlpmRpc.Common.Framing
import AlpmRpc.Common.RawParser

/-!
# The parser stays inside its memory

What every step of the parser keeps (`Fits`): it is inside the text, the nodes and the string bytes are
no more than what it has read, and each capacity is bounded by the text's length. The counters then never
pass that length (`Within`), also where the parser fails. A container's node comes before its bracket is
read, for which `Room` and a bracket that is there are enough.

1. Reading (`skipWs_spec`, `sees_spec`, `isWord_spec`) moves forward and changes nothing else.
2. Growing (`nodeNew_spec`, `sbufPut_spec`) keeps `Room`.
3. A string's buffer holds no more than what was read of the string (`charsLoop_spec`).
4. A value takes at least as many bytes as it adds nodes (`values_fit`).
-/

set_option autoImplicit false

namespace Json.Raw

open Checked
open Wire (maxFrame)

/-- The counters were never beyond the text's length. -/
def Within (text : Bytes) (s : State) : Prop :=
  ∀ p ∈ s.points, p.1 ≤ text.length ∧ p.2 ≤ text.length

structure Room (text : Bytes) (s : State) : Prop where
  cap : s.doc.nodes.length ≤ s.cap
  capLe : s.cap ≤ 2 * text.length + 32
  scap : s.doc.sbuf.length ≤ s.scap
  scapLe : s.scap ≤ 2 * text.length + 256
  within : Within text s

structure Fits (text : Bytes) (s : State) : Prop extends Room text s where
  pos : s.pos ≤ text.length
  nodes : s.doc.nodes.length ≤ s.pos
  bytes : s.doc.sbuf.length ≤ s.pos

theorem Fits.moved {text : Bytes} {s : State} (h : Fits text s) {i : Nat} (hi : s.pos ≤ i)
    (hl : i ≤ text.length) : Fits text { s with pos := i } :=
  ⟨⟨h.cap, h.capLe, h.scap, h.scapLe, h.within⟩, hl, h.nodes.trans hi, h.bytes.trans hi⟩

section
variable {F : Prop} {text : Bytes} {mem : Nat → Bool} {E : State → Prop} {s : State}

/-! ## Reading -/

@[simp]
theorem wp_pos {Q : Nat → State → Prop} : wp F pos Q E s ↔ Q s.pos s := Iff.rfl

@[simp]
theorem wp_seek {Q : Unit → State → Prop} (n : Nat) :
    wp F (seek n) Q E s ↔ Q () { s with pos := s.pos + n } := Iff.rfl

@[simp]
theorem wp_atEnd {Q : Bool → State → Prop} :
    wp F (atEnd text) Q E s ↔ Q (decide (text.length ≤ s.pos)) s := Iff.rfl

@[simp]
theorem wp_left {Q : Nat → State → Prop} :
    wp False (left text) Q E s ↔ s.pos ≤ text.length ∧ Q (text.length - s.pos) s := by
  simp [left]

theorem wp_byteAt {Q : UInt8 → State → Prop} {i : Nat} (hi : i < text.length)
    (h : ∀ c, text[i]? = some c → Q c s) : wp False (byteAt text i) Q E s := by
  unfold byteAt
  rw [List.getElem?_eq_getElem hi] at *
  exact h _ rfl

theorem wp_here {Q : UInt8 → State → Prop} (hi : s.pos < text.length)
    (h : ∀ c, text[s.pos]? = some c → Q c s) : wp False (here text) Q E s := by
  simp only [here, wp_bind, wp_pos]
  exact wp_byteAt hi h

theorem sees_spec (c : UInt8) :
    wp False (sees text c) (fun b s' => s' = s ∧ (b = true → s.pos < text.length)) E s := by
  simp only [sees, wp_bind, wp_atEnd]
  by_cases h : text.length ≤ s.pos
  · simp [h]
  · simp only [decide_eq_true_eq, h, if_false, wp_bind]
    exact wp_here (by omega) fun c' _ => ⟨rfl, fun _ => by omega⟩

theorem skipWsLoop_spec : ∀ (fuel : Nat) (s : State), s.pos ≤ text.length →
    text.length - s.pos < fuel →
      wp False (skipWsLoop text fuel)
        (fun _ s' => ∃ i, s.pos ≤ i ∧ i ≤ text.length ∧ s' = { s with pos := i }) E s
  | 0, _, _, hf => by omega
  | fuel + 1, s, hs, hf => by
    simp only [skipWsLoop, wp_bind, wp_atEnd, decide_eq_true_eq]
    refine wp_ite _ (fun _ => ⟨s.pos, le_refl _, hs, rfl⟩) fun he => ?_
    rw [wp_bind]
    refine wp_here (by omega) fun c _ => ?_
    refine wp_ite _ (fun _ => ?_) fun _ => ⟨s.pos, le_refl _, hs, rfl⟩
    rw [wp_bind, wp_seek]
    refine wp_mono (skipWsLoop_spec fuel _ (by simp; omega) (by simp; omega)) (fun _ _ h => ?_) fun _ h => h
    obtain ⟨i, hi, hl, rfl⟩ := h
    exact ⟨i, by simp at hi; omega, hl, rfl⟩

theorem skipWs_spec (hs : s.pos ≤ text.length) :
    wp False (skipWs text)
      (fun _ s' => ∃ i, s.pos ≤ i ∧ i ≤ text.length ∧ s' = { s with pos := i }) E s :=
  skipWsLoop_spec _ s hs (by omega)

theorem matchAt_spec : ∀ (w : Bytes) (i : Nat), i + w.length ≤ text.length →
    wp False (matchAt text i w) (fun _ s' => s' = s) E s
  | [], _, _ => rfl
  | c :: w, i, h => by
    simp only [List.length_cons] at h
    rw [matchAt, wp_bind]
    refine wp_byteAt (by omega) fun c' _ => ?_
    exact wp_ite _ (fun _ => matchAt_spec w (i + 1) (by omega)) fun _ => rfl

theorem isWord_spec (w : Bytes) (hs : s.pos ≤ text.length) :
    wp False (isWord text w) (fun b s' => s' = s ∧ (b = true → s.pos + w.length ≤ text.length)) E s := by
  simp only [isWord, wp_bind, wp_left]
  refine ⟨hs, wp_ite _ (fun h => ?_) fun _ => ⟨rfl, by simp⟩⟩
  rw [wp_bind, wp_pos]
  refine wp_mono (matchAt_spec w s.pos (by omega)) (fun b _ h => ?_) fun _ h => h
  obtain rfl := h
  exact ⟨rfl, fun _ => by omega⟩

/-! ## Growing -/

theorem wp_alloc {Q : Unit → State → Prop} (hQ : ∀ k, Q () { s with allocs := k })
    (hE : ∀ k, E { s with allocs := k }) : wp F (alloc mem) Q E s := by
  unfold wp alloc
  cases mem s.allocs
  · exact hE _
  · exact hQ _

/-- A larger array of nodes, or none. -/
theorem growNodes_spec (h : Room text s) (hn : s.doc.nodes.length < text.length)
    (hm : text.length ≤ maxFrame) :
    wp False (growNodes mem)
      (fun _ s' => ∃ cap k, s' = { s with cap, allocs := k } ∧ s.doc.nodes.length < cap ∧
        cap ≤ 2 * text.length + 32) (Within text) s := by
  have hcap := h.cap
  have hle := h.capLe
  simp only [growNodes, wp_bind, wp_get]
  refine wp_ite _ (fun he => ?_) fun he => ⟨s.cap, s.allocs, rfl, by omega, hle⟩
  have hnew : s.doc.nodes.length < (if s.cap = 0 then 32 else s.cap * 2) ∧
      (if s.cap = 0 then 32 else s.cap * 2) ≤ 2 * text.length + 32 := by split <;> omega
  simp only [wp_bind, wp_check]
  refine ⟨by simp only [maxFrame, intMax] at hm ⊢; omega, ?_⟩
  exact wp_alloc (fun k => ⟨_, k, rfl, hnew⟩) fun _ => h.within

theorem nodeNew_spec (n : Node) (h : Room text s) (hn : s.doc.nodes.length < text.length)
    (hb : s.doc.sbuf.length ≤ text.length) (hm : text.length ≤ maxFrame) :
    wp False (nodeNew mem n)
      (fun i s' => Room text s' ∧ i = s.doc.nodes.length ∧ s'.pos = s.pos ∧
        s'.doc.nodes.length = s.doc.nodes.length + 1 ∧ s'.doc.sbuf = s.doc.sbuf)
      (Within text) s := by
  rw [nodeNew]
  refine wp_seq (growNodes_spec h hn hm) fun _ _ h => ?_
  obtain ⟨cap, k, rfl, hcap, hle⟩ := h
  simp only [note, Json.nodeNew, wp_bind, wp_get, wp_check, wp_modify, wp_pure]
  refine ⟨⟨hcap, by simp only [maxFrame, intMax] at hm ⊢; omega⟩, ?_, by simp⟩
  refine ⟨by simp; omega, hle, h.scap, h.scapLe, ?_⟩
  intro p hp
  rcases List.mem_append.1 hp with hp | hp
  · exact h.within p hp
  · obtain rfl := List.mem_singleton.1 hp
    simp
    omega

theorem doubleLoop_spec {need : Nat} (hneed : need < 2 ^ 62) : ∀ (fuel cap : Nat), 0 < cap →
    need ≤ cap * 2 ^ fuel →
    wp False (doubleLoop need (fuel + 1) cap)
      (fun c s' => s' = s ∧ need ≤ c ∧ (c = cap ∨ c < 2 * need)) E s
  | 0, cap, hc, hf => by
    rw [doubleLoop]
    exact wp_ite _ (fun h => by omega) fun h => ⟨rfl, by omega, .inl rfl⟩
  | fuel + 1, cap, hc, hf => by
    have hf' : need ≤ cap * 2 * 2 ^ fuel := by rwa [Nat.mul_assoc, ← Nat.pow_succ']
    rw [doubleLoop]
    refine wp_ite _ (fun h => ?_) fun h => ⟨rfl, by omega, .inl rfl⟩
    rw [wp_bind, wp_check]
    refine ⟨by omega, wp_mono (doubleLoop_spec hneed fuel (cap * 2) (by omega) hf') ?_ fun _ h => h⟩
    rintro c _ ⟨rfl, hle, hc⟩
    exact ⟨rfl, hle, .inr (by omega)⟩

/-- A larger buffer, or none. -/
theorem growBytes_spec {need : Nat} (h : Room text s) (hn : need ≤ text.length)
    (hm : text.length ≤ maxFrame) :
    wp False (growBytes mem need)
      (fun _ s' => ∃ scap k, s' = { s with scap, allocs := k } ∧ need ≤ scap ∧
        scap ≤ 2 * text.length + 256) (Within text) s := by
  have hle := h.scapLe
  have hmax : text.length ≤ 2 ^ 26 := hm
  simp only [growBytes, wp_bind, wp_get]
  refine wp_ite _ (fun hgt => ?_) fun hge => ⟨s.scap, s.allocs, rfl, by omega, hle⟩
  have hstart : 0 < (if s.scap = 0 then 256 else s.scap * 2) ∧
      (if s.scap = 0 then 256 else s.scap * 2) ≤ 2 * text.length + 256 := by split <;> omega
  simp only [wp_bind, wp_check]
  refine ⟨by omega, wp_mono (doubleLoop_spec (by omega) 63 _ hstart.1 (by omega)) ?_ fun _ h => h⟩
  rintro c _ ⟨rfl, hneed, hc⟩
  exact wp_alloc (fun k => ⟨c, k, rfl, hneed, by omega⟩) fun _ => h.within

theorem sbufPut_spec {b : Bytes} (h : Room text s) (hn : s.doc.nodes.length ≤ text.length)
    (hb : s.doc.sbuf.length + b.length + 1 ≤ text.length) (hm : text.length ≤ maxFrame) :
    wp False (sbufPut mem b)
      (fun off s' => Room text s' ∧ off = s.doc.sbuf.length ∧ s'.pos = s.pos ∧
        s'.doc.nodes = s.doc.nodes ∧ s'.doc.sbuf.length = s.doc.sbuf.length + b.length + 1)
      (Within text) s := by
  simp only [sbufPut, wp_bind, wp_get, wp_pure]
  refine wp_mono (growBytes_spec h hb hm) (fun _ _ h => ?_) fun _ h => h
  obtain ⟨scap, k, rfl, hcap, hle⟩ := h
  simp only [note, Json.sbufPut, wp_check, wp_modify]
  refine ⟨by simp only [maxFrame, intMax] at hm ⊢; omega, hcap, ?_, by simp; omega⟩
  refine ⟨h.cap, h.capLe, by simp; omega, hle, ?_⟩
  intro p hp
  rcases List.mem_append.1 hp with hp | hp
  · exact h.within p hp
  · obtain rfl := List.mem_singleton.1 hp
    simp
    omega

/-! ## Strings -/

/-- The buffer's size is bounded by the text's. -/
structure Tmp.Fits (text : Bytes) (t : Tmp) : Prop where
  bytes : t.bytes.length ≤ t.cap
  stack : 256 ≤ t.cap
  cap : t.cap ≤ 2 * text.length + 256

theorem length_utf8_le (cp : Nat) : (utf8 cp).length ≤ 4 := by
  unfold utf8
  split_ifs <;> simp

theorem hexLoop_spec : ∀ (k i v : Nat), i + k ≤ text.length →
    wp False (hexLoop text k i v) (fun _ s' => s' = s) E s
  | 0, _, _, _ => rfl
  | k + 1, i, v, h => by
    rw [hexLoop, wp_bind]
    refine wp_byteAt (by omega) fun c _ => ?_
    cases hexDigitVal c with
    | none => rfl
    | some d => exact hexLoop_spec k (i + 1) (v * 16 + d) (by omega)

theorem hex4_spec {i : Nat} (h : i + 4 ≤ text.length) :
    wp False (hex4 text i) (fun _ s' => s' = s) E s :=
  hexLoop_spec 4 i 0 h

theorem lowSurrogate_spec {hi : Nat} (h : s.pos + 6 ≤ text.length) :
    wp False (lowSurrogate text hi)
      (fun _ s' => ∃ i, s.pos ≤ i ∧ i ≤ text.length ∧ s' = { s with pos := i }) E s := by
  have stay : ∃ i, s.pos ≤ i ∧ i ≤ text.length ∧ s = { s with pos := i } :=
    ⟨s.pos, le_refl _, by omega, rfl⟩
  simp only [lowSurrogate, wp_bind, wp_pos]
  refine wp_byteAt (by omega) fun c _ => wp_ite _ (fun _ => ?_) fun _ => stay
  rw [wp_bind]
  refine wp_byteAt (by omega) fun c _ => wp_ite _ (fun _ => ?_) fun _ => stay
  refine wp_seq (hex4_spec (by omega)) ?_
  rintro (_ | lo) s' rfl
  · exact stay
  · refine wp_ite _ (fun _ => ?_) fun _ => stay
    exact ⟨s'.pos + 6, by omega, h, rfl⟩

theorem codePoint_spec (h : s.pos ≤ text.length) (hw : Within text s) :
    wp False (codePoint text)
      (fun _ s' => ∃ i, s.pos + 4 ≤ i ∧ i ≤ text.length ∧ s' = { s with pos := i })
      (Within text) s := by
  simp only [codePoint, wp_bind, wp_left]
  refine ⟨h, wp_ite _ (fun _ => hw) fun hlt => ?_⟩
  simp only [wp_bind, wp_pos]
  refine wp_mono (hex4_spec (by omega)) ?_ fun _ he => he
  rintro (_ | hi) s' rfl
  · exact hw
  · simp only [wp_bind, wp_seek, wp_left]
    refine ⟨by omega, wp_ite _ (fun hc => ?_) fun _ => ⟨s'.pos + 4, le_refl _, by omega, rfl⟩⟩
    exact lowSurrogate_spec (by simp only; omega)

theorem tmpPut_spec {t : Tmp} {b : Bytes} (h : t.bytes.length + b.length ≤ t.cap) :
    wp False (tmpPut t b) (fun t' s' => t' = { t with bytes := t.bytes ++ b } ∧ s' = s) E s := by
  simp only [tmpPut, wp_bind, wp_check, wp_pure]
  exact ⟨h, trivial, trivial⟩

theorem tmpRoom_spec {t : Tmp} (h : t.Fits text) (ht : t.bytes.length ≤ text.length)
    (hm : text.length ≤ maxFrame) (hw : Within text s) :
    wp False (tmpRoom mem t)
      (fun t' s' => t'.Fits text ∧ t'.bytes = t.bytes ∧ t.bytes.length + 5 ≤ t'.cap ∧
        ∃ k, s' = { s with allocs := k }) (Within text) s := by
  have hb := h.bytes
  have hs := h.stack
  have hc := h.cap
  have hmax : text.length ≤ 2 ^ 26 := hm
  refine wp_ite _ (fun hgt => ?_) fun _ => ⟨h, rfl, by omega, s.allocs, rfl⟩
  simp only [wp_bind, wp_check, wp_pure]
  refine ⟨by omega, wp_alloc (fun k => ⟨by omega, ?_, trivial, by omega, k, rfl⟩) fun _ => hw⟩
  exact ⟨by simp only; omega, by simp only; omega, by simp only; omega⟩

theorem escape_spec {t : Tmp} (ht : t.bytes.length + 5 ≤ t.cap)
    (hw : Within text s) :
    wp False (escape text t)
      (fun t' s' => t'.cap = t.cap ∧ t'.bytes.length ≤ t.cap ∧
        ∃ i, s.pos < i ∧ i ≤ text.length ∧ s' = { s with pos := i } ∧
          t'.bytes.length + s.pos ≤ t.bytes.length + i) (Within text) s := by
  simp only [escape, wp_bind, wp_atEnd, decide_eq_true_eq]
  refine wp_ite _ (fun _ => hw) fun hlt => ?_
  simp only [wp_bind, wp_seek]
  refine wp_here (by omega) fun e _ => wp_ite _ (fun _ => ?_) fun _ => ?_
  · refine wp_seq (codePoint_spec (by simp only; omega) hw) fun cp _ h => ?_
    obtain ⟨i, hi, hl, rfl⟩ := h
    have hcp := length_utf8_le cp
    simp only at hi
    refine wp_mono (tmpPut_spec (by omega)) (fun _ _ h => ?_) fun _ he => he
    obtain ⟨rfl, rfl⟩ := h
    exact ⟨rfl, by simp; omega, i, by omega, hl, rfl, by simp; omega⟩
  · cases simpleEscape e with
    | none => exact hw
    | some b =>
      refine wp_mono (tmpPut_spec (by simp; omega)) (fun _ _ h => ?_) fun _ he => he
      obtain ⟨rfl, rfl⟩ := h
      exact ⟨rfl, by simp; omega, s.pos + 1, by omega, by omega, rfl, by simp; omega⟩

theorem charsLoop_spec (hm : text.length ≤ maxFrame) : ∀ (fuel : Nat) (t : Tmp) (s : State),
    t.Fits text → t.bytes.length ≤ s.pos → s.pos ≤ text.length → text.length - s.pos < fuel →
    Within text s →
      wp False (charsLoop text mem fuel t)
        (fun t' s' => ∃ i k, s.pos ≤ i ∧ i ≤ text.length ∧ s' = { s with pos := i, allocs := k } ∧
          t'.bytes.length + s.pos ≤ t.bytes.length + i) (Within text) s
  | 0, _, _, _, _, _, hf, _ => by omega
  | fuel + 1, t, s, ht, hts, hs, hf, hw => by
    have stop : ∃ i k, s.pos ≤ i ∧ i ≤ text.length ∧ s = { s with pos := i, allocs := k } ∧
        t.bytes.length + s.pos ≤ t.bytes.length + i := ⟨s.pos, s.allocs, le_refl _, hs, rfl, le_refl _⟩
    have step : ∀ t' i k, t'.Fits text → s.pos < i → i ≤ text.length →
        t'.bytes.length + s.pos ≤ t.bytes.length + i →
        wp False (charsLoop text mem fuel t')
          (fun t' s' => ∃ i k, s.pos ≤ i ∧ i ≤ text.length ∧ s' = { s with pos := i, allocs := k } ∧
            t'.bytes.length + s.pos ≤ t.bytes.length + i) (Within text)
          { s with pos := i, allocs := k } := by
      intro t' i k ht' hi hl hb
      refine wp_mono (charsLoop_spec hm fuel t' _ ht' ?_ hl ?_ hw) ?_ fun _ he => he
      · simp only; omega
      · simp only; omega
      · rintro t'' _ ⟨j, k', hj, hjl, rfl, hb'⟩
        simp only at hj hb'
        exact ⟨j, k', by omega, hjl, rfl, by omega⟩
    simp only [charsLoop, wp_bind, wp_atEnd, decide_eq_true_eq]
    refine wp_ite _ (fun _ => stop) fun hlt => ?_
    rw [wp_bind]
    refine wp_here (by omega) fun _ _ => wp_ite _ (fun _ => stop) fun _ => ?_
    refine wp_seq (tmpRoom_spec ht (by omega) hm hw) fun t' _ h => ?_
    obtain ⟨ht', hb, hroom, k, rfl⟩ := h
    rw [← hb] at hroom hts step
    rw [wp_bind]
    refine wp_here (by simp only; omega) fun c _ => wp_ite _ (fun _ => ?_) fun _ => ?_
    · refine wp_ite _ (fun _ => hw) fun _ => wp_seq (tmpPut_spec (by simp; omega)) fun _ _ h => ?_
      obtain ⟨rfl, rfl⟩ := h
      rw [wp_bind, wp_seek, ← hb]
      refine step _ (s.pos + 1) k ⟨?_, ht'.stack, ht'.cap⟩ (by omega) (by omega) ?_
      · simp; omega
      · simp; omega
    · rw [wp_bind, wp_seek]
      refine wp_seq (escape_spec hroom hw) fun t'' _ h => ?_
      obtain ⟨hcap, hlen, i, hi, hl, rfl, hle⟩ := h
      simp only at hi hle
      rw [← hb]
      exact step t'' i k ⟨by omega, by have := ht'.stack; omega, by have := ht'.cap; omega⟩
        (by omega) hl (by omega)

theorem parseStringRaw_spec (h : Fits text s) (hm : text.length ≤ maxFrame) :
    wp False (parseStringRaw text mem)
      (fun off s' => Fits text s' ∧ s.pos + 2 ≤ s'.pos ∧ off < text.length ∧
        s'.doc.nodes = s.doc.nodes) (Within text) s := by
  have hn := h.nodes
  have hb := h.bytes
  rw [parseStringRaw]
  refine wp_seq (sees_spec _) fun b s' h => ?_
  obtain ⟨rfl, hlt⟩ := h
  refine wp_ite _ (fun hsee => ?_) fun _ => h.within
  rw [wp_bind, wp_seek]
  refine wp_seq (charsLoop_spec hm _ {} _ ⟨by simp, by simp, by simp⟩ (by simp) (hlt hsee)
    (by simp only; omega) h.within) fun t _ h => ?_
  obtain ⟨i, k, hi, hl, rfl, hle⟩ := h
  refine wp_seq (sees_spec _) fun b' _ h => ?_
  obtain ⟨rfl, hlt'⟩ := h
  refine wp_ite _ (fun hsee' => ?_) fun _ => h.within
  have hi' := hlt' hsee'
  simp at hi hle hi'
  rw [wp_bind, wp_seek]
  refine wp_mono (sbufPut_spec ⟨h.cap, h.capLe, h.scap, h.scapLe, h.within⟩ ?_ ?_ hm) ?_ fun _ he => he
  · simp only; omega
  · simp only; omega
  · rintro off s'' ⟨hroom, rfl, hpos, hnodes, hlen⟩
    simp only at hpos hnodes hlen ⊢
    refine ⟨⟨hroom, by omega, by rw [hnodes]; omega, by omega⟩, by omega, by omega, hnodes⟩

/-! ## Values -/

theorem digitsLoop_spec : ∀ (fuel u : Nat) (s : State), s.pos ≤ text.length →
    text.length - s.pos < fuel → Within text s →
      wp False (digitsLoop text fuel u)
        (fun _ s' => ∃ i, s.pos ≤ i ∧ i ≤ text.length ∧ s' = { s with pos := i } ∧
          ∀ c, text[s.pos]? = some c → isDigit c → s.pos < i) (Within text) s
  | 0, _, _, _, hf, _ => by omega
  | fuel + 1, u, s, hs, hf, hw => by
    simp only [digitsLoop, wp_bind, wp_atEnd, decide_eq_true_eq]
    refine wp_ite _ (fun he => ⟨s.pos, le_refl _, hs, rfl, fun c hc _ => ?_⟩) fun hlt => ?_
    · rw [List.getElem?_eq_none he] at hc
      cases hc
    · rw [wp_bind]
      refine wp_here (by omega) fun c hc => wp_ite _ (fun _ => ?_) fun hd => ?_
      · refine wp_ite _ (fun _ => hw) fun _ => ?_
        rw [wp_bind, wp_seek]
        refine wp_mono (digitsLoop_spec fuel _ _ (by simp only; omega) (by simp only; omega) hw) ?_
          fun _ he => he
        rintro u' _ ⟨i, hi, hl, rfl, -⟩
        simp only at hi
        exact ⟨i, by omega, hl, rfl, fun _ _ _ => by omega⟩
      · refine ⟨s.pos, le_refl _, hs, rfl, fun c' hc' hd' => ?_⟩
        rw [hc] at hc'
        cases hc'
        exact absurd hd' hd

theorem parseDigits_spec {neg : Bool} (h : s.pos ≤ text.length) (hw : Within text s) :
    wp False (parseDigits text neg)
      (fun _ s' => ∃ i, s.pos < i ∧ i ≤ text.length ∧ s' = { s with pos := i }) (Within text) s := by
  simp only [parseDigits, wp_bind, wp_atEnd, decide_eq_true_eq]
  refine wp_ite _ (fun _ => hw) fun hlt => ?_
  rw [wp_bind]
  refine wp_here (by omega) fun c hc => wp_ite _ (fun _ => hw) fun hd => ?_
  refine wp_seq (digitsLoop_spec _ _ s h (by omega) hw) fun u _ h => ?_
  obtain ⟨i, -, hl, rfl, hdigit⟩ := h
  have hi := hdigit c hc (by simpa using hd)
  refine wp_seq (sees_spec _) fun _ _ h => ?_
  obtain ⟨rfl, -⟩ := h
  refine wp_seq (sees_spec _) fun _ _ h => ?_
  obtain ⟨rfl, -⟩ := h
  refine wp_seq (sees_spec _) fun _ _ h => ?_
  obtain ⟨rfl, -⟩ := h
  refine wp_ite _ (fun _ => hw) fun _ => ?_
  cases signed neg u with
  | none => exact hw
  | some v => exact ⟨i, hi, hl, rfl⟩

theorem parseNumber_spec {c : UInt8} (h : s.pos < text.length) (hw : Within text s) :
    wp False (parseNumber text c)
      (fun _ s' => ∃ i, s.pos < i ∧ i ≤ text.length ∧ s' = { s with pos := i }) (Within text) s := by
  refine wp_ite _ (fun _ => ?_) fun _ => parseDigits_spec h.le hw
  rw [wp_bind, wp_seek]
  refine wp_mono (parseDigits_spec h hw) (fun _ _ h => ?_) fun _ he => he
  obtain ⟨i, hi, hl, rfl⟩ := h
  exact ⟨i, (Nat.lt_succ_self _).trans hi, hl, rfl⟩

theorem parseKey_spec {isObj : Bool} (h : Fits text s) (hm : text.length ≤ maxFrame) :
    wp False (parseKey text mem isObj)
      (fun off s' => Fits text s' ∧ s.pos ≤ s'.pos ∧ off ≤ text.length ∧
        s'.doc.nodes = s.doc.nodes) (Within text) s := by
  refine wp_ite _ (fun _ => ?_) fun _ => ⟨h, le_refl _, Nat.zero_le _, rfl⟩
  refine wp_seq (skipWs_spec h.pos) fun _ _ h => ?_
  obtain ⟨i, hi, hl, rfl⟩ := h
  refine wp_seq (parseStringRaw_spec (h.moved hi hl) hm) fun off s₂ h => ?_
  obtain ⟨h₂, hpos, hoff, hnodes⟩ := h
  simp only at hpos hnodes
  refine wp_seq (skipWs_spec h₂.pos) fun _ _ h => ?_
  obtain ⟨j, hj, hjl, rfl⟩ := h
  refine wp_seq (sees_spec _) fun _ _ h => ?_
  obtain ⟨rfl, hlt⟩ := h
  refine wp_ite _ (fun hsee => ?_) fun _ => h₂.within
  simp only [wp_bind, wp_seek, wp_pure]
  exact ⟨h₂.moved (by omega) (hlt hsee), by omega, by omega, hnodes⟩

/-- A store in a node that is there changes no length. -/
theorem setNode_spec {i : Nat} {f : Node → Node} (h : Fits text s) (hi : i < s.doc.nodes.length) :
    wp False (setNode i f)
      (fun _ s' => Fits text s' ∧ s'.pos = s.pos ∧ s'.doc.nodes.length = s.doc.nodes.length) E s := by
  simp only [setNode, wp_bind, wp_get, wp_check, wp_modify, Doc.setNode, List.length_modify]
  refine ⟨hi, ⟨⟨?_, h.capLe, h.scap, h.scapLe, h.within⟩, h.pos, ?_, h.bytes⟩, trivial, trivial⟩
  · simpa using h.cap
  · simpa using h.nodes

theorem setKey_spec {isObj : Bool} {koff child : Nat} (h : Fits text s)
    (hk : koff ≤ text.length) (hc : child < s.doc.nodes.length) (hm : text.length ≤ maxFrame) :
    wp False (setKey isObj koff child)
      (fun _ s' => Fits text s' ∧ s'.pos = s.pos ∧ s'.doc.nodes.length = s.doc.nodes.length) E s := by
  refine wp_ite _ (fun _ => ?_) fun _ => ⟨h, rfl, rfl⟩
  rw [wp_bind, wp_check]
  exact ⟨by simp only [maxFrame, intMax] at hm ⊢; omega, setNode_spec h hc⟩

theorem linkChild_spec {self child : Nat} {prev : Option Nat} (h : Fits text s)
    (hs : self < s.doc.nodes.length) (hp : ∀ p, prev = some p → p < s.doc.nodes.length) :
    wp False (linkChild self prev child)
      (fun _ s' => Fits text s' ∧ s'.pos = s.pos ∧ s'.doc.nodes.length = s.doc.nodes.length) E s := by
  cases prev with
  | none => exact setNode_spec h hs
  | some p => exact setNode_spec h (hp p rfl)

/-- A value has been read since `s`, and its node is there. -/
structure Took (text : Bytes) (s : State) (v : Nat) (s' : State) : Prop where
  fits : Fits text s'
  pos : s.pos < s'.pos
  nodes : s.doc.nodes.length ≤ s'.doc.nodes.length
  node : v < s'.doc.nodes.length

/-- A node for what was read since `s`. -/
theorem leaf_spec {s₀ : State} {n : Node} (h : Fits text s) (hs : s₀.pos < s.pos)
    (h₀ : s.doc.nodes.length = s₀.doc.nodes.length) (hn : s₀.doc.nodes.length ≤ s₀.pos)
    (hm : text.length ≤ maxFrame) : wp False (nodeNew mem n) (Took text s₀) (Within text) s := by
  have hpos := h.pos
  have hbytes := h.bytes
  refine wp_mono (nodeNew_spec n h.toRoom (by omega) (by omega) hm) (fun i s' h => ?_) fun _ he => he
  obtain ⟨hroom, rfl, hp, hlen, hbuf⟩ := h
  exact ⟨⟨hroom, by omega, by omega, by rw [hbuf]; omega⟩, by omega, by omega, by omega⟩

theorem parseContainer_spec {items : Nat → Parser Unit} {depth : Nat} {isObj : Bool}
    (h : Fits text s) (hlt : s.pos < text.length) (hm : text.length ≤ maxFrame)
    (hitems : ∀ self s', Fits text s' → s.pos < s'.pos →
      s.doc.nodes.length ≤ s'.doc.nodes.length → self < s'.doc.nodes.length →
      wp False (items self) (fun _ s'' => Took text s self s'') (Within text) s') :
    wp False (parseContainer text mem items depth isObj) (Took text s) (Within text) s := by
  have hn := h.nodes
  have hb := h.bytes
  refine wp_ite _ (fun _ => h.within) fun _ => ?_
  refine wp_seq (nodeNew_spec _ h.toRoom (by omega) (by omega) hm) fun self s₁ h => ?_
  obtain ⟨hroom, rfl, hpos, hlen, hbuf⟩ := h
  rw [wp_bind, wp_seek]
  have h₁ : Fits text { s₁ with pos := s₁.pos + 1 } :=
    ⟨⟨hroom.cap, hroom.capLe, hroom.scap, hroom.scapLe, hroom.within⟩, by simp only; omega,
      by simp only; omega, by simp only [hbuf]; omega⟩
  refine wp_seq (skipWs_spec h₁.pos) fun _ _ h => ?_
  obtain ⟨i, hi, hl, rfl⟩ := h
  simp only at hi
  have h₂ := h₁.moved hi hl
  refine wp_seq (sees_spec _) fun _ _ h => ?_
  obtain ⟨rfl, hsee⟩ := h
  refine wp_ite _ (fun hc => ?_) fun _ => ?_
  · simp only [wp_bind, wp_seek, wp_pure]
    have hlt' := hsee hc
    simp only at hlt'
    exact ⟨h₂.moved (Nat.le_succ _) hlt', by simp only; omega, by simp only; omega,
      by simp only; omega⟩
  · refine wp_seq (hitems _ _ h₂ (by simp only; omega) (by simp only; omega)
      (by simp only; omega)) ?_
    exact fun _ _ ht => ht

end

/-- What is shown of the two parsers at once, by induction on the fuel. -/
structure ValuesFit (text : Bytes) (mem : Nat → Bool) (fuel : Nat) : Prop where
  value : ∀ depth s, Fits text s → 2 * (text.length - s.pos) + 1 ≤ fuel →
    wp False (parseValue text mem fuel depth) (Took text s) (Within text) s
  items : ∀ depth isObj self prev s, Fits text s → self < s.doc.nodes.length →
    (∀ p, prev = some p → p < s.doc.nodes.length) → 2 * (text.length - s.pos) + 2 ≤ fuel →
    wp False (parseItems text mem fuel depth isObj self prev)
      (fun _ s' => Took text s self s') (Within text) s

theorem Took.of_moved {text : Bytes} {s s₁ : State} {v : Nat} {s' : State} (h : Took text s₁ v s')
    (hp : s.pos ≤ s₁.pos) (hn : s.doc.nodes.length ≤ s₁.doc.nodes.length) : Took text s v s' :=
  ⟨h.fits, by have := h.pos; omega, hn.trans h.nodes, h.node⟩

theorem parseValue_spec {text : Bytes} {mem : Nat → Bool} {fuel : Nat}
    (hm : text.length ≤ maxFrame) (ih : ValuesFit text mem fuel) (depth : Nat) (s : State)
    (h : Fits text s) (hf : 2 * (text.length - s.pos) + 1 ≤ fuel + 1) :
    wp False (parseValue text mem (fuel + 1) depth) (Took text s) (Within text) s := by
  rw [parseValue]
  refine wp_seq (skipWs_spec h.pos) fun _ _ h => ?_
  obtain ⟨i, hi, hl, rfl⟩ := h
  have h₁ := h.moved hi hl
  refine wp_mono (Q := Took text { s with pos := i }) ?_ (fun v s' ht => ht.of_moved hi le_rfl)
    fun _ he => he
  rw [wp_bind, wp_atEnd]
  refine wp_ite _ (fun _ => h.within) fun hend => ?_
  have hlt : i < text.length := by simpa using hend
  rw [wp_bind]
  refine wp_here hlt fun c _ => ?_
  have hitems : ∀ isObj self s', Fits text s' → i < s'.pos →
      s.doc.nodes.length ≤ s'.doc.nodes.length → self < s'.doc.nodes.length →
      wp False (parseItems text mem fuel (depth + 1) isObj self none)
        (fun _ s'' => Took text { s with pos := i } self s'') (Within text) s' := by
    intro isObj self s' hs' hlt hn hself
    have hpos := hs'.pos
    refine wp_mono (ih.items (depth + 1) isObj self none s' hs' hself (by simp) (by omega)) ?_
      fun _ he => he
    exact fun _ _ ht => ht.of_moved hlt.le hn
  have hword : ∀ w n, i + w ≤ text.length → 0 < w →
      wp False (do seek w; nodeNew mem n) (Took text { s with pos := i }) (Within text)
        { s with pos := i } := by
    intro w n hle hw
    rw [wp_bind, wp_seek]
    exact leaf_spec (h₁.moved (Nat.le_add_right _ _) hle) (by simp only; omega) rfl h₁.nodes hm
  refine wp_ite _ (fun _ => parseContainer_spec h₁ hlt hm (hitems true)) fun _ => ?_
  refine wp_ite _ (fun _ => parseContainer_spec h₁ hlt hm (hitems false)) fun _ => ?_
  refine wp_ite _ (fun _ => ?_) fun _ => ?_
  · refine wp_seq (parseStringRaw_spec h₁ hm) fun off s₂ h => ?_
    obtain ⟨h₂, hpos, -, hnodes⟩ := h
    exact leaf_spec h₂ (by omega) (by rw [hnodes]) h₁.nodes hm
  refine wp_seq (isWord_spec _ h₁.pos) fun _ _ h => ?_
  obtain ⟨rfl, hw⟩ := h
  refine wp_ite _ (fun hb => hword 4 _ (hw hb) (by omega)) fun _ => ?_
  refine wp_seq (isWord_spec _ h₁.pos) fun _ _ h => ?_
  obtain ⟨rfl, hw⟩ := h
  refine wp_ite _ (fun hb => hword 5 _ (hw hb) (by omega)) fun _ => ?_
  refine wp_seq (isWord_spec _ h₁.pos) fun _ _ h => ?_
  obtain ⟨rfl, hw⟩ := h
  refine wp_ite _ (fun hb => hword 4 _ (hw hb) (by omega)) fun _ => ?_
  refine wp_ite _ (fun _ => ?_) fun _ => h.within
  refine wp_seq (parseNumber_spec hlt h.within) fun v _ h => ?_
  obtain ⟨j, hj, hjl, rfl⟩ := h
  exact leaf_spec (h₁.moved hj.le hjl) hj rfl h₁.nodes hm

theorem parseItems_spec {text : Bytes} {mem : Nat → Bool} {fuel : Nat}
    (hm : text.length ≤ maxFrame) (ih : ValuesFit text mem fuel) (depth : Nat) (isObj : Bool)
    (self : Nat) (prev : Option Nat) (s : State) (h : Fits text s)
    (hself : self < s.doc.nodes.length) (hprev : ∀ p, prev = some p → p < s.doc.nodes.length)
    (hf : 2 * (text.length - s.pos) + 2 ≤ fuel + 1) :
    wp False (parseItems text mem (fuel + 1) depth isObj self prev)
      (fun _ s' => Took text s self s') (Within text) s := by
  rw [parseItems]
  refine wp_seq (parseKey_spec h hm) fun koff s₁ h => ?_
  obtain ⟨h₁, hpos₁, hkoff, hnodes₁⟩ := h
  refine wp_seq (ih.value depth s₁ h₁ (by omega)) fun child s₂ h => ?_
  obtain ⟨h₂, hpos₂, hn₂, hchild⟩ := h
  rw [hnodes₁] at hn₂
  refine wp_seq (setKey_spec h₂ hkoff hchild hm) fun _ s₃ h => ?_
  obtain ⟨h₃, hpos₃, hn₃⟩ := h
  refine wp_seq (linkChild_spec h₃ (by omega) fun p hp => by have := hprev p hp; omega) fun _ s₄ h => ?_
  obtain ⟨h₄, hpos₄, hn₄⟩ := h
  refine wp_seq (skipWs_spec h₄.pos) fun _ _ h => ?_
  obtain ⟨i, hi, hl, rfl⟩ := h
  have h₅ := h₄.moved hi hl
  refine wp_seq (sees_spec _) fun _ _ h => ?_
  obtain ⟨rfl, hcomma⟩ := h
  refine wp_ite _ (fun hc => ?_) fun _ => ?_
  · have hlt : i < text.length := hcomma hc
    rw [wp_bind, wp_seek]
    refine wp_mono (ih.items depth isObj self (some child) _ (h₄.moved (i := i + 1) (by omega) hlt)
      (by simp only; omega) ?_ (by simp only; omega)) ?_ fun _ he => he
    · rintro _ ⟨⟩
      simp only
      omega
    · exact fun _ _ ht => ht.of_moved (by simp only; omega) (by simp only; omega)
  · refine wp_seq (sees_spec _) fun _ _ h => ?_
    obtain ⟨rfl, hclose⟩ := h
    refine wp_ite _ (fun hc => ?_) fun _ => h₄.within
    rw [wp_seek]
    exact ⟨h₄.moved (hi.trans (Nat.le_succ i)) (hclose hc), by simp only; omega, by simp only; omega,
      by simp only; omega⟩

theorem values_fit {text : Bytes} {mem : Nat → Bool} (hm : text.length ≤ maxFrame) :
    ∀ fuel, ValuesFit text mem fuel
  | 0 => ⟨fun _ _ _ hf => by omega, fun _ _ _ _ _ _ _ _ hf => by omega⟩
  | fuel + 1 =>
    have ih := values_fit hm fuel
    ⟨parseValue_spec hm ih, parseItems_spec hm ih⟩

theorem fits_start (text : Bytes) : Fits text {} :=
  ⟨⟨le_refl _, by simp, le_refl _, by simp, by simp [Within]⟩, by simp, le_refl _, le_refl _⟩

/-- No frame makes the parser read outside it, store outside its memory or overflow a counter. -/
theorem ajParse_safe (text : Bytes) (mem : Nat → Bool) (hm : text.length ≤ maxFrame) :
    ∃ s, (ajParse text mem {} = .ok () s ∨ ajParse text mem {} = .fail s) ∧
      ∀ p ∈ s.points, p.1 ≤ text.length ∧ p.2 ≤ text.length := by
  have hrun : wp False (ajParse text mem) (fun _ s => Within text s) (Within text) {} := by
    rw [ajParse]
    refine wp_seq ((values_fit hm _).value 0 {} (fits_start text) (by simp)) fun root s h => ?_
    obtain ⟨h, -, -, -⟩ := h
    refine wp_ite _ (fun _ => h.within) fun _ => wp_seq (skipWs_spec h.pos) fun _ _ h => ?_
    obtain ⟨i, hi, hl, rfl⟩ := h
    rw [wp_bind, wp_pos]
    exact wp_ite _ (fun _ => h.within) fun _ => h.within
  rcases wp_cases hrun with ⟨_, s, heq, hs⟩ | ⟨s, heq, hs⟩
  · exact ⟨s, .inl heq, hs⟩
  · exact ⟨s, .inr heq, hs⟩

theorem ajParse_safe_elem : (lit "[7]").length ≤ maxFrame ∧
    ∃ s, (ajParse (lit "[7]") (fun _ => true) {} = .ok () s ∨
        ajParse (lit "[7]") (fun _ => true) {} = .fail s) ∧
      ∀ p ∈ s.points, p.1 ≤ (lit "[7]").length ∧ p.2 ≤ (lit "[7]").length :=
  ⟨by decide, ajParse_safe (lit "[7]") (fun _ => true) (by decide)⟩

end Json.Raw
