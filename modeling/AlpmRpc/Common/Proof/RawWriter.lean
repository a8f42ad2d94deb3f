import AlpmRpc.Common.RawWriter

/-!
# The writer's stores are reserved

Between any two steps of the writer `Inv past a w` holds: the block is a power of two of bytes and has
`len` in it, what was stored had room, a failed growth has been the last change, and where there was none
the bytes are those that the writer with endless memory (`a`) has; what is `past` stays in the log. `wgrow`
leaves either `err` or the room it was asked for (`wgrow_spec`), a store that has room ends in
`State.stores`, and that keeps `Inv` (`Inv.stores`). Each call then does what the same call does to `a`
(`exec_spec`).
-/

set_option autoImplicit false

namespace Json.RawWriter

open Checked
open OutOfMemory (Plain)

/-- Nothing in the writer fails as a whole. -/
def Never : State → Prop := fun _ => False

structure Inv (past : List Event) (a : Writer) (w : State) : Prop where
  past : ∀ e ∈ past, e ∈ w.log
  size : w.buf.length = w.cap
  pow : w.cap = 0 ∨ ∃ j, 8 ≤ j ∧ j ≤ 63 ∧ w.cap = 2 ^ j
  room : w.cap = 0 ∧ w.len = 0 ∨ w.len < w.cap
  stored : ∀ len k cap, .stored len k cap ∈ w.log → len + k + 1 ≤ cap
  nul : ∀ len k cap, .stored len k cap ∈ w.log → w.buf[w.len]? = some 0
  failed : ∀ len buf, .failed len buf ∈ w.log → w.err = true ∧ w.len = len ∧ w.buf = buf
  noted : w.err = true → ∃ len buf, .failed len buf ∈ w.log
  holds : w.err = false → w.buf.take w.len = a.buf ∧ w.needComma = a.needComma

/-- There is room for `n` bytes and the terminator. -/
structure Ready (n : Nat) (w : State) : Prop where
  err : w.err = false
  room : w.len + n + 1 ≤ w.cap

variable {past : List Event} {a : Writer} {w : State}

/-- After a failure the writer with endless memory says nothing. -/
theorem Inv.of_err (h : Inv past a w) (he : w.err = true) (a' : Writer) : Inv past a' w :=
  ⟨h.past, h.size, h.pow, h.room, h.stored, h.nul, h.failed, h.noted, fun hf => by simp [he] at hf⟩

theorem Inv.setComma (h : Inv past a w) (b : Bool) :
    Inv past { a with needComma := b } { w with needComma := b } :=
  ⟨h.past, h.size, h.pow, h.room, h.stored, h.nul, h.failed, h.noted, fun hf => ⟨(h.holds hf).1, rfl⟩⟩

theorem Inv.cap_le (h : Inv past a w) : w.cap ≤ 2 ^ 63 := by
  rcases h.pow with h0 | ⟨j, -, hj, he⟩
  · omega
  · rw [he]
    exact Nat.pow_le_pow_right (by decide) hj

theorem Inv.start : Inv [] {} {} :=
  ⟨by simp, rfl, .inl rfl, .inl ⟨rfl, rfl⟩, by simp, by simp, by simp, nofun, fun _ => ⟨rfl, rfl⟩⟩

/-! ## Storing -/

section
variable {b s t : Bytes} {i : Nat}

theorem length_overwrite (h : i + s.length ≤ b.length) :
    (overwrite b i s).length = b.length := by
  simp only [overwrite, List.length_append, List.length_take, List.length_drop]
  omega

theorem length_take_append (h : i + s.length ≤ b.length) :
    (b.take i ++ s).length = i + s.length := by
  simp only [List.length_append, List.length_take]
  omega

theorem take_overwrite (h : i + s.length ≤ b.length) :
    (overwrite b i s).take (i + s.length) = b.take i ++ s :=
  List.take_left' (length_take_append h)

theorem drop_overwrite (h : i + s.length ≤ b.length) :
    (overwrite b i s).drop (i + s.length) = b.drop (i + s.length) :=
  List.drop_left' (length_take_append h)

theorem take_overwrite_before (h : i ≤ b.length) : (overwrite b i s).take i = b.take i := by
  rw [overwrite, List.append_assoc]
  exact List.take_left' (by simp [h])

theorem getElem?_overwrite (h : i < b.length) (c : UInt8) :
    (overwrite b i [c])[i]? = some c := by
  have hlen : (b.take i).length = i := by simp [h.le]
  rw [overwrite, List.append_assoc, List.getElem?_append_right hlen.le, hlen]
  simp

/-- Two stores, one behind the other. -/
theorem overwrite_overwrite (h : i + (s ++ t).length ≤ b.length) :
    overwrite (overwrite b i s) (i + s.length) t = overwrite b i (s ++ t) := by
  rw [List.length_append] at h
  rw [overwrite, take_overwrite (by omega), ← List.drop_drop, drop_overwrite (by omega),
    List.drop_drop]
  simp [overwrite, Nat.add_assoc]

end

/-- After `s` and the terminator have been stored. -/
def State.stores (w : State) (s : Bytes) : State :=
  { w with
    buf := overwrite (overwrite w.buf w.len s) (w.len + s.length) [0]
    len := w.len + s.length
    log := w.log ++ [.stored w.len s.length w.cap] }

@[simp]
theorem stores_len (w : State) (s : Bytes) : (w.stores s).len = w.len + s.length := rfl

@[simp]
theorem stores_cap (w : State) (s : Bytes) : (w.stores s).cap = w.cap := rfl

theorem Inv.stores {s : Bytes} (h : Inv past a w) (hr : Ready s.length w) :
    Inv past { a with buf := a.buf ++ s } (w.stores s) := by
  have hroom := hr.room
  have hsize := h.size
  have hlen : (overwrite w.buf w.len s).length = w.buf.length := length_overwrite (by omega)
  refine ⟨fun e he => List.mem_append_left _ (h.past e he), ?_, h.pow, .inr ?_, ?_, ?_, ?_,
    fun he => ?_, fun _ => ⟨?_, (h.holds hr.err).2⟩⟩
  · rw [State.stores, length_overwrite (by simp; omega), hlen, hsize]
  · simp only [stores_len, stores_cap]
    omega
  · intro len k cap hm
    rcases List.mem_append.1 hm with hm | hm
    · exact h.stored len k cap hm
    · obtain ⟨rfl, rfl, rfl⟩ := by simpa using hm
      exact hroom
  · intro _ _ _ _
    exact getElem?_overwrite (by omega) 0
  · intro len buf hm
    rcases List.mem_append.1 hm with hm | hm
    · have he := (h.failed len buf hm).1
      rw [hr.err] at he
      cases he
    · simp at hm
  · exact absurd (hr.err.symm.trans he) (by decide)
  · rw [State.stores, take_overwrite_before (by simp only; omega), take_overwrite (by omega),
      (h.holds hr.err).1]

theorem Ready.stores {s : Bytes} {n : Nat} (h : Ready n w) (hs : s.length ≤ n) :
    Ready (n - s.length) (w.stores s) := by
  have hroom := h.room
  refine ⟨h.err, ?_⟩
  simp only [stores_len, stores_cap]
  omega

theorem Ready.mono {n m : Nat} (h : Ready n w) (hm : m ≤ n) : Ready m w :=
  ⟨h.err, by have := h.room; omega⟩

theorem poke_spec {i : Nat} {s : Bytes} (h : i + s.length ≤ w.buf.length) :
    wp False (poke i s) (fun _ w' => w' = { w with buf := overwrite w.buf i s }) Never w := by
  simp only [poke, wp_bind, wp_get, wp_check, wp_modify]
  exact ⟨h, trivial⟩

theorem wraw_spec {s : Bytes} (h : Inv past a w) (hr : Ready s.length w) :
    wp False (wraw s) (fun _ w' => w' = w.stores s) Never w := by
  have hroom := hr.room
  have hsize := h.size
  have hlen : (overwrite w.buf w.len s).length = w.buf.length := length_overwrite (by omega)
  simp only [wraw, noteStore, wp_bind, wp_get, wp_modify]
  refine wp_mono (poke_spec (by simp only; omega)) (fun _ _ h => ?_) fun _ he => he
  obtain rfl := h
  refine wp_mono (poke_spec (by simp only [hlen, List.length_singleton]; omega)) ?_ fun _ he => he
  rintro _ _ rfl
  rfl

/-! ## Growing -/

/-- The loop ends at a power of two with room for `n`, or at the last one. -/
theorem doubleLoop_spec {n : Nat} : ∀ (fuel j : Nat), 8 ≤ j → j ≤ 63 → 64 ≤ fuel + j →
    wp False (doubleLoop n fuel (2 ^ j))
      (fun r w' => w' = w ∧ ∀ cap, r = some cap →
        n ≤ cap ∧ 2 ^ j ≤ cap ∧ ∃ j', 8 ≤ j' ∧ j' ≤ 63 ∧ cap = 2 ^ j') Never w
  | 0, j, _, hj, hf => by omega
  | fuel + 1, j, h8, hj, hf => by
    rw [doubleLoop]
    refine wp_ite _ (fun hlt => ?_) fun hge => ⟨rfl, ?_⟩
    · have hdbl : 2 ^ j * 2 = 2 ^ (j + 1) := (Nat.pow_succ 2 j).symm
      rw [hdbl]
      refine wp_ite _ (fun _ => ⟨rfl, by simp⟩) fun hno => ?_
      have hj' : j + 1 ≤ 63 := by
        by_contra hgt
        obtain rfl : j = 63 := by omega
        exact hno (by decide)
      have hsize : size (2 ^ (j + 1)) = 2 ^ (j + 1) :=
        Nat.mod_eq_of_lt (Nat.pow_lt_pow_right (by decide) (by omega))
      rw [hsize]
      refine wp_mono (doubleLoop_spec fuel (j + 1) (by omega) hj' (by omega)) (fun r _ h => ?_) fun _ he => he
      obtain ⟨rfl, hr⟩ := h
      refine ⟨rfl, fun cap hcap => ?_⟩
      obtain ⟨hn, hle, hpow⟩ := hr cap hcap
      exact ⟨hn, by omega, hpow⟩
    · rintro cap ⟨⟩
      exact ⟨by omega, le_refl _, j, h8, hj, rfl⟩

theorem Inv.no_failed (h : Inv past a w) (he : w.err = false) {len : Nat} {buf : Bytes} :
    .failed len buf ∉ w.log := by
  intro hm
  have := (h.failed len buf hm).1
  simp [he] at this

theorem giveUp_spec (h : Inv past a w) (he : w.err = false) :
    wp False giveUp (fun b w' => b = false ∧ Inv past a w' ∧ w'.err = true) Never w := by
  simp only [giveUp, wp_bind, wp_modify, wp_pure]
  refine ⟨trivial, ⟨fun e he => List.mem_append_left _ (h.past e he), h.size, h.pow, h.room, ?_, ?_,
    ?_, fun _ => ⟨w.len, w.buf, by simp⟩, by simp⟩, trivial⟩
  · intro len k cap hm
    exact h.stored len k cap (by simpa using hm)
  · intro len k cap hm
    exact h.nul len k cap (by simpa using hm)
  · intro len buf hm
    rcases List.mem_append.1 hm with hm | hm
    · exact (h.no_failed he hm).elim
    · obtain ⟨rfl, rfl⟩ := by simpa using hm
      exact ⟨rfl, rfl, rfl⟩

/-- The block with more bytes behind it. -/
theorem Inv.grown (h : Inv past a w) (he : w.err = false) {j k : Nat} {more : Bytes} (h8 : 8 ≤ j)
    (hj : j ≤ 63) (hlen : w.len < 2 ^ j) (hmore : w.buf.length + more.length = 2 ^ j) :
    Inv past a { w with buf := w.buf ++ more, cap := 2 ^ j, allocs := k } := by
  have hle : w.len ≤ w.buf.length := by
    have := h.size
    rcases h.room with ⟨h0, hl⟩ | hlt <;> omega
  refine ⟨h.past, by simpa using hmore, .inr ⟨j, h8, hj, rfl⟩, .inr hlen, h.stored, ?_, ?_, h.noted,
    fun _ => ?_⟩
  · intro len k cap hm
    have hnul := h.nul len k cap hm
    obtain ⟨hlt, -⟩ := List.getElem?_eq_some_iff.1 hnul
    exact (List.getElem?_append_left hlt).trans hnul
  · exact fun len buf hm => (h.no_failed he hm).elim
  · exact ⟨(List.take_append_of_le_length hle).trans (h.holds he).1, (h.holds he).2⟩

section
variable {mem : Nat → Bool} {junk : Nat → Nat → UInt8} {β : Type}

theorem realloc_spec (cap : Nat) :
    wp False (realloc mem junk cap)
      (fun b w' => ∃ k, b = false ∧ w' = { w with allocs := k } ∨
        b = true ∧ ∃ more : Bytes, more.length = cap - w.buf.length ∧
          w' = { w with buf := w.buf ++ more, allocs := k }) Never w := by
  simp only [realloc, wp_bind, wp_get, wp_modify]
  refine wp_ite _ (fun _ => ?_) fun _ => ⟨_, .inl ⟨rfl, rfl⟩⟩
  simp only [wp_bind, wp_modify, wp_pure]
  exact ⟨_, .inr ⟨trivial, _, by simp, rfl⟩⟩

theorem wgrow_spec {need : Nat} (h : Inv past a w) (hn : need ≤ 2 ^ 62 + 1) :
    wp False (wgrow mem junk need)
      (fun b w' => Inv past a w' ∧ (b = true → Ready need w') ∧ (b = false → w'.err = true)) Never w := by
  have hcap := h.cap_le
  have hlen : w.len ≤ 2 ^ 63 := by rcases h.room with ⟨_, hl⟩ | hlt <;> omega
  have hsize : size (w.len + need + 1) = w.len + need + 1 := Nat.mod_eq_of_lt (by omega)
  simp only [wgrow, wp_bind, wp_get, hsize]
  refine wp_ite _ (fun he => ⟨h, by simp, fun _ => he⟩) fun hne => ?_
  have he : w.err = false := by simpa using hne
  refine wp_ite _ (fun hle => ⟨h, fun _ => ⟨he, hle⟩, by simp⟩) fun hgt => ?_
  obtain ⟨j, h8, hj, hstart, hjlen⟩ : ∃ j, 8 ≤ j ∧ j ≤ 63 ∧
      (if w.cap = 0 then 256 else w.cap) = 2 ^ j ∧ w.buf.length ≤ 2 ^ j := by
    rcases h.pow with h0 | ⟨j, h8, hj, hcj⟩
    · exact ⟨8, le_refl _, by decide, by rw [if_pos h0]; rfl, by rw [h.size, h0]; omega⟩
    · exact ⟨j, h8, hj, by rw [if_neg (by rw [hcj]; exact (Nat.two_pow_pos j).ne'), hcj],
        by rw [h.size, hcj]⟩
  rw [hstart]
  refine wp_seq (doubleLoop_spec 64 j h8 hj (by omega)) ?_
  rintro (_ | cap) w ⟨rfl, hr⟩
  · refine wp_mono (giveUp_spec h he) (fun _ w' h => ?_) fun _ he => he
    obtain ⟨rfl, h', he'⟩ := h
    exact ⟨h', by simp, fun _ => he'⟩
  · obtain ⟨hneed, hle, j', h8', hj', rfl⟩ := hr cap rfl
    refine wp_seq (realloc_spec _) fun _ _ h => ?_
    obtain ⟨k, ⟨rfl, rfl⟩ | ⟨rfl, more, hmore, rfl⟩⟩ := h
    · have h' : Inv past a { w with allocs := k } :=
        ⟨h.past, h.size, h.pow, h.room, h.stored, h.nul, h.failed, h.noted, h.holds⟩
      refine wp_mono (giveUp_spec h' he) (fun _ w' h => ?_) fun _ he => he
      obtain ⟨rfl, h', he'⟩ := h
      exact ⟨h', by simp, fun _ => he'⟩
    · simp only [if_true, wp_bind, wp_modify, wp_pure]
      exact ⟨h.grown he h8' hj' (by omega) (by omega), fun _ => ⟨he, hneed⟩, by simp⟩

/-! ## Calls -/

/-- A store where room has been made: `Inv`, and the room that is left. -/
theorem store_spec {s : Bytes} {n : Nat} (h : Inv past a w) (hr : Ready n w) (hs : s.length ≤ n) :
    wp False (wraw s) (fun _ w' => Inv past { a with buf := a.buf ++ s } w' ∧ Ready (n - s.length) w')
      Never w := by
  refine wp_mono (wraw_spec h (hr.mono hs)) (fun _ _ h => ?_) fun _ he => he
  obtain rfl := h
  exact ⟨h.stores (hr.mono hs), hr.stores hs⟩

/-- A growth, and what is done with the room or without it. -/
theorem wp_room {need : Nat} {m m' : W β} {Q : β → State → Prop} (h : Inv past a w)
    (hn : need ≤ 2 ^ 62 + 1) (hok : ∀ w', Inv past a w' → Ready need w' → wp False m Q Never w')
    (hno : ∀ w', Inv past a w' → w'.err = true → wp False m' Q Never w') :
    wp False (do if ← wgrow mem junk need then m else m') Q Never w := by
  refine wp_seq (wgrow_spec h hn) fun ok w' h => ?_
  obtain ⟨h', hroom, herr⟩ := h
  exact wp_ite _ (fun ht => hok w' h' (hroom ht)) fun hf => hno w' h' (herr (by simpa using hf))

/-- Room for one byte, the byte, and `need_comma`; nothing when there is no room. -/
theorem putc_spec (c : UInt8) (b : Bool) (h : Inv past a w) :
    wp False (do if ← wgrow mem junk 1 then do wputc c; setComma b else return ())
      (fun _ w' => Inv past { buf := a.buf ++ [c], needComma := b } w') Never w := by
  refine wp_room h (by omega) (fun w' h' hr => ?_) fun w' h' he => h'.of_err he _
  refine wp_seq (store_spec h' hr (by simp)) fun _ w₂ h => ?_
  obtain ⟨h₂, -⟩ := h
  exact h₂.setComma b

theorem wput_spec {s : Bytes} (h : Inv past a w) (hs : s.length < 2 ^ 62) :
    wp False (wput mem junk s) (fun _ w' => Inv past (Json.wput a s) w') Never w := by
  refine wp_room h (by omega) (fun w' h' hr => ?_) fun w' h' he => h'.of_err he _
  refine wp_mono (store_spec h' hr (le_refl _)) ?_ fun _ he => he
  exact fun _ _ h => h.1

theorem wgrow_err {need : Nat} {Q : Bool → State → Prop} (he : w.err = true) (h : Q false w) :
    wp False (wgrow mem junk need) Q Never w := by
  simp only [wgrow, wp_bind, wp_get, he, if_true]
  exact h

theorem wsep_spec (h : Inv past a w) :
    wp False (wsep mem junk) (fun _ w' => Inv past (Json.wsep a) w') Never w := by
  simp only [wsep, wp_bind, wp_get]
  by_cases he : w.err = true
  · refine wp_ite _ (fun _ => ?_) fun _ => (h.setComma true).of_err he _
    rw [wp_bind]
    exact wgrow_err he (h.of_err he _)
  · have hc := (h.holds (by simpa using he)).2
    refine wp_ite _ (fun hnc => ?_) fun hnc => ?_
    · have hsep : Json.wsep a = { buf := a.buf ++ [ch ','], needComma := true } := by
        rw [Json.wsep, if_pos (by rw [← hc, hnc])]
      rw [hsep]
      exact putc_spec (ch ',') true h
    · have hsep : Json.wsep a = { a with needComma := true } := by
        rw [Json.wsep, if_neg (by rw [← hc]; exact hnc)]
      rw [hsep]
      exact h.setComma true

theorem wopen_spec (c : UInt8) (h : Inv past a w) :
    wp False (wopen mem junk c) (fun _ w' => Inv past (Json.wopen a c) w') Never w :=
  wp_seq (wsep_spec h) fun _ _ h' => putc_spec c false h'

theorem wclose_spec (c : UInt8) (h : Inv past a w) :
    wp False (wclose mem junk c) (fun _ w' => Inv past (Json.wclose a c) w') Never w :=
  putc_spec c true h

theorem putRun_spec {run : Bytes} (h : Inv past a w) (hs : run.length < 2 ^ 62) :
    wp False (putRun mem junk run)
      (fun b w' => Inv past { a with buf := a.buf ++ run } w' ∧ (b = false → w'.err = true)) Never w := by
  refine wp_ite _ (fun hnil => ⟨by simpa [hnil] using h, by simp⟩) fun _ => ?_
  refine wp_room h (by omega) (fun w' h' hr => ?_) fun w' h' he => ⟨h'.of_err he _, fun _ => he⟩
  refine wp_seq (store_spec h' hr (le_refl _)) fun _ w₂ h => ?_
  obtain ⟨h₂, -⟩ := h
  exact ⟨h₂, by simp⟩

theorem length_escape_le (c : UInt8) : (escape c).length ≤ 6 := by
  unfold escape
  split_ifs <;> simp

theorem wstrLoop_spec : ∀ (s run : Bytes) (a : Writer) (w : State), Inv past a w →
    run.length + s.length < 2 ^ 62 →
      wp False (wstrLoop mem junk run s)
        (fun _ w' => Inv past { a with buf := a.buf ++ run ++ s.flatMap escape ++ [ch '"'] } w') Never w
  | [], run, a, w, h, hs => by
    rw [wstrLoop]
    refine wp_seq (putRun_spec h (by simpa using hs)) fun ok w₁ h => ?_
    obtain ⟨h₁, hno⟩ := h
    refine wp_ite _ (fun ht => ?_) fun hf => h₁.of_err (hno (by simpa using hf)) _
    refine wp_room h₁ (by omega) (fun w₂ h₂ hr => ?_) fun w₂ h₂ he => h₂.of_err he _
    refine wp_mono (store_spec h₂ hr (by simp)) (fun _ w₃ h => ?_) fun _ he => he
    obtain ⟨h₃, -⟩ := h
    simpa using h₃
  | c :: s, run, a, w, h, hs => by
    rw [List.length_cons] at hs
    rw [wstrLoop]
    refine wp_ite _ (fun hc => ?_) fun hc => ?_
    · have hesc : escape c = [c] := if_pos hc
      refine wp_mono (wstrLoop_spec s (run ++ [c]) a w h (by simp; omega)) ?_ fun _ he => he
      rintro _ w' h'
      simpa [hesc] using h'
    · refine wp_seq (putRun_spec h (by omega)) fun ok w₁ h => ?_
      obtain ⟨h₁, hno⟩ := h
      refine wp_ite _ (fun ht => ?_) fun hf => h₁.of_err (hno (by simpa using hf)) _
      refine wp_room h₁ (by omega) (fun w₂ h₂ hr => ?_) fun w₂ h₂ he => h₂.of_err he _
      refine wp_seq (store_spec h₂ hr (length_escape_le c)) fun _ w₃ h => ?_
      obtain ⟨h₃, -⟩ := h
      refine wp_mono (wstrLoop_spec s [] _ w₃ h₃ (by simp; omega)) ?_ fun _ he => he
      rintro _ w' h'
      simpa using h'

theorem wstrEscaped_spec {s : Bytes} (h : Inv past a w) (hs : (cstr s).length < 2 ^ 62) :
    wp False (wstrEscaped mem junk s) (fun _ w' => Inv past (Json.wstrEscaped a s) w') Never w := by
  have hsize : size ((cstr s).length + 2) = (cstr s).length + 2 := Nat.mod_eq_of_lt (by omega)
  rw [wstrEscaped, hsize]
  refine wp_room h (by omega) (fun w₁ h₁ hr => ?_) fun w₁ h₁ he => h₁.of_err he _
  refine wp_seq (store_spec h₁ hr (by simp)) fun _ w₂ h => ?_
  obtain ⟨h₂, -⟩ := h
  refine wp_mono (wstrLoop_spec (cstr s) [] _ w₂ h₂ (by simpa using hs)) ?_ fun _ he => he
  rintro _ w₃ h₃
  simpa [Json.wstrEscaped, Json.wput] using h₃

theorem ajwKey_spec {key : Bytes} (h : Inv past a w) (hs : (cstr key).length < 2 ^ 62) :
    wp False (ajwKey mem junk key) (fun _ w' => Inv past (Json.ajwKey a key) w') Never w := by
  refine wp_seq (wsep_spec h) fun _ w₁ h₁ => ?_
  refine wp_seq (wstrEscaped_spec h₁ hs) fun _ w₂ h₂ => ?_
  exact putc_spec (ch ':') false h₂

theorem ajwNull_spec (h : Inv past a w) :
    wp False (ajwNull mem junk) (fun _ w' => Inv past (Json.ajwNull a) w') Never w :=
  wp_seq (wsep_spec h) fun _ _ h₁ => wput_spec h₁ (by decide)

theorem ajwStr_spec {s : Option Bytes} (h : Inv past a w)
    (hs : ∀ t, s = some t → (cstr t).length < 2 ^ 62) :
    wp False (ajwStr mem junk s) (fun _ w' => Inv past (Json.ajwStr a s) w') Never w := by
  cases s with
  | none => exact ajwNull_spec h
  | some t => exact wp_seq (wsep_spec h) fun _ _ h₁ => wstrEscaped_spec h₁ (hs t rfl)

/-! ## Numbers -/

theorem length_tmpDigits : ∀ (n u : Nat), (tmpDigits n u).length ≤ n
  | 0, _ => le_refl _
  | n + 1, u => by
    have ih := length_tmpDigits n (u / 10)
    rw [tmpDigits, List.length_cons]
    split
    · exact Nat.le_add_left 1 n
    · omega

/-- The digits of a number below `10 ^ d`, all of them. -/
theorem tmpDigits_eq : ∀ (d n u : Nat), 0 < d → u < 10 ^ d → d ≤ n → tmpDigits n u = tmpDigits d u
  | 0, _, _, h, _, _ => by omega
  | d + 1, 0, _, _, _, h => by omega
  | d + 1, n + 1, u, _, hu, hn => by
    rw [tmpDigits, tmpDigits]
    split
    · rfl
    · rename_i hne
      have hd : 0 < d := by
        rcases d with _ | d
        · omega
        · omega
      rw [tmpDigits_eq d n (u / 10) hd (by rw [pow_succ] at hu; omega) (by omega)]

theorem tmpLoop_spec : ∀ (fuel d u : Nat) (tmp : Bytes), 0 < d → u < 10 ^ d → d ≤ fuel →
    tmp.length + d ≤ 24 →
      wp False (tmpLoop fuel u tmp) (fun t w' => w' = w ∧ t = (tmpDigits d u).reverse ++ tmp) Never w
  | 0, d, _, _, hd, _, hf, _ => by omega
  | fuel + 1, 0, _, _, hd, _, _, _ => by omega
  | fuel + 1, d + 1, u, tmp, _, hu, hf, ht => by
    rw [tmpLoop, wp_bind, wp_check]
    refine ⟨by omega, wp_ite _ (fun h0 => ⟨rfl, ?_⟩) fun hne => ?_⟩
    · simp [tmpDigits, h0]
    · have hd : 0 < d := by
        rcases d with _ | d
        · omega
        · omega
      refine wp_mono (tmpLoop_spec fuel d (u / 10) _ hd (by rw [pow_succ] at hu; omega) (by omega)
        (by simp; omega)) (fun t _ h => ?_) fun _ he => he
      obtain ⟨rfl, rfl⟩ := h
      exact ⟨rfl, by simp [tmpDigits, hne]⟩

theorem outLoop_spec : ∀ (s : Bytes) (out : Nat) (w : State), out + s.length ≤ w.buf.length →
    wp False (outLoop out s)
      (fun o w' => o = out + s.length ∧ w' = { w with buf := overwrite w.buf out s }) Never w
  | [], out, w, _ => ⟨rfl, by simp [overwrite]⟩
  | c :: s, out, w, h => by
    rw [List.length_cons] at h
    rw [outLoop]
    refine wp_seq (poke_spec (by simp; omega)) fun _ _ h => ?_
    obtain rfl := h
    refine wp_mono (outLoop_spec s (out + 1) _ ?_) ?_ fun _ he => he
    · simp only
      rw [length_overwrite (by simp; omega)]
      omega
    · rintro o _ ⟨rfl, rfl⟩
      refine ⟨by simp; omega, ?_⟩
      have hone := overwrite_overwrite (b := w.buf) (i := out) (s := [c]) (t := s) (by simp; omega)
      simpa using hone

/-- Twenty digits are enough. -/
theorem i64Text_eq {v : Int} (hv : -2 ^ 63 ≤ v ∧ v < 2 ^ 63) :
    ∃ u, (if v < 0 then (-(v + 1)).toNat + 1 else v.toNat) = u ∧ u < 10 ^ 20 ∧
      i64Text v = if v < 0 then ch '-' :: (tmpDigits 20 u).reverse else (tmpDigits 20 u).reverse := by
  have hu : (if v < 0 then (-(v + 1)).toNat + 1 else v.toNat) < 10 ^ 20 := by split <;> omega
  refine ⟨_, rfl, hu, ?_⟩
  rw [i64Text, tmpDigits_eq 20 24 _ (by decide) hu (by decide)]
  split <;> rfl

theorem putDigits_spec {v : Int} (h : Inv past a w) (hr : Ready 24 w) (hv : -2 ^ 63 ≤ v ∧ v < 2 ^ 63) :
    wp False (putDigits v) (fun _ w' => Inv past { a with buf := a.buf ++ i64Text v } w') Never w := by
  obtain ⟨u, hu, hlt, htext⟩ := i64Text_eq hv
  have hlen : (i64Text v).length ≤ 24 := by
    have hdig := length_tmpDigits 20 u
    rw [htext]
    split
    · simp only [List.length_cons, List.length_reverse]
      omega
    · simp only [List.length_reverse]
      omega
  have hroom := hr.room
  have hsize := h.size
  have hover : (overwrite w.buf w.len (i64Text v)).length = w.buf.length :=
    length_overwrite (by omega)
  rw [putDigits, hu]
  refine wp_seq (tmpLoop_spec 64 20 u [] (by decide) hlt (by decide) (by decide)) fun tmp _ h => ?_
  obtain ⟨rfl, rfl⟩ := h
  rw [List.append_nil, ← htext]
  simp only [noteStore, wp_bind, wp_get, wp_modify]
  refine wp_mono (outLoop_spec (i64Text v) _ _ (by simp only; omega)) (fun out _ h => ?_) fun _ he => he
  obtain ⟨rfl, rfl⟩ := h
  refine wp_mono (poke_spec (by simp only [hover, List.length_singleton]; omega)) ?_ fun _ he => he
  rintro _ _ rfl
  exact h.stores (hr.mono hlen)

theorem ajwI64_spec {v : Int} (h : Inv past a w) (hv : -2 ^ 63 ≤ v ∧ v < 2 ^ 63) :
    wp False (ajwI64 mem junk v) (fun _ w' => Inv past (Json.ajwI64 a v) w') Never w := by
  refine wp_seq (wsep_spec h) fun _ w₁ h₁ => ?_
  refine wp_room h₁ (by omega) (fun w₂ h₂ hr => ?_) fun w₂ h₂ he => h₂.of_err he _
  exact putDigits_spec h₂ hr hv

/-! ## Runs -/

theorem exec_spec {c : Call} (h : Inv past a w) (hc : c.Fits) :
    wp False (exec mem junk c) (fun _ w' => Inv past (c.write a) w') Never w := by
  cases c with
  | reserve bytes =>
    refine wp_seq (wgrow_spec h (Nat.le_succ_of_le (Nat.le_of_lt hc))) ?_
    exact fun _ _ h' => h'.1
  | raw s =>
    refine wp_seq (wput_spec h hc) ?_
    exact fun _ _ h' => h'.setComma true
  | objBegin => exact wopen_spec (ch '{') h
  | objEnd => exact wclose_spec (ch '}') h
  | arrBegin => exact wopen_spec (ch '[') h
  | arrEnd => exact wclose_spec (ch ']') h
  | key s => exact ajwKey_spec h hc
  | str s =>
    cases s with
    | none => exact ajwNull_spec h
    | some s => exact ajwStr_spec h fun t ht => Option.some.inj ht ▸ hc
  | i64 v => exact ajwI64_spec h hc
  | null => exact ajwNull_spec h

variable (mem junk) in
theorem run_spec : ∀ (cs : List Call) (a : Writer) (w : State), Inv past a w →
    (∀ c ∈ cs, c.Fits) →
      wp False (run mem junk cs) (fun _ w' => Inv past (cs.foldl Call.write a) w') Never w
  | [], _, _, h, _ => h
  | c :: cs, a, w, h, hcs => by
    rw [run]
    refine wp_seq (exec_spec h (hcs c List.mem_cons_self)) fun _ w' h' => ?_
    exact run_spec cs _ w' h' fun c hc => hcs c (List.mem_cons_of_mem _ hc)

variable (mem junk) in
theorem run_ok {cs : List Call} (h : Inv past a w) (hcs : ∀ c ∈ cs, c.Fits) :
    ∃ w', run mem junk cs w = .ok () w' ∧ Inv past (cs.foldl Call.write a) w' := by
  rcases wp_cases (run_spec mem junk cs a w h hcs) with
    ⟨_, w', heq, h'⟩ | ⟨_, _, hno⟩
  · exact ⟨w', heq, h'⟩
  · exact hno.elim

/-- Every call ends, with a store only where there is room for it, and after a growth has failed
nothing changes any more. -/
theorem run_reserved (mem : Nat → Bool) (junk : Nat → Nat → UInt8) (cs cs' : List Call)
    (hcs : ∀ c ∈ cs ++ cs', c.Fits) :
    ∃ w w', run mem junk cs {} = .ok () w ∧ run mem junk cs' w = .ok () w' ∧
      (∀ len k cap, .stored len k cap ∈ w.log → len + k + 1 ≤ cap) ∧
      (w.cap = 0 ∧ w.buf = [] ∨ w.len < w.cap) ∧
      (∀ len k cap, .stored len k cap ∈ w.log → w.buf[w.len]? = some 0) ∧
      (∀ len buf, .failed len buf ∈ w.log → w.err = true ∧ w.len = len ∧ w.buf = buf) ∧
      (w.err = true → w'.err = true ∧ w'.len = w.len ∧ w'.buf = w.buf) := by
  obtain ⟨w, hrun, h⟩ := run_ok mem junk Inv.start fun c hc =>
    hcs c (List.mem_append_left _ hc)
  have hw : Inv w.log (cs.foldl Call.write {}) w := { h with past := fun _ he => he }
  obtain ⟨w', hrun', h'⟩ := run_ok mem junk hw fun c hc =>
    hcs c (List.mem_append_right _ hc)
  refine ⟨w, w', hrun, hrun', h.stored, ?_, h.nul, h.failed, fun he => ?_⟩
  · rcases h.room with ⟨h0, -⟩ | hlt
    · exact .inl ⟨h0, List.length_eq_zero_iff.1 (h.size.trans h0)⟩
    · exact .inr hlt
  · obtain ⟨len, buf, hm⟩ := h.noted he
    obtain ⟨-, rfl, rfl⟩ := h.failed len buf hm
    exact h'.failed _ _ (h'.past _ hm)

theorem run_reserved_pair : (∀ c ∈ [Call.arrBegin] ++ [.i64 (-7), .arrEnd], c.Fits) ∧
    ∃ w w', run (· = 0) (fun _ _ => 7) [.arrBegin] {} = .ok () w ∧
      run (· = 0) (fun _ _ => 7) [.i64 (-7), .arrEnd] w = .ok () w' ∧
      (∀ len k cap, .stored len k cap ∈ w.log → len + k + 1 ≤ cap) ∧
      (w.cap = 0 ∧ w.buf = [] ∨ w.len < w.cap) ∧
      (∀ len k cap, .stored len k cap ∈ w.log → w.buf[w.len]? = some 0) ∧
      (∀ len buf, .failed len buf ∈ w.log → w.err = true ∧ w.len = len ∧ w.buf = buf) ∧
      (w.err = true → w'.err = true ∧ w'.len = w.len ∧ w'.buf = w.buf) := by
  have hcs : ∀ c ∈ [Call.arrBegin] ++ [.i64 (-7), .arrEnd], c.Fits := by simp [Call.Fits]
  exact ⟨hcs, run_reserved (· = 0) (fun _ _ => 7) _ _ hcs⟩

/-- A writer without an error has written what one with endless memory would have. -/
theorem run_writes (mem : Nat → Bool) (junk : Nat → Nat → UInt8) {cs : List Call}
    (hcs : ∀ c ∈ cs, c.Fits) :
    ∃ w, run mem junk cs {} = .ok () w ∧
      (w.err = false → w.buf.take w.len = (cs.foldl Call.write {}).buf) := by
  obtain ⟨w, hrun, h⟩ := run_ok mem junk Inv.start hcs
  exact ⟨w, hrun, fun he => (h.holds he).1⟩

end

end Json.RawWriter
