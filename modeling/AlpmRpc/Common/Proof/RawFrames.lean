import AlpmRpc.Common.Emit
import AlpmRpc.Common.Proof.Framing
import AlpmRpc.Common.Proof.RawStarve
import AlpmRpc.Common.Proof.RawWriter

/-!
# Frames through both memories

A frame on its whole way: the calls of a plan on the writer of one side, the stream, and the parser of
the other, where either side's allocator may refuse anything and the stream moves as little as it likes.
`frames_cross`: a frame that was written arrives as the tree that was meant; one that was not, or that is
not read, ran into a refused allocation. A writer's error comes from nowhere else (`Blamed`).
-/

set_option autoImplicit false

namespace Json.RawWriter

open Checked
open OutOfMemory (Plain)

/-! ## Where an error comes from -/

/-- A `realloc` was refused before `w`. -/
def Refused (mem : Nat → Bool) (w : State) : Prop := ∃ k < w.allocs, mem k = false

/-- The block is a power of two of bytes, and an error is a `realloc`'s, or that of a text of `2^61`
bytes. -/
structure Blamed (mem : Nat → Bool) (w : State) : Prop where
  pow : w.cap = 0 ∨ ∃ j, 8 ≤ j ∧ j ≤ 63 ∧ w.cap = 2 ^ j
  err : w.err = true → Refused mem w ∨ 2 ^ 61 ≤ w.len

variable {mem : Nat → Bool}

theorem Refused.mono {w : State} (h : Refused mem w) {n : Nat} (hn : w.allocs ≤ n) (w' : State)
    (hw : w'.allocs = n) : Refused mem w' := by
  obtain ⟨k, hk, hmem⟩ := h
  exact ⟨k, by omega, hmem⟩

/-- Stores and notes leave the block, the error and the count of allocations. -/
theorem Blamed.moved {w w' : State} (h : Blamed mem w) (hcap : w'.cap = w.cap) (herr : w'.err = w.err)
    (hallocs : w'.allocs = w.allocs) (hlen : w.len ≤ w'.len) : Blamed mem w' := by
  refine ⟨by rw [hcap]; exact h.pow, fun he => ?_⟩
  obtain hr | hl := h.err (herr ▸ he)
  · exact .inl (hr.mono hallocs.ge w' rfl)
  · exact .inr (hl.trans hlen)

theorem doubleLoop_blames (n : Nat) : ∀ (fuel j : Nat) (w : State), 8 ≤ j → j ≤ 63 →
    wp True (doubleLoop n fuel (2 ^ j))
      (fun r w' => w' = w ∧ (r = none → 2 ^ 63 < n) ∧
        ∀ cap, r = some cap → ∃ j', 8 ≤ j' ∧ j' ≤ 63 ∧ cap = 2 ^ j') (fun _ => True) w
  | 0, _, _, _, _ => trivial
  | fuel + 1, j, w, h8, hj => by
    rw [doubleLoop]
    refine wp_ite _ (fun hlt => ?_) fun _ => ⟨rfl, by simp, fun cap hc => ⟨j, h8, hj, by simpa using hc.symm⟩⟩
    have hdouble : 2 ^ j * 2 = 2 ^ (j + 1) := (Nat.pow_succ ..).symm
    obtain rfl | hj' := Nat.eq_or_lt_of_le hj
    · exact wp_ite _ (fun _ => ⟨rfl, fun _ => hlt, by simp⟩) fun hs => absurd (by decide) hs
    · have hsize : size (2 ^ j * 2) = 2 ^ (j + 1) := by
        rw [hdouble]
        exact Nat.mod_eq_of_lt (Nat.pow_lt_pow_right (by decide) (by omega))
      rw [hsize]
      refine wp_ite _ (fun hs => ?_) fun _ => doubleLoop_blames n fuel (j + 1) w (by omega) hj'
      rw [← hdouble] at hs
      omega

section
variable (mem) (junk : Nat → Nat → UInt8)

theorem realloc_blames (cap : Nat) (w : State) :
    wp True (realloc mem junk cap)
      (fun b w' => w'.cap = w.cap ∧ w'.err = w.err ∧ w'.len = w.len ∧ w.allocs ≤ w'.allocs ∧
        (b = false → Refused mem w')) (fun _ => True) w := by
  simp only [realloc, wp_bind, wp_get, wp_modify]
  refine wp_ite _ (fun _ => ?_) fun hno => ?_
  · simp
  · exact ⟨rfl, rfl, rfl, by simp, fun _ => ⟨w.allocs, by simp, by simpa using hno⟩⟩

theorem wgrow_keeps {need : Nat} (hn : need ≤ 2 ^ 62 + 1) : Keeps (Blamed mem) (wgrow mem junk need) := by
  intro w h
  have hstart : ∃ j, 8 ≤ j ∧ j ≤ 63 ∧ (if w.cap = 0 then 256 else w.cap) = 2 ^ j := by
    obtain h0 | ⟨j, h8, hj, hcap⟩ := h.pow
    · exact ⟨8, le_refl _, by decide, by rw [if_pos h0]; rfl⟩
    · exact ⟨j, h8, hj, by rw [if_neg (by rw [hcap]; exact (Nat.two_pow_pos j).ne'), hcap]⟩
  obtain ⟨j, h8, hj, hcap⟩ := hstart
  have hgive : ∀ w' : State, Blamed mem w' → Refused mem w' ∨ 2 ^ 61 ≤ w'.len →
      wp True giveUp (fun _ => Blamed mem) (fun _ => True) w' := fun w' h' he => ⟨h'.pow, fun _ => he⟩
  simp only [wgrow, wp_bind, wp_get, hcap]
  refine wp_ite _ (fun _ => h) fun _ => wp_ite _ (fun _ => h) fun _ => ?_
  refine wp_seq (doubleLoop_blames _ 64 j w h8 hj) fun r w' hr => ?_
  obtain ⟨rfl, hnone, hsome⟩ := hr
  cases r with
  | none =>
    refine hgive w' h (.inr ?_)
    have hlt := (hnone rfl).trans_le (Nat.mod_le _ _)
    omega
  | some cap =>
    refine wp_seq (realloc_blames mem junk cap w') fun b w₁ h₁ => ?_
    obtain ⟨hcap₁, herr₁, hlen₁, hallocs₁, hno⟩ := h₁
    have hb : Blamed mem w₁ := by
      refine ⟨by rw [hcap₁]; exact h.pow, fun he => ?_⟩
      obtain hr | hl := h.err (herr₁ ▸ he)
      · exact .inl (hr.mono hallocs₁ w₁ rfl)
      · exact .inr (hlen₁ ▸ hl)
    refine wp_ite _ (fun _ => ?_) fun hf => hgive w₁ hb (.inl (hno (by simpa using hf)))
    exact ⟨.inr (hsome cap rfl), hb.err⟩

theorem poke_keeps (i : Nat) (s : Bytes) : Keeps (Blamed mem) (poke i s) :=
  .bind .get fun _ => .bind (.check _) fun _ => .modify fun _ h => h.moved rfl rfl rfl (le_refl _)

theorem wraw_keeps (s : Bytes) : Keeps (Blamed mem) (wraw s) := by
  refine .bind (.modify fun _ h => h.moved rfl rfl rfl (le_refl _)) fun _ => .bind .get fun _ => ?_
  refine .bind (poke_keeps mem _ s) fun _ => .bind (.modify fun _ h => ?_) fun _ => ?_
  · exact h.moved rfl rfl rfl (Nat.le_add_right _ _)
  · exact .bind .get fun _ => poke_keeps mem _ _

theorem setComma_keeps (b : Bool) : Keeps (Blamed mem) (setComma b) :=
  .modify fun _ h => h.moved rfl rfl rfl (le_refl _)

/-- A growth, and a store where there is room. -/
theorem room_keeps {need : Nat} (hn : need ≤ 2 ^ 62 + 1) {β : Type} {m m' : W β}
    (h : Keeps (Blamed mem) m) (h' : Keeps (Blamed mem) m') :
    Keeps (Blamed mem) (do if ← wgrow mem junk need then m else m') :=
  .bind (wgrow_keeps mem junk hn) fun _ => .ite _ h h'

theorem putc_keeps (c : UInt8) (b : Bool) :
    Keeps (Blamed mem) (do if ← wgrow mem junk 1 then do wputc c; setComma b else return ()) :=
  room_keeps mem junk (by omega) (.bind (wraw_keeps mem [c]) fun _ => setComma_keeps mem b) (.pure ())

theorem wput_keeps {s : Bytes} (hs : s.length < 2 ^ 62) : Keeps (Blamed mem) (wput mem junk s) :=
  room_keeps mem junk (by omega) (wraw_keeps mem s) (.pure ())

theorem wsep_keeps : Keeps (Blamed mem) (wsep mem junk) :=
  .bind .get fun _ => .ite _ (putc_keeps mem junk (ch ',') true) (setComma_keeps mem true)

theorem wopen_keeps (c : UInt8) : Keeps (Blamed mem) (wopen mem junk c) :=
  .bind (wsep_keeps mem junk) fun _ => putc_keeps mem junk c false

theorem putRun_keeps {run : Bytes} (hs : run.length < 2 ^ 62) :
    Keeps (Blamed mem) (putRun mem junk run) :=
  .ite _ (.pure true)
    (room_keeps mem junk (by omega) (.bind (wraw_keeps mem run) fun _ => .pure true) (.pure false))

theorem wstrLoop_keeps : ∀ (s run : Bytes), run.length + s.length < 2 ^ 62 →
    Keeps (Blamed mem) (wstrLoop mem junk run s)
  | [], run, h => by
    rw [wstrLoop]
    refine .bind (putRun_keeps mem junk (by simpa using h)) fun _ => .ite _ ?_ (.pure ())
    exact room_keeps mem junk (by omega) (wraw_keeps mem _) (.pure ())
  | c :: s, run, h => by
    rw [List.length_cons] at h
    rw [wstrLoop]
    refine .ite _ (wstrLoop_keeps s (run ++ [c]) (by simp; omega)) ?_
    refine .bind (putRun_keeps mem junk (by omega)) fun _ => .ite _ ?_ (.pure ())
    refine room_keeps mem junk (by omega) (.bind (wraw_keeps mem _) fun _ => ?_) (.pure ())
    exact wstrLoop_keeps s [] (by simp; omega)

theorem wstrEscaped_keeps {s : Bytes} (hs : (cstr s).length < 2 ^ 62) :
    Keeps (Blamed mem) (wstrEscaped mem junk s) := by
  have hsize : size ((cstr s).length + 2) = (cstr s).length + 2 := Nat.mod_eq_of_lt (by omega)
  rw [wstrEscaped, hsize]
  refine room_keeps mem junk (by omega) (.bind (wraw_keeps mem _) fun _ => ?_) (.pure ())
  exact wstrLoop_keeps mem junk (cstr s) [] (by simpa using hs)

theorem tmpLoop_keeps : ∀ (fuel u : Nat) (t : Bytes), Keeps (Blamed mem) (tmpLoop fuel u t)
  | 0, _, _ => fun _ _ => trivial
  | fuel + 1, u, _ => .bind (.check _) fun _ => .ite _ (.pure _) (tmpLoop_keeps fuel (u / 10) _)

theorem outLoop_blames : ∀ (s : Bytes) (out : Nat) (w : State), Blamed mem w →
    wp True (outLoop out s) (fun o w' => out ≤ o ∧ w'.len = w.len ∧ Blamed mem w') (fun _ => True) w
  | [], _, _, h => ⟨le_refl _, rfl, h⟩
  | c :: s, out, w, h => by
    rw [outLoop]
    simp only [poke, wp_bind, wp_get, wp_check_assumed, wp_modify]
    intro _
    refine wp_mono (outLoop_blames s (out + 1) _ (h.moved rfl rfl rfl (le_refl _))) ?_ fun _ he => he
    intro o w' ho
    exact ⟨by omega, ho.2⟩

theorem putDigits_keeps (v : Int) : Keeps (Blamed mem) (putDigits v) := by
  refine .bind (tmpLoop_keeps mem 64 _ _) fun tmp => .bind ?_ fun _ => ?_
  · exact .modify fun _ h => h.moved rfl rfl rfl (le_refl _)
  · intro w h
    simp only [wp_bind, wp_get]
    refine wp_mono (outLoop_blames mem _ w.len w h) (fun out w' ho => ?_) fun _ he => he
    obtain ⟨hle, hlen, h'⟩ := ho
    exact poke_keeps mem out _ _ (h'.moved rfl rfl rfl (hlen ▸ hle))

theorem exec_keeps {c : Call} (hc : c.Fits) : Keeps (Blamed mem) (exec mem junk c) := by
  cases c with
  | reserve bytes => exact .bind (wgrow_keeps mem junk (Nat.le_succ_of_le (Nat.le_of_lt hc))) fun _ => .pure ()
  | raw s => exact .bind (wput_keeps mem junk hc) fun _ => setComma_keeps mem true
  | objBegin => exact wopen_keeps mem junk _
  | objEnd => exact putc_keeps mem junk _ _
  | arrBegin => exact wopen_keeps mem junk _
  | arrEnd => exact putc_keeps mem junk _ _
  | key s =>
    refine .bind (wsep_keeps mem junk) fun _ => .bind (wstrEscaped_keeps mem junk hc) fun _ => ?_
    exact putc_keeps mem junk _ _
  | str s =>
    cases s with
    | none => exact .bind (wsep_keeps mem junk) fun _ => wput_keeps mem junk (by decide)
    | some s => exact .bind (wsep_keeps mem junk) fun _ => wstrEscaped_keeps mem junk hc
  | i64 v =>
    refine .bind (wsep_keeps mem junk) fun _ => ?_
    exact room_keeps mem junk (by omega) (putDigits_keeps mem v) (.pure ())
  | null => exact .bind (wsep_keeps mem junk) fun _ => wput_keeps mem junk (by decide)

theorem run_keeps : ∀ cs : List Call, (∀ c ∈ cs, c.Fits) → Keeps (Blamed mem) (run mem junk cs)
  | [], _ => .pure ()
  | c :: cs, hcs => .bind (exec_keeps mem junk (hcs c List.mem_cons_self)) fun _ =>
      run_keeps cs fun c' hc' => hcs c' (List.mem_cons_of_mem _ hc')

end

end Json.RawWriter

namespace Json

open Checked
open RawWriter (Call)
open Wire (maxFrame)

/-! ## The calls of a plan -/

namespace Plan

mutual
/-- The calls that write a plan; what is spliced in has been written before. -/
def calls : Plan → List Call
  | .null => [.null]
  | .num v => [.i64 v]
  | .str s => [.str (some s)]
  | .arr es => .arrBegin :: (elemCalls es ++ [.arrEnd])
  | .obj ms => .objBegin :: (memberCalls ms ++ [.objEnd])
  | .raw p => [.raw (p.emit {}).buf]

def elemCalls : List Plan → List Call
  | [] => []
  | p :: ps => p.calls ++ elemCalls ps

def memberCalls : List (Bytes × Plan) → List Call
  | [] => []
  | (k, p) :: ms => .key k :: (p.calls ++ memberCalls ms)
end

mutual
theorem calls_write : ∀ (p : Plan) (w : Writer), p.calls.foldl Call.write w = p.emit w
  | .null, _ => rfl
  | .num _, _ => rfl
  | .str _, _ => rfl
  | .arr es, w => by
    rw [calls, List.foldl_cons, List.foldl_append, elemCalls_write es]
    rfl
  | .obj ms, w => by
    rw [calls, List.foldl_cons, List.foldl_append, memberCalls_write ms]
    rfl
  | .raw _, _ => rfl

theorem elemCalls_write : ∀ (ps : List Plan) (w : Writer),
    (elemCalls ps).foldl Call.write w = emitElems w ps
  | [], _ => rfl
  | p :: ps, w => by
    rw [elemCalls, List.foldl_append, calls_write p w, elemCalls_write ps]
    rfl

theorem memberCalls_write : ∀ (ms : List (Bytes × Plan)) (w : Writer),
    (memberCalls ms).foldl Call.write w = emitMembers w ms
  | [], _ => rfl
  | (k, p) :: ms, w => by
    rw [memberCalls, List.foldl_cons, List.foldl_append, calls_write p, memberCalls_write ms]
    rfl
end

theorem length_le_quoted (s : Bytes) : (cstr s).length ≤ (quoted s).length := by
  have hone : ∀ c, 1 ≤ (escape c).length := by
    intro c
    unfold escape
    split_ifs <;> simp
  have hle : ∀ t : Bytes, t.length ≤ (t.flatMap escape).length := by
    intro t
    induction t with
    | nil => simp
    | cons c t ih =>
      have := hone c
      rw [List.flatMap_cons, List.length_append, List.length_cons]
      omega
  have := hle (cstr s)
  rw [quoted, List.length_append, List.length_cons]
  omega

theorem elemsText_le (b : Bool) {v : Tree} {vs : List Tree} (h : v ∈ vs) :
    (text v).length ≤ (elemsText b vs).length := by
  induction vs generalizing b with
  | nil => simp at h
  | cons v' vs ih =>
    simp only [elemsText, List.length_append]
    obtain rfl | h := List.mem_cons.1 h
    · omega
    · have := ih true h
      omega

theorem membersText_le (b : Bool) {m : Bytes × Tree} {ms : List (Bytes × Tree)} (h : m ∈ ms) :
    (text m.2).length ≤ (membersText b ms).length ∧ (quoted m.1).length ≤ (membersText b ms).length := by
  induction ms generalizing b with
  | nil => simp at h
  | cons m' ms ih =>
    obtain ⟨k, v⟩ := m'
    simp only [membersText, List.length_append, List.length_cons]
    obtain rfl | h := List.mem_cons.1 h
    · constructor <;> simp only <;> omega
    · have := ih true h
      omega

theorem mem_elemCalls {c : Call} {ps : List Plan} (h : c ∈ elemCalls ps) : ∃ p ∈ ps, c ∈ p.calls := by
  induction ps with
  | nil => simp [elemCalls] at h
  | cons p ps ih =>
    obtain h | h := List.mem_append.1 h
    · exact ⟨p, List.mem_cons_self, h⟩
    · obtain ⟨q, hq, hc⟩ := ih h
      exact ⟨q, List.mem_cons_of_mem _ hq, hc⟩

theorem mem_memberCalls {c : Call} {ms : List (Bytes × Plan)} (h : c ∈ memberCalls ms) :
    ∃ m ∈ ms, c = .key m.1 ∨ c ∈ m.2.calls := by
  induction ms with
  | nil => simp [memberCalls] at h
  | cons m ms ih =>
    obtain ⟨k, p⟩ := m
    rw [memberCalls, List.mem_cons, List.mem_append] at h
    obtain rfl | h | h := h
    · exact ⟨(k, p), List.mem_cons_self, .inl rfl⟩
    · exact ⟨(k, p), List.mem_cons_self, .inr h⟩
    · obtain ⟨q, hq, hc⟩ := ih h
      exact ⟨q, List.mem_cons_of_mem _ hq, hc⟩

theorem mem_elemTrees {p : Plan} {ps : List Plan} (h : p ∈ ps) : p.tree ∈ elemTrees ps := by
  induction ps with
  | nil => simp at h
  | cons q ps ih =>
    obtain rfl | h := List.mem_cons.1 h
    · exact List.mem_cons_self
    · exact List.mem_cons_of_mem _ (ih h)

theorem mem_memberTrees {m : Bytes × Plan} {ms : List (Bytes × Plan)} (h : m ∈ ms) :
    (m.1, m.2.tree) ∈ memberTrees ms := by
  induction ms with
  | nil => simp at h
  | cons q ms ih =>
    obtain rfl | h := List.mem_cons.1 h
    · exact List.mem_cons_self
    · exact List.mem_cons_of_mem _ (ih h)

/-- A text that fits has calls that fit. -/
theorem calls_fit {r : Bool} {p : Plan} (h : Placed r p) {d : Nat} (hf : Fits d p.tree)
    (hlen : (text p.tree).length < 2 ^ 62) : ∀ c ∈ p.calls, c.Fits := by
  induction h generalizing d with
  | null => simp [calls, Call.Fits]
  | num =>
    cases hf with
    | num hv => simpa [calls, Call.Fits, I64] using hv
  | @str _ s =>
    have := length_le_quoted s
    rw [tree, text] at hlen
    simp only [calls, List.mem_singleton, forall_eq, Call.Fits]
    omega
  | empty => simp [calls, elemCalls, Call.Fits]
  | @arr _ p ps _ _ ih ihs =>
    obtain ⟨d, hes⟩ : ∃ d, ∀ v ∈ elemTrees (p :: ps), Fits d v := by
      cases hf with
      | arr hes => exact ⟨_, hes⟩
    rw [tree, text, List.length_append, List.length_cons] at hlen
    intro c hc
    simp only [calls, List.mem_cons, List.mem_append, List.not_mem_nil, or_false] at hc
    obtain rfl | hc | rfl := hc
    · trivial
    · obtain ⟨q, hq, hcq⟩ := mem_elemCalls hc
      have hmem := mem_elemTrees hq
      have hle := elemsText_le false hmem
      obtain rfl | hq := List.mem_cons.1 hq
      · exact ih (hes _ hmem) (by omega) c hcq
      · exact ihs q hq (hes _ hmem) (by omega) c hcq
    · trivial
  | @obj _ ms _ ih =>
    obtain ⟨d, hms⟩ : ∃ d, ∀ m ∈ memberTrees ms, Fits d m.2 := by
      cases hf with
      | obj _ hms => exact ⟨_, hms⟩
    rw [tree, text, List.length_append, List.length_cons] at hlen
    intro c hc
    simp only [calls, List.mem_cons, List.mem_append, List.not_mem_nil, or_false] at hc
    obtain rfl | hc | rfl := hc
    · trivial
    · obtain ⟨m, hm, hc⟩ := mem_memberCalls hc
      have hmem := mem_memberTrees hm
      obtain ⟨hle, hkey⟩ := membersText_le false hmem
      obtain rfl | hc := hc
      · have := length_le_quoted m.1
        simp only [Call.Fits]
        simp only at hkey
        omega
      · exact ih m hm (hms _ hmem) (by simp only at hle; omega) c hc
    · trivial
  | @raw p hp _ =>
    rw [tree] at hlen
    simpa [calls, Call.Fits, emit_buf hp] using hlen

end Plan

/-! ## The whole way -/

/-- A plan and the allocators that its writer and its reader meet. -/
structure Crossing where
  plan : Plan
  writing : Nat → Bool
  junk : Nat → Nat → UInt8
  reading : Nat → Bool

namespace Crossing

/-- The plan is one of the program's, and its text is no longer than a frame. -/
structure Sane (x : Crossing) : Prop where
  placed : x.plan.Placed true
  fits : Fits maxDepth x.plan.tree
  size : (text x.plan.tree).length ≤ maxFrame

/-- The writer when the plan has been written. -/
def writer (x : Crossing) : RawWriter.State :=
  match RawWriter.run x.writing x.junk x.plan.calls {} with
  | .ok _ w => w
  | _ => { err := true }

/-- What is sent: nothing after an error. -/
def payload (x : Crossing) : Option Bytes :=
  if x.writer.err then none else some (x.writer.buf.take x.writer.len)

/-- What `aj_parse` makes of a frame received. -/
def parsed (x : Crossing) (r : Option Bytes × Nat) : Res Raw.State Unit :=
  match r.1 with
  | some b => Raw.ajParse (b.take r.2) x.reading {}
  | none => .fault

theorem text_ne_nil (v : Tree) (h : Fits maxDepth v) : 1 ≤ (text v).length := by
  obtain ⟨c, r, hc, -⟩ := (derives_text h).head
  rw [hc]
  simp

theorem writer_spec {x : Crossing} (h : x.Sane) :
    (x.writer.err = true → RawWriter.Refused x.writing x.writer ∨ 2 ^ 61 ≤ x.writer.len) ∧
      ∀ b, x.payload = some b → b = text x.plan.tree := by
  have hsize := h.size
  have hcs : ∀ c ∈ x.plan.calls, c.Fits :=
    Plan.calls_fit h.placed h.fits (by simp only [maxFrame] at hsize; omega)
  obtain ⟨w, hrun, hw⟩ := RawWriter.run_writes x.writing x.junk hcs
  have hblamed := RawWriter.run_keeps x.writing x.junk x.plan.calls hcs {} ⟨.inl rfl, by simp⟩
  have hwriter : x.writer = w := by rw [writer, hrun]
  rw [wp, hrun] at hblamed
  rw [payload, hwriter]
  refine ⟨hblamed.err, fun b hb => ?_⟩
  split at hb
  · cases hb
  · rename_i herr
    rw [← Option.some.inj hb, hw (by simpa using herr), Plan.calls_write, Plan.emit_buf h.placed]

theorem sendable {x : Crossing} (h : x.Sane) : Wire.Sendable (text x.plan.tree) :=
  ⟨text_ne_nil _ h.fits, h.size⟩

/-- The reader has the tree, or ran out of memory. -/
def Arrived (x : Crossing) (r : Option Bytes × Nat) : Prop :=
  (∃ s, x.parsed r = .ok () s ∧ Forest s.doc x.plan.tree) ∨
    ∃ s, x.parsed r = .fail s ∧ Raw.Refused x.reading s

theorem arrived_text {x : Crossing} (h : x.Sane) : x.Arrived (Wire.received (text x.plan.tree)) := by
  have hparsed : x.parsed (Wire.received (text x.plan.tree)) =
      Raw.ajParse (text x.plan.tree) x.reading {} := by
    simp only [parsed, Wire.received]
    rw [List.take_left' rfl]
  have htext : docParse (text x.plan.tree) = some (docOf x.plan.tree) := docParse_text h.fits
  rw [Arrived, hparsed]
  obtain ⟨s, hok, hdoc⟩ | ⟨s, hfail, hdoc | hs⟩ := Raw.parse_starving x.reading h.size
  · rw [htext] at hdoc
    exact .inl ⟨s, hok, Option.some.inj hdoc ▸ forest_docOf _⟩
  · rw [htext] at hdoc
    cases hdoc
  · exact .inr ⟨s, hfail, hs⟩

end Crossing

/-- **Any number of frames, over any stream, with any memory on both sides**: what is written arrives
as the tree that was meant or is not read for want of memory, and what is not written was refused
memory too. -/
theorem frames_cross {out inn : Nat → Nat} (ho : ∀ k, 0 < out k) (hi : ∀ k, 0 < inn k)
    {xs : List Crossing} (hxs : ∀ x ∈ xs, x.Sane) (m n : Nat) (rest : Bytes) :
    let w := Wire.sendFrames out { bytes := [], ios := m } (xs.filterMap (·.payload))
    let r := Wire.recvFrames inn (xs.filterMap (·.payload)).length
      { bytes := w.2.bytes ++ rest, ios := n }
    w.1 = true ∧ List.Forall₂ Crossing.Arrived (xs.filter (·.payload.isSome)) r.1 ∧
      r.2.bytes = rest ∧
      ∀ x ∈ xs, x.payload = none → RawWriter.Refused x.writing x.writer ∨ 2 ^ 61 ≤ x.writer.len := by
  intro w r
  have hpay : ∀ x ∈ xs, ∀ b, x.payload = some b → b = text x.plan.tree :=
    fun x hx => (Crossing.writer_spec (hxs x hx)).2
  have hbs : ∀ b ∈ xs.filterMap (·.payload), Wire.Sendable b := by
    intro b hb
    obtain ⟨x, hx, hb⟩ := List.mem_filterMap.1 hb
    rw [hpay x hx b hb]
    exact Crossing.sendable (hxs x hx)
  obtain ⟨hsent, hbytes⟩ := Wire.sendFrames_eq ho hbs { bytes := [], ios := m }
  obtain ⟨hgot, hrest⟩ := Wire.recvFrames_eq hi hbs (s := { bytes := w.2.bytes ++ rest, ios := n })
    (by rw [hbytes]; rfl)
  refine ⟨hsent, ?_, hrest, fun x hx hnone => (Crossing.writer_spec (hxs x hx)).1 ?_⟩
  · rw [hgot]
    clear hbs hsent hbytes hgot hrest w r
    induction xs with
    | nil => exact .nil
    | cons x xs ih =>
      have hx := hxs x List.mem_cons_self
      have ih := ih (fun y hy => hxs y (List.mem_cons_of_mem _ hy))
        fun y hy => hpay y (List.mem_cons_of_mem _ hy)
      cases hb : x.payload with
      | none => simpa [List.filterMap_cons, List.filter_cons, hb] using ih
      | some b =>
        have hbt := hpay x List.mem_cons_self b hb
        simp only [List.filterMap_cons, List.filter_cons, hb, Option.isSome_some, if_true, List.map_cons]
        exact .cons (hbt ▸ Crossing.arrived_text hx) ih
  · by_contra herr
    rw [Crossing.payload, if_neg herr] at hnone
    cases hnone

/-- The spliced plan, with memory for all of it on one side and for one allocation on the other. -/
def splicedCrossing : Crossing := ⟨splicedPlan, fun _ => true, fun _ _ => 7, fun k => k = 0⟩

theorem splicedCrossing_sane : ∀ x ∈ [splicedCrossing, splicedCrossing], x.Sane := by
  intro x hx
  obtain rfl : x = splicedCrossing := by simpa using hx
  exact ⟨splicedPlan_placed, splicedPlan_fits, by decide⟩

theorem frames_cross_spliced :
    List.Forall₂ Crossing.Arrived
      ([splicedCrossing, splicedCrossing].filter (·.payload.isSome))
      (Wire.recvFrames (fun _ => 1) ([splicedCrossing, splicedCrossing].filterMap (·.payload)).length
        { bytes := (Wire.sendFrames (fun _ => 3) { bytes := [], ios := 0 }
            ([splicedCrossing, splicedCrossing].filterMap (·.payload))).2.bytes ++ [7], ios := 0 }).1 :=
  (@frames_cross (fun _ => 3) (fun _ => 1) (fun _ => Nat.succ_pos 2) (fun _ => Nat.one_pos)
    [splicedCrossing, splicedCrossing] splicedCrossing_sane 0 0 [7]).2.1

end Json
