import AlpmRpc.Lib.Simulation
import AlpmRpc.Session.Proof.Nest
import AlpmRpc.Session.Transit

/-!
# Calls in step, byte by byte

A line stands for a configuration of `Session/Nest.lean`: a step of it moves some bytes, or is a move
there (`line_refines`). One that stands for a reachable configuration is never stuck before the program
has returned (`carries_progress`), and every run ends, so every run ends where the program returned what
plain calls do (`bytes_in_step`).
-/

set_option autoImplicit false

namespace Session

open Json Server

variable {σ τ : Type} {env : Env σ τ}

/-- A frame is the C string that it is received as. -/
theorem cstr_frame (v : Tree) : cstr (frame v) = frame v :=
  cstr_eq (ajwTree_nulFree (w := {}) (fun _ hb => absurd hb List.not_mem_nil) v)

/-! ## One frame on the line -/

theorem header_injective {m n : Nat} (hm : m < 2 ^ 32) (hn : n < 2 ^ 32)
    (h : Wire.header m = Wire.header n) : m = n := by
  rw [← Wire.announced_header hm, h, Wire.announced_header hn]

theorem buffers_ne (f : Bytes) : ∀ b ∈ buffers f, b ≠ [] := by
  intro b hb
  simpa using (List.mem_filter.1 hb).2

/-- The buffers of a frame are its bytes. -/
theorem buffers_flatten {f : Bytes} (h : Wire.Sendable f) : (buffers f).flatten = Wire.frame f := by
  rw [buffers, List.flatten_filter_ne_nil, Nat.mod_eq_of_lt h.lt, List.take_length]
  simp [Wire.frame]

theorem flatten_ne {bs : List Bytes} (hbs : ∀ b ∈ bs, b ≠ []) (h : bs.flatten = []) : bs = [] := by
  cases bs with
  | nil => rfl
  | cons b bs => exact absurd (List.append_eq_nil_iff.1 h).1 (hbs b List.mem_cons_self)

theorem Reading.got_nil {r : Reading} (h : r.got = []) : r = .header [] := by
  cases r with
  | header got => rw [show got = [] from h]
  | payload len got => exact absurd (List.append_eq_nil_iff.1 h).1 (by rw [Wire.header]; simp)

theorem Reading.wants_pos {r : Reading} (h : r.Wf) : 0 < r.wants := by
  cases r with
  | header got => exact Nat.sub_pos_of_lt h
  | payload len got => exact Nat.sub_pos_of_lt h.1

/-- **What a read makes of the front of the line**: more of the first frame, or the frame. -/
theorem Reading.take_front {r : Reading} (hr : r.Wf) (bs : Bytes) {rest : Bytes} (h0 : bs ≠ [])
    (hw : bs.length ≤ r.wants) {fs : List Bytes} (hfs : ∀ f ∈ fs, Wire.Sendable f)
    (h : r.got ++ bs ++ rest = fs.flatMap Wire.frame) :
    (∃ r', r.take bs = .more r' ∧ r'.Wf ∧ r'.got = r.got ++ bs) ∨
      ∃ f fs', fs = f :: fs' ∧ r.take bs = .frame f ∧ rest = fs'.flatMap Wire.frame := by
  cases fs with
  | nil =>
    simp only [List.flatMap_nil, List.append_eq_nil_iff] at h
    exact absurd h.1.2 h0
  | cons f fs =>
    have hf := hfs f List.mem_cons_self
    have hfront : r.got ++ bs ++ rest = Wire.header f.length ++ (f ++ fs.flatMap Wire.frame) := by
      rw [h, List.flatMap_cons, Wire.frame, List.append_assoc]
    cases r with
    | header got =>
      have hwl : bs.length ≤ 4 - got.length := hw
      have hgl : got.length < 4 := hr
      by_cases h4 : (got ++ bs).length < 4
      · refine .inl ⟨.header (got ++ bs), ?_, h4, rfl⟩
        rw [Reading.take, if_pos h4]
      · have hlen : (got ++ bs).length = (Wire.header f.length).length := by
          rw [Wire.header_length]
          simp only [List.length_append] at h4 ⊢
          omega
        obtain ⟨hhdr, -⟩ := List.append_inj (show got ++ bs ++ rest = _ from hfront) hlen
        have hann : Wire.announced (got ++ bs) = f.length := by rw [hhdr, Wire.announced_header hf.lt]
        refine .inl ⟨.payload f.length [], ?_, ⟨hf.1, hf.2⟩, ?_⟩
        · rw [Reading.take, if_neg h4]
          simp only [hann, if_neg hf.length_fits]
        · rw [Reading.got, Reading.got, hhdr, List.append_nil]
    | payload len got =>
      obtain ⟨hgl, hmax⟩ := hr
      have hwl : bs.length ≤ len - got.length := hw
      rw [Reading.got, List.append_assoc, List.append_assoc, ← List.append_assoc got] at hfront
      obtain ⟨hhdr, hpay⟩ := List.append_inj hfront rfl
      have hlt : len < 2 ^ 32 := Nat.lt_of_le_of_lt hmax (by decide)
      have hlen := header_injective hlt hf.lt hhdr
      subst hlen
      by_cases hmore : (got ++ bs).length < f.length
      · refine .inl ⟨.payload f.length (got ++ bs), ?_, ⟨hmore, hmax⟩, ?_⟩
        · rw [Reading.take, if_pos hmore]
        · simp only [Reading.got, List.append_assoc]
      · have heq : (got ++ bs).length = f.length := by
          simp only [List.length_append] at hmore ⊢
          omega
        obtain ⟨hf', hrest⟩ := List.append_inj hpay heq
        refine .inr ⟨f, fs, rfl, ?_, hrest⟩
        rw [Reading.take, if_neg hmore, hf']

/-- What is read of a frame is not all of it. -/
theorem Reading.got_short {r : Reading} (hr : r.Wf) {rest f : Bytes} (hf : Wire.Sendable f)
    (h : r.got ++ rest = Wire.frame f) : rest ≠ [] := by
  rintro rfl
  rw [List.append_nil] at h
  cases r with
  | header got =>
    have hlen := congrArg List.length (show got = _ from h)
    rw [Wire.frame_length] at hlen
    have hgl : got.length < 4 := hr
    omega
  | payload len got =>
    obtain ⟨hhdr, hpay⟩ := List.append_inj (show Wire.header len ++ got = _ from h) rfl
    have hlt : len < 2 ^ 32 := Nat.lt_of_le_of_lt hr.2 (by decide)
    have hlen := header_injective hlt hf.lt hhdr
    have hgl := hr.1
    rw [hpay, hlen] at hgl
    exact Nat.lt_irrefl _ hgl

/-! ## What the loops do with what is in flight -/

section
variable {c c' : Config σ τ} {w : Party}

theorem only_nil (c : Config σ τ) (w w' : Party) : c.only w [] = c.only w' [] := by
  cases w <;> cases w' <;> rfl

theorem serverStep_ne {cs : List (CFrame τ)} {ss : List (SFrame σ)} {cl : Caller τ} {fs : List Bytes}
    {wd : World σ τ} {n m : Nat} {l : List Ev} (h : Ready cs ss) :
    partyStep env .server ⟨cl, .recv ss, [], fs, wd, n, m, l⟩ ≠ some c' := by
  rw [partyStep, serverStep_waits h fs]
  simp

/-- A side that runs without a frame does so when there is none. -/
theorem Form.runs (h : Form c) (hstep : partyStep env w (c.only w []) = some c') :
    c.only w [] = c ∧ ∀ w', c.flight w' = [] := by
  cases w with
  | client =>
    cases h with
    | client h => exact ⟨rfl, fun w' => by cases w' <;> rfl⟩
    | request h => cases hstep
    | server h => cases hstep
    | callback h => cases hstep
    | answer h => cases hstep
    | reply h => cases hstep
    | done => cases hstep
  | server =>
    cases h with
    | client h => exact absurd hstep (serverStep_ne h)
    | request h => exact absurd hstep (serverStep_ne h)
    | server h => exact ⟨rfl, fun w' => by cases w' <;> rfl⟩
    | callback h => cases hstep
    | answer h => cases hstep
    | reply h => exact absurd hstep (serverStep_ne h)
    | done => cases hstep

/-- What a side that moves does. -/
inductive Goes (env : Env σ τ) : Party → Config σ τ → Config σ τ → Prop
  | call {cs : List (CFrame τ)} {ss : List (SFrame σ)} {wd : World σ τ} {n m : Nat} {l : List Ev}
      (f : τ → τ × Req) (k : Reply → ClientProg τ) (h : Ready cs ss) :
      Goes env .client ⟨.run (.call f k) cs, .recv ss, [], [], wd, n, m, l⟩
        ⟨.recv (.wait (toI64 n) (f wd.cl).2 k :: cs), .recv ss,
          [frame (requestFrame (toI64 n) (f wd.cl).2.method (f wd.cl).2.params)], [],
          { wd with cl := (f wd.cl).1 }, n + 1, m, l⟩
  | finish {wd : World σ τ} {n m : Nat} {l : List Ev} (f : τ → τ × Value) :
      Goes env .client ⟨.run (.ret f) [], .recv [], [], [], wd, n, m, l⟩
        ⟨.done (f wd.cl).2, .recv [], [], [], { wd with cl := (f wd.cl).1 }, n, m, l⟩
  | answer {cs : List (CFrame τ)} {ss : List (SFrame σ)} {wd : World σ τ} {n m : Nat} {l : List Ev}
      (f : τ → τ × Value) (id seq : Nat) (rq : Req) (k : Reply → ClientProg τ) :
      Goes env .client ⟨.run (.ret f) (.cb (toI64 seq) :: .wait (toI64 id) rq k :: cs), .recv ss, [],
          [], wd, n, m, l⟩
        ⟨.recv (.wait (toI64 id) rq k :: cs), .recv ss,
          [frame (answerFrame (toI64 seq) (f wd.cl).2.1)], [], { wd with cl := (f wd.cl).1 }, n, m, l⟩
  | takeRequest {cs : List (CFrame τ)} {ss : List (SFrame σ)} {wd : World σ τ} {n m : Nat}
      {l : List Ev} (id : Nat) (rq : Req) (k : Reply → ClientProg τ) :
      Goes env .server ⟨.recv (.wait (toI64 id) rq k :: cs), .recv ss,
          [frame (requestFrame (toI64 id) rq.method rq.params)], [], wd, n, m, l⟩
        ⟨.recv (.wait (toI64 id) rq k :: cs),
          .run (env.handler rq.method (some (.arr rq.params))) (.req (toI64 id) :: ss), [], [], wd, n,
          m, l⟩
  | raise {cl : Caller τ} {ss : List (SFrame σ)} {wd : World σ τ} {n m : Nat} {l : List Ev}
      (f : σ → σ × Cb) (dflt : Int) (k : Int → ServerProg σ) (id : Nat) :
      Goes env .server ⟨cl, .run (.raise f dflt k) (.req (toI64 id) :: ss), [], [], wd, n, m, l⟩
        ⟨cl, .recv (.wait (toI64 m) (f wd.srv).2 dflt k :: .req (toI64 id) :: ss), [],
          [frame (callbackFrame (toI64 m) (f wd.srv).2)], { wd with srv := (f wd.srv).1 }, n, m + 1, l⟩
  | reply {cl : Caller τ} {ss : List (SFrame σ)} {wd : World σ τ} {n m : Nat} {l : List Ev}
      (f : σ → σ × Answer) (id : Nat) :
      Goes env .server ⟨cl, .run (.ret f) (.req (toI64 id) :: ss), [], [], wd, n, m, l⟩
        ⟨cl, .recv ss, [], [frame (replyFrame (toI64 id) (f wd.srv).2.1)],
          { wd with srv := (f wd.srv).1 }, n, m, l⟩
  | takeCallback {cs : List (CFrame τ)} {ss : List (SFrame σ)} {wd : World σ τ} {n m : Nat}
      {l : List Ev} (id seq : Nat) (rq : Req) (k : Reply → ClientProg τ) (cb : Cb) (dflt : Int)
      (k' : Int → ServerProg σ) :
      Goes env .client ⟨.recv (.wait (toI64 id) rq k :: cs), .recv (.wait (toI64 seq) cb dflt k' :: ss),
          [], [frame (callbackFrame (toI64 seq) cb)], wd, n, m, l⟩
        ⟨.run (env.dispatch wd.cl cb.kind cb.handle (some cb.args))
          (.cb (toI64 seq) :: .wait (toI64 id) rq k :: cs), .recv (.wait (toI64 seq) cb dflt k' :: ss),
          [], [], wd, n, m, l⟩
  | takeAnswer {cl : Caller τ} {ss : List (SFrame σ)} {wd : World σ τ} {n m : Nat} {l : List Ev}
      (id seq : Nat) (cb : Cb) (dflt : Int) (k : Int → ServerProg σ) (v : Value) :
      Goes env .server ⟨cl, .recv (.wait (toI64 seq) cb dflt k :: .req (toI64 id) :: ss),
          [frame (answerFrame (toI64 seq) v.1)], [], wd, n, m, l⟩
        ⟨cl, .run (k v.1) (.req (toI64 id) :: ss), [], [], wd, n, m, l ++ [.answered cb v.1]⟩
  | takeReply {cs : List (CFrame τ)} {s : Srv σ} {wd : World σ τ} {n m : Nat} {l : List Ev} (id : Nat)
      (rq : Req) (k : Reply → ClientProg τ) (a : Answer) :
      Goes env .client ⟨.recv (.wait (toI64 id) rq k :: cs), s, [],
          [frame (replyFrame (toI64 id) a.1)], wd, n, m, l⟩
        ⟨.run (k (Res.reply a.1)) cs, s, [], [], wd, n, m, l ++ [.invoked rq (Res.reply a.1)]⟩

theorem Form.goes (h : Form c) (hs : c.Sendable) (hstep : partyStep env w c = some c') :
    Goes env w c c' := by
  cases w with
  | client =>
    cases h with
    | @client p cs ss wd n m l h =>
      cases p with
      | call f k =>
        cases hstep
        exact .call f k h
      | ret f =>
        cases h with
        | base =>
          cases hstep
          exact .finish f
        | cb id seq rq k cb dflt k' h =>
          cases hstep
          exact .answer f id seq rq k
    | request h => cases hstep
    | server h => cases hstep
    | callback h =>
      cases (clientStep_callback _ (hs.toClient _ List.mem_cons_self)).symm.trans hstep
      exact .takeCallback _ _ _ _ _ _ _
    | answer h => cases hstep
    | reply h =>
      cases (clientStep_reply _ (hs.toClient _ List.mem_cons_self)).symm.trans hstep
      exact .takeReply _ _ _ _
    | done => cases hstep
  | server =>
    cases h with
    | client h => exact absurd hstep (serverStep_ne h)
    | request h =>
      cases (serverStep_request h _ (hs.toServer _ List.mem_cons_self)).symm.trans hstep
      exact .takeRequest _ _ _
    | @server q cs ss wd n m l id rq k h =>
      cases q with
      | raise f dflt k' =>
        cases hstep
        exact .raise f dflt k' id
      | ret f =>
        cases hstep
        exact .reply f id
    | callback h => cases hstep
    | answer h =>
      cases (serverStep_answer _).symm.trans hstep
      exact .takeAnswer _ _ _ _ _ _
    | reply h => exact absurd hstep (serverStep_ne h)
    | done => cases hstep

/-- A side that moves has taken what was in flight to it. -/
theorem Goes.taken (h : Goes env w c c') : c'.flight w = [] := by
  cases h <;> rfl

/-- What a frame in flight is: the only one, for a side that waits for it and goes on with it. -/
structure Alone (env : Env σ τ) (c : Config σ τ) (w : Party) (f : Bytes) : Prop where
  none_back : c.flight w.other = []
  only : c.only w [f] = c
  waits : c.waits w = true
  moves : ∃ c', partyStep env w c = some c'
  text : cstr f = f

theorem Config.Sendable.flight (h : c.Sendable) (w : Party) : ∀ f ∈ c.flight w, Wire.Sendable f := by
  cases w with
  | client => exact h.toClient
  | server => exact h.toServer

theorem Form.alone (env : Env σ τ) (h : Form c) (hs : c.Sendable) {f : Bytes} {fs : List Bytes}
    (hf : c.flight w = f :: fs) : fs = [] ∧ Alone env c w f := by
  cases w with
  | client =>
    cases h with
    | client h => cases hf
    | request h => cases hf
    | server h => cases hf
    | callback h =>
      cases hf
      have hf := hs.toClient _ List.mem_cons_self
      exact ⟨rfl, rfl, rfl, rfl, ⟨_, clientStep_callback _ hf⟩, cstr_frame _⟩
    | answer h => cases hf
    | reply h =>
      cases hf
      have hf := hs.toClient _ List.mem_cons_self
      exact ⟨rfl, rfl, rfl, rfl, ⟨_, clientStep_reply _ hf⟩, cstr_frame _⟩
    | done => cases hf
  | server =>
    cases h with
    | client h => cases hf
    | request h =>
      cases hf
      have hf := hs.toServer _ List.mem_cons_self
      exact ⟨rfl, rfl, rfl, rfl, ⟨_, serverStep_request h _ hf⟩, cstr_frame _⟩
    | server h => cases hf
    | callback h => cases hf
    | answer h =>
      cases hf
      exact ⟨rfl, rfl, rfl, rfl, ⟨_, serverStep_answer _⟩, cstr_frame _⟩
    | reply h => cases hf
    | done => cases hf

theorem move_of_party (hstep : partyStep env w c = some c') : Move env c c' := by
  cases w with
  | client => exact .inl hstep
  | server => exact .inr hstep

theorem party_of_move (h : Move env c c') : ∃ w, partyStep env w c = some c' :=
  h.elim (fun h => ⟨.client, h⟩) fun h => ⟨.server, h⟩

end

/-! ## Each step of the line -/

@[simp]
theorem Party.other_other (w : Party) : w.other.other = w := by cases w <;> rfl

@[simp]
theorem Party.other_ne (w : Party) : w.other ≠ w := by cases w <;> decide

theorem Party.forall_iff {P : Party → Prop} (w : Party) : (∀ w', P w') ↔ P w ∧ P w.other := by
  refine ⟨fun h => ⟨h w, h w.other⟩, fun h w' => ?_⟩
  cases w <;> cases w' <;> first | exact h.1 | exact h.2

/-- Nothing is on the line. -/
structure Line.Quiet (l : Line σ τ) : Prop where
  inn : ∀ w, (l.port w).inn = .header []
  out : ∀ w, (l.port w).out = []
  pipe : ∀ w, l.pipe w = []
  kept : l.lost = false

/-- The bytes that are still to be moved; one that is still to be written counts twice. -/
def Line.size (l : Line σ τ) : Nat :=
  2 * ((l.port .client).out.flatten.length + (l.port .server).out.flatten.length) +
    ((l.pipe .client).length + (l.pipe .server).length)

theorem Line.size_eq (l : Line σ τ) (w : Party) :
    l.size = 2 * ((l.port w).out.flatten.length + (l.port w.other).out.flatten.length) +
      ((l.pipe w).length + (l.pipe w.other).length) := by
  cases w
  · rfl
  · simp only [Line.size, Party.other]
    omega

section
variable {l l' : Line σ τ} {c c' : Config σ τ} {w : Party} {cap : Nat}

namespace Line.Carries

/-- Where no frame is in flight the line is quiet. -/
theorem quiet (h : l.Carries c) (hc : ∀ w, c.flight w = []) : l.Quiet := by
  have hnil : ∀ w, (l.port w).inn.got = [] ∧ l.pipe w = [] ∧ (l.port w.other).out.flatten = [] := by
    intro w
    have hb := h.bytes w
    rw [hc w, List.flatMap_nil, List.append_eq_nil_iff, List.append_eq_nil_iff] at hb
    exact ⟨hb.1.1, hb.1.2, hb.2⟩
  refine ⟨fun w => Reading.got_nil (hnil w).1, fun w => ?_, fun w => (hnil w).2.1, h.kept⟩
  have hout := (hnil w.other).2.2
  rw [Party.other_other] at hout
  exact flatten_ne (h.writing w) hout

/-- A side that has nothing in flight to the other has nothing to write. -/
theorem out_nil (h : l.Carries c) (hc : c.flight w.other = []) : (l.port w).out = [] := by
  have hb := h.bytes w.other
  rw [hc, List.flatMap_nil, List.append_eq_nil_iff, Party.other_other] at hb
  exact flatten_ne (h.writing w) hb.2

end Line.Carries

/-- What a side sends on a quiet line is on its way. -/
theorem carries_goOn (h : l.Quiet) (hw : c.flight w = [])
    (hs : ∀ f ∈ c.flight w.other, Wire.Sendable f) : (l.goOn w c).Carries c where
  sides w' := only_nil c w w'
  bytes := by
    have hflat : ((c.flight w.other).flatMap buffers).flatten =
        (c.flight w.other).flatMap Wire.frame := by
      generalize c.flight w.other = fs at hs
      induction fs with
      | nil => rfl
      | cons f fs ih =>
        obtain ⟨hf, hfs⟩ := List.forall_mem_cons.1 hs
        rw [List.flatMap_cons, List.flatten_append, buffers_flatten hf, ih hfs, List.flatMap_cons]
    refine (Party.forall_iff w).2 ⟨?_, ?_⟩
    · simp [Line.goOn, h.inn, h.out, h.pipe, hw, Reading.got]
    · simp [Line.goOn, h.inn, h.pipe, hflat, Reading.got]
  reading := by
    refine (Party.forall_iff w).2 ⟨?_, ?_⟩
    · simp [Line.goOn, h.inn, Reading.Wf]
    · simp [Line.goOn, h.inn, Reading.Wf]
  writing := by
    refine (Party.forall_iff w).2 ⟨?_, ?_⟩
    · intro b hb
      simp only [Line.goOn, Function.update_self] at hb
      obtain ⟨f, -, hb⟩ := List.mem_flatMap.1 hb
      exact buffers_ne f b hb
    · simp [Line.goOn, h.out]
  kept := h.kept

/-- A side that runs up to its next frame. -/
theorem carries_runs (h : l.Carries c) (hf : Form c) (hc : c.Sendable)
    (hs : ∀ c', Move env c c' → c'.Sendable)
    (hstep : lineStep env cap l (.runs w) = some l') : ∃ c', Move env c c' ∧ l'.Carries c' := by
  rw [lineStep] at hstep
  split at hstep
  · cases hstep
  · obtain ⟨c', hc', rfl⟩ := Option.map_eq_some_iff.1 hstep
    rw [h.sides w] at hc'
    obtain ⟨heq, hnil⟩ := hf.runs hc'
    rw [heq] at hc'
    have hm := move_of_party hc'
    exact ⟨c', hm, carries_goOn (h.quiet hnil) (hf.goes hc hc').taken ((hs c' hm).flight _)⟩

theorem Port.write_eq {p p' : Port} {k : Nat} {bs : Bytes} (h : p.write k = some (bs, p')) :
    0 < k ∧ bs.length = k ∧ p'.inn = p.inn ∧ p.out.flatten = bs ++ p'.out.flatten ∧
      ((∀ b ∈ p.out, b ≠ []) → ∀ b ∈ p'.out, b ≠ []) := by
  obtain ⟨out, inn⟩ := p
  cases out with
  | nil => cases h
  | cons b rest =>
    rw [Port.write] at h
    dsimp only at h
    split at h
    · rename_i hk
      cases h
      refine ⟨hk.1, by simp [hk.2], rfl, ?_, fun hne => ?_⟩
      · split
        · rename_i hall
          simp [hall]
        · simp [List.flatten_cons, ← List.append_assoc]
      · split
        · exact fun b hb => hne b (List.mem_cons_of_mem _ hb)
        · rename_i hall
          refine List.forall_mem_cons.2 ⟨?_, fun b hb => hne b (List.mem_cons_of_mem _ hb)⟩
          rw [Ne, List.drop_eq_nil_iff]
          omega
    · cases h

/-- A `WriteFile` moves bytes into the pipe. -/
theorem carries_writes {k : Nat} (h : l.Carries c)
    (hstep : lineStep env cap l (.writes w k) = some l') : l'.Carries c ∧ l'.size < l.size := by
  rw [lineStep] at hstep
  split at hstep
  · cases hstep
  · rename_i bs p hw
    obtain ⟨hk, hlen, hinn, hout, hne⟩ := Port.write_eq hw
    split at hstep
    · cases hstep
    · cases hstep
      refine ⟨⟨h.sides, (Party.forall_iff w).2 ⟨?_, ?_⟩, (Party.forall_iff w).2 ⟨?_, ?_⟩,
        (Party.forall_iff w).2 ⟨?_, ?_⟩, h.kept⟩, ?_⟩
      · simpa [hinn, (Party.other_ne w).symm] using h.bytes w
      · have hb := h.bytes w.other
        rw [Party.other_other, hout] at hb
        simpa using hb
      · simpa [hinn] using h.reading w
      · simpa using h.reading w.other
      · simpa using hne (h.writing w)
      · simpa using h.writing w.other
      · rw [Line.size_eq _ w, Line.size_eq l w, hout]
        simp [(Party.other_ne w).symm]
        omega

theorem only_only (c : Config σ τ) (w w' : Party) (fs gs : List Bytes) :
    (c.only w' gs).only w fs = c.only w fs := by
  cases w <;> cases w' <;> rfl

/-- The line after a side has read `k` bytes. -/
theorem reads_eq {k : Nat} (hstep : lineStep env cap l (.reads w k) = some l') :
    0 < k ∧ k ≤ (l.port w).inn.wants ∧ k ≤ (l.pipe w).length ∧
      Line.arrive env { l with pipe := Function.update l.pipe w ((l.pipe w).drop k) } w
        ((l.pipe w).take k) = some l' := by
  rw [lineStep] at hstep
  split at hstep
  · rename_i hk
    exact ⟨hk.2.2.2.1, hk.2.2.2.2.1, hk.2.2.2.2.2, hstep⟩
  · cases hstep

/-- A `ReadFile` moves bytes out of the pipe, and the last ones of a frame are a move. -/
theorem carries_reads {k : Nat} (h : l.Carries c) (hf : Form c) (hc : c.Sendable)
    (hs : ∀ c', Move env c c' → c'.Sendable)
    (hstep : lineStep env cap l (.reads w k) = some l') :
    (l'.Carries c ∧ l'.size < l.size) ∨ ∃ c', Move env c c' ∧ l'.Carries c' := by
  obtain ⟨hk, hwants, hlen, harr⟩ := reads_eq hstep
  have hbs : ((l.pipe w).take k).length = k := by simp [hlen]
  have hne : (l.pipe w).take k ≠ [] := by
    intro hnil
    rw [hnil] at hbs
    exact Nat.ne_of_lt hk hbs
  have hfront : (l.port w).inn.got ++ (l.pipe w).take k ++
      ((l.pipe w).drop k ++ (l.port w.other).out.flatten) = (c.flight w).flatMap Wire.frame := by
    rw [← h.bytes w, ← List.append_assoc, List.append_assoc _ ((l.pipe w).take k),
      List.take_append_drop]
  obtain ⟨r, htake, hwf, hgot⟩ | ⟨f, fs, hfs, htake, hrest⟩ :=
    Reading.take_front (h.reading w) _ hne (by rw [hbs]; exact hwants) (hc.flight w) hfront
  · rw [Line.arrive, htake] at harr
    cases harr
    refine .inl ⟨⟨h.sides, (Party.forall_iff w).2 ⟨?_, ?_⟩, (Party.forall_iff w).2 ⟨?_, ?_⟩,
      (Party.forall_iff w).2 ⟨?_, ?_⟩, h.kept⟩, ?_⟩
    · simpa [hgot] using h.bytes w
    · simpa using h.bytes w.other
    · simpa using hwf
    · simpa using h.reading w.other
    · simpa using h.writing w
    · simpa using h.writing w.other
    · rw [Line.size_eq _ w, Line.size_eq l w]
      simp
      omega
  · obtain ⟨rfl, hal⟩ := hf.alone env hc hfs
    rw [Line.arrive, htake] at harr
    obtain ⟨c', hc', rfl⟩ := Option.map_eq_some_iff.1 harr
    rw [hal.text, h.sides w, only_only, hal.only] at hc'
    have hm := move_of_party hc'
    refine .inr ⟨c', hm,
      carries_goOn ⟨?_, ?_, ?_, h.kept⟩ (hf.goes hc hc').taken ((hs c' hm).flight _)⟩
    · refine (Party.forall_iff w).2 ⟨by simp, ?_⟩
      have hb := h.bytes w.other
      rw [hal.none_back, List.flatMap_nil, List.append_eq_nil_iff, List.append_eq_nil_iff] at hb
      simpa using Reading.got_nil hb.1.1
    · have hout := (List.append_eq_nil_iff.1 hrest).2
      refine (Party.forall_iff w).2 ⟨by simpa using h.out_nil hal.none_back, ?_⟩
      simpa using flatten_ne (h.writing w.other) hout
    · refine (Party.forall_iff w).2 ⟨by simpa using (List.append_eq_nil_iff.1 hrest).1, ?_⟩
      have hb := h.bytes w.other
      rw [hal.none_back, List.flatMap_nil, List.append_eq_nil_iff, List.append_eq_nil_iff] at hb
      simpa using hb.1.2

/-- **A step of the line is some bytes on their way, or a move of the frame loops.** -/
theorem line_refines {s : Config σ τ} (hs : ∀ c, Reaches env s c → Form c ∧ c.Sendable) (cap : Nat) :
    Simulation.Refines (LineMove env cap) (Move env)
      (fun l c => l.Carries c ∧ Reaches env s c) Line.size := by
  intro l c l' h hmove
  obtain ⟨h, hr⟩ := h
  obtain ⟨a, ha⟩ := hmove
  obtain ⟨hf, hsend⟩ := hs c hr
  have hnext : ∀ c', Move env c c' → c'.Sendable := fun c' hm => (hs c' (hr.tail hm)).2
  cases a with
  | runs w =>
    obtain ⟨c', hm, hc'⟩ := carries_runs h hf hsend hnext ha
    exact .inr ⟨c', hm, hc', hr.tail hm⟩
  | writes w k =>
    obtain ⟨hc', hlt⟩ := carries_writes h ha
    exact .inl ⟨⟨hc', hr⟩, hlt⟩
  | reads w k =>
    obtain ⟨hc', hlt⟩ | ⟨c', hm, hc'⟩ := carries_reads h hf hsend hnext ha
    · exact .inl ⟨⟨hc', hr⟩, hlt⟩
    · exact .inr ⟨c', hm, hc', hr.tail hm⟩

/-- **No pipe is too small**: as long as the frame loops can go on, some byte can be moved. -/
theorem carries_progress (h : l.Carries c) (hf : Form c) (hc : c.Sendable) (hcap : 0 < cap)
    (hm : Move env c c') : ∃ l', LineMove env cap l l' := by
  by_cases hany : ∃ w, c.flight w ≠ []
  · obtain ⟨w, hw⟩ := hany
    obtain ⟨f, fs, hfs⟩ := List.exists_cons_of_ne_nil hw
    obtain ⟨rfl, hal⟩ := hf.alone env hc hfs
    have hsend := hc.flight w f (by rw [hfs]; exact List.mem_singleton_self f)
    have hfront := h.bytes w
    rw [hfs, List.flatMap_singleton, List.append_assoc] at hfront
    cases hpipe : l.pipe w with
    | cons b bs =>
      -- the side that waits reads one byte
      have hread : lineStep env cap l (.reads w 1) = Line.arrive env
          { l with pipe := Function.update l.pipe w ((l.pipe w).drop 1) } w ((l.pipe w).take 1) := by
        have hwaits : l.sides.waits w = true := by
          rw [h.sides w, ← hal.waits]
          cases w <;> rfl
        rw [lineStep, if_pos ⟨h.kept, h.out_nil hal.none_back, hwaits, Nat.one_pos,
          Reading.wants_pos (h.reading w), by rw [hpipe]; simp⟩]
      rw [hpipe, List.cons_append] at hfront
      obtain ⟨r, htake, -⟩ | ⟨g, fs, hg, htake, -⟩ := Reading.take_front (h.reading w) [b]
        (List.cons_ne_nil b []) (Reading.wants_pos (h.reading w)) (hc.flight w) (by
          rw [hfs, List.flatMap_singleton, ← hfront, List.append_assoc, List.singleton_append])
      · have hstep : ∃ l', lineStep env cap l (.reads w 1) = some l' := by
          rw [hread, Line.arrive, hpipe, List.take_one, List.head?_cons, Option.toList_some, htake]
          exact ⟨_, rfl⟩
        exact hstep.imp fun l' hl => ⟨.reads w 1, hl⟩
      · obtain ⟨c', hc'⟩ := hal.moves
        rw [hfs] at hg
        cases hg
        have hstep : ∃ l', lineStep env cap l (.reads w 1) = some l' := by
          rw [hread, Line.arrive, hpipe, List.take_one, List.head?_cons, Option.toList_some, htake]
          dsimp only
          rw [hal.text, h.sides w, only_only, hal.only, hc']
          exact ⟨_, rfl⟩
        exact hstep.imp fun l' hl => ⟨.reads w 1, hl⟩
    | nil =>
      -- the pipe is empty, and the other side writes one byte
      rw [hpipe, List.nil_append] at hfront
      have hout : (l.port w.other).out ≠ [] := by
        intro hnil
        exact Reading.got_short (h.reading w) hsend hfront (by rw [hnil]; rfl)
      obtain ⟨b, bs, hbs⟩ := List.exists_cons_of_ne_nil hout
      have hb : 0 < b.length := List.length_pos_iff.2 (h.writing w.other b (by rw [hbs]; simp))
      have hwrite : (l.port w.other).write 1 = some (b.take 1,
          { l.port w.other with out := if 1 = b.length then bs else b.drop 1 :: bs }) := by
        rw [Port.write, hbs]
        exact if_pos ⟨Nat.one_pos, hb⟩
      have hroom : ¬(l.lost ∨ cap < (l.pipe w.other.other).length + 1) := by
        rw [h.kept, Party.other_other, hpipe]
        simp
        omega
      have hstep : ∃ l', lineStep env cap l (.writes w.other 1) = some l' := by
        rw [lineStep, hwrite]
        dsimp only
        rw [if_neg hroom]
        exact ⟨_, rfl⟩
      exact hstep.imp fun l' hl => ⟨.writes w.other 1, hl⟩
  · have hnil : ∀ w, c.flight w = [] := fun w => not_not.1 fun hw => hany ⟨w, hw⟩
    obtain ⟨w, hw⟩ := party_of_move hm
    have hquiet := h.quiet hnil
    have heq : c.only w [] = c := by
      have h1 := hnil .client
      have h2 := hnil .server
      cases c
      cases h1
      cases h2
      cases w <;> rfl
    have hstep : ∃ l', lineStep env cap l (.runs w) = some l' := by
      rw [lineStep, if_neg (by simp [hquiet.out, hquiet.kept]), h.sides w, heq, hw]
      exact ⟨_, rfl⟩
    exact hstep.imp fun l' hl => ⟨.runs w, hl⟩

end

/-! ## Whole runs -/

theorem carries_start (p : ClientProg τ) (w : World σ τ) (nextId nextSeq : Nat) :
    (lineStart p w nextId nextSeq).Carries (start p w nextId nextSeq) where
  sides w' := by cases w' <;> rfl
  bytes w' := by cases w' <;> rfl
  reading _ := Nat.zero_lt_succ 3
  writing _ _ hb := absurd hb List.not_mem_nil
  kept := rfl

theorem Line.Carries.finished {l : Line σ τ} {c : Config σ τ} {v : Value} (h : l.Carries c)
    (hc : c.Finished v) : l.sides = c ∧ l.Finished v := by
  have hnil : ∀ w, c.flight w = [] := (Party.forall_iff .client).2 ⟨hc.2.2.2, hc.2.2.1⟩
  have hq := h.quiet hnil
  have hsides : l.sides = c := by
    rw [h.sides .client]
    obtain ⟨-, -, hto, hfrom⟩ := hc
    cases c
    cases hto
    cases hfrom
    rfl
  exact ⟨hsides, hsides ▸ hc, hq.pipe, fun w => ⟨hq.out w, hq.inn w⟩⟩

/-- Every state of the line stands for one of the frame loops, on their way to where plain calls end. -/
theorem line_follows {depth : Nat} {p : ClientProg τ} {w w' : World σ τ} {v : Value} {log : List Ev}
    (h : directClient env depth p w = some (w', v, log)) (hlog : ∀ e ∈ log, e.Sendable) (cap : Nat)
    (nextId nextSeq : Nat) :
    ∃ e : Config σ τ, e.Finished v ∧ e.world = w' ∧ e.log = log ∧
      Acc (fun l' l => LineMove env cap l l') (lineStart p w nextId nextSeq) ∧
      ∀ l, LineReaches env cap (lineStart p w nextId nextSeq) l →
        ∃ c, Form c ∧ Reaches env (start p w nextId nextSeq) c ∧ Reaches env c e ∧ l.Carries c ∧
          c.Sendable := by
  obtain ⟨e, hfin, hworld, hl, hall⟩ := start_ends h hlog nextId nextSeq
  have href := line_refines (fun c hc => ⟨(hall c hc).1, (hall c hc).2.1⟩) cap
  have hstart := carries_start p w nextId nextSeq
  have hacc := Simulation.ends_of_run (hall _ .refl).2.2 hfin.stuck
    fun b hb x y => (hall b hb).1.one_way (hall b hb).2.1
  refine ⟨e, hfin, hworld, hl, href.ends ⟨hstart, .refl⟩ hacc, fun l hl' => ?_⟩
  obtain ⟨c, -, hc, hrc⟩ := href.run ⟨hstart, .refl⟩ hl'
  obtain ⟨hform, hsend, hce⟩ := hall c hrc
  exact ⟨c, hform, hrc, hce, hc, hsend⟩

/-- **Calls and callbacks are in step byte by byte, and no pipe is too small for them.** Take a client's
program whose activity is finite and of which no call, answer or callback is larger than a frame may be.
However the operating system cuts the writes and reads, and whatever a pipe holds, if only one byte: what
the two sides have written and read is at every moment the frames of a run of the frame loops, and never
in both pipes; no run goes on for ever; and one that cannot go on is at the end, where the program has
returned what it does with plain calls, after the same calls and callbacks. -/
theorem bytes_in_step (env : Env σ τ) {depth : Nat} {p : ClientProg τ} {w w' : World σ τ} {v : Value}
    {log : List Ev} (h : directClient env depth p w = some (w', v, log))
    (hlog : ∀ e ∈ log, e.Sendable) {cap : Nat} (hcap : 0 < cap) (nextId nextSeq : Nat) :
    Acc (fun l' l => LineMove env cap l l') (lineStart p w nextId nextSeq) ∧
      ∀ l, LineReaches env cap (lineStart p w nextId nextSeq) l →
        (∃ c, Reaches env (start p w nextId nextSeq) c ∧ l.Carries c) ∧ (∃ w, l.pipe w = []) ∧
          ((∃ l', LineMove env cap l l') ∨
            (l.Finished v ∧ l.sides.world = w' ∧ l.sides.log = log)) := by
  obtain ⟨e, hfin, hworld, hl, hacc, hfollows⟩ := line_follows h hlog cap nextId nextSeq
  refine ⟨hacc, fun l hl' => ?_⟩
  obtain ⟨c, hfc, hrc, hce, hc, hsend⟩ := hfollows l hl'
  refine ⟨⟨c, hrc, hc⟩, ?_, ?_⟩
  · -- one of the two sides has no frame in flight to it
    have hone : ∃ w, c.flight w = [] := by
      have hle := hfc.flight
      by_cases hto : c.toServer = []
      · exact ⟨.server, hto⟩
      · have hpos := List.length_pos_iff.2 hto
        exact ⟨.client, List.length_eq_zero_iff.1 (by simp only [Config.flight]; omega)⟩
    obtain ⟨w, hw⟩ := hone
    have hb := hc.bytes w
    rw [hw, List.flatMap_nil, List.append_eq_nil_iff, List.append_eq_nil_iff] at hb
    exact ⟨w, hb.1.2⟩
  · obtain heq | ⟨x, hx, -⟩ := Relation.ReflTransGen.cases_head hce
    · cases heq
      obtain ⟨hsides, hdone⟩ := hc.finished hfin
      exact .inr ⟨hdone, hsides ▸ hworld, hsides ▸ hl⟩
    · exact .inl (carries_progress hc hfc hsend hcap hx)

theorem bytes_in_step_commit :
    ∃ log, directClient commitEnv 4 commitProg ⟨0, 0⟩ = some (⟨3, 2⟩, ⟨-1, by decide⟩, log) ∧
      Acc (fun l' l => LineMove commitEnv 1 l l') (lineStart commitProg ⟨0, 0⟩ 1 1) ∧
        ∀ l, LineReaches commitEnv 1 (lineStart commitProg ⟨0, 0⟩ 1 1) l →
          (∃ c, Reaches commitEnv (start commitProg ⟨0, 0⟩ 1 1) c ∧ l.Carries c) ∧
            (∃ w, l.pipe w = []) ∧ ((∃ l', LineMove commitEnv 1 l l') ∨
              (l.Finished ⟨-1, by decide⟩ ∧ l.sides.world = ⟨3, 2⟩ ∧ l.sides.log = log)) := by
  have h : directClient commitEnv 4 commitProg ⟨0, 0⟩ = some (⟨3, 2⟩, ⟨-1, by decide⟩, _) := rfl
  exact ⟨_, h, bytes_in_step commitEnv h (commit_sendable _ _ _ _ h) Nat.one_pos 1 1⟩

end Session
