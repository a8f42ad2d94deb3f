import AlpmRpc.Client.Link
import Mathlib.Data.List.Basic

/-!
# Exchanges keep to their connection

`step_cases` says once what an action does: the caller's code begins an exchange, or the exchange on
top uses the pipe and goes on, ends, or is called back. The invariant `Inv` has a part that holds in
every run, and a part about the pipe that holds while no callback's function returns with a
connection open that was made while it ran.
-/

set_option autoImplicit false

namespace Client

open Run

namespace Link

variable {l l' l'' : Link} {x : Exchange} {p : Purpose} {rest : List Frame}

/-! ## What an exchange does to the pipe -/

/-- From `l` to `l'` the pipe stays or is closed, and what was used was the pipe, for `x`. -/
structure Touches (l l' : Link) (x : Exchange) : Prop where
  pipe : l'.pipe = l.pipe ∨ l'.pipe = none
  made : l'.made = l.made
  log : ∀ u ∈ l'.log, u ∈ l.log ∨ (u.by_ = x ∧ l.pipe = some u.conn)

theorem Touches.refl (l : Link) (x : Exchange) : Touches l l x :=
  ⟨.inl rfl, rfl, fun _ hu => .inl hu⟩

theorem Touches.trans (h : Touches l l' x) (h' : Touches l' l'' x) : Touches l l'' x := by
  refine ⟨?_, h'.made.trans h.made, fun u hu => ?_⟩
  · rcases h'.pipe with hp | hp
    · rw [hp]
      exact h.pipe
    · exact .inr hp
  · rcases h'.log u hu with hu | ⟨hx, hp⟩
    · exact h.log u hu
    · rcases h.pipe with he | he
      · exact .inr ⟨hx, he ▸ hp⟩
      · rw [he] at hp
        cases hp

/-- Stack and counters are not the pipe's. -/
theorem Touches.of_eq (h : Touches l l' x) (hp : l''.pipe = l'.pipe) (hm : l''.made = l'.made)
    (hl : l''.log = l'.log) : Touches l l'' x :=
  ⟨by rw [hp]; exact h.pipe, hm.trans h.made, by rw [hl]; exact h.log⟩

theorem use_touches {n : Nat} (k : UseKind) (hn : l.pipe = some n) : Touches l (l.use x k n) x := by
  refine ⟨.inl rfl, rfl, fun u hu => ?_⟩
  rcases List.mem_append.1 hu with hu | hu
  · exact .inl hu
  · cases List.mem_singleton.1 hu
    exact .inr ⟨rfl, hn⟩

theorem disconnect_touches (l : Link) (x : Exchange) : Touches l (l.disconnect x) x := by
  unfold disconnect
  split
  · rename_i n hn
    obtain ⟨-, hm, hl⟩ := use_touches (x := x) .close hn
    exact ⟨.inr rfl, hm, hl⟩
  · exact .refl l x

theorem sendFrame_touches (l : Link) (x : Exchange) (ok : Bool) :
    Touches l (l.sendFrame x ok).1 x := by
  unfold sendFrame
  split
  · rename_i n hn
    have hu := use_touches (x := x) .send hn
    cases ok with
    | true => exact hu
    | false => exact hu.trans (disconnect_touches _ x)
  · exact .refl l x

theorem recvFrame_touches (l : Link) (x : Exchange) (got : Option Got) :
    Touches l (l.recvFrame x got).1 x := by
  unfold recvFrame
  split
  · rename_i n hn
    have hu := use_touches (x := x) .read hn
    cases got with
    | some f => exact hu
    | none => exact hu.trans (disconnect_touches _ x)
  · exact .refl l x

theorem failed_touches (l : Link) (x : Exchange) (p : Purpose) (rest : List Frame) :
    Touches l (l.failed x p rest) x := by
  cases p with
  | stub s => exact (Touches.refl l x).of_eq rfl rfl rfl
  | pathStyle s => exact (disconnect_touches l x).of_eq rfl rfl rfl

theorem arpcConnUnref_touches (l : Link) (x : Exchange) : Touches l (l.arpcConnUnref x) x := by
  unfold arpcConnUnref
  have hr : Touches l { l with refs := l.refs - 1 } x := (Touches.refl l x).of_eq rfl rfl rfl
  dsimp only
  split
  · exact hr
  · exact hr.trans (disconnect_touches _ x)

theorem succeeded_touches (l : Link) (x : Exchange) (b : Bool) (p : Purpose) (rest : List Frame) :
    Touches l (l.succeeded x b p rest) x := by
  have hr := Touches.refl l x
  cases p with
  | stub s =>
    cases s with
    | plain => exact hr.of_eq rfl rfl rfl
    | creates => exact hr.of_eq rfl rfl rfl
    | destroysHandle => exact (arpcConnUnref_touches l x).of_eq rfl rfl rfl
  | pathStyle s =>
    unfold succeeded
    cases hp : l.pipe <;> exact hr.of_eq (by simp [begun, hp]) rfl rfl

theorem received_touches (l : Link) (x : Exchange) (p : Purpose) (rest : List Frame) (f : Got) :
    Touches l (l.received x p rest f) x := by
  have hfail : Touches l ((l.disconnect x).failed x p rest) x :=
    (disconnect_touches l x).trans (failed_touches _ x p rest)
  cases f with
  | callback => exact (Touches.refl l x).of_eq rfl rfl rfl
  | malformed => exact hfail
  | error id =>
    rw [received]
    split
    · exact hfail
    · exact failed_touches l x p rest
  | result id b =>
    rw [received]
    split
    · exact hfail
    · exact succeeded_touches l x b p rest

/-! ## Where an exchange goes on -/

/-- Where the client is after an action of the exchange `x`: it waits, it is called back, it is over,
or it was `set_path_style`'s and the stub's own begins. -/
inductive Outcome (l l' : Link) (x : Exchange) (p : Purpose) (rest : List Frame) : Prop where
  | waits (hs : l'.stack = .wait x p :: rest) (hp : l'.pipe = l.pipe) (hn : l.pipe ≠ none)
  | calledBack (hs : l'.stack = .callback l.made :: .wait x p :: rest) (hp : l'.pipe = l.pipe)
  | ended (hs : l'.stack = rest)
  | begins (y : Exchange) (s : Stub) (hs : l'.stack = .begun y (.stub s) :: rest)
      (hp : l'.pipe = some y.conn)

theorem failed_stack (l : Link) (x : Exchange) (p : Purpose) (rest : List Frame) :
    (l.failed x p rest).stack = rest := by
  cases p <;> rfl

theorem sent_outcome (l : Link) (x : Exchange) (p : Purpose) (rest : List Frame) (ok : Bool) :
    Outcome l (if (l.sendFrame x ok).2 then { (l.sendFrame x ok).1 with stack := .wait x p :: rest }
      else (l.sendFrame x ok).1.failed x p rest) x p rest := by
  unfold sendFrame
  cases hp : l.pipe with
  | none => exact .ended (failed_stack _ x p rest)
  | some n =>
    cases ok with
    | true => exact .waits rfl (by simp [use]) (by simp [hp])
    | false => exact .ended (failed_stack _ x p rest)

theorem succeeded_outcome (l : Link) (x : Exchange) (b : Bool) (p : Purpose) (rest : List Frame) :
    Outcome l (l.succeeded x b p rest) x p rest := by
  cases p with
  | stub s => cases s <;> exact .ended rfl
  | pathStyle s =>
    unfold succeeded
    cases hp : l.pipe with
    | none => exact .ended rfl
    | some n => exact .begins ⟨l.nextId, n⟩ s rfl rfl

theorem received_outcome (l : Link) (x : Exchange) (p : Purpose) (rest : List Frame) (f : Got) :
    Outcome l (l.received x p rest f) x p rest := by
  have hfail : ((l.disconnect x).failed x p rest).stack = rest := failed_stack _ x p rest
  cases f with
  | callback => exact .calledBack rfl rfl
  | malformed => exact .ended hfail
  | error id =>
    rw [received]
    split
    · exact .ended hfail
    · exact .ended (failed_stack l x p rest)
  | result id b =>
    rw [received]
    split
    · exact .ended hfail
    · exact succeeded_outcome l x b p rest

/-! ## What an action does -/

/-- The exchange `x` on top of `rest` is the one whose action this is. -/
inductive Active (l : Link) (x : Exchange) (p : Purpose) (rest : List Frame) : Act → Prop where
  | send (ok : Bool) (hs : l.stack = .begun x p :: rest) : Active l x p rest (.send ok)
  | recv (got : Option Got) (hs : l.stack = .wait x p :: rest) : Active l x p rest (.recv got)
  | answer (ok : Bool) (m : Nat) (hs : l.stack = .callback m :: .wait x p :: rest) :
      Active l x p rest (.answer ok)

theorem sent_touches (l : Link) (x : Exchange) (p : Purpose) (rest : List Frame) (ok : Bool) :
    Touches l (if (l.sendFrame x ok).2 then { (l.sendFrame x ok).1 with stack := .wait x p :: rest }
      else (l.sendFrame x ok).1.failed x p rest) x := by
  have h := sendFrame_touches l x ok
  split
  · exact h.of_eq rfl rfl rfl
  · exact h.trans (failed_touches _ x p rest)

/-- **What an action does**: the caller's code begins an exchange, or the exchange on top uses the
pipe and goes on. -/
theorem step_cases {win32 : Bool} {a : Act} (h : step win32 l a = some l') :
    (∃ s connects, a = .call s connects ∧ codeRuns l.stack = true ∧
      l' = l.arpcBegin win32 s connects) ∨
    ∃ x p rest, Active l x p rest a ∧ Touches l l' x ∧ Outcome l l' x p rest := by
  cases a with
  | call s connects =>
    rw [step] at h
    split at h
    · rename_i hc
      exact .inl ⟨s, connects, rfl, hc, (Option.some_inj.1 h).symm⟩
    · cases h
  | send ok =>
    rw [step] at h
    split at h
    · rename_i x p rest hs
      cases h
      exact .inr ⟨x, p, rest, .send ok hs, sent_touches l x p rest ok, sent_outcome l x p rest ok⟩
    · cases h
  | recv got =>
    rw [step] at h
    split at h
    · rename_i x p rest hs
      refine .inr ⟨x, p, rest, .recv got hs, ?_⟩
      have ht := recvFrame_touches l x got
      split at h
      · rename_i l₁ f hr
        rw [hr] at ht
        cases h
        have hsame : l₁.pipe = l.pipe ∧ l₁.made = l.made := by
          unfold recvFrame at hr
          cases hp : l.pipe <;> rw [hp] at hr <;> cases got <;> cases hr
          exact ⟨hp, rfl⟩
        refine ⟨ht.trans (received_touches l₁ x p rest f), ?_⟩
        cases received_outcome l₁ x p rest f with
        | waits hs' hp hn => exact .waits hs' (hp.trans hsame.1) (hsame.1 ▸ hn)
        | calledBack hs' hp => exact .calledBack (hsame.2 ▸ hs') (hp.trans hsame.1)
        | ended hs' => exact .ended hs'
        | begins y s hs' hp => exact .begins y s hs' hp
      · rename_i l₁ hr
        rw [hr] at ht
        cases h
        exact ⟨ht.trans (failed_touches l₁ x p rest), .ended (failed_stack l₁ x p rest)⟩
    · cases h
  | answer ok =>
    rw [step] at h
    split at h
    · rename_i m x p rest hs
      cases h
      exact .inr ⟨x, p, rest, .answer ok m hs, sent_touches l x p rest ok,
        sent_outcome l x p rest ok⟩
    · cases h

/-! ## The invariant -/

/-- The stack where the caller's code runs. Each callback's function was called after its exchange
began; and, if `good`, an open connection is that exchange's or was made since. -/
def CodeOk (good : Prop) (pipe : Option Nat) (made : Nat) : List Frame → Prop
  | [] => True
  | .callback m :: .wait x _ :: rest =>
    (x.conn < m ∧ m ≤ made ∧ (good → ∀ n, pipe = some n → n = x.conn ∨ m ≤ n)) ∧
      CodeOk good pipe made rest
  | _ => False

/-- Any stack; if `good`, an exchange that waits has its connection open. -/
def StackOk (good : Prop) (pipe : Option Nat) (made : Nat) : List Frame → Prop
  | .begun x _ :: rest => pipe = some x.conn ∧ CodeOk good pipe made rest
  | .wait x _ :: rest =>
    (x.conn < made ∧ (good → pipe = some x.conn)) ∧ CodeOk good pipe made rest
  | stack => CodeOk good pipe made stack

structure Inv (good : Prop) (l : Link) : Prop where
  pipe_lt : ∀ n, l.pipe = some n → n < l.made
  stack : StackOk good l.pipe l.made l.stack
  uses : good → ∀ u ∈ l.log, u.conn = u.by_.conn

theorem Inv.empty (good : Prop) : Inv good {} :=
  ⟨by rintro n ⟨⟩, trivial, by simp⟩

theorem CodeOk.mono {good : Prop} {pipe pipe' : Option Nat} {made made' : Nat} {st : List Frame}
    (h : CodeOk good pipe made st) (hp : ∀ n, pipe' = some n → pipe = some n ∨ made ≤ n)
    (hm : made ≤ made') : CodeOk good pipe' made' st := by
  induction st using CodeOk.induct with
  | case1 => trivial
  | case2 m x p rest ih =>
    obtain ⟨⟨hlt, hle, hg⟩, hrest⟩ := h
    refine ⟨⟨hlt, Nat.le_trans hle hm, fun hgood n hn => ?_⟩, ih hrest⟩
    rcases hp n hn with ho | ho
    · exact hg hgood n ho
    · exact .inr (Nat.le_trans hle ho)
  | case3 st h1 h2 =>
    rw [CodeOk] at h
    · exact h.elim
    · exact h1
    · exact h2

theorem CodeOk.stackOk {good : Prop} {pipe : Option Nat} {made : Nat} {st : List Frame}
    (h : CodeOk good pipe made st) : StackOk good pipe made st := by
  cases st with
  | nil => trivial
  | cons f rest =>
    cases f with
    | callback m => exact h
    | begun x p => exact absurd h (by simp [CodeOk])
    | wait x p => exact absurd h (by simp [CodeOk])

theorem StackOk.codeOk {good : Prop} {pipe : Option Nat} {made : Nat} {st : List Frame}
    (h : StackOk good pipe made st) (hc : codeRuns st = true) : CodeOk good pipe made st := by
  cases st with
  | nil => trivial
  | cons f rest =>
    cases f with
    | callback m => exact h
    | begun x p => cases hc
    | wait x p => cases hc

/-- The exchange whose action it is: it began on a connection that was made, the code below it is in
order, and, if `good`, no pipe is open but its own. -/
theorem Inv.active {good : Prop} {a : Act} (h : Inv good l) (hs : good → Settled l a l')
    (ha : Active l x p rest a) :
    x.conn < l.made ∧ CodeOk good l.pipe l.made rest ∧
      (good → ∀ n, l.pipe = some n → n = x.conn) := by
  have hst := h.stack
  cases ha with
  | send ok hstack =>
    rw [hstack] at hst
    obtain ⟨hp, hrest⟩ := hst
    refine ⟨h.pipe_lt _ hp, hrest, fun _ n hn => ?_⟩
    rw [hp] at hn
    exact (Option.some_inj.1 hn).symm
  | recv got hstack =>
    rw [hstack] at hst
    obtain ⟨⟨hlt, hp⟩, hrest⟩ := hst
    refine ⟨hlt, hrest, fun hg n hn => ?_⟩
    rw [hp hg] at hn
    exact (Option.some_inj.1 hn).symm
  | answer ok m hstack =>
    rw [hstack] at hst
    obtain ⟨⟨hlt, hle, hp⟩, hrest⟩ := hst
    refine ⟨Nat.lt_of_lt_of_le hlt hle, hrest, fun hg n hn => ?_⟩
    have hm := hs hg m _ ok hstack rfl n hn
    rcases hp hg n hn with he | he
    · exact he
    · omega

/-- Beginning an exchange. -/
theorem Inv.arpcBegin {good : Prop} (h : Inv good l) (hc : codeRuns l.stack = true) (win32 : Bool)
    (s : Stub) (connects : Bool) : Inv good (l.arpcBegin win32 s connects) := by
  have hcode := h.stack.codeOk hc
  unfold Link.arpcBegin
  cases hp : l.pipe with
  | some n =>
    refine ⟨fun n' hn' => h.pipe_lt n' hn', ?_, h.uses⟩
    exact ⟨hp, hcode⟩
  | none =>
    dsimp only
    split
    · refine ⟨fun n hn => ?_, ⟨rfl, ?_⟩, h.uses⟩
      · cases hn
        exact Nat.lt_succ_self _
      · refine hcode.mono (fun n hn => .inr ?_) (Nat.le_succ _)
        cases hn
        exact Nat.le_refl _
    · exact h

/-- **Every action keeps the invariant**; its second part, if the action is settled. -/
theorem Inv.step {good : Prop} {win32 : Bool} {a : Act} (h : Inv good l)
    (hs : good → Settled l a l') (hstep : step win32 l a = some l') : Inv good l' := by
  rcases step_cases hstep with ⟨s, connects, rfl, hc, rfl⟩ | ⟨x, p, rest, ha, ht, ho⟩
  · exact h.arpcBegin hc win32 s connects
  obtain ⟨hlt, hrest, hown⟩ := h.active hs ha
  have hpipe : ∀ n, l'.pipe = some n → l.pipe = some n := by
    intro n hn
    rcases ht.pipe with hp | hp
    · rw [← hp]
      exact hn
    · rw [hp] at hn
      cases hn
  have hrest' : CodeOk good l'.pipe l'.made rest :=
    hrest.mono (fun n hn => .inl (hpipe n hn)) (Nat.le_of_eq ht.made.symm)
  refine ⟨fun n hn => ?_, ?_, fun hg u hu => ?_⟩
  · rw [ht.made]
    exact h.pipe_lt n (hpipe n hn)
  · cases ho with
    | waits hst hp hn =>
      rw [hst]
      obtain ⟨n, hn⟩ := Option.ne_none_iff_exists'.1 hn
      refine ⟨⟨ht.made.symm ▸ hlt, fun hg => ?_⟩, hrest'⟩
      rw [hp, hn, hown hg n hn]
    | calledBack hst hp =>
      rw [hst]
      refine ⟨⟨hlt, Nat.le_of_eq ht.made.symm, fun hg n hn => .inl ?_⟩, hrest'⟩
      exact hown hg n (hpipe n hn)
    | ended hst =>
      rw [hst]
      exact hrest'.stackOk
    | begins y s hst hp =>
      rw [hst]
      exact ⟨hp, hrest'⟩
  · rcases ht.log u hu with hold | ⟨hx, hp⟩
    · exact h.uses hg u hold
    · rw [hx]
      exact hown hg u.conn hp

/-! ## Runs -/

theorem confined_of_settled {win32 : Bool} {a : Act} (h : Inv True l)
    (hstep : step win32 l a = some l') (hs : Settled l a l') : Confined l a l' := by
  refine ⟨(h.step (fun _ => hs) hstep).uses trivial, fun m x p rest ok hst ha hne => ?_⟩
  subst ha
  obtain ⟨-, -, hown⟩ := h.active (fun _ => hs) (.answer ok m hst)
  have hpipe : l.pipe = none := by
    cases hp : l.pipe with
    | none => rfl
    | some n => exact absurd (hp.trans (congrArg some (hown trivial n hp))) hne
  rw [step, hst] at hstep
  simp only [sendFrame, hpipe, Bool.false_eq_true, if_false, Option.some_inj] at hstep
  rw [← hstep]
  cases p with
  | stub s => rfl
  | pathStyle s => simp only [failed, disconnect, hpipe]

/-- The answer to a callback is written to the pipe that is open. -/
theorem answer_logs {win32 ok : Bool} {m n : Nat} (hst : l.stack = .callback m :: .wait x p :: rest)
    (hn : l.pipe = some n) (hstep : step win32 l (.answer ok) = some l') :
    ⟨x, .send, n⟩ ∈ l'.log := by
  have hin : (⟨x, .send, n⟩ : Use) ∈ (l.use x .send n).log :=
    List.mem_append_right _ (List.mem_singleton.2 rfl)
  have hdis : ∀ k : Link, (⟨x, .send, n⟩ : Use) ∈ k.log →
      (⟨x, .send, n⟩ : Use) ∈ (k.disconnect x).log := by
    intro k hk
    unfold disconnect
    split
    · exact List.mem_append_left _ hk
    · exact hk
  rw [step, hst] at hstep
  simp only [sendFrame, hn] at hstep
  cases ok with
  | true =>
    cases hstep
    exact hin
  | false =>
    cases hstep
    cases p with
    | stub s => exact hdis _ hin
    | pathStyle s => exact hdis _ (hdis _ hin)

theorem settled_of_confined {win32 : Bool} {a : Act} (h : Inv False l)
    (hstep : step win32 l a = some l') (hc : Confined l a l') : Settled l a l' := by
  intro m rest ok hst ha n hn
  subst ha
  have hok := h.stack
  rw [hst] at hok
  -- a callback's function always has an exchange under it
  match rest, hst, hok with
  | .wait x p :: rest, hst, hok =>
    have he : n = x.conn := hc.uses _ (answer_logs hst hn hstep)
    rw [he]
    exact hok.1.1

/-- **When exchanges keep to their connection**: in a run, every exchange uses only the connection it
began on, and fails when that is gone, exactly when no callback's function returns with a connection
open that was made while it ran. -/
theorem confined_iff_settled (win32 : Bool) (as : List Act) :
    Along (step win32) Confined {} as ↔ Along (step win32) Settled {} as := by
  constructor
  · refine Along.of_inv (fun l a l' h hstep hc => ?_) (Inv.empty False)
    exact ⟨settled_of_confined h hstep hc, h.step (fun hf => hf.elim) hstep⟩
  · refine Along.of_inv (fun l a l' h hstep hs => ?_) (Inv.empty True)
    exact ⟨confined_of_settled h hstep hs, h.step (fun _ => hs) hstep⟩

/-- A handle is made; during a call, the callback's function releases it, which closes the pipe, and
makes another, which opens a new one. -/
def reopenedInside : List Act :=
  [.call .creates true, .send true, .recv (some (.result 1 true)),
   .call .plain false, .send true, .recv (some .callback),
   .call .destroysHandle false, .send true, .recv (some (.result 3 false)),
   .call .creates true, .send true, .recv (some (.result 4 true))]

/-- The callback's answer goes to the second connection; its exchange is the first one's. -/
theorem answer_spills :
    (reopenedInside.foldlM (step false) {}).bind (fun l => (step false l (.answer true)).map fun l' =>
      l'.log.getLast?) = some (some ⟨⟨2, 0⟩, .send, 1⟩) ∧
    ¬Along (step false) Confined {} (reopenedInside ++ [.answer true]) := by
  have hlog : (reopenedInside.foldlM (step false) {}).bind (fun l =>
      (step false l (.answer true)).map fun l' => l'.log.getLast?) =
        some (some ⟨⟨2, 0⟩, .send, 1⟩) := by
    decide
  refine ⟨hlog, fun h => ?_⟩
  obtain ⟨l, hl, hrest⟩ := Option.bind_eq_some_iff.1 hlog
  obtain ⟨l', hl', hlast⟩ := Option.map_eq_some_iff.1 hrest
  have huse := (h.last hl hl').uses _ (List.mem_of_getLast? hlast)
  cases huse

end Link

end Client
