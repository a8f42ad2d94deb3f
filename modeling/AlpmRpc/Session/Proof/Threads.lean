import AlpmRpc.Session.Proof.Transit
import AlpmRpc.Session.Threads

/-!
# Threads take turns

A stub begins with nothing on the way (`Line.Rest`), goes on as `Session/Proof/Transit.lean` says of a
client's one program, and ends with nothing on the way. So it is a section of `Lib/Turns.lean`, and its
rules are those of the threads.
-/

set_option autoImplicit false

namespace Session

variable {σ τ : Type} {env : Env σ τ} {cap : Nat} {l l' : Line σ τ} {c : Config σ τ}
  {p : ClientProg τ} {k : Value → Thread τ} {w w' : World σ τ} {v u : Value} {log : List Ev}
  {depth nextId nextSeq : Nat}

/-! ## Between stubs -/

/-- No stub is at work, and nothing is on the way. -/
structure Line.Rest (l : Line σ τ) : Prop where
  client : l.sides.client = .recv [] ∨ ∃ v, l.sides.client = .done v
  server : l.sides.server = .recv []
  toServer : l.sides.toServer = []
  toClient : l.sides.toClient = []
  pipes : ∀ w, l.pipe w = []
  ports : ∀ w, (l.port w).out = [] ∧ (l.port w).inn = .header []
  kept : l.lost = false

theorem Line.Finished.rest (h : l.Finished v) (hkept : l.lost = false) : l.Rest where
  client := .inr ⟨v, h.sides.1⟩
  server := h.sides.2.1
  toServer := h.sides.2.2.1
  toClient := h.sides.2.2.2
  pipes := h.pipes
  ports := h.ports
  kept := hkept

theorem Line.Rest.still (h : l.Rest) (w : Party) : partyStep env w l.sides = none := by
  cases w with
  | client =>
    obtain hc | ⟨v, hc⟩ := h.client
    · rw [partyStep, clientStep, hc]
    · rw [partyStep, clientStep, hc]
  | server => rw [partyStep, serverStep, h.server, h.toServer]

theorem Line.Rest.quiet (h : l.Rest) : ¬LineMove env cap l l' := by
  intro hm
  obtain ⟨a, ha⟩ := hm
  cases a with
  | runs w =>
    rw [lineStep, h.still, Option.map_none, ite_self] at ha
    exact Option.some_ne_none l' ha.symm
  | writes w k =>
    have hnone : (l.port w).write k = none := by rw [Port.write, (h.ports w).1]
    rw [lineStep, hnone] at ha
    exact Option.some_ne_none l' ha.symm
  | reads w k =>
    rw [lineStep] at ha
    split at ha
    · rename_i hk
      obtain ⟨-, -, -, hpos, -, hlen⟩ := hk
      rw [h.pipes, List.length_nil] at hlen
      exact absurd hpos (Nat.not_lt.2 hlen)
    · exact Option.some_ne_none l' ha.symm

/-- A stub that enters is a client's program that begins. -/
theorem Line.Rest.enter (h : l.Rest) (p : ClientProg τ) (k : Value → Thread τ) :
    Thread.enter (.stub p k) l =
      some (lineStart p l.sides.world l.sides.nextId l.sides.nextSeq) := by
  have hport : l.port = fun _ => {} := by
    funext w
    obtain ⟨hout, hinn⟩ := h.ports w
    cases hp : l.port w with
    | mk out inn =>
      rw [hp] at hout hinn
      cases hout
      cases hinn
      rfl
  have hpipe : l.pipe = fun _ => [] := funext h.pipes
  obtain ⟨⟨client, server, toServer, toClient, world, nextId, nextSeq, log⟩, port, pipe, lost⟩ := l
  obtain rfl : server = .recv [] := h.server
  obtain rfl : toServer = [] := h.toServer
  obtain rfl : toClient = [] := h.toClient
  obtain rfl : lost = false := h.kept
  cases hport
  cases hpipe
  rfl

theorem leave_done (p : ClientProg τ) (k : Value → Thread τ) (hv : l.sides.client = .done v) :
    Thread.leave (.stub p k) l = some (k v, l) := by
  rw [Thread.leave, hv]

/-! ## One stub -/

theorem Form.finished (h : Form c) (hc : c.client = .done v) : c.Finished v := by
  cases h with
  | done => exact ⟨hc, rfl, rfl, rfl⟩
  | _ => cases hc

section
variable (h : directClient env depth p w = some (w', v, log)) (hlog : ∀ e ∈ log, e.Sendable)
  (hr : LineReaches env cap (lineStart p w nextId nextSeq) l)
include h hlog hr

theorem stub_goes (hcap : 0 < cap) : (∃ l', LineMove env cap l l') ∨ l.sides.client = .done v := by
  obtain ⟨e, hfin, -, -, -, hfollows⟩ := line_follows h hlog cap nextId nextSeq
  obtain ⟨c, hform, -, hce, hc, hsend⟩ := hfollows l hr
  obtain rfl | ⟨x, hx, -⟩ := Relation.ReflTransGen.cases_head hce
  · obtain ⟨hsides, -⟩ := hc.finished hfin
    exact .inr (hsides ▸ hfin.1)
  · exact .inl (carries_progress hc hform hsend hcap hx)

/-- Where the stub has returned, it has what it returns with plain calls. -/
theorem stub_done (hu : l.sides.client = .done u) : u = v ∧ l.sides.world = w' ∧ l.Rest := by
  obtain ⟨e, hfin, hworld, -, -, hfollows⟩ := line_follows h hlog cap nextId nextSeq
  obtain ⟨c, hform, -, hce, hc, -⟩ := hfollows l hr
  have hcu : c.client = .done u := by rw [← hu, hc.sides .client]; rfl
  have hcfin := hform.finished hcu
  obtain rfl | ⟨x, hx, -⟩ := Relation.ReflTransGen.cases_head hce
  · obtain ⟨hsides, hdone⟩ := hc.finished hcfin
    exact ⟨Caller.done.inj (hcu.symm.trans hfin.1), hsides ▸ hworld, hdone.rest hc.kept⟩
  · exact absurd hx (hcfin.stuck x)

end

/-- What a thread does with one stub. -/
def Thread.Does (env : Env σ τ) (a : Thread τ) (l : Line σ τ) (a' : Thread τ) (l' : Line σ τ) : Prop :=
  ∃ p k depth v log, a = .stub p k ∧
    directClient env depth p l.sides.world = some (l'.sides.world, v, log) ∧ a' = k v

theorem threads_does (env : Env σ τ) (hcap : 0 < cap) :
    (threads env cap).Does (Thread.Finite env) Line.Rest (Thread.Does env) where
  quiet l l' hl := hl.quiet
  ends a l l₁ ha hl hent := by
    cases a with
    | done => cases hent
    | stub p k =>
      obtain ⟨depth, w', v, log, hd, hlog⟩ := ha.1 l.sides.world
      obtain rfl := Option.some.inj ((hl.enter p k).symm.trans hent)
      obtain ⟨e, -, -, -, hacc, -⟩ := line_follows hd hlog cap l.sides.nextId l.sides.nextSeq
      exact hacc
  goesOn a l l₁ x ha hl hent hx := by
    cases a with
    | done => cases hent
    | stub p k =>
      obtain ⟨depth, w', v, log, hd, hlog⟩ := ha.1 l.sides.world
      obtain rfl := Option.some.inj ((hl.enter p k).symm.trans hent)
      exact (stub_goes hd hlog hx hcap).imp id fun hdone => ⟨(k v, x), leave_done p k hdone⟩
  left a l l₁ x a' l' ha hl hent hx hleave := by
    cases a with
    | done => cases hent
    | stub p k =>
      obtain ⟨depth, w', v, log, hd, hlog⟩ := ha.1 l.sides.world
      obtain rfl := Option.some.inj ((hl.enter p k).symm.trans hent)
      have hleft : Thread.leave (.stub p k) x = some (a', l') := hleave
      cases hclient : x.sides.client with
      | done u =>
        obtain ⟨rfl, hworld, hrest⟩ := stub_done hd hlog hx hclient
        cases (leave_done p k hclient).symm.trans hleft
        exact ⟨⟨p, k, depth, u, log, rfl, hworld ▸ hd, rfl⟩, ha.2 u, hrest⟩
      | _ =>
        rw [Thread.leave, hclient] at hleft
        cases hleft

/-! ## All threads -/

/-- `a'` is what is left of `a` after its next stub. -/
def Thread.After (a' a : Thread τ) : Prop := ∃ p k v, a = .stub p k ∧ a' = k v

theorem Thread.after_wf : WellFounded (@Thread.After τ) := by
  refine ⟨fun a => ?_⟩
  induction a with
  | done =>
    refine ⟨_, fun b hb => ?_⟩
    obtain ⟨p, k, v, ha, -⟩ := hb
    cases ha
  | stub p k ih =>
    refine ⟨_, fun b hb => ?_⟩
    obtain ⟨p', k', v, ha, rfl⟩ := hb
    cases ha
    exact ih v

variable {T : Type} [DecidableEq T] {ts : T → Thread τ}

omit [DecidableEq T] in
theorem rest_start (ts : T → Thread τ) (w : World σ τ) (nextId nextSeq : Nat) :
    (threadsStart ts w nextId nextSeq).shared.Rest where
  client := .inl rfl
  server := rfl
  toServer := rfl
  toClient := rfl
  pipes _ := rfl
  ports _ := ⟨rfl, rfl⟩
  kept := rfl

theorem stubCall_of_turn {a b : (T → Thread τ) × Line σ τ} (h : Turns.Turn (Thread.Does env) a b) :
    StubCall env (a.1, a.2.sides.world) (b.1, b.2.sides.world) := by
  obtain ⟨t, a', ⟨p, k, depth, v, log, ha, hd, rfl⟩, hb⟩ := h
  exact ⟨t, p, k, depth, v, log, ha, hd, hb⟩

/-- **Threads take turns, one whole stub at a time.** Take any number of threads that each call stubs,
one after another, with activity that is finite and frames that fit. However they, the server and the
bytes of the pipe interleave: no run goes on for ever; at every moment the stubs that have returned did
what they do as plain calls, one stub after another, and at most one more is at work, as it would be
alone; and where nothing can go on, every thread has returned from its last. -/
theorem threads_take_turns [Fintype T] (env : Env σ τ) (hts : ∀ t, (ts t).Finite env) (hcap : 0 < cap)
    (w : World σ τ) (nextId nextSeq : Nat) :
    Acc (fun s' s => Turns.Next (threads env cap) s s') (threadsStart ts w nextId nextSeq) ∧
      ∀ s, ThreadsReach env cap (threadsStart ts w nextId nextSeq) s →
        ∃ w₀, Relation.ReflTransGen (StubCall env) (ts, w) (s.parties, w₀) ∧
          ((s.owner = none ∧ s.shared.sides.world = w₀) ∨
            ∃ t p k n m, s.owner = some t ∧ s.parties t = .stub p k ∧
              LineReaches env cap (lineStart p w₀ n m) s.shared) ∧
          ((∃ s', Turns.Next (threads env cap) s s') ∨
            (s.owner = none ∧ ∀ t, s.parties t = .done)) := by
  have hdoes := threads_does env hcap
  have hrest := rest_start ts w nextId nextSeq
  refine ⟨Turns.ends hdoes Thread.after_wf ?_ rfl hts hrest, fun s hs => ?_⟩
  · intro a l a' l' hd
    obtain ⟨p, k, -, v, -, ha, -, ha'⟩ := hd
    exact ⟨p, k, v, ha, ha'⟩
  · obtain ⟨l, hturns, hok, hl, hsince⟩ := Turns.serial hdoes rfl hts hrest hs
    refine ⟨l.sides.world, hturns.lift (fun a => (a.1, a.2.sides.world)) fun a b => stubCall_of_turn,
      ?_, ?_⟩
    · obtain ⟨hfree, hshared⟩ | ⟨t, l₁, ht, hent, hrun⟩ := hsince
      · exact .inl ⟨hfree, hshared ▸ rfl⟩
      · cases ha : s.parties t with
        | done =>
          rw [ha] at hent
          cases hent
        | stub p k =>
          rw [ha] at hent
          obtain rfl := Option.some.inj ((hl.enter p k).symm.trans hent)
          exact .inr ⟨t, p, k, _, _, ht, ha, hrun⟩
    · refine (Turns.progress hdoes hok hl hsince).imp id fun hno => ⟨hno.1, fun t => ?_⟩
      cases ha : s.parties t with
      | done => rfl
      | stub p k =>
        have hnone := hno.2 t
        rw [ha] at hnone
        cases hnone

/-- One thread commits once, the other twice. -/
def commitThreads : Bool → Thread Nat
  | true => .stub commitProg fun _ => .done
  | false => .stub commitProg fun _ => .stub commitProg fun _ => .done

theorem commit_finite (w : World Nat Nat) : ∃ depth w' v log,
    directClient commitEnv depth commitProg w = some (w', v, log) ∧ ∀ e ∈ log, e.Sendable :=
  ⟨4, _, _, _, rfl, commit_sendable w _ _ _ rfl⟩

theorem threads_take_turns_commit :
    Acc (fun s' s => Turns.Next (threads commitEnv 1) s s') (threadsStart commitThreads ⟨0, 0⟩ 1 1) ∧
      ∀ s, ThreadsReach commitEnv 1 (threadsStart commitThreads ⟨0, 0⟩ 1 1) s →
        ∃ w₀, Relation.ReflTransGen (StubCall commitEnv) (commitThreads, ⟨0, 0⟩) (s.parties, w₀) ∧
          ((s.owner = none ∧ s.shared.sides.world = w₀) ∨
            ∃ t p k n m, s.owner = some t ∧ s.parties t = .stub p k ∧
              LineReaches commitEnv 1 (lineStart p w₀ n m) s.shared) ∧
          ((∃ s', Turns.Next (threads commitEnv 1) s s') ∨
            (s.owner = none ∧ ∀ t, s.parties t = .done)) := by
  have hfinite : ∀ t, (commitThreads t).Finite commitEnv := by
    intro t
    cases t with
    | true => exact ⟨commit_finite, fun _ => trivial⟩
    | false => exact ⟨commit_finite, fun _ => ⟨commit_finite, fun _ => trivial⟩⟩
  exact threads_take_turns commitEnv hfinite Nat.one_pos ⟨0, 0⟩ 1 1

end Session
