import AlpmRpc.Session.PathStyle
import AlpmRpc.Client.Proof.Link

/-!
# The form of paths is settled first

Until `arpc.set_path_style` has succeeded on a connection, nothing else is on its way there in either
direction (`Quiet`), for the client is inside `ensure_connected` (`Standing`) or has closed the pipe;
and a success is on its way only if the server has set the form. Of a server it is enough that its
form is that of its connection (`Sound`), since it has one connection at a time and no connection
twice.
-/

set_option autoImplicit false

namespace Session

open Client Run

namespace Pipes

variable {w w' : Pipes} {l l' : Link} {log log' : List Noted} {x : Exchange} {p : Purpose}
  {rest : List Frame} {n s : Nat}

/-! ## The log -/

/-- The client's connection `n` was set to Win32 paths. -/
def Asked (log : List Noted) (n : Nat) : Prop :=
  ∃ b, .handled (.ours n) (.setPathStyle (some "win32")) b ∈ log

theorem Asked.mono (h : Asked log n) (hsub : ∀ e ∈ log, e ∈ log') : Asked log' n := by
  obtain ⟨b, hb⟩ := h
  exact ⟨b, hsub _ hb⟩

theorem fits_cons {e : Noted} (h : ∀ e past, e :: past <:+ log → Fits past e) (he : Fits log e) :
    ∀ e' past, e' :: past <:+ e :: log → Fits past e' := by
  intro e' past hs
  rcases List.suffix_cons_iff.1 hs with heq | hs
  · cases heq
    exact he
  · exact h e' past hs

/-! ## Servers -/

/-- The server's form is that of its connection; and where the client has not had its success, the
server does nothing but reply. -/
structure Sound (log : List Noted) (d : Daemon) : Prop where
  asked : ∀ n, d.conn = some (.ours n) → Asked log n → d.win32 = true
  silent : ∀ c, d.conn = some c → (∀ e ∈ log, ¬ Noted.Asks c e) → d.win32 = false
  stack : ∀ n, d.conn = some (.ours n) → .styled n ∈ log ∨
    ∀ x ∈ d.stack, ∃ id ok, x = .replying id ok ∧ (ok = true → Asked log n)

theorem Sound.idle {d : Daemon} (h : d.conn = none) : Sound log d := by
  refine ⟨fun n hn => ?_, fun c hc => ?_, fun n hn => ?_⟩
  · rw [h] at hn
    cases hn
  · rw [h] at hc
    cases hc
  · rw [h] at hn
    cases hn

/-- The log grows by what does not ask on the server's connection. -/
theorem Sound.grow {d : Daemon} (h : Sound log d) (hsub : ∀ e ∈ log, e ∈ log')
    (hnew : ∀ e ∈ log', e ∈ log ∨ ∀ c, d.conn = some c → ¬ Noted.Asks c e) : Sound log' d := by
  refine ⟨fun n hn ha => ?_, fun c hc hs => ?_, fun n hn => ?_⟩
  · obtain ⟨b, hb⟩ := ha
    rcases hnew _ hb with hold | hnot
    · exact h.asked n hn ⟨b, hold⟩
    · exact absurd rfl (hnot _ hn)
  · exact h.silent c hc fun e he => hs e (hsub e he)
  · rcases h.stack n hn with hs | hs
    · exact .inl (hsub _ hs)
    · refine .inr fun x hx => ?_
      obtain ⟨id, ok, he, ha⟩ := hs x hx
      exact ⟨id, ok, he, fun hok => (ha hok).mono hsub⟩

/-- The server goes on with less on its stack, or with its connection gone. -/
theorem Sound.shrink {d : Daemon} (h : Sound log d) {st : List Doing} (hst : ∀ x ∈ st, x ∈ d.stack) :
    Sound log { d with stack := st } := by
  refine ⟨h.asked, h.silent, fun n hn => ?_⟩
  rcases h.stack n hn with hs | hs
  · exact .inl hs
  · exact .inr fun x hx => hs x (hst x hx)

theorem Sound.pipeFailed {d : Daemon} (h : Sound log d) : Sound log d.pipeFailed := by
  unfold Daemon.pipeFailed
  split
  · rename_i st hs
    apply h.shrink
    intro x hx
    rw [hs]
    exact List.mem_cons_of_mem _ hx
  · exact .idle rfl

theorem pipeFailed_conn {d : Daemon} {c : Conn} (h : d.pipeFailed.conn = some c) :
    d.conn = some c := by
  unfold Daemon.pipeFailed at h
  split at h
  · exact h
  · cases h

/-- The server takes something up. -/
theorem Sound.push {d : Daemon} (h : Sound log d) {y : Doing}
    (hy : ∀ n, d.conn = some (.ours n) → .styled n ∈ log ∨
      ∃ id ok, y = .replying id ok ∧ (ok = true → Asked log n)) :
    Sound log { d with stack := y :: d.stack } := by
  refine ⟨h.asked, h.silent, fun n hn => ?_⟩
  rcases h.stack n hn with hs | hs
  · exact .inl hs
  rcases hy n hn with hy | hy
  · exact .inl hy
  · exact .inr fun x hx => by
      rcases List.mem_cons.1 hx with rfl | hx
      · exact hy
      · exact hs x hx

theorem Sound.of_handler {d : Daemon} (h : Sound log d) {id : Int}
    (hc : d.conn = some (.ours n)) (hm : .handler id ∈ d.stack) : .styled n ∈ log := by
  rcases h.stack n hc with hs | hs
  · exact hs
  · obtain ⟨_, _, he, -⟩ := hs _ hm
    cases he

/-! ## The invariant -/

/-- No exchange of these is `set_path_style`'s. -/
def NoStyle (st : List Frame) : Prop :=
  ∀ f ∈ st, ∀ x s, f ≠ .begun x (.pathStyle s) ∧ f ≠ .wait x (.pathStyle s)

/-- The client is in `set_path_style` on the open connection, which has not had its success; or an
open connection has had it. -/
inductive Standing (l : Link) (log : List Noted) : Prop where
  | asking (x : Exchange) (s : Stub) (rest : List Frame)
      (hs : l.stack = .begun x (.pathStyle s) :: rest ∨ l.stack = .wait x (.pathStyle s) :: rest)
      (hp : l.pipe = some x.conn) (hn : .styled x.conn ∉ log) (hrest : NoStyle rest)
  | styled (hn : ∀ n, l.pipe = some n → .styled n ∈ log) (hs : NoStyle l.stack)

/-- A frame that may come before the connection has had its success. -/
def Early (log : List Noted) (n : Nat) : Got → Prop
  | .callback => False
  | .result _ _ => Asked log n
  | _ => True

/-- Nothing is on its way but `arpc.set_path_style` and replies to it. -/
structure Quiet (w : Pipes) (n : Nat) : Prop where
  toServer : ∀ m ∈ w.toServer n, ∃ id, m = .request id (.setPathStyle (some "win32"))
  toClient : ∀ f ∈ w.toClient n, Early w.log n f

/-- What the client sends. -/
def FromClient : Msg → Prop
  | .request _ (.setPathStyle style) => style = some "win32"
  | _ => True

/-- Of all but where the client stands. -/
structure Outside (w : Pipes) : Prop where
  log : ∀ e past, e :: past <:+ w.log → Fits past e
  wires : ∀ n, .styled n ∈ w.log ∨ Quiet w n
  styled : ∀ n, .styled n ∈ w.log → n < w.client.made ∧ Asked w.log n
  messages : ∀ n, ∀ m ∈ w.toServer n, FromClient m
  servers : ∀ s, Sound w.log (w.servers s)
  handled : ∀ c m b, .handled c m b ∈ w.log → c ∈ w.accepted
  serves : ∀ s c, (w.servers s).conn = some c → c ∈ w.accepted
  one : ∀ s s' c, (w.servers s).conn = some c → (w.servers s').conn = some c → s = s'

structure Inv (w : Pipes) : Prop where
  outside : Outside w
  standing : Standing w.client w.log
  pipe : ∀ n, w.client.pipe = some n → n < w.client.made

theorem Inv.empty : Inv {} := by
  refine ⟨⟨fun e past h => ?_, fun n => .inr ⟨?_, ?_⟩, ?_, ?_, fun s => .idle rfl, ?_, ?_, ?_⟩,
    .styled ?_ ?_, ?_⟩
  · simp at h
  all_goals simp [NoStyle]

/-- What holds gives what is to hold. -/
theorem Outside.styled_all (h : Outside w) : Styled w := by
  refine ⟨h.log, fun s n id hc hm => ?_, fun s => (h.servers s).silent⟩
  have hs := (h.servers s).of_handler hc hm
  exact (h.servers s).asked n hc (h.styled n hs).2

/-! ## What a server does -/

theorem Early.mono {f : Got} (h : Early log n f) (hsub : ∀ e ∈ log, e ∈ log') : Early log' n f := by
  cases f with
  | callback => exact h
  | malformed => trivial
  | error id => trivial
  | result id b => exact Asked.mono h hsub

theorem Quiet.grow (h : Quiet w n) (hs : ∀ m ∈ w'.toServer n, m ∈ w.toServer n)
    (hc : ∀ f ∈ w'.toClient n, f ∈ w.toClient n) (hsub : ∀ e ∈ w.log, e ∈ w'.log) : Quiet w' n :=
  ⟨fun m hm => h.toServer m (hs m hm), fun f hf => (h.toClient f (hc f hf)).mono hsub⟩

theorem conn_setServer {d : Daemon} {s' : Nat} {c : Conn}
    (h : ((w.setServer s d).servers s').conn = some c) :
    (s' = s ∧ d.conn = some c) ∨ (s' ≠ s ∧ (w.servers s').conn = some c) := by
  by_cases hss : s' = s
  · subst hss
    exact .inl ⟨rfl, by simpa [Pipes.setServer] using h⟩
  · exact .inr ⟨hss, by simpa [Pipes.setServer, hss] using h⟩

theorem sound_setServer {d : Daemon} (hd : Sound log d) (h : ∀ s', s' ≠ s → Sound log (w.servers s'))
    (s' : Nat) : Sound log ((w.setServer s d).servers s') := by
  by_cases hss : s' = s
  · subst hss
    simpa [Pipes.setServer] using hd
  · simpa [Pipes.setServer, hss] using h s' hss

/-- One server changes; it keeps its connection or has none. -/
theorem Outside.setServer (h : Outside w) {d : Daemon} (hd : Sound w.log d)
    (hc : ∀ c, d.conn = some c → (w.servers s).conn = some c) : Outside (w.setServer s d) := by
  have hconn : ∀ s' c, ((w.setServer s d).servers s').conn = some c →
      (w.servers s').conn = some c := by
    intro s' c hs'
    rcases conn_setServer hs' with ⟨rfl, hd⟩ | ⟨-, ho⟩
    · exact hc c hd
    · exact ho
  refine ⟨h.log, fun n => ?_, h.styled, h.messages, sound_setServer hd fun s' _ => h.servers s',
    h.handled, fun s' c hs' => h.serves s' c (hconn s' c hs'),
    fun s₁ s₂ c h₁ h₂ => h.one s₁ s₂ c (hconn s₁ c h₁) (hconn s₂ c h₂)⟩
  exact (h.wires n).imp id fun hq => ⟨hq.toServer, hq.toClient⟩

/-- A server begins to serve a connection that no server has served. -/
theorem Outside.accept (h : Outside w) {c : Conn} (hc : c ∉ w.accepted) :
    Outside (({ w with accepted := c :: w.accepted } : Pipes).setServer s
      ((w.servers s).serveConnection c)) := by
  have hsound : Sound w.log ((w.servers s).serveConnection c) := by
    refine ⟨fun n hn ha => ?_, fun _ _ _ => rfl, fun n _ => .inr (by rintro x ⟨⟩)⟩
    obtain ⟨b, hb⟩ := ha
    cases hn
    exact absurd (h.handled _ _ _ hb) hc
  have hconn : ∀ s' c', ((({ w with accepted := c :: w.accepted } : Pipes).setServer s
      ((w.servers s).serveConnection c)).servers s').conn = some c' →
      (s' = s ∧ c' = c) ∨ (s' ≠ s ∧ (w.servers s').conn = some c') := by
    intro s' c' hs'
    apply (conn_setServer hs').imp_left
    rintro ⟨he, hd⟩
    exact ⟨he, (Option.some_inj.1 hd).symm⟩
  refine ⟨h.log, fun n => ?_, h.styled, h.messages, sound_setServer hsound fun s' _ => h.servers s',
    ?_, ?_, ?_⟩
  · exact (h.wires n).imp id fun hq => ⟨hq.toServer, hq.toClient⟩
  · exact fun c' m b hm => List.mem_cons_of_mem _ (h.handled c' m b hm)
  · intro s' c' hs'
    rcases hconn s' c' hs' with ⟨-, rfl⟩ | ⟨-, hs'⟩
    · exact List.mem_cons_self
    · exact List.mem_cons_of_mem _ (h.serves s' c' hs')
  · intro s₁ s₂ c' h₁ h₂
    rcases hconn s₁ c' h₁ with ⟨e₁, hc₁⟩ | ⟨-, h₁⟩ <;> rcases hconn s₂ c' h₂ with ⟨e₂, hc₂⟩ | ⟨-, h₂⟩
    · rw [e₁, e₂]
    · rw [hc₁] at h₂
      exact absurd (h.serves s₂ c h₂) hc
    · rw [hc₂] at h₁
      exact absurd (h.serves s₁ c h₁) hc
    · exact h.one s₁ s₂ c' h₁ h₂

/-- A frame leaves a queue. -/
theorem Outside.pop (h : Outside w) {f : Msg} {fs : List Msg} (hf : w.toServer n = f :: fs) :
    Outside { w with toServer := Function.update w.toServer n fs } := by
  have hsub : ∀ n', ∀ m ∈ Function.update w.toServer n fs n', m ∈ w.toServer n' := by
    intro n' m hm
    by_cases hn : n' = n
    · subst hn
      rw [Function.update_self] at hm
      rw [hf]
      exact List.mem_cons_of_mem _ hm
    · rwa [Function.update_of_ne hn] at hm
  refine ⟨h.log, fun n' => ?_, h.styled, fun n' m hm => h.messages n' m (hsub n' m hm), h.servers,
    h.handled, h.serves, h.one⟩
  exact (h.wires n').imp id fun hq => hq.grow (hsub n') (fun _ hf => hf) fun _ he => he

/-- A server begins to handle a request, and goes on as `d`. -/
theorem Outside.note (h : Outside w) {c : Conn} {m : Method} {d : Daemon}
    (hc : (w.servers s).conn = some c) (hdc : d.conn = some c)
    (hfits : Fits w.log (.handled c m (w.servers s).win32))
    (hd : Sound (.handled c m (w.servers s).win32 :: w.log) d) :
    Outside (({ w with log := .handled c m (w.servers s).win32 :: w.log } : Pipes).setServer s d) := by
  have hsub : ∀ e ∈ w.log, e ∈ Noted.handled c m (w.servers s).win32 :: w.log :=
    fun _ he => List.mem_cons_of_mem _ he
  have hstyled : ∀ n, .styled n ∈ Noted.handled c m (w.servers s).win32 :: w.log → .styled n ∈ w.log := by
    intro n hn
    simpa using hn
  have hconn : ∀ s' c', ((({ w with log := .handled c m (w.servers s).win32 :: w.log } : Pipes).setServer
      s d).servers s').conn = some c' → (w.servers s').conn = some c' := by
    intro s' c' hs'
    rcases conn_setServer hs' with ⟨rfl, he⟩ | ⟨-, ho⟩
    · rw [hc, ← hdc, he]
    · exact ho
  refine ⟨fits_cons h.log hfits, fun n => ?_, fun n hn => ?_, h.messages,
    sound_setServer hd fun s' hss => ?_, ?_, fun s' c' hs' => h.serves s' c' (hconn s' c' hs'),
    fun s₁ s₂ c' h₁ h₂ => h.one s₁ s₂ c' (hconn s₁ c' h₁) (hconn s₂ c' h₂)⟩
  · exact (h.wires n).imp (hsub _) fun hq => hq.grow (fun _ hm => hm) (fun _ hf => hf) hsub
  · obtain ⟨hlt, ha⟩ := h.styled n (hstyled n hn)
    exact ⟨hlt, ha.mono hsub⟩
  · refine (h.servers s').grow hsub fun e he => ?_
    -- no two servers have the connection
    rcases List.mem_cons.1 he with rfl | he
    · refine .inr fun c' hc' hask => hss (h.one s' s c ?_ hc)
      cases m with
      | call => exact hask.elim
      | setPathStyle style => rw [hc', ← show c = c' from hask]
    · exact .inl he
  · intro c' m' b hm
    rcases List.mem_cons.1 hm with heq | hm
    · cases heq
      exact h.serves s c hc
    · exact h.handled c' m' b hm

/-- A request is handled: the client's connection had its success, or the request is
`arpc.set_path_style`. -/
theorem Outside.handle (h : Outside w) {c : Conn} {id : Int} {m : Method}
    (hc : (w.servers s).conn = some c)
    (hm : ∀ n, c = .ours n → (m = .call ∧ .styled n ∈ w.log) ∨ m = .setPathStyle (some "win32")) :
    Outside ((w.noteRequest s (.request id m)).setServer s
      ((w.servers s).takeUp (.request id m))) := by
  have hold := h.servers s
  have hsub : ∀ e ∈ w.log, e ∈ Noted.handled c m (w.servers s).win32 :: w.log :=
    fun _ he => List.mem_cons_of_mem _ he
  have hfits : Fits w.log (.handled c m (w.servers s).win32) := by
    refine ⟨fun n hn => ?_, hold.silent c hc⟩
    subst hn
    rcases hm n rfl with ⟨rfl, hs⟩ | rfl
    · obtain ⟨b, hb⟩ := (h.styled n hs).2
      exact ⟨fun hnone => absurd rfl (hnone _ hb), fun _ => hold.asked n hc ⟨b, hb⟩⟩
    · exact ⟨fun _ => rfl, nofun⟩
  have hnote : w.noteRequest s (.request id m) =
      { w with log := .handled c m (w.servers s).win32 :: w.log } := by
    rw [noteRequest, hc]
  rw [hnote]
  cases m with
  | call =>
    refine h.note hc hc hfits ?_
    apply (hold.grow hsub ?_).push ?_
    · intro e he
      rcases List.mem_cons.1 he with rfl | he
      · exact .inr fun _ _ hask => hask.elim
      · exact .inl he
    · intro n hn
      rw [hc] at hn
      rcases hm n (Option.some_inj.1 hn) with ⟨-, hs⟩ | he
      · exact .inl (hsub _ hs)
      · cases he
  | setPathStyle style =>
    have hconn : ((w.servers s).takeUp (.request id (.setPathStyle style))).conn = some c := by
      rw [← hc]
      cases style with
      | none => rfl
      | some t =>
        simp only [Daemon.takeUp, Daemon.arpcSetPathStyle]
        split <;> rfl
    refine h.note hc hconn hfits ⟨fun n hn _ => ?_, fun c' hc' hs => ?_, fun n hn => ?_⟩
    · rw [hconn] at hn
      rcases hm n (Option.some_inj.1 hn) with ⟨he, -⟩ | he
      · cases he
      · cases he
        rfl
    · rw [hconn] at hc'
      exact absurd (Option.some_inj.1 hc') (hs _ List.mem_cons_self)
    · rw [hconn] at hn
      rcases hm n (Option.some_inj.1 hn) with ⟨he, -⟩ | he
      · cases he
      cases he
      cases Option.some_inj.1 hn
      rw [hn] at hc
      rcases hold.stack n hc with hs | hs
      · exact .inl (hsub _ hs)
      · refine .inr fun x hx => ?_
        rcases List.mem_cons.1 hx with rfl | hx
        · exact ⟨id, true, rfl, fun _ => ⟨_, List.mem_cons_self⟩⟩
        · obtain ⟨id', ok, he, ha⟩ := hs x hx
          exact ⟨id', ok, he, fun hok => (ha hok).mono hsub⟩

/-- A frame that is no request. -/
theorem Outside.other (h : Outside w) :
    Outside (w.setServer s ((w.servers s).takeUp .answer)) := by
  have hold := h.servers s
  rw [Daemon.takeUp]
  split
  · rename_i st hst
    refine h.setServer (hold.shrink ?_) fun c hc => hc
    intro x hx
    rw [hst]
    exact List.mem_cons_of_mem _ hx
  · exact h.setServer (hold.push fun n _ => .inr ⟨0, false, rfl, nofun⟩) fun c hc => hc

/-- A frame is read; what the client wrote is fit for its connection. -/
theorem Outside.takeUp (h : Outside w) {c : Conn} {m : Msg} (hc : (w.servers s).conn = some c)
    (hm : ∀ n, c = .ours n → FromClient m ∧
      (.styled n ∈ w.log ∨ ∃ id, m = .request id (.setPathStyle (some "win32")))) (parses : Bool) :
    Outside ((w.noteRequest s (if parses then m else .answer)).setServer s
      ((w.servers s).takeUp (if parses then m else .answer))) := by
  cases parses with
  | false => exact h.other
  | true =>
    cases m with
    | answer => exact h.other
    | request id m =>
      refine h.handle hc fun n hn => ?_
      obtain ⟨hfrom, hs⟩ := hm n hn
      cases m with
      | call =>
        rcases hs with hs | ⟨id', he⟩
        · exact .inl ⟨rfl, hs⟩
        · cases he
      | setPathStyle style => exact .inr (congrArg _ hfrom)

theorem Outside.read (h : Outside w) {m : Msg} {parses : Bool} (hr : w.read s m parses = some w') :
    Outside w' := by
  unfold Pipes.read at hr
  dsimp only at hr
  split at hr
  swap
  · cases hr
  split at hr
  · rename_i n hc
    split at hr
    · rename_i f fs hf
      split at hr
      · rename_i hfm
        subst hfm
        cases hr
        have hmem : f ∈ w.toServer n := by simp [hf]
        refine (h.pop hf).takeUp hc (fun n' hn' => ?_) parses
        cases hn'
        exact ⟨h.messages n f hmem, (h.wires n).imp id fun hq => hq.toServer f hmem⟩
      · cases hr
    · cases hr
  · rename_i k hc
    cases hr
    exact h.takeUp hc nofun parses
  · cases hr

/-- Reading is nothing to the client. -/
theorem read_frame {m : Msg} {parses : Bool} (hr : w.read s m parses = some w') :
    w'.client = w.client ∧ ∀ n, .styled n ∈ w'.log ↔ .styled n ∈ w.log := by
  have hnote : ∀ (v : Pipes) (m : Msg), (v.noteRequest s m).client = v.client ∧
      ∀ n, .styled n ∈ (v.noteRequest s m).log ↔ .styled n ∈ v.log := by
    intro v m
    cases m with
    | answer => exact ⟨rfl, fun _ => Iff.rfl⟩
    | request id m =>
      rw [noteRequest]
      split
      · exact ⟨rfl, fun n => by simp⟩
      · exact ⟨rfl, fun _ => Iff.rfl⟩
  unfold Pipes.read at hr
  dsimp only at hr
  split at hr
  swap
  · cases hr
  split at hr
  · split at hr
    · split at hr
      · cases hr
        exact hnote _ _
      · cases hr
    · cases hr
  · cases hr
    exact hnote w _
  · cases hr

/-- A server writes a frame that is fit for the connection. -/
theorem Outside.tell (h : Outside w) {f : Got}
    (hf : ∀ n, (w.servers s).conn = some (.ours n) → .styled n ∈ w.log ∨ Early w.log n f) :
    Outside (w.tell s f) := by
  unfold Pipes.tell
  split
  · rename_i n hc
    refine ⟨h.log, fun n' => ?_, h.styled, h.messages, h.servers, h.handled, h.serves, h.one⟩
    by_cases hn : n' = n
    · subst hn
      rcases h.wires n' with hs | hq
      · exact .inl hs
      refine (hf n' hc).imp id fun he => ⟨hq.toServer, fun f' hf' => ?_⟩
      simp only [Function.update_self, List.mem_append, List.mem_singleton] at hf'
      rcases hf' with hf' | rfl
      · exact hq.toClient f' hf'
      · exact he
    · refine (h.wires n').imp id fun hq => hq.grow (fun _ hm => hm) (fun f' hf' => ?_) fun _ he => he
      simpa [hn] using hf'
  · exact h

theorem tell_servers (f : Got) : (w.tell s f).servers = w.servers ∧ (w.tell s f).log = w.log ∧
    (w.tell s f).client = w.client := by
  unfold Pipes.tell
  split <;> exact ⟨rfl, rfl, rfl⟩

/-- The reply that a server may make is fit for its connection. -/
theorem Sound.reply {d : Daemon} (h : Sound log d) {y : Doing} {st : List Doing} {r : Got}
    (hst : d.stack = y :: st) (hr : Daemon.MayReply y r) (hn : d.conn = some (.ours n)) :
    .styled n ∈ log ∨ Early log n r := by
  refine (h.stack n hn).imp id fun hs => ?_
  obtain ⟨id, ok, rfl, ha⟩ := hs y (by simp [hst])
  cases r with
  | callback => exact hr.elim
  | malformed => trivial
  | error id' => trivial
  | result id' b => exact ha hr.2

theorem Outside.callback (h : Outside w) {id : Int} {st : List Doing}
    (hst : (w.servers s).stack = .handler id :: st) :
    Outside ((w.tell s .callback).setServer s
      { w.servers s with stack := .exchange :: .handler id :: st }) := by
  have hold := h.servers s
  have hs : ∀ n, (w.servers s).conn = some (.ours n) → .styled n ∈ w.log :=
    fun n hn => hold.of_handler hn (show .handler id ∈ (w.servers s).stack by simp [hst])
  obtain ⟨hsrv, hlog, -⟩ := tell_servers (w := w) (s := s) .callback
  refine (h.tell fun n hn => .inl (hs n hn)).setServer ?_ fun c hc => ?_
  · rw [hlog, ← hst]
    exact hold.push fun n hn => .inl (hs n hn)
  · rw [hsrv]
    exact hc

theorem Outside.reply (h : Outside w) {y : Doing} {st : List Doing} {r : Got}
    (hst : (w.servers s).stack = y :: st) (hr : Daemon.MayReply y r) (sent : Bool) :
    Outside (if sent then (w.tell s r).setServer s { w.servers s with stack := st }
      else w.setServer s { w.servers s with stack := st }.pipeFailed) := by
  have hold : Sound w.log { w.servers s with stack := st } := by
    apply (h.servers s).shrink
    intro x hx
    rw [hst]
    exact List.mem_cons_of_mem _ hx
  cases sent with
  | true =>
    obtain ⟨hsrv, hlog, -⟩ := tell_servers (w := w) (s := s) r
    refine (h.tell fun n hn => (h.servers s).reply hst hr hn).setServer ?_ fun c hc => ?_
    · rw [hlog]
      exact hold
    · rw [hsrv]
      exact hc
  | false =>
    refine h.setServer hold.pipeFailed fun c hc => ?_
    exact pipeFailed_conn (d := { w.servers s with stack := st }) hc

/-! ## Where the client stands -/

theorem Standing.congr (h : Standing l log) (hs : ∀ n, .styled n ∈ log' ↔ .styled n ∈ log) :
    Standing l log' := by
  cases h with
  | asking x s rest hst hp hn hrest => exact .asking x s rest hst hp (by rwa [hs]) hrest
  | styled hn hst => exact .styled (fun n hp => (hs n).2 (hn n hp)) hst

/-- The exchange `x` is the one to go on, above `rest`. -/
structure Turn (l : Link) (log : List Noted) (x : Exchange) (p : Purpose) (rest : List Frame) :
    Prop where
  rest : NoStyle rest
  stub : ∀ s, p = .stub s → ∀ n, l.pipe = some n → .styled n ∈ log
  style : ∀ s, p = .pathStyle s → l.pipe = some x.conn ∧ .styled x.conn ∉ log

theorem NoStyle.cons {f : Frame} (h : NoStyle rest)
    (hf : ∀ x s, f ≠ .begun x (.pathStyle s) ∧ f ≠ .wait x (.pathStyle s)) : NoStyle (f :: rest) := by
  intro f' hf'
  rcases List.mem_cons.1 hf' with rfl | hf'
  · exact hf
  · exact h f' hf'

theorem NoStyle.tail {f : Frame} (h : NoStyle (f :: rest)) : NoStyle rest :=
  fun f' hf' => h f' (List.mem_cons_of_mem _ hf')

theorem Standing.turn (h : Standing l log)
    (hs : l.stack = .begun x p :: rest ∨ l.stack = .wait x p :: rest) : Turn l log x p rest := by
  cases h with
  | asking y s rest' hst hp hn hrest =>
    have he : x = y ∧ p = .pathStyle s ∧ rest = rest' := by
      rcases hs with hs | hs <;> rcases hst with hst | hst <;> rw [hs] at hst <;> cases hst <;>
        exact ⟨rfl, rfl, rfl⟩
    obtain ⟨rfl, rfl, rfl⟩ := he
    exact ⟨hrest, nofun, fun _ _ => ⟨hp, hn⟩⟩
  | styled hn hst =>
    rcases hs with hs | hs
    · rw [hs] at hst
      refine ⟨hst.tail, fun _ _ => hn, fun s he => ?_⟩
      subst he
      exact absurd rfl (hst _ List.mem_cons_self x s).1
    · rw [hs] at hst
      refine ⟨hst.tail, fun _ _ => hn, fun s he => ?_⟩
      subst he
      exact absurd rfl (hst _ List.mem_cons_self x s).2

/-- A callback's function runs only where the open connection has had its success. -/
theorem Standing.of_codeRuns (h : Standing l log) (hc : Link.codeRuns l.stack = true) :
    (∀ n, l.pipe = some n → .styled n ∈ log) ∧ NoStyle l.stack := by
  cases h with
  | asking x s rest hst hp hn hrest =>
    rcases hst with hst | hst <;> rw [hst] at hc <;> cases hc
  | styled hn hst => exact ⟨hn, hst⟩

theorem Standing.turn_callback {m : Nat} (h : Standing l log)
    (hs : l.stack = .callback m :: .wait x p :: rest) : Turn l log x p rest := by
  obtain ⟨hn, hst⟩ := h.of_codeRuns (by rw [hs]; rfl)
  rw [hs] at hst
  refine ⟨hst.tail.tail, fun _ _ => hn, fun s he => ?_⟩
  subst he
  exact absurd rfl (hst.tail _ List.mem_cons_self x s).2

theorem disconnect_pipe (l : Link) (x : Exchange) : (l.disconnect x).pipe = none := by
  unfold Link.disconnect
  split
  · rfl
  · rename_i hn
    exact hn

/-- An exchange fails: after `set_path_style` the connection is gone. -/
theorem Turn.failed (h : Turn l log x p rest) (hp : ∀ n, l'.pipe = some n → l.pipe = some n) :
    Standing (l'.failed x p rest) log := by
  refine .styled (fun n hn => ?_) ?_
  · cases p with
    | stub s => exact h.stub s rfl n (hp n hn)
    | pathStyle s =>
      rw [show ((l'.failed x (.pathStyle s) rest).pipe) = (l'.disconnect x).pipe from rfl,
        disconnect_pipe] at hn
      cases hn
  · rw [Link.failed_stack]
    exact h.rest

theorem Turn.waits (h : Turn l log x p rest) (hs : l'.stack = .wait x p :: rest)
    (hp : l'.pipe = l.pipe) : Standing l' log := by
  cases p with
  | pathStyle s =>
    obtain ⟨ho, hn⟩ := h.style s rfl
    exact .asking x s rest (.inr hs) (hp.trans ho) hn h.rest
  | stub s =>
    refine .styled (fun n hn => h.stub s rfl n (hp ▸ hn)) ?_
    rw [hs]
    exact h.rest.cons fun _ _ => by simp

theorem Turn.sent (h : Turn l log x p rest) (ok : Bool) :
    Standing (if (l.sendFrame x ok).2 then { (l.sendFrame x ok).1 with stack := .wait x p :: rest }
      else (l.sendFrame x ok).1.failed x p rest) log := by
  unfold Link.sendFrame
  cases hp : l.pipe with
  | none => exact h.failed fun n hn => hn
  | some n =>
    cases ok with
    | true => exact h.waits rfl rfl
    | false =>
      show Standing (((l.use x .send n).disconnect x).failed x p rest) log
      refine h.failed fun n hn => ?_
      rw [disconnect_pipe] at hn
      cases hn

/-- A frame that was read: the success of `set_path_style` is noted, and it is not called back. -/
theorem Turn.received (h : Turn l log x p rest) (hl : l'.pipe = l.pipe) {f : Got}
    (hsub : ∀ e ∈ log, e ∈ log') (hcb : ∀ s, p = .pathStyle s → f ≠ .callback)
    (hok : ∀ s b, p = .pathStyle s → f = .result x.id b → .styled x.conn ∈ log') :
    Standing (l'.received x p rest f) log' := by
  have hrest := h.rest
  cases p with
  | stub s =>
    have hpipe : ∀ n, (l'.received x (.stub s) rest f).pipe = some n → .styled n ∈ log' := by
      intro n hn
      rcases (Link.received_touches l' x (.stub s) rest f).pipe with hp | hp
      · rw [hp, hl] at hn
        exact hsub _ (h.stub s rfl n hn)
      · rw [hp] at hn
        cases hn
    have hwait : NoStyle (.wait x (.stub s) :: rest) := hrest.cons fun _ _ => by simp
    refine .styled hpipe ?_
    cases Link.received_outcome l' x (.stub s) rest f with
    | waits hs =>
      rw [hs]
      exact hwait
    | calledBack hs =>
      rw [hs]
      exact hwait.cons fun _ _ => by simp
    | ended hs =>
      rw [hs]
      exact hrest
    | begins y s hs =>
      rw [hs]
      exact hrest.cons fun _ _ => by simp
  | pathStyle s =>
    have hfail : ∀ k : Link, Standing (k.failed x (.pathStyle s) rest) log' := by
      intro k
      refine .styled (fun n hn => ?_) (by rw [Link.failed_stack]; exact hrest)
      rw [show ((k.failed x (.pathStyle s) rest).pipe) = (k.disconnect x).pipe from rfl,
        disconnect_pipe] at hn
      cases hn
    cases f with
    | callback => exact absurd rfl (hcb s rfl)
    | malformed => exact hfail _
    | error id =>
      rw [Link.received]
      split <;> exact hfail _
    | result id b =>
      rw [Link.received]
      split
      · exact hfail _
      · rename_i he
        have hid : id = x.id := by simpa using he
        have hin := hok s b rfl (by rw [hid])
        have hp : l'.pipe = some x.conn := hl.trans (h.style s rfl).1
        rw [Link.succeeded, hp]
        refine .styled (fun n hn => ?_) (hrest.cons fun _ _ => by simp)
        rw [show n = x.conn from (Option.some_inj.1 hn).symm]
        exact hin

/-! ## What the client does -/

theorem Outside.client (h : Outside w) (hm : w.client.made ≤ l'.made) :
    Outside { w with client := l' } := by
  refine ⟨h.log, fun n => ?_, fun n hn => ?_, h.messages, h.servers, h.handled, h.serves, h.one⟩
  · exact (h.wires n).imp id fun hq => ⟨hq.toServer, hq.toClient⟩
  · obtain ⟨hlt, ha⟩ := h.styled n hn
    exact ⟨Nat.lt_of_lt_of_le hlt hm, ha⟩

/-- An exchange has used the pipe. -/
theorem Inv.touched (h : Inv w) (hst : Standing l' w.log) (ht : Link.Touches w.client l' x) :
    Inv { w with client := l' } := by
  refine ⟨h.outside.client (Nat.le_of_eq ht.made.symm), hst, fun n hn => ?_⟩
  rw [ht.made]
  rcases ht.pipe with hp | hp
  · rw [hp] at hn
    exact h.pipe n hn
  · rw [hp] at hn
    cases hn

theorem Inv.call (h : Inv w) {s : Stub} {connects : Bool}
    (hr : w.act (.call s connects) = some w') : Inv w' := by
  obtain ⟨l', hl, rfl⟩ := Option.map_eq_some_iff.1 hr
  rw [Link.step] at hl
  split at hl
  swap
  · cases hl
  rename_i hc
  obtain ⟨hn, hst⟩ := h.standing.of_codeRuns hc
  cases hl
  unfold Link.arpcBegin
  cases hp : w.client.pipe with
  | some n =>
    refine ⟨h.outside.client (Nat.le_refl _), .styled hn ?_, h.pipe⟩
    exact hst.cons fun _ _ => by simp
  | none =>
    cases connects with
    | false => exact ⟨h.outside.client (Nat.le_refl _), h.standing, h.pipe⟩
    | true =>
      have hnew : Noted.styled w.client.made ∉ w.log := fun hs =>
        Nat.lt_irrefl _ (h.outside.styled _ hs).1
      refine ⟨h.outside.client (Nat.le_succ _), ?_, fun n hn => ?_⟩
      · exact .asking ⟨w.client.nextId, w.client.made⟩ s w.client.stack (.inl rfl) rfl hnew hst
      · cases hn
        exact Nat.lt_succ_self _

/-- What the client writes is fit for its connection. -/
theorem Inv.write (h : Inv w) {ok : Bool}
    (hm : ∀ n m, w.client.pipe = some n → writes w.client = some m →
      (∃ id, m = .request id (.setPathStyle (some "win32"))) ∨ (.styled n ∈ w.log ∧ FromClient m)) :
    Inv (w.write ok) := by
  unfold Pipes.write
  split
  swap
  · exact h
  rename_i n m hp hw
  have hsub : ∀ e ∈ w.log, e ∈ Noted.sent n m :: w.log := fun _ he => List.mem_cons_of_mem _ he
  have hstyled : ∀ k, Noted.styled k ∈ Noted.sent n m :: w.log ↔ .styled k ∈ w.log := by
    intro k
    simp
  have hfits : Fits w.log (.sent n m) := by
    rcases hm n m hp hw with ⟨id, rfl⟩ | ⟨hs, -⟩
    · trivial
    · cases m with
      | answer => trivial
      | request id m =>
        cases m with
        | call => exact hs
        | setPathStyle style => trivial
  have hfrom : FromClient m := by
    rcases hm n m hp hw with ⟨id, rfl⟩ | ⟨-, hf⟩
    · rfl
    · exact hf
  have hin : ∀ k, ∀ m' ∈ Function.update w.toServer n (w.toServer n ++ [m]) k,
      m' ∈ w.toServer k ∨ (k = n ∧ m' = m) := by
    intro k m' hm'
    by_cases hk : k = n
    · subst hk
      simpa using hm'
    · exact .inl (by simpa [hk] using hm')
  refine ⟨⟨fits_cons h.outside.log hfits, fun k => ?_, fun k hk => ?_, fun k m' hm' => ?_, fun s => ?_,
    ?_, h.outside.serves, h.outside.one⟩, h.standing.congr hstyled, h.pipe⟩
  · rcases h.outside.wires k with hs | hq
    · exact .inl (hsub _ hs)
    rcases hm n m hp hw with ⟨id, he⟩ | ⟨hs, -⟩
    · refine .inr ⟨fun m' hm' => ?_, fun f hf => (hq.toClient f hf).mono hsub⟩
      rcases hin k m' hm' with ho | ⟨-, rfl⟩
      · exact hq.toServer m' ho
      · exact ⟨id, he⟩
    · by_cases hk : k = n
      · exact .inl (hsub _ (hk ▸ hs))
      · refine .inr ⟨fun m' hm' => ?_, fun f hf => (hq.toClient f hf).mono hsub⟩
        rcases hin k m' hm' with ho | ⟨he, -⟩
        · exact hq.toServer m' ho
        · exact absurd he hk
  · obtain ⟨hlt, ha⟩ := h.outside.styled k ((hstyled k).1 hk)
    exact ⟨hlt, ha.mono hsub⟩
  · rcases hin k m' hm' with ho | ⟨-, rfl⟩
    · exact h.outside.messages k m' ho
    · exact hfrom
  · refine (h.outside.servers s).grow hsub fun e he => ?_
    rcases List.mem_cons.1 he with rfl | he
    · exact .inr fun _ _ => id
    · exact .inl he
  · intro c m' b hb
    rcases List.mem_cons.1 hb with he | hb
    · cases he
    · exact h.outside.handled c m' b hb

theorem write_client (ok : Bool) : (w.write ok).client = w.client := by
  unfold Pipes.write
  split <;> rfl

theorem Inv.send (h : Inv w) {ok : Bool} (hr : (w.write ok).act (.send ok) = some w') : Inv w' := by
  obtain ⟨l', hl, rfl⟩ := Option.map_eq_some_iff.1 hr
  rw [write_client, Link.step] at hl
  split at hl
  swap
  · cases hl
  rename_i x p rest hst
  have hturn := h.standing.turn (.inl hst)
  have hi : Inv (w.write ok) := by
    refine h.write fun n m hp hw => ?_
    rw [writes, hst] at hw
    cases hw
    cases p with
    | stub s => exact .inr ⟨hturn.stub s rfl n hp, trivial⟩
    | pathStyle s => exact .inl ⟨x.id, rfl⟩
  cases hl
  rw [← write_client ok] at hst ⊢
  exact hi.touched ((hi.standing.turn (.inl hst)).sent ok) (Link.sent_touches _ x p rest ok)

theorem Inv.answer (h : Inv w) {ok : Bool} (hr : (w.write ok).act (.answer ok) = some w') :
    Inv w' := by
  obtain ⟨l', hl, rfl⟩ := Option.map_eq_some_iff.1 hr
  rw [write_client, Link.step] at hl
  split at hl
  swap
  · cases hl
  rename_i m x p rest hst
  have hi : Inv (w.write ok) := by
    refine h.write fun n m' hp hw => .inr ⟨?_, ?_⟩
    · exact (h.standing.of_codeRuns (by rw [hst]; rfl)).1 n hp
    · rw [writes, hst] at hw
      cases hw
      trivial
  cases hl
  rw [← write_client ok] at hst ⊢
  exact hi.touched ((hi.standing.turn_callback hst).sent ok) (Link.sent_touches _ x p rest ok)

theorem Inv.gaveUp (h : Inv w) (hr : w.gaveUp = some w') : Inv w' := by
  unfold Pipes.gaveUp at hr
  split at hr
  · rename_i x p rest hst
    cases hr
    exact h.touched ((h.standing.turn (.inl hst)).failed fun _ hn => hn) (Link.failed_touches _ x p rest)
  · rename_i m x p rest hst
    cases hr
    exact h.touched ((h.standing.turn_callback hst).failed fun _ hn => hn)
      (Link.failed_touches _ x p rest)
  · cases hr

/-- The client takes a frame; what is noted of it was earned. -/
theorem Outside.catch (h : Outside w) {f : Got} {fs : List Got} (hf : w.toClient n = f :: fs)
    {note : Option Nat} (hnote : ∀ k, note = some k → k < w.client.made ∧ Asked w.log k) :
    Outside { w with
      toClient := Function.update w.toClient n fs
      log := (note.map Noted.styled).toList ++ w.log } := by
  have hsub : ∀ e ∈ w.log, e ∈ (note.map Noted.styled).toList ++ w.log :=
    fun _ he => List.mem_append_right _ he
  have hnew : ∀ e ∈ (note.map Noted.styled).toList ++ w.log,
      e ∈ w.log ∨ ∃ k, note = some k ∧ e = .styled k := by
    intro e he
    cases note with
    | none => exact .inl he
    | some k =>
      rcases List.mem_cons.1 he with rfl | he
      · exact .inr ⟨k, rfl, rfl⟩
      · exact .inl he
  have hpop : ∀ k, ∀ g ∈ Function.update w.toClient n fs k, g ∈ w.toClient k := by
    intro k g hg
    by_cases hk : k = n
    · subst hk
      rw [Function.update_self] at hg
      rw [hf]
      exact List.mem_cons_of_mem _ hg
    · rwa [Function.update_of_ne hk] at hg
  refine ⟨?_, fun k => ?_, fun k hk => ?_, h.messages, fun s => ?_, fun c m b hb => ?_, h.serves, h.one⟩
  · cases note with
    | none => exact h.log
    | some k => exact fits_cons h.log trivial
  · exact (h.wires k).imp (hsub _) fun hq => hq.grow (fun _ hm => hm) (hpop k) hsub
  · rcases hnew _ hk with ho | ⟨k', he, hs⟩
    · obtain ⟨hlt, ha⟩ := h.styled k ho
      exact ⟨hlt, ha.mono hsub⟩
    · cases hs
      exact ⟨(hnote k he).1, (hnote k he).2.mono hsub⟩
  · refine (h.servers s).grow hsub fun e he => ?_
    rcases hnew e he with ho | ⟨k, -, rfl⟩
    · exact .inl ho
    · exact .inr fun _ _ => id
  · rcases hnew _ hb with ho | ⟨k, -, he⟩
    · exact h.handled c m b ho
    · cases he

theorem Inv.recv_none (h : Inv w) (hr : w.act (.recv none) = some w') : Inv w' := by
  obtain ⟨l', hl, rfl⟩ := Option.map_eq_some_iff.1 hr
  rw [Link.step] at hl
  split at hl
  swap
  · cases hl
  rename_i x p rest hst
  have hturn := h.standing.turn (.inr hst)
  have ht := Link.recvFrame_touches w.client x none
  have hnone : (w.client.recvFrame x none).2 = none := by
    unfold Link.recvFrame
    split <;> rfl
  split at hl
  · rename_i l₁ f he
    rw [he] at hnone
    cases hnone
  · rename_i l₁ he
    rw [he] at ht
    cases hl
    refine h.touched (hturn.failed fun n hn => ?_) (ht.trans (Link.failed_touches l₁ x p rest))
    rcases ht.pipe with hp | hp
    · exact hp ▸ hn
    · rw [hp] at hn
      cases hn

/-- What the client makes of a frame is the frame, or an error. -/
theorem sees_cases {x : Exchange} {f g : Got} {c : Catch} (h : c.sees x f = some g) :
    g = f ∨ g = .malformed ∨ ∃ id, g = .error id := by
  cases c with
  | fails => cases h
  | garbled => exact .inr (.inl (Option.some_inj.1 h).symm)
  | whole => exact .inl (Option.some_inj.1 h).symm
  | unread =>
    rw [Catch.sees] at h
    split at h
    · exact .inl (Option.some_inj.1 h).symm
    · exact .inr (.inr ⟨_, (Option.some_inj.1 h).symm⟩)

/-- A success that is noted is of the exchange on top, which is `set_path_style`'s. -/
theorem styles_some {g : Got} {k : Nat} (h : styles l g = some k) :
    ∃ x s rest b, l.stack = .wait x (.pathStyle s) :: rest ∧ g = .result x.id b ∧ l.pipe = some k := by
  unfold styles at h
  split at h
  · rename_i x s rest id b hst
    split at h
    · rename_i hid
      exact ⟨x, s, rest, b, hst, by rw [hid], h⟩
    · cases h
  · cases h

/-- The client reads a frame and goes on with it. -/
theorem Inv.catch (h : Inv w) {c : Catch} {f g : Got} {fs : List Got}
    (hst : w.client.stack = .wait x p :: rest) (hp : w.client.pipe = some n)
    (hf : w.toClient n = f :: fs) (hg : c.sees x f = some g)
    (hr : Pipes.act { w with
      toClient := Function.update w.toClient n fs
      log := ((styles w.client g).map Noted.styled).toList ++ w.log } (.recv (some g)) = some w') :
    Inv w' := by
  have hturn := h.standing.turn (.inr hst)
  have hmem : f ∈ w.toClient n := by simp [hf]
  -- before its success a connection carries what is early
  have hearly : ∀ s, p = .pathStyle s → n = x.conn ∧ Early w.log n f := by
    intro s he
    obtain ⟨hpx, hn⟩ := hturn.style s he
    rw [hp] at hpx
    cases hpx
    exact ⟨rfl, ((h.outside.wires _).resolve_left hn).toClient f hmem⟩
  have hnote : ∀ k, styles w.client g = some k → k < w.client.made ∧ Asked w.log k := by
    intro k hk
    obtain ⟨y, s, rest', b, hs, rfl, hpk⟩ := styles_some hk
    rw [hst] at hs
    cases hs
    obtain ⟨-, he⟩ := hearly s rfl
    rw [hp] at hpk
    cases hpk
    rcases sees_cases hg with rfl | hg | ⟨_, hg⟩
    · exact ⟨h.pipe _ hp, he⟩
    · cases hg
    · cases hg
  obtain ⟨l', hl, rfl⟩ := Option.map_eq_some_iff.1 hr
  rw [Link.step] at hl
  simp only [hst, Link.recvFrame, hp, Option.some_inj] at hl
  subst hl
  have ht : Link.Touches w.client ((w.client.use x .read n).received x p rest g) x :=
    (Link.use_touches .read hp).trans (Link.received_touches _ x p rest g)
  have hstand : Standing ((w.client.use x .read n).received x p rest g)
      (((styles w.client g).map Noted.styled).toList ++ w.log) := by
    have hpipe : (w.client.use x .read n).pipe = w.client.pipe := rfl
    refine hturn.received hpipe (fun _ he => List.mem_append_right _ he) (fun s he hcb => ?_)
      fun s b he hres => ?_
    · obtain ⟨-, hfe⟩ := hearly s he
      subst hcb
      rcases sees_cases hg with rfl | hg | ⟨_, hg⟩
      · exact hfe
      · cases hg
      · cases hg
    · have hk : styles w.client g = some x.conn := by
        subst he hres
        simp [styles, hst, (hturn.style s rfl).1]
      rw [hk]
      exact List.mem_append_left _ (by simp)
  refine ⟨(h.outside.catch hf hnote).client (Nat.le_of_eq ht.made.symm), hstand, fun k hk => ?_⟩
  rw [ht.made]
  rcases ht.pipe with he | he
  · exact h.pipe k (he ▸ hk)
  · rw [he] at hk
    cases hk

theorem Inv.recv (h : Inv w) {c : Catch} (hr : w.recv c = some w') : Inv w' := by
  unfold Pipes.recv at hr
  split at hr
  · rename_i x p rest n hst hp
    split at hr
    · exact h.recv_none hr
    · rename_i c _ _ f fs hc hf
      obtain ⟨g, hg⟩ : ∃ g, c.sees x f = some g := by
        cases c with
        | fails => exact (hc rfl).elim
        | garbled => exact ⟨_, rfl⟩
        | whole => exact ⟨_, rfl⟩
        | unread =>
          rw [Catch.sees]
          split <;> exact ⟨_, rfl⟩
      rw [hg] at hr
      exact h.catch hst hp hf hg hr
    · cases hr
  · exact h.recv_none hr

/-! ## Runs -/

/-- A server's step: the client stays where it is. -/
theorem Inv.server (h : Inv w) (ho : Outside w') (hc : w'.client = w.client)
    (hs : ∀ n, .styled n ∈ w'.log ↔ .styled n ∈ w.log) : Inv w' := by
  refine ⟨ho, ?_, ?_⟩
  · rw [hc]
    exact h.standing.congr hs
  · rw [hc]
    exact h.pipe

/-- **Every step keeps the invariant.** -/
theorem Inv.step (h : Inv w) {e : Event} (hr : step w e = some w') : Inv w' := by
  cases e with
  | call s connects => exact h.call hr
  | send ok => exact h.send hr
  | answer ok => exact h.answer hr
  | recv c => exact h.recv hr
  | unsent =>
    rw [Pipes.step] at hr
    split at hr
    · exact h.gaveUp hr
    · cases hr
  | unanswered =>
    rw [Pipes.step] at hr
    split at hr
    · exact h.gaveUp hr
    · cases hr
  | accept s c =>
    rw [Pipes.step] at hr
    split at hr
    · rename_i hg
      cases hr
      exact h.server (h.outside.accept hg.2.1) rfl fun _ => Iff.rfl
    · cases hr
  | read s m parses =>
    obtain ⟨hc, hs⟩ := read_frame hr
    exact h.server (h.outside.read hr) hc hs
  | readFails s =>
    rw [Pipes.step] at hr
    split at hr
    · cases hr
      exact h.server (h.outside.setServer (h.outside.servers s).pipeFailed fun c => pipeFailed_conn) rfl
        fun _ => Iff.rfl
    · cases hr
  | callback s sent =>
    rw [Pipes.step] at hr
    split at hr
    · rename_i id st hst
      cases sent with
      | true =>
        cases hr
        obtain ⟨-, hlog, hcl⟩ := tell_servers (w := w) (s := s) .callback
        exact h.server (h.outside.callback hst) hcl fun _ => by rw [Pipes.setServer, hlog]
      | false =>
        cases hr
        exact h
    · cases hr
  | reply s r sent =>
    rw [Pipes.step] at hr
    split at hr
    · rename_i y st hst
      split at hr
      · rename_i hmay
        cases hr
        have ho := h.outside.reply hst hmay sent
        cases sent with
        | true =>
          obtain ⟨-, hlog, hcl⟩ := tell_servers (w := w) (s := s) r
          exact h.server ho hcl fun _ => by rw [if_pos rfl, Pipes.setServer, hlog]
        | false => exact h.server ho rfl fun _ => Iff.rfl
      · cases hr
    · cases hr

/-- **Win32 paths are settled before any request**: in every run, the first request that a server
handles on a connection of the client is `arpc.set_path_style`; the client sends a caller's request only
where that has succeeded; the server has `g_win32` set while it handles one; and on a connection that
did not ask it is not set. -/
theorem style_first (es : List Event) : Along step (fun _ _ w' => Styled w') {} es := by
  refine Along.of_kept (fun w e w' hi hs => ?_) es Inv.empty
  have hi' := hi.step hs
  exact ⟨hi'.outside.styled_all, hi'⟩

/-- The first connection breaks before its success; the server leaves it and takes the second. -/
example : ([.call .plain true, .send true, .accept 0 (.ours 0),
      .read 0 (.request 1 (.setPathStyle (some "win32"))) true, .recv .fails,
      .reply 0 (.result 1 true) false, .call .plain true, .send true, .accept 0 (.ours 1),
      .read 0 (.request 2 (.setPathStyle (some "win32"))) true, .reply 0 (.result 2 true) true,
      .recv .whole, .send true, .read 0 (.request 3 .call) true].foldlM step {}).map
        (fun w => w.log.take 4) =
    some [.handled (.ours 1) .call true, .sent 1 (.request 3 .call), .styled 1,
      .handled (.ours 1) (.setPathStyle (some "win32")) false] := by
  decide

end Pipes

end Session
