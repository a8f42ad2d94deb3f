import AlpmRpc.Server.Gpgdir

/-!
# Whose keyring gpgme reads

While the dispatcher's allocations and gpgme's calls succeed, gpgme's engine home is the gpgdir that
the last call's handle had when the call was dispatched (`Inv`). A call that goes on after a callback
is right about its keyring exactly when that is its handle's gpgdir (`answered_own`).
-/

set_option autoImplicit false

namespace Server

namespace Keyring

open Run Json

variable {k k' : Keyring}

structure Inv (k : Keyring) : Prop where
  null : k.lib 0 = none
  engine : ∀ d, k.pointed = some d → k.engine = d
  last : k.last = k.pointed
  /-- an error comes from a call, and the call was followed -/
  read : ∀ h l, k.lib h = some l → l.err = true → (k.seen h).isSome = true
  called : ∀ h ∈ k.calls, h ≠ 0 → (k.seen h).isSome = true ∧ k.last.isSome = true
  own : k.OwnKeyring

theorem Inv.empty : Inv {} where
  null := rfl
  engine := by simp
  last := rfl
  read := by simp
  called := by simp
  own := by simp [OwnKeyring]

/-- Nothing is executed while the server waits for a frame. -/
theorem own_of_waiting (h : k.running = false) : k.OwnKeyring := by
  intro hr
  cases h.symm.trans hr

/-! ## `arpc_gpgdir_follow` -/

theorem gpgdirOf_eq {h : Nat} {l : LibHandle} {d : Option Bytes}
    (hd : if l.err then k.seen h = some d else d = l.gpgdir) :
    k.gpgdirOf h l {} = ({ k with seen := Function.update k.seen h (some d) }, some d) := by
  rw [gpgdirOf]
  split at hd
  · rename_i he
    rw [if_pos he, ← hd, Function.update_eq_self]
  · rename_i he
    rw [if_neg he]
    subst hd
    cases hs : k.seen h with
    | none =>
      by_cases hn : (none : Option Bytes) = l.gpgdir
      · simp [refresh, ← hn]
      · simp [refresh, hn]
    | some old =>
      by_cases hn : old = l.gpgdir
      · subst hn
        simp [refresh, ← hs, Function.update_eq_self]
      · simp [refresh, hn]

theorem point_eq {d : Option Bytes} (hp : ∀ d, k.pointed = some d → k.engine = d) :
    k.point d {} = { k with engine := d, pointed := some d } := by
  unfold point
  split
  · rename_i he
    have hd := hp d he
    cases k
    simp_all
  · simp

/-- **`arpc_gpgdir_follow`** when nothing fails: gpgme is at the gpgdir that `gpgdir_of` has, whether
it was already or not. -/
theorem arpcGpgdirFollow_eq {h : Nat} {l : LibHandle} {d : Option Bytes}
    (hp : ∀ d, k.pointed = some d → k.engine = d)
    (hd : if l.err then k.seen h = some d else d = l.gpgdir) :
    k.arpcGpgdirFollow h l {} = { k with
      seen := Function.update k.seen h (some d), engine := d, pointed := some d } := by
  simp only [arpcGpgdirFollow, gpgdirOf_eq hd]
  exact point_eq hp

/-- What `gpgdir_of` has for a handle: it was read before any error of the handle. -/
theorem Inv.exists_read (hi : Inv k) {h : Nat} {l : LibHandle} (hl : k.lib h = some l) :
    ∃ d, if l.err then k.seen h = some d else d = l.gpgdir := by
  split
  · rename_i he
    exact Option.isSome_iff_exists.1 (hi.read h l hl he)
  · exact ⟨l.gpgdir, rfl⟩

theorem isSome_update {α : Type} {f : Nat → Option α} {h h' : Nat} {v : α}
    (hf : (f h').isSome = true) : (Function.update f h (some v) h').isSome = true := by
  by_cases he : h' = h
  · subst he
    simp
  · simpa [he] using hf

/-! ## Steps -/

/-- What a dispatched request does. -/
theorem step_dispatch {a : Reg} {params : Option Tree} {g : Given}
    (hs : step k (.dispatch a params g) = some k') :
    (reqHandle a params = 0 ∧ k' = { k with calls := 0 :: k.calls, running := true }) ∨
      ∃ l, reqHandle a params ≠ 0 ∧ k.lib (reqHandle a params) = some l ∧
        k' = { ({ k with calls := reqHandle a params :: k.calls, running := true } :
          Keyring).arpcGpgdirFollow (reqHandle a params) l g with last := some l.gpgdir } := by
  rw [step] at hs
  split at hs
  · cases hs
  · dsimp only at hs
    split at hs
    · rename_i h0
      rw [h0] at hs
      exact .inl ⟨h0, (Option.some_inj.1 hs).symm⟩
    · rename_i h0
      split at hs
      · rename_i l hl
        exact .inr ⟨l, h0, hl, (Option.some_inj.1 hs).symm⟩
      · cases hs

/-- What can happen while a call is executed needs a call that is. -/
theorem step_executed {e : Event} (he : (∃ b, e = .errno b) ∨ e = .sigCheck)
    (hs : step k e = some k') :
    ∃ h rest l, k.running = true ∧ k.calls = h :: rest ∧ k.lib h = some l := by
  rcases he with ⟨b, rfl⟩ | rfl <;>
  · rw [step] at hs
    split at hs
    · rename_i h rest hr hc
      split at hs
      · rename_i l hl
        exact ⟨h, rest, l, hr, hc, hl⟩
      · cases hs
    · cases hs

/-- A call for no handle. -/
theorem Inv.dispatch_null (hi : Inv k) : Inv { k with calls := 0 :: k.calls, running := true } where
  null := hi.null
  engine := hi.engine
  last := hi.last
  read := hi.read
  called := by
    intro h hm h0
    exact hi.called h ((List.mem_cons.1 hm).resolve_left h0) h0
  own := by
    rintro - h hh l hl
    cases hh
    exact absurd hl (by simp [hi.null])

/-- **A dispatched call** executes with the gpgdir that was read for its handle. -/
theorem dispatched_own {h : Nat} {l : LibHandle} {d : Option Bytes} (hl : k.lib h = some l) :
    OwnKeyring { k with
      calls := h :: k.calls, running := true, last := some l.gpgdir,
      seen := Function.update k.seen h (some d), engine := d, pointed := some d } ↔
    d = l.gpgdir := by
  constructor
  · intro ho
    exact ho rfl h rfl l hl
  · rintro hd - h' hh l' hl'
    cases hh
    cases hl.symm.trans hl'
    exact hd

theorem Inv.dispatch (hi : Inv k) {h : Nat} {l : LibHandle} (hl : k.lib h = some l) :
    Inv { k with
      calls := h :: k.calls, running := true, last := some l.gpgdir,
      seen := Function.update k.seen h (some l.gpgdir), engine := l.gpgdir,
      pointed := some l.gpgdir } where
  null := hi.null
  engine d hd := Option.some_inj.1 hd
  last := rfl
  read h' l' hl' he := isSome_update (hi.read h' l' hl' he)
  called := by
    intro h' hm h0
    rcases List.mem_cons.1 hm with rfl | hm
    · simp
    · exact ⟨isSome_update (hi.called h' hm h0).1, rfl⟩
  own := (dispatched_own hl).2 rfl

/-- The running call's handle, with its error set or cleared. -/
theorem Inv.errno (hi : Inv k) {h : Nat} {l : LibHandle} {rest : List Nat} (pending : Bool)
    (hc : k.calls = h :: rest) (hl : k.lib h = some l) :
    Inv (k.setLib h (some { l with err := pending })) := by
  have h0 : h ≠ 0 := by
    rintro rfl
    exact absurd hl (by simp [hi.null])
  constructor
  · simpa [setLib, Ne.symm h0] using hi.null
  · exact hi.engine
  · exact hi.last
  · intro h' l' hl' he
    by_cases hh : h' = h
    · subst hh
      exact (hi.called h' (by simp [hc]) h0).1
    · exact hi.read h' l' (by simpa [setLib, hh] using hl') he
  · exact hi.called
  · intro hr h' hh l' hl'
    have : h' = h := by simpa [setLib, hc] using hh.symm
    subst this
    have hl₀ : ({ l with err := pending } : LibHandle) = l' := by simpa [setLib] using hl'
    rw [← hl₀]
    exact hi.own hr h' (by simp [hc]) l hl

/-- libalpm sets gpgme up where it is already. -/
theorem Inv.sigCheck (hi : Inv k) {h : Nat} {l : LibHandle} {rest : List Nat}
    (hr : k.running = true) (hc : k.calls = h :: rest) (hl : k.lib h = some l) :
    Inv { k with engine := l.gpgdir, checked := true } := by
  have he : k.engine = l.gpgdir := hi.own hr h (by simp [hc]) l hl
  rw [← he]
  exact ⟨hi.null, hi.engine, hi.last, hi.read, hi.called, hi.own⟩

theorem Inv.raise (hi : Inv k) : Inv { k with running := false } :=
  ⟨hi.null, hi.engine, hi.last, hi.read, hi.called, own_of_waiting rfl⟩

/-- **A callback has its answer**: the call that goes on has its keyring exactly when the last call
was for a handle with the same gpgdir. -/
theorem answered_own (hi : Inv k) :
    OwnKeyring { k with running := true } ↔
      ∀ h ∈ k.calls.head?, ∀ l ∈ k.lib h, k.last = some l.gpgdir := by
  constructor
  · intro ho h hh l hl
    have h0 : h ≠ 0 := by
      rintro rfl
      exact absurd hl (by simp [hi.null])
    obtain ⟨d, hd⟩ := Option.isSome_iff_exists.1 (hi.called h (List.mem_of_mem_head? hh) h0).2
    have he := hi.engine d (by rw [← hi.last, hd])
    rw [hd, ← he, ho rfl h hh l hl]
  · intro hf _ h hh l hl
    exact hi.engine _ (by rw [← hi.last, hf h hh l hl])

theorem Inv.answer (hi : Inv k) (ho : OwnKeyring { k with running := true }) :
    Inv { k with running := true } :=
  ⟨hi.null, hi.engine, hi.last, hi.read, hi.called, ho⟩

/-- What a call that has returned can have done to libalpm's handles. -/
theorem Inv.setLib (hi : Inv k) (hr : k.running = false) {h : Nat} {l : Option LibHandle}
    (h0 : h = 0 → l = none) (he : ∀ v, l = some v → v.err = false) : Inv (k.setLib h l) := by
  constructor
  · by_cases hh : h = 0
    · subst hh
      simp [Keyring.setLib, h0 rfl]
    · simpa [Keyring.setLib, Ne.symm hh] using hi.null
  · exact hi.engine
  · exact hi.last
  · intro h' l' hl' hp
    by_cases hh : h' = h
    · subst hh
      have := he l' (by simpa [Keyring.setLib] using hl')
      rw [this] at hp
      cases hp
    · exact hi.read h' l' (by simpa [Keyring.setLib, hh] using hl') hp
  · exact hi.called
  · exact own_of_waiting hr

theorem Inv.leave (hi : Inv k) (hr : k.running = false) {h : Nat} {e : Effect}
    (hs : k.leave h e = some k') : Inv k' ∧ k'.running = false := by
  cases e with
  | plain =>
    cases hs
    exact ⟨hi, hr⟩
  | setGpgdir d =>
    rw [Keyring.leave] at hs
    split at hs
    · rename_i hl
      cases hs
      refine ⟨hi.setLib hr ?_ ?_, hr⟩
      · rintro rfl
        rw [hi.null] at hl
        cases hl
      · rintro v hv
        cases hv
        rfl
    · cases hs
  | created a d =>
    rw [Keyring.leave] at hs
    split at hs
    · rename_i ha
      cases hs
      refine ⟨hi.setLib hr (fun h0 => absurd h0 ha.1) ?_, hr⟩
      rintro v hv
      cases hv
      rfl
    · cases hs
  | released =>
    rw [Keyring.leave] at hs
    split at hs
    · cases hs
    · cases hs
      exact ⟨hi.setLib hr (fun _ => rfl) (by simp), hr⟩

/-- **A step of the server** whose allocations and gpgme calls succeed leaves the executed call its
own keyring exactly when it is one the dispatcher is right about. -/
theorem Inv.step (hi : Inv k) {e : Event} (hs : step k e = some k') (hg : e.Granted) :
    (Followed k e ↔ k'.OwnKeyring) ∧ (k'.OwnKeyring → Inv k') := by
  cases e with
  | dispatch a params g =>
    cases hg
    rcases step_dispatch hs with ⟨h0, rfl⟩ | ⟨l, h0, hl, rfl⟩
    · refine ⟨⟨fun _ => hi.dispatch_null.own, fun _ => ⟨rfl, fun l hl => ?_⟩⟩,
        fun _ => hi.dispatch_null⟩
      rw [h0, hi.null] at hl
      cases hl
    · obtain ⟨d, hd⟩ := hi.exists_read hl
      rw [arpcGpgdirFollow_eq (k := { k with
        calls := reqHandle a params :: k.calls, running := true }) hi.engine hd]
      refine ⟨Iff.trans ?_ (dispatched_own hl).symm, fun ho => ?_⟩
      · constructor
        · rintro ⟨-, hf⟩
          by_cases he : l.err = true
          · rw [if_pos he] at hd
            exact hf l hl he d hd
          · rwa [if_neg he] at hd
        · rintro rfl
          refine ⟨rfl, fun l' hl' he d' hd' => ?_⟩
          cases hl.symm.trans hl'
          rw [if_pos he] at hd
          exact Option.some_inj.1 (hd'.symm.trans hd)
      · rw [(dispatched_own hl).1 ho]
        exact hi.dispatch hl
  | errno pending =>
    obtain ⟨h, rest, l, hr, hc, hl⟩ := step_executed (.inl ⟨pending, rfl⟩) hs
    simp only [Keyring.step, hr, hc, hl, Option.some_inj] at hs
    subst hs
    have hi' := hi.errno pending hc hl
    exact ⟨⟨fun _ => hi'.own, fun _ => trivial⟩, fun _ => hi'⟩
  | sigCheck =>
    obtain ⟨h, rest, l, hr, hc, hl⟩ := step_executed (.inr rfl) hs
    have hi' : Inv k' := by
      simp only [Keyring.step, hr, hc, hl, Option.some_inj] at hs
      split at hs
      · exact hs ▸ hi
      · have hset := hi.sigCheck hr hc hl
        rw [hr, hc] at hset
        exact hs ▸ hset
    exact ⟨⟨fun _ => hi'.own, fun _ => trivial⟩, fun _ => hi'⟩
  | raise =>
    rw [Keyring.step] at hs
    split at hs
    · cases hs
      exact ⟨⟨fun _ => hi.raise.own, fun _ => trivial⟩, fun _ => hi.raise⟩
    · cases hs
  | answer =>
    rw [Keyring.step] at hs
    split at hs
    · cases hs
      exact ⟨(answered_own hi).symm, hi.answer⟩
    · cases hs
  | ret e =>
    rw [Keyring.step] at hs
    split at hs
    · rename_i h rest hr hc
      have hw : Inv { k with calls := rest, running := false } := by
        refine ⟨hi.null, hi.engine, hi.last, hi.read, fun h' hm h0 => ?_, own_of_waiting rfl⟩
        exact hi.called h' (by rw [hc]; exact List.mem_cons_of_mem h hm) h0
      obtain ⟨hi', -⟩ := hw.leave rfl hs
      exact ⟨⟨fun _ => hi'.own, fun _ => trivial⟩, fun _ => hi'⟩
    · cases hs

theorem Followed.granted {e : Event} (h : Followed k e) : e.Granted := by
  cases e with
  | dispatch a params g => exact h.1
  | _ => trivial

/-! ## Runs -/

/-- **Each handle's signatures are checked against its own keyring** along every run of steps that the
dispatcher is right about. -/
theorem own_keyring (es : List Event) (h : Along step (fun k e _ => Followed k e) {} es) :
    Along step (fun _ _ k' => k'.OwnKeyring) {} es := by
  refine Along.of_inv (fun k e k' hi hs hf => ?_) Inv.empty h
  obtain ⟨hiff, hi'⟩ := hi.step hs hf.granted
  have ho := hiff.1 hf
  exact ⟨ho, hi' ho⟩

/-- And when no allocation and no call of gpgme fails, along no others. -/
theorem followed_of_own (es : List Event)
    (h : Along step (fun _ e k' => e.Granted ∧ k'.OwnKeyring) {} es) :
    Along step (fun k e _ => Followed k e) {} es := by
  refine Along.of_inv (fun k e k' hi hs ho => ?_) Inv.empty h
  obtain ⟨hiff, hi'⟩ := hi.step hs ho.1
  exact ⟨hiff.2 ho.2, hi' ho.2⟩

/-! ## Two handles with different keyrings -/

/-- The handle table with a handle at `1` and one at `2`. -/
def twoHandles : Reg where
  live := [⟨1, 1, 0, .handle, 0⟩, ⟨2, 2, 0, .handle, 0⟩]

/-- A request for the handle `id`. -/
def request (id : Int) : Event := .dispatch twoHandles (some (.arr [.num id])) {}

/-- Two handles are made, and each is given a gpgdir. -/
def setUp : List Event :=
  [.dispatch {} none {}, .ret (.created 1 none), .dispatch {} none {}, .ret (.created 2 none),
    request 1, .ret (.setGpgdir (some (lit "/a"))), request 2, .ret (.setGpgdir (some (lit "/b")))]

/-- A call for the first handle is left in a callback, in which a call for the second is served. -/
def nested : List Event := setUp ++ [request 1, .raise, request 2, .ret .plain, .answer]

/-- The callback asks the first handle once more before it answers. -/
def renested : List Event :=
  setUp ++ [request 1, .raise, request 2, .ret .plain, request 1, .ret .plain, .answer]

theorem own_keyring_renested : Along step (fun _ _ k' => k'.OwnKeyring) {} renested :=
  own_keyring renested (by decide +kernel)

/-- The first handle's call goes on with the second's keyring. -/
theorem other_keyring :
    (nested.foldlM step {}).map (fun k => (k.running, k.calls, k.lib 1, k.engine)) =
      some (true, [1], some ⟨some (lit "/a"), false⟩, some (lit "/b")) ∧
    ¬Along step (fun _ _ k' => k'.OwnKeyring) {} nested := by
  constructor
  · decide +kernel
  · decide +kernel

end Keyring

end Server
