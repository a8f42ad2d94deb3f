import AlpmRpc.Server.Forest
import AlpmRpc.Session.Changelog

/-!
# What a changelog loses

A size below `2 ^ 24` is read through to libalpm and what it fills arrives (`changelogRead_fills`); one
from `2 ^ 24` to `2 ^ 63 - 1` is refused, which the caller sees as 0 (`changelogRead_refused`). A run of
calls delivers what the cursor passed over, by induction.
-/

set_option autoImplicit false

open Json

namespace Session

open Wire Client Server Gen

variable {σ : Type} {lib : Nat → Nat → Nat → σ → Bytes × σ} {pkg fp size : Word} {p f : Nat}
  {s : Reader σ}

/-! ## One call -/

/-- An argument that is the id of an object. -/
theorem run_argHandle {β : Type} {params : Option Tree} {i : Nat} {tag : HandleTag} {id : Word}
    {q : Nat} {t : Table} (he : ajElem params i = some (.num (toI64 id.1))) (h0 : id.1 ≠ 0)
    (hg : arpcHandleGet t id.1 tag = some q) (hq : q ≠ 0) (k : Nat × Bool → TProg β) :
    (arpcArgHandle params i tag >>= k).run t = (k (q, false)).run t := by
  have hid : arpcArgId params i = id.1 := by
    rw [arpcArgId, he]
    have hnull : ajIsNull (some (.num (toI64 id.1))) = false := rfl
    dsimp only
    rw [hnull, ajI64, toU64_toI64 id.2]
    rfl
  rw [arpcArgHandle, hid, he, if_neg (by simp), if_neg h0]
  simp only [TProg.call_bind, TProg.ret_bind, TProg.run, Server.exec, hg, Option.bind_eq_bind,
    Option.bind_some, Option.pure_def]
  rw [beq_eq_false_iff_ne.2 hq]

/-- The parameters of a call. -/
def readParams (pkg fp size : Word) : List Tree :=
  [.null, .num (toI64 size.1), .num (toI64 pkg.1), .num (toI64 fp.1)]

theorem readParams_fits : ∀ v ∈ readParams pkg fp size, Fits 0 v := by
  intro v hv
  simp only [readParams, List.mem_cons, List.not_mem_nil, or_false] at hv
  rcases hv with rfl | rfl | rfl | rfl
  · exact .null
  · exact .num (toI64_range _)
  · exact .num (toI64_range _)
  · exact .num (toI64_range _)

/-- The size as the server reads it: it has not crossed the sign. -/
theorem toI64_size {n : Nat} (h : n < 2 ^ 63) : toI64 n = n := by
  rw [toI64, wrap_eq (by simp)]
  omega

/-- The handler, once the ids have resolved. -/
theorem run_changelogRead {t : Table} (ho : Open t pkg fp p f) (h : size.1 < 2 ^ 63) (l : σ) :
    (Server.changelogRead lib l (some (.arr (readParams pkg fp size)))).run t =
      some (t, if 2 ^ 24 ≤ size.1 then (badArguments (lit "alpm_pkg_changelog_read"), l)
        else (.ok (.num (toI64 (lib p f size.1 l).1.length))
          [(lit "ptr", bytesTree (if 0 < size.1 then some (lib p f size.1 l).1 else none))],
          (lib p f size.1 l).2)) := by
  have hbad : arpcArgI64Bad (some (.arr (readParams pkg fp size))) 1 = false := rfl
  have hread : ajI64 (ajElem (some (.arr (readParams pkg fp size))) 1) 0 = toI64 size.1 := rfl
  have hint := toI64_size h
  have hnat := toU64_toI64 size.2
  rw [Server.changelogRead, hread, run_argHandle rfl ho.ids.1 ho.getPkg ho.objs.1,
    run_argHandle rfl ho.ids.2 ho.getFp ho.objs.2, hbad]
  generalize toI64 size.1 = v at hint hnat ⊢
  subst hint
  dsimp only
  rw [hnat]
  by_cases hbig : 2 ^ 24 ≤ size.1
  · have hcond : (false || false || false ||
        (decide ((0 : Int) < (size.1 : Int)) &&
          !decide ((0 : Int) < (size.1 : Int) ∧ (size.1 : Int) < 2 ^ 24))) = true := by
      simp only [Bool.false_or, Bool.and_eq_true, Bool.not_eq_true', decide_eq_true_eq,
        decide_eq_false_iff_not]
      omega
    rw [if_pos hcond, if_pos hbig]
    rfl
  · have hcond : (false || false || false ||
        (decide ((0 : Int) < (size.1 : Int)) &&
          !decide ((0 : Int) < (size.1 : Int) ∧ (size.1 : Int) < 2 ^ 24))) = false := by
      simp only [Bool.false_or, Bool.and_eq_false_iff, Bool.not_eq_false', decide_eq_true_eq,
        decide_eq_false_iff_not]
      omega
    have hptr : decide ((0 : Int) < (size.1 : Int) ∧ (size.1 : Int) < 2 ^ 24) =
        decide (0 < size.1) := by
      rw [decide_eq_decide]
      omega
    rw [hcond, if_neg hbig, hptr]
    simp only [Bool.false_eq_true, if_false, decide_eq_true_eq]
    rfl

/-- A call, when its exchange has this answer. -/
theorem changelogRead_exchange (hs : Open s.table pkg fp p f) (h : size.1 < 2 ^ 63) :
    changelogRead lib pkg fp size s = some (
      if 2 ^ 24 ≤ size.1 then
        ({ s with nextId := s.nextId + 1 }, readOf size.1 none)
      else
        ({ s with lib := (lib p f size.1 s.lib).2, nextId := s.nextId + 1 },
          readOf size.1 (some (.obj [(retKey, .num (toI64 (lib p f size.1 s.lib).1.length)),
            (lit "ptr", bytesTree (if 0 < size.1 then some (lib p f size.1 s.lib).1 else none))])))) := by
  have hrun := @run_changelogRead σ lib _ _ _ _ _ _ hs h s.lib
  rw [changelogRead]
  dsimp only
  by_cases hbig : 2 ^ 24 ≤ size.1
  · rw [if_pos hbig] at hrun ⊢
    have hsend : Sendable (badArguments (lit "alpm_pkg_changelog_read")) :=
      ⟨by decide, by decide⟩
    have hex := exchange_eq (toI64_range s.nextId) (by decide : NulFree (lit "alpm_pkg_changelog_read"))
      readParams_fits hrun hsend
    rw [readParams] at hex
    rw [hex]
    rfl
  · rw [if_neg hbig] at hrun ⊢
    have hsend : Sendable (.ok (.num (toI64 (lib p f size.1 s.lib).1.length))
        [(lit "ptr", bytesTree (if 0 < size.1 then some (lib p f size.1 s.lib).1 else none))]) :=
      ⟨.num (toI64_range _), List.forall_mem_singleton.2
        ⟨(by decide : NulFree (lit "ptr")), fits_bytes _ _⟩⟩
    have hex := exchange_eq (toI64_range s.nextId) (by decide : NulFree (lit "alpm_pkg_changelog_read"))
      readParams_fits hrun hsend
    rw [readParams] at hex
    rw [hex]
    rfl

/-- **A size that is refused** is a 0, and the cursor stays. -/
theorem changelogRead_refused (hs : Open s.table pkg fp p f) (h : size.1 < 2 ^ 63)
    (hbig : 2 ^ 24 ≤ size.1) :
    changelogRead lib pkg fp size s =
      some ({ s with nextId := s.nextId + 1 }, { count := 0, bytes := [] }) := by
  rw [changelogRead_exchange hs h, if_pos hbig]
  rfl

/-- **What libalpm fills arrives**, with its length. -/
theorem changelogRead_fills {rest : σ → Bytes} (hl : ReadsFrom lib p f rest)
    (hs : Open s.table pkg fp p f) (hpos : 0 < size.1) (hsmall : size.1 < 2 ^ 24) :
    changelogRead lib pkg fp size s =
      some ({ s with lib := (lib p f size.1 s.lib).2, nextId := s.nextId + 1 },
        { count := (lib p f size.1 s.lib).1.length, bytes := (lib p f size.1 s.lib).1 }) := by
  have hfit := hl.fits size.1 s.lib
  rw [changelogRead_exchange hs (by omega), if_neg (by omega), if_pos hpos]
  generalize (lib p f size.1 s.lib).1 = b at hfit ⊢
  have hout : Client.arpcOutBytes (some (.obj [(retKey, .num (toI64 b.length)),
      (lit "ptr", bytesTree (some b))])) (lit "ptr") = (some b, b.length) :=
    arpcOutBytes_arrived (b := some b) rfl
  have hret : ajI64 (ajMember (some (.obj [(retKey, .num (toI64 b.length)),
      (lit "ptr", bytesTree (some b))])) retKey) 0 = toI64 b.length := rfl
  rw [readOf, hout, hret, toU64_toI64 (by omega)]
  dsimp only [Option.getD_some]
  rw [Nat.min_eq_left hfit, List.take_length]

/-! ## Runs of calls -/

/-- What calls with these sizes returned: `os` beside the sizes, `content` behind the cursor before
them and `left` after them. -/
inductive Delivers : List Word → List Read → Bytes → Bytes → Prop where
  | nil {content : Bytes} : Delivers [] [] content content
  | refused {size : Word} {sizes : List Word} {rs : List Read} {content left : Bytes}
      (big : 2 ^ 24 ≤ size.1) (rest : Delivers sizes rs content left) :
      Delivers (size :: sizes) ({ count := 0, bytes := [] } :: rs) content left
  | read {size : Word} {sizes : List Word} {rs : List Read} {b content left : Bytes}
      (small : size.1 < 2 ^ 24) (fits : b.length ≤ size.1) (ends : b = [] → content = [])
      (rest : Delivers sizes rs content left) :
      Delivers (size :: sizes) ({ count := b.length, bytes := b } :: rs) (b ++ content) left

/-- **A run** goes through, and delivers. -/
theorem changelogReads_delivers {rest : σ → Bytes} (hl : ReadsFrom lib p f rest) {sizes : List Word}
    (hsizes : ∀ size ∈ sizes, 0 < size.1 ∧ size.1 < 2 ^ 63) (hs : Open s.table pkg fp p f) :
    ∃ s' rs, changelogReads lib pkg fp sizes s = some (s', rs) ∧
      Delivers sizes rs (rest s.lib) (rest s'.lib) := by
  induction sizes generalizing s with
  | nil => exact ⟨s, [], rfl, .nil⟩
  | cons size sizes ih =>
    obtain ⟨hpos, hlt⟩ := hsizes size List.mem_cons_self
    have hrest : ∀ x ∈ sizes, 0 < x.1 ∧ x.1 < 2 ^ 63 := fun x hx =>
      hsizes x (List.mem_cons_of_mem _ hx)
    by_cases hbig : 2 ^ 24 ≤ size.1
    · obtain ⟨s', rs, hrun, hd⟩ := ih hrest (s := { s with nextId := s.nextId + 1 }) hs
      refine ⟨s', _, ?_, .refused hbig hd⟩
      simp only [changelogReads, changelogRead_refused hs hlt hbig, hrun, Option.bind_eq_bind,
        Option.bind_some, Option.pure_def]
    · obtain ⟨s', rs, hrun, hd⟩ := ih hrest
        (s := { s with lib := (lib p f size.1 s.lib).2, nextId := s.nextId + 1 }) hs
      have hread := changelogRead_fills hl hs hpos (by omega)
      have hcontent := hl.fills size.1 s.lib
      refine ⟨s', { count := (lib p f size.1 s.lib).1.length, bytes := (lib p f size.1 s.lib).1 } :: rs,
        ?_, ?_⟩
      · simp only [changelogReads, hread, hrun, Option.bind_eq_bind, Option.bind_some,
          Option.pure_def]
      · rw [hcontent]
        refine .read (by omega) (hl.fits size.1 s.lib) (fun hb => ?_) hd
        have hend := (hl.ends size.1 s.lib hb).resolve_left (by omega)
        rw [hcontent, hb, List.nil_append] at hend
        exact hend

/-- What is delivered and what is left are the content. -/
theorem Delivers.content {sizes : List Word} {rs : List Read} {content left : Bytes}
    (h : Delivers sizes rs content left) : delivered rs ++ left = content := by
  induction h with
  | nil => rfl
  | refused big rest ih => exact ih
  | @read size sizes rs b content left small fits ends rest ih =>
    rw [← ih, delivered, List.flatMap_cons, List.append_assoc]
    rfl

/-- Each call keeps to its size, and counts what it wrote. -/
theorem Delivers.within {sizes : List Word} {rs : List Read} {content left : Bytes}
    (h : Delivers sizes rs content left) :
    List.Forall₂ (fun size r => r.count = r.bytes.length ∧ r.bytes.length ≤ size.1 ∧
      (2 ^ 24 ≤ size.1 → r.bytes = [])) sizes rs := by
  induction h with
  | nil => exact .nil
  | refused big rest ih => exact .cons ⟨rfl, Nat.zero_le _, fun _ => rfl⟩ ih
  | read small fits ends rest ih =>
    exact .cons ⟨rfl, fits, fun hbig => absurd small (Nat.not_lt.2 hbig)⟩ ih

/-- When a call with a size that is read returns 0, everything was delivered before it. -/
theorem Delivers.ended {sizes : List Word} {rs : List Read} {content left : Bytes}
    (h : Delivers sizes rs content left) {before after : List Read} {r : Read} {size : Word}
    (hrs : rs = before ++ r :: after) (hsize : sizes[before.length]? = some size)
    (hsmall : size.1 < 2 ^ 24) (hr : r.count = 0) : delivered before = content := by
  induction h generalizing before with
  | nil => simp at hrs
  | @refused size' sizes rs content left big rest ih =>
    cases before with
    | nil =>
      cases hsize
      exact absurd hsmall (Nat.not_lt.2 big)
    | cons x before =>
      obtain ⟨rfl, htail⟩ := List.cons.inj hrs
      rw [delivered, List.flatMap_cons, ← ih htail hsize]
      rfl
  | @read size' sizes rs b content left small fits ends rest ih =>
    cases before with
    | nil =>
      obtain ⟨rfl, -⟩ := List.cons.inj hrs
      have hb : b = [] := List.length_eq_zero_iff.1 hr
      rw [hb, ends hb]
      rfl
    | cons x before =>
      obtain ⟨rfl, htail⟩ := List.cons.inj hrs
      rw [delivered, List.flatMap_cons, ← ih htail hsize]
      rfl

/-- **Reading a changelog** in any sizes below `2 ^ 63`: every call keeps to its size and counts what it
wrote, none of it from `2 ^ 24` on; what was delivered and what is left make up the content; and when a
call with a size below `2 ^ 24` returns 0, the whole content was delivered before it. -/
theorem changelog_read {rest : σ → Bytes} (hl : ReadsFrom lib p f rest) {sizes : List Word}
    (hsizes : ∀ size ∈ sizes, 0 < size.1 ∧ size.1 < 2 ^ 63) (hs : Open s.table pkg fp p f) :
    ∃ s' rs, changelogReads lib pkg fp sizes s = some (s', rs) ∧
      List.Forall₂ (fun size r => r.count = r.bytes.length ∧ r.bytes.length ≤ size.1 ∧
        (2 ^ 24 ≤ size.1 → r.bytes = [])) sizes rs ∧
      delivered rs ++ rest s'.lib = rest s.lib ∧
      (∀ before r after size, rs = before ++ r :: after → sizes[before.length]? = some size →
        size.1 < 2 ^ 24 → r.count = 0 → delivered before = rest s.lib) ∧
      ((∀ size ∈ sizes, size.1 < 2 ^ 24) → Lossless (rest s.lib) rs) := by
  obtain ⟨s', rs, hrun, hd⟩ := changelogReads_delivers hl hsizes hs
  refine ⟨s', rs, hrun, hd.within, hd.content, ?_, ?_⟩
  · intro before r after size hrs hsize hsmall hr
    exact hd.ended hrs hsize hsmall hr
  · intro hall before r after hrs _ hr
    have hlen : before.length < sizes.length := by
      rw [hd.within.length_eq, hrs, List.length_append, List.length_cons]
      omega
    have hsize := List.getElem?_eq_getElem hlen
    exact hd.ended hrs hsize (hall _ (List.getElem_mem hlen)) hr

/-- A libalpm whose only cursor stands before the bytes that are its state. -/
def oneCursor (_ _ size : Nat) (content : Bytes) : Bytes × Bytes :=
  (content.take size, content.drop size)

theorem oneCursor_reads (p f : Nat) : ReadsFrom oneCursor p f id := by
  refine ⟨fun n l => (List.take_append_drop n l).symm, fun n l => ?_, fun n l h => ?_⟩
  · exact Nat.le_trans (List.length_take_le n l) (Nat.le_refl n)
  · exact (List.take_eq_nil_iff.1 h).imp id id

/-- A handle, its package and a cursor on that. -/
def cursorOps : List Op := [.put 16 .handle 0, .put 32 .pkg (mkId 1 1), .put 48 .changelog (mkId 1 2)]

def twoLines : Reader Bytes where
  table := (runTable {} cursorOps).getD {}
  lib := lit "one\ntwo\n"

def twoLinesPkg : Word := ⟨mkId 1 2, by decide +kernel⟩

def twoLinesCursor : Word := ⟨mkId 1 3, by decide +kernel⟩

theorem twoLines_open : Open twoLines.table twoLinesPkg twoLinesCursor 32 48 :=
  ⟨by decide +kernel, by decide +kernel, by decide +kernel, by decide⟩

/-- Three buffers of five bytes. -/
def fives : List Word := List.replicate 3 ⟨5, by decide⟩

theorem changelog_read_twoLines :
    ∃ s' rs, changelogReads oneCursor twoLinesPkg twoLinesCursor fives twoLines = some (s', rs) ∧
      Lossless (lit "one\ntwo\n") rs := by
  have hsizes : ∀ size ∈ fives, 0 < size.1 ∧ size.1 < 2 ^ 63 := by decide
  obtain ⟨s', rs, hrun, -, -, -, hall⟩ := changelog_read (oneCursor_reads 32 48) hsizes twoLines_open
  exact ⟨s', rs, hrun, hall (by decide)⟩

/-- A buffer of `2 ^ 24` bytes. -/
def largeSize : Word := ⟨2 ^ 24, by decide⟩

/-- The first call with a large buffer returns 0, with the whole changelog still ahead. -/
theorem large_buffer_reads_nothing :
    ReadsFrom oneCursor 32 48 id ∧ Open twoLines.table twoLinesPkg twoLinesCursor 32 48 ∧
      ∃ s' rs, changelogReads oneCursor twoLinesPkg twoLinesCursor [largeSize] twoLines =
          some (s', rs) ∧ ¬Lossless (lit "one\ntwo\n") rs := by
  have hread : changelogRead oneCursor twoLinesPkg twoLinesCursor largeSize twoLines =
      some ({ twoLines with nextId := 2 }, { count := 0, bytes := [] }) :=
    changelogRead_refused twoLines_open (by decide) (by decide)
  refine ⟨oneCursor_reads 32 48, twoLines_open,
    { twoLines with nextId := 2 }, [{ count := 0, bytes := [] }], ?_, ?_⟩
  · simp only [changelogReads, hread, Option.bind_eq_bind, Option.bind_some, Option.pure_def]
  · intro h
    exact absurd (h [] _ [] rfl (List.forall_mem_nil _) rfl) (by decide)

end Session
