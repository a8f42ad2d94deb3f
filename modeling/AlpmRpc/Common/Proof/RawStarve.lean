import AlpmRpc.Common.Proof.RawDoc
import AlpmRpc.Common.Proof.Doc
import AlpmRpc.Lib.Falter

/-!
# The parser when memory runs out

Whatever the allocator refuses, the parser does what it does with endless memory or gives up at the
allocation that was refused (`parse_falters`). So a text that it takes is a document of the grammar and
the nodes are its tree, and a document that it does not take was one it had no memory for
(`ajParse_verdict`).
-/

set_option autoImplicit false

namespace Json.Raw

open Checked
open Wire (maxFrame)

/-- An allocation was refused before `s`. -/
def Refused (mem : Nat → Bool) (s : State) : Prop := ∃ k < s.allocs, mem k = false

/-- `m` does what `m'` does, or gives up where an allocation is refused. -/
abbrev Starves (mem : Nat → Bool) {α : Type} (m m' : Parser α) : Prop := Falters (Refused mem) m m'

section
variable (text : Bytes) (mem : Nat → Bool)

/-- The allocator that never refuses. -/
abbrev ample : Nat → Bool := fun _ => true

theorem alloc_falters : Starves mem (alloc mem) (alloc ample) := by
  intro s
  cases hk : mem s.allocs with
  | true => exact .inl (by simp [alloc, hk])
  | false => exact .inr ⟨{ s with allocs := s.allocs + 1 }, by simp [alloc, hk], s.allocs, Nat.lt_succ_self _, hk⟩

theorem growNodes_falters : Starves mem (growNodes mem) (growNodes ample) :=
  .andThen fun _ => .ite _ (.andThen fun _ => (alloc_falters mem).bind fun _ => .refl _) (.refl _)

theorem nodeNew_falters (n : Node) : Starves mem (nodeNew mem n) (nodeNew ample n) :=
  (growNodes_falters mem).bind fun _ => .refl _

theorem growBytes_falters (need : Nat) : Starves mem (growBytes mem need) (growBytes ample need) :=
  .andThen fun _ => .ite _
    (.andThen fun _ => .andThen fun _ => (alloc_falters mem).bind fun _ => .refl _) (.refl _)

theorem sbufPut_falters (b : Bytes) : Starves mem (sbufPut mem b) (sbufPut ample b) :=
  .andThen fun _ => (growBytes_falters mem _).bind fun _ => .refl _

theorem tmpRoom_falters (t : Tmp) : Starves mem (tmpRoom mem t) (tmpRoom ample t) :=
  .ite _ (.andThen fun _ => (alloc_falters mem).bind fun _ => .refl _) (.refl _)

theorem charsLoop_falters : ∀ (fuel : Nat) (t : Tmp),
    Starves mem (charsLoop text mem fuel t) (charsLoop text ample fuel t)
  | 0, _ => .refl _
  | fuel + 1, t => by
    simp only [charsLoop]
    refine .andThen fun _ => .ite _ (.refl _) (.andThen fun _ => .ite _ (.refl _) ?_)
    refine (tmpRoom_falters mem t).bind fun _ => .andThen fun _ => .ite _ ?_ ?_
    · refine .ite _ (.refl _) (.andThen fun t' => .andThen fun _ => charsLoop_falters fuel t')
    · exact .andThen fun _ => .andThen fun t' => charsLoop_falters fuel t'

theorem parseStringRaw_falters : Starves mem (parseStringRaw text mem) (parseStringRaw text ample) := by
  refine .andThen fun _ => .ite _ (.andThen fun _ => ?_) (.refl _)
  refine (charsLoop_falters text mem _ _).bind fun t => .andThen fun _ => .ite _ ?_ (.refl _)
  exact .andThen fun _ => sbufPut_falters mem t.bytes

theorem parseKey_falters (isObj : Bool) :
    Starves mem (parseKey text mem isObj) (parseKey text ample isObj) :=
  .ite _ (.andThen fun _ => (parseStringRaw_falters text mem).bind fun _ => .refl _) (.refl _)

theorem parseContainer_falters {items items' : Nat → Parser Unit} (depth : Nat) (isObj : Bool)
    (h : ∀ self, Starves mem (items self) (items' self)) :
    Starves mem (parseContainer text mem items depth isObj)
      (parseContainer text ample items' depth isObj) := by
  refine .ite _ (.refl _) ((nodeNew_falters mem _).bind fun self => ?_)
  refine .andThen fun _ => .andThen fun _ => .andThen fun _ => .ite _ (.refl _) ?_
  exact (h self).bind fun _ => .refl _

/-- What is shown of the two parsers at once, by induction on the fuel. -/
structure ValuesStarve (fuel : Nat) : Prop where
  value : ∀ depth, Starves mem (parseValue text mem fuel depth) (parseValue text ample fuel depth)
  items : ∀ depth isObj self prev, Starves mem (parseItems text mem fuel depth isObj self prev)
    (parseItems text ample fuel depth isObj self prev)

theorem values_starve : ∀ fuel, ValuesStarve text mem fuel
  | 0 => ⟨fun _ => .refl _, fun _ _ _ _ => .refl _⟩
  | fuel + 1 => by
    have ih := values_starve fuel
    refine ⟨fun depth => ?_, fun depth isObj self prev => ?_⟩
    · simp only [parseValue]
      refine .andThen fun _ => .andThen fun _ => .ite _ (.refl _) (.andThen fun c => ?_)
      refine .ite _ (parseContainer_falters text mem depth true fun self => ih.items _ true self none) ?_
      refine .ite _ (parseContainer_falters text mem depth false fun self => ih.items _ false self none) ?_
      refine .ite _ ((parseStringRaw_falters text mem).bind fun _ => nodeNew_falters mem _) ?_
      have hleaf : ∀ (k : Nat) (n : Node), Starves mem (do seek k; nodeNew mem n)
          (do seek k; nodeNew ample n) := fun _ n => .andThen fun _ => nodeNew_falters mem n
      refine .andThen fun _ => .ite _ (hleaf _ _) (.andThen fun _ => .ite _ (hleaf _ _) ?_)
      refine .andThen fun _ => .ite _ (hleaf _ _) (.ite _ ?_ (.refl _))
      exact .andThen fun _ => nodeNew_falters mem _
    · simp only [parseItems]
      refine (parseKey_falters text mem isObj).bind fun _ => (ih.value depth).bind fun child => ?_
      refine .andThen fun _ => .andThen fun _ => .andThen fun _ => .andThen fun _ => .ite _ ?_ (.refl _)
      exact .andThen fun _ => ih.items depth isObj self (some child)

theorem parse_falters : Starves mem (ajParse text mem) (ajParse text ample) :=
  ((values_starve text mem _).value 0).bind fun _ => .refl _

end

/-- What the parser does on a text no longer than a frame, with any allocator. -/
theorem parse_starving {text : Bytes} (mem : Nat → Bool) (hm : text.length ≤ maxFrame) :
    (∃ s, ajParse text mem {} = .ok () s ∧ docParse text = some s.doc) ∨
      ∃ s, ajParse text mem {} = .fail s ∧ (docParse text = none ∨ Refused mem s) := by
  obtain heq | ⟨s, heq, hs⟩ := parse_falters text mem {}
  · rw [heq]
    have hample : ∀ k, ample k = true := fun _ => rfl
    obtain ⟨s, hok, hdoc⟩ | ⟨s, hfail, hdoc⟩ := ajParse_doc hm hample
    · exact .inl ⟨s, hok, hdoc⟩
    · exact .inr ⟨s, hfail, .inl hdoc⟩
  · exact .inr ⟨s, heq, .inr hs⟩

/-- **No allocator makes the parser take what is not a document, or build another tree**: it leaves the
tree of the text, or fails because there is none or because an allocation was refused. -/
theorem ajParse_verdict (text : Bytes) (mem : Nat → Bool) (hm : text.length ≤ maxFrame) :
    (∃ s v, ajParse text mem {} = .ok () s ∧ Document text v ∧ Forest s.doc v) ∨
      ∃ s, ajParse text mem {} = .fail s ∧ ((∀ v, ¬Document text v) ∨ Refused mem s) := by
  have hacc := docParse_accepts text
  obtain ⟨s, hok, hdoc⟩ | ⟨s, hfail, hdoc | hs⟩ := parse_starving mem hm
  · obtain ⟨v, hv, -, hf⟩ := hacc.2 s.doc hdoc
    exact .inl ⟨s, v, hok, hv, hf⟩
  · refine .inr ⟨s, hfail, .inl fun v hv => ?_⟩
    obtain ⟨d, hd⟩ := hacc.1.2 ⟨v, hv⟩
    rw [hdoc] at hd
    cases hd
  · exact .inr ⟨s, hfail, .inr hs⟩

theorem ajParse_verdict_nested :
    (∃ s v, ajParse (lit "[\"k\"]") (· = 0) {} = .ok () s ∧ Document (lit "[\"k\"]") v ∧ Forest s.doc v) ∨
      ∃ s, ajParse (lit "[\"k\"]") (· = 0) {} = .fail s ∧
        ((∀ v, ¬Document (lit "[\"k\"]") v) ∨ Refused (· = 0) s) :=
  ajParse_verdict (lit "[\"k\"]") (· = 0) (by decide)

end Json.Raw
