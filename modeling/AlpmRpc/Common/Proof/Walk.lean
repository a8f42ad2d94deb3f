import AlpmRpc.Common.Proof.Doc
import AlpmRpc.Common.Proof.RoundTrip

/-!
# Reading a document is reading its tree

Each accessor on a node that holds a tree gives what the accessor of `Common/Json.lean` gives on the
tree (`Refs`), so the rest of the development reads trees. `walk_holds` reads a whole tree back.
-/

set_option autoImplicit false

namespace Json

/-- A node index and what the tree has there; `-1` is nothing. -/
def Refs (d : Doc) : Option Nat → Option Tree → Prop := Option.Rel (Holds d)

section accessors

variable {d : Doc} {i : Nat} {j : Option Nat} {v : Tree} {t : Option Tree}

/-! ## Scalars -/

theorem cstr_stored {off : Nat} {s : Bytes} (h : Stored d off s) : d.strAt off = cstr s := by
  obtain ⟨r, hr⟩ := h
  rw [Doc.strAt, ← hr, List.append_assoc]
  clear hr
  induction s with
  | nil => rfl
  | cons c s ih =>
    rw [List.cons_append, cstr, List.takeWhile_cons, cstr, List.takeWhile_cons]
    split
    · exact congrArg (c :: ·) ih
    · rfl

theorem Holds.i64 (h : Holds d i v) (dflt : Int) : d.i64 (some i) dflt = ajI64 (some v) dflt := by
  cases h with
  | null hn ht => simp [Doc.i64, Doc.node, hn, ht, ajI64]
  | bool hn ht hv => simp [Doc.i64, Doc.node, hn, ht, hv, ajI64]
  | num hn ht hv => simp [Doc.i64, Doc.node, hn, ht, hv, ajI64]
  | str hn ht => simp [Doc.i64, Doc.node, hn, ht, ajI64]
  | arr hn ht => simp [Doc.i64, Doc.node, hn, ht, ajI64]
  | obj hn ht => simp [Doc.i64, Doc.node, hn, ht, ajI64]

theorem Holds.strEq (h : Holds d i v) (dflt : Option Bytes) :
    d.str (some i) dflt = ajStr (some v) dflt := by
  cases h with
  | null hn ht => simp [Doc.str, Doc.node, hn, ht, ajStr]
  | bool hn ht => simp [Doc.str, Doc.node, hn, ht, ajStr]
  | num hn ht => simp [Doc.str, Doc.node, hn, ht, ajStr]
  | str hn ht hs => simp [Doc.str, Doc.node, hn, ht, ajStr, cstr_stored hs]
  | arr hn ht => simp [Doc.str, Doc.node, hn, ht, ajStr]
  | obj hn ht => simp [Doc.str, Doc.node, hn, ht, ajStr]

theorem Holds.isNull (h : Holds d i v) : d.isNull (some i) = ajIsNull (some v) := by
  cases h with
  | null hn ht => simp [Doc.isNull, Doc.node, hn, ht, ajIsNull]
  | bool hn ht => simp [Doc.isNull, Doc.node, hn, ht, ajIsNull]
  | num hn ht => simp [Doc.isNull, Doc.node, hn, ht, ajIsNull]
  | str hn ht => simp [Doc.isNull, Doc.node, hn, ht, ajIsNull]
  | arr hn ht => simp [Doc.isNull, Doc.node, hn, ht, ajIsNull]
  | obj hn ht => simp [Doc.isNull, Doc.node, hn, ht, ajIsNull]

/-! ## Containers -/

/-- The indices of items one after another. -/
def positions (i : Nat) : List (Bytes × Tree) → List Nat
  | [] => []
  | (_, v) :: ms => i :: positions (i + size v) ms

/-- The items of a tree, an element with no key. -/
def itemsOf : Tree → List (Bytes × Tree)
  | .arr es => es.map fun v => ([], v)
  | .obj ms => ms
  | _ => []

theorem children_eq (v : Tree) : children (some v) = (itemsOf v).map (·.2) := by
  cases v <;> simp [children, itemsOf, Function.comp_def]

theorem size_pos (v : Tree) : 0 < size v := by
  cases v with
  | arr es => rw [size]; omega
  | obj ms => rw [size]; omega
  | null => simp [size]
  | bool b => simp [size]
  | num v => simp [size]
  | str s => simp [size]

theorem HoldsItems.length_le {isObj : Bool} {ms : List (Bytes × Tree)} (h : HoldsItems d isObj i ms) :
    ms.length ≤ d.nodes.length - i := by
  induction ms generalizing i with
  | nil => exact Nat.zero_le _
  | cons m ms ih =>
    cases h with
    | @cons _ _ n _ v _ hn hk hx h hs =>
      have hlt : i < d.nodes.length := (List.getElem?_eq_some_iff.1 hn).1
      have := ih hs
      have := size_pos v
      rw [List.length_cons]
      omega

theorem siblings_none (fuel : Nat) : d.siblings fuel none = [] := by
  cases fuel <;> rfl

/-- The loop over a container visits its items. -/
theorem HoldsItems.siblings {isObj : Bool} {ms : List (Bytes × Tree)} (h : HoldsItems d isObj i ms)
    {fuel : Nat} (hf : ms.length ≤ fuel) : d.siblings fuel (headIndex i ms) = positions i ms := by
  induction ms generalizing i fuel with
  | nil => exact siblings_none fuel
  | cons m ms ih =>
    cases h with
    | @cons _ _ n _ v _ hn hk hx h hs =>
      obtain ⟨fuel, rfl⟩ : ∃ f, fuel = f + 1 := ⟨fuel - 1, by rw [List.length_cons] at hf; omega⟩
      have hnext : (d.node (some i)).bind (·.nextSibling) = headIndex (i + size v) ms := by
        rw [Doc.node, Option.bind_some, hn]
        exact hx
      have := ih hs (by simpa using hf)
      rw [show headIndex i ((_, v) :: ms) = some i from rfl, Doc.siblings, hnext, this]
      rfl

/-- What a container's first child is, and where its items are. -/
theorem Holds.items (h : Holds d i v) :
    d.first (some i) = headIndex (i + 1) (itemsOf v) ∧
      ∃ isObj, HoldsItems d isObj (i + 1) (itemsOf v) := by
  cases h with
  | null hn ht => exact ⟨by simp [Doc.first, Doc.node, hn, ht, headIndex, itemsOf], true, .nil⟩
  | bool hn ht => exact ⟨by simp [Doc.first, Doc.node, hn, ht, headIndex, itemsOf], true, .nil⟩
  | num hn ht => exact ⟨by simp [Doc.first, Doc.node, hn, ht, headIndex, itemsOf], true, .nil⟩
  | str hn ht => exact ⟨by simp [Doc.first, Doc.node, hn, ht, headIndex, itemsOf], true, .nil⟩
  | arr hn ht hf h => exact ⟨by simp [Doc.first, Doc.node, hn, ht, hf, headIndex, itemsOf], false, h⟩
  | obj hn ht hf h => exact ⟨by simp [Doc.first, Doc.node, hn, ht, hf, headIndex, itemsOf], true, h⟩

theorem Holds.siblings (h : Holds d i v) :
    d.siblings d.nodes.length (d.first (some i)) = positions (i + 1) (itemsOf v) := by
  obtain ⟨hf, isObj, hs⟩ := h.items
  have := hs.length_le
  rw [hf]
  exact hs.siblings (by omega)

theorem positions_holds {isObj : Bool} {ms : List (Bytes × Tree)} (h : HoldsItems d isObj i ms)
    (k : Nat) : Refs d (positions i ms)[k]? (ms.map (·.2))[k]? := by
  induction ms generalizing i k with
  | nil => exact .none
  | cons m ms ih =>
    cases h with
    | cons hn hk hx h hs =>
      cases k with
      | zero => exact .some h
      | succ k => exact ih hs k

theorem length_positions (i : Nat) (ms : List (Bytes × Tree)) :
    (positions i ms).length = ms.length := by
  induction ms generalizing i with
  | nil => rfl
  | cons m ms ih => rw [positions, List.length_cons, List.length_cons, ih]

theorem Holds.count (h : Holds d i v) : d.count (some i) = ajCount (some v) := by
  rw [Doc.count, h.siblings, length_positions, ajCount, children_eq, List.length_map]

theorem Holds.elem (h : Holds d i v) (k : Nat) :
    Refs d (d.elem (some i) k) (ajElem (some v) k) := by
  obtain ⟨-, isObj, hs⟩ := h.items
  rw [Doc.elem, h.siblings, ajElem, children_eq]
  exact positions_holds hs k

theorem HoldsItems.find {ms : List (Bytes × Tree)} (h : HoldsItems d true i ms) (key : Bytes) :
    Refs d ((positions i ms).find? fun j => (d.node (some j)).bind d.keyOf = some key)
      ((ms.find? fun m => cstr m.1 = key).map (·.2)) := by
  induction ms generalizing i with
  | nil => exact .none
  | cons m ms ih =>
    cases h with
    | @cons _ _ n k v _ hn hk hx h hs =>
      have hkey : (d.node (some i)).bind d.keyOf = some (cstr k) := by
        rw [Doc.node, Option.bind_some, hn, Option.bind_some, Doc.keyOf, if_neg (by have := hk.1; omega),
          cstr_stored hk.2]
      rw [positions, List.find?_cons, List.find?_cons, hkey]
      by_cases hc : cstr k = key
      · simp only [hc, decide_true]
        exact .some h
      · simp only [Option.some.injEq, hc, decide_false]
        exact ih hs

theorem Holds.member (h : Holds d i v) (key : Bytes) :
    Refs d (d.member (some i) key) (ajMember (some v) key) := by
  have hsib := h.siblings
  cases h with
  | null hn ht => simp [Doc.member, Doc.node, hn, ht, ajMember, Refs]
  | bool hn ht => simp [Doc.member, Doc.node, hn, ht, ajMember, Refs]
  | num hn ht => simp [Doc.member, Doc.node, hn, ht, ajMember, Refs]
  | str hn ht => simp [Doc.member, Doc.node, hn, ht, ajMember, Refs]
  | arr hn ht => simp [Doc.member, Doc.node, hn, ht, ajMember, Refs]
  | @obj _ n ms hn ht hf h =>
    have hnode : d.node (some i) = some n := hn
    rw [Doc.first, hnode] at hsib
    simp only [ht, or_true, if_true] at hsib
    rw [Doc.member, hnode]
    simp only [ht, if_true, hsib]
    exact h.find key

end accessors

/-! ## Walking -/

theorem membersSize_eq (ms : List (Bytes × Tree)) : membersSize ms = elemsSize (ms.map (·.2)) := by
  induction ms with
  | nil => rfl
  | cons m ms ih => rw [membersSize, List.map_cons, elemsSize, ih]

/-- The items are read back, when each value is. -/
theorem walkItems_holds {d : Doc} {isObj : Bool} {ms : List (Bytes × Tree)}
    (hk : ∀ m ∈ ms, NulFree m.1)
    (ih : ∀ m ∈ ms, ∀ i fuel, Holds d i m.2 → 2 * size m.2 ≤ fuel → d.walk fuel i = some m.2)
    {i : Nat} (h : HoldsItems d isObj i ms) {fuel : Nat}
    (hf : 2 * elemsSize (ms.map (·.2)) + 1 ≤ fuel) :
    d.walkItems fuel (headIndex i ms) = some ms := by
  induction ms generalizing i fuel with
  | nil => rw [show headIndex i [] = none from rfl, Doc.walkItems]
  | cons m ms ihs =>
    cases h with
    | @cons _ _ n k v _ hn hkey hx h hs =>
      rw [List.map_cons, elemsSize] at hf
      dsimp only at hf
      have hpos := size_pos v
      obtain ⟨fuel, rfl⟩ : ∃ f, fuel = f + 1 := ⟨fuel - 1, by omega⟩
      have hnext : d.next (some i) = headIndex (i + size v) ms := by
        rw [Doc.next, Doc.node, Option.bind_some, hn]
        exact hx
      have hname : ((d.node (some i)).bind d.keyOf).getD [] = k := by
        rw [Doc.node, Option.bind_some, hn, Option.bind_some, Doc.keyOf]
        cases isObj with
        | true =>
          rw [if_neg (by have := hkey.1; omega), cstr_stored hkey.2,
            cstr_eq (hk (k, v) List.mem_cons_self)]
          rfl
        | false =>
          rw [if_pos hkey.1, hkey.2]
          rfl
      rw [show headIndex i ((k, v) :: ms) = some i from rfl, Doc.walkItems,
        ih (k, v) List.mem_cons_self i fuel h (by dsimp only; omega), hname, hnext,
        ihs (fun u hu => hk u (List.mem_cons_of_mem _ hu))
          (fun u hu => ih u (List.mem_cons_of_mem _ hu)) hs (by omega)]
      rfl

/-- **A tree the writer can be asked for is read back from the nodes that hold it.** -/
theorem walk_holds {d : Doc} {k : Nat} {v : Tree} (hv : Fits k v) {i fuel : Nat} (h : Holds d i v)
    (hf : 2 * size v ≤ fuel) : d.walk fuel i = some v := by
  induction hv generalizing i fuel with
  | null =>
    obtain ⟨fuel, rfl⟩ : ∃ f, fuel = f + 1 := ⟨fuel - 1, by have := size_pos .null; omega⟩
    cases h with
    | null hn ht => simp [Doc.walk, Doc.node, Doc.isNull, hn, ht]
  | @num _ v hi =>
    obtain ⟨fuel, rfl⟩ : ∃ f, fuel = f + 1 := ⟨fuel - 1, by have := size_pos (.num v); omega⟩
    have hnum := h.i64 0
    cases h with
    | num hn ht hv => simp [Doc.walk, Doc.node, hn, ht, hnum, ajI64]
  | @str _ s hs =>
    obtain ⟨fuel, rfl⟩ : ∃ f, fuel = f + 1 := ⟨fuel - 1, by have := size_pos (.str s); omega⟩
    have hstr := h.strEq none
    cases h with
    | str hn ht _ => simp [Doc.walk, Doc.node, hn, ht, hstr, ajStr, cstr_eq hs]
  | @arr _ es _ ih =>
    rw [size] at hf
    obtain ⟨fuel, rfl⟩ : ∃ f, fuel = f + 1 := ⟨fuel - 1, by omega⟩
    have hfirst := h.items.1
    cases h with
    | arr hn ht _ h =>
      have hmap : (es.map fun v => (([] : Bytes), v)).map (·.2) = es := by
        rw [List.map_map]
        exact List.map_id es
      have hitems : d.walkItems fuel (headIndex (i + 1) (es.map fun v => (([] : Bytes), v))) =
          some (es.map fun v => ([], v)) := by
        apply walkItems_holds _ _ h (by rw [hmap]; omega)
        · intro m hm
          obtain ⟨v, -, rfl⟩ := List.mem_map.1 hm
          intro c hc
          cases hc
        · intro m hm i fuel
          obtain ⟨v, hv, rfl⟩ := List.mem_map.1 hm
          exact ih v hv
      rw [itemsOf] at hfirst
      simp only [Doc.walk, Doc.node, Option.bind_some, hn, ht, hfirst, hitems, Option.map_some, hmap]
  | @obj _ ms hk _ ih =>
    rw [size, membersSize_eq] at hf
    obtain ⟨fuel, rfl⟩ : ∃ f, fuel = f + 1 := ⟨fuel - 1, by omega⟩
    have hfirst := h.items.1
    cases h with
    | obj hn ht _ h =>
      have hitems := walkItems_holds hk (fun m hm i fuel => ih m hm) h
        (show 2 * elemsSize (ms.map (·.2)) + 1 ≤ fuel by omega)
      rw [itemsOf] at hfirst
      simp [Doc.walk, Doc.node, hn, ht, hfirst, hitems]

end Json
