import Mathlib.Algebra.Order.Ring.Int
import Mathlib.Data.List.TakeWhile

/-!
# JSON documents

The tree that `aj_parse` leaves in an `aj_doc` (`src/common/arpc_json.c`), and the accessors both
sides read it with. A node index is an `Option Json`, `none` for `-1`. A `str` keeps the decoded
bytes; C code sees them up to the first NUL (`cstr`).
-/

set_option autoImplicit false

namespace Json

abbrev Bytes := List UInt8

instance : LawfulBEq Bytes := inferInstanceAs (LawfulBEq (List UInt8))

/-- The byte of an ASCII character. -/
def ch (c : Char) : UInt8 := UInt8.ofNat c.toNat

/-- The bytes of an ASCII string literal. -/
def lit (s : String) : Bytes := s.toList.map ch

/-- What C code reads at the start of a NUL-terminated buffer. -/
def cstr (s : Bytes) : Bytes := s.takeWhile (· ≠ 0)

/-- A byte string that a `char *` can be. -/
def NulFree (s : Bytes) : Prop := ∀ c ∈ s, c ≠ 0

instance (s : Bytes) : Decidable (NulFree s) := List.decidableBAll (fun c => c ≠ 0) s

theorem cstr_eq {s : Bytes} (h : NulFree s) : cstr s = s :=
  List.takeWhile_eq_self_iff.2 fun c hc => by simpa using h c hc

theorem cstr_nulFree (s : Bytes) : NulFree (cstr s) := by
  intro c hc
  simpa using List.mem_takeWhile_imp hc

inductive Tree where
  | null
  | bool (b : Bool)
  | num (v : Int)
  | str (s : Bytes)
  | arr (es : List Tree)
  | obj (ms : List (Bytes × Tree))

/-! ## Accessors -/

/-- The children of a container, in order. -/
def children : Option Tree → List Tree
  | some (.arr es) => es
  | some (.obj ms) => ms.map (·.2)
  | _ => []

def ajMember : Option Tree → Bytes → Option Tree
  | some (.obj ms), key => (ms.find? fun m => cstr m.1 = key).map (·.2)
  | _, _ => none

def ajElem (a : Option Tree) (index : Nat) : Option Tree := (children a)[index]?

def ajCount (a : Option Tree) : Nat := (children a).length

def ajI64 : Option Tree → Int → Int
  | some (.num v), _ => v
  | some (.bool b), _ => if b then 1 else 0
  | _, dflt => dflt

def ajStr : Option Tree → Option Bytes → Option Bytes
  | some (.str s), _ => some (cstr s)
  | _, dflt => dflt

def ajIsNull : Option Tree → Bool
  | none => true
  | some .null => true
  | _ => false

/-- A number fits a `long long`. -/
def I64 (v : Int) : Prop := -2 ^ 63 ≤ v ∧ v < 2 ^ 63

instance (v : Int) : Decidable (I64 v) := inferInstanceAs (Decidable (_ ∧ _))

theorem i64_zero : I64 0 := by decide

theorem i64_one : I64 1 := by decide

/-! ## Casts between 64-bit integers -/

/-- Two's complement of `w` bits. -/
def wrap (w : Nat) (v : Int) : Int := v.bmod (2 ^ w)

/-- The same with one division, for the widths C has. -/
theorem wrap_eq {w : Nat} (hw : w = 8 ∨ w = 16 ∨ w = 32 ∨ w = 64) (v : Int) :
    wrap w v = (v + 2 ^ (w - 1)) % 2 ^ w - 2 ^ (w - 1) := by
  unfold wrap Int.bmod
  dsimp only
  rcases hw with rfl | rfl | rfl | rfl <;> split <;> omega

/-- `(long long)v` -/
def toI64 (v : Int) : Int := wrap 64 v

/-- `(uint64_t)v` -/
def toU64 (v : Int) : Nat := (v % 2 ^ 64).toNat

theorem toI64_range (v : Int) : I64 (toI64 v) := by
  rw [I64, toI64, wrap_eq (by simp)]
  omega

/-- An id crosses unchanged, whatever its top bit. -/
theorem toU64_toI64 {id : Nat} (h : id < 2 ^ 64) : toU64 (toI64 id) = id := by
  rw [toU64, toI64, wrap_eq (by simp)]
  omega

end Json
