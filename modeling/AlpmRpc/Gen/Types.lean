import AlpmRpc.Common.Json

/-!
# C integer types on the two sides

The arithmetic types of `SCALAR_KINDS` (`tools/gen/alpm_api.py`) that are integers, with the width
each has where it is compiled: the server is Cygwin (LP64), the client mingw-w64 (LLP64) without
`_FILE_OFFSET_BITS`. Generated code casts to the same spelling on both sides; `cast` is what the
cast does there.
-/

set_option autoImplicit false

namespace Gen

open Json

inductive Side where
  | server | client
  deriving DecidableEq, Repr

/-- A C integer type, by its spelling. An enum is `uint` or `int`. -/
inductive CInt where
  | bool | schar | uchar | short | ushort | int | uint | long | ulong | llong | ullong
  | size | int64 | off
  deriving DecidableEq, Repr

namespace CInt

def isSigned : CInt → Bool
  | .schar | .short | .int | .long | .llong | .int64 | .off => true
  | _ => false

/-- Bits of the type on a side. -/
def width : Side → CInt → Nat
  | _, .bool | _, .schar | _, .uchar => 8
  | _, .short | _, .ushort => 16
  | _, .int | _, .uint => 32
  | .server, .long | .server, .ulong | .server, .off => 64
  | .client, .long | .client, .ulong | .client, .off => 32
  | _, .llong | _, .ullong | _, .size | _, .int64 => 64

/-- The values of the type on a side. -/
def InRange (side : Side) (ty : CInt) (v : Int) : Prop :=
  if ty = .bool then v = 0 ∨ v = 1
  else if ty.isSigned then -2 ^ (ty.width side - 1) ≤ v ∧ v < 2 ^ (ty.width side - 1)
  else 0 ≤ v ∧ v < 2 ^ ty.width side

instance (side : Side) (ty : CInt) (v : Int) : Decidable (InRange side ty v) :=
  inferInstanceAs (Decidable (ite _ _ _))

end CInt

/-- `(ty)v` on a side, of a `long long`. -/
def cast (side : Side) (ty : CInt) (v : Int) : Int :=
  if ty = .bool then (if v = 0 then 0 else 1)
  else if ty.isSigned then wrap (ty.width side) v
  else v % 2 ^ ty.width side

theorem cast_range (side : Side) (ty : CInt) (v : Int) : ty.InRange side (cast side ty v) := by
  unfold CInt.InRange cast
  cases ty <;> cases side <;> simp [CInt.isSigned, CInt.width, wrap_eq] <;> omega

/-- **What a cast keeps**: sent as a `long long` from one side and cast on the other, a value
arrives exactly when the type there has it. -/
theorem cast_toI64_eq_iff (side side' : Side) {ty : CInt} {v : Int} (h : ty.InRange side v) :
    cast side' ty (toI64 v) = v ↔ ty.InRange side' v := by
  unfold CInt.InRange at *
  unfold cast toI64
  cases ty <;> cases side <;> cases side' <;>
    simp [CInt.isSigned, CInt.width, wrap_eq] at h ⊢ <;> omega

end Gen
