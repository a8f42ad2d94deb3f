import Mathlib.Algebra.Order.Ring.Int
import Mathlib.Data.Nat.Bitwise

/-!
# Ids on the wire

The part of `src/common/arpc_wire.h` that both sides use. A machine word is a `Nat` below `2 ^ 64`.
An id carries the root handle it belongs to above bit `rootShift`; the low bits are a sequence
number.
-/

set_option autoImplicit false

namespace Wire

/-- `ARPC_ROOT_SHIFT` -/
def rootShift : Nat := 40

/-- `ARPC_ROOT(id)` -/
def arpcRoot (id : Nat) : Nat := id >>> rootShift

/-- The id of root `root` and sequence number `seq`: `(root << ARPC_ROOT_SHIFT) | seq`. -/
def mkId (root seq : Nat) : Nat := (root <<< rootShift) % 2 ^ 64 ||| seq % 2 ^ 64

theorem mkId_eq {root seq : Nat} (hs : seq < 2 ^ 40) :
    mkId root seq = (root % 2 ^ 24) * 2 ^ 40 + seq := by
  have h1 : (root <<< rootShift) % 2 ^ 64 = (root % 2 ^ 24) <<< 40 := by
    rw [Nat.shiftLeft_eq, Nat.shiftLeft_eq, rootShift, show (2 : Nat) ^ 64 = 2 ^ 24 * 2 ^ 40 by rfl,
      Nat.mul_mod_mul_right]
  rw [mkId, h1, Nat.mod_eq_of_lt (a := seq) (by omega), ← Nat.shiftLeft_add_eq_or_of_lt hs, Nat.shiftLeft_eq]

/-- The sequence number is the id's low bits. -/
theorem mkId_mod {root seq : Nat} (hs : seq < 2 ^ 40) : mkId root seq % 2 ^ 40 = seq := by
  rw [mkId_eq hs]; omega

theorem mkId_ne_zero {root seq : Nat} (h0 : 0 < seq) (hs : seq < 2 ^ 40) : mkId root seq ≠ 0 := by
  rw [mkId_eq hs]; omega

theorem arpcRoot_mkId {root seq : Nat} (hr : root < 2 ^ 24) (hs : seq < 2 ^ 40) :
    arpcRoot (mkId root seq) = root := by
  rw [mkId_eq hs, arpcRoot, rootShift, Nat.shiftRight_eq_div_pow, Nat.mod_eq_of_lt hr]
  omega

end Wire
