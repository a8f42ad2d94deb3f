import AlpmRpc.Common.Json
import AlpmRpc.Lib.Bits

/-!
# Base64

`src/common/arpc_b64.c`. A `char *` is the bytes up to its NUL, the buffer that `arpc_b64_decode` fills
is the bytes written so far, and `malloc` succeeds.
-/

set_option autoImplicit false

namespace Json

/-- `B64` -/
def b64Table : Bytes := lit "ABCDEFGHIJKLMNOPQRSTUVWXYZabcdefghijklmnopqrstuvwxyz0123456789+/"

/-- `B64[v & 63]` -/
def b64Digit (v : Nat) : UInt8 := b64Table.getD (v &&& 63) 0

/-- `arpc_b64_encode` -/
def b64Encode : Bytes → Bytes
  | a :: b :: c :: src =>
    let v := a.toNat <<< 16 ||| b.toNat <<< 8 ||| c.toNat
    [b64Digit (v >>> 18), b64Digit (v >>> 12), b64Digit (v >>> 6), b64Digit v] ++ b64Encode src
  | [a, b] =>
    let v := a.toNat <<< 16 ||| b.toNat <<< 8
    [b64Digit (v >>> 18), b64Digit (v >>> 12), b64Digit (v >>> 6), ch '=']
  | [a] =>
    let v := a.toNat <<< 16
    [b64Digit (v >>> 18), b64Digit (v >>> 12), ch '=', ch '=']
  | [] => []

/-- `b64val`; `none` for `-1`. -/
def b64val (c : UInt8) : Option Nat :=
  if ch 'A' ≤ c ∧ c ≤ ch 'Z' then some (c.toNat - (ch 'A').toNat)
  else if ch 'a' ≤ c ∧ c ≤ ch 'z' then some (c.toNat - (ch 'a').toNat + 26)
  else if ch '0' ≤ c ∧ c ≤ ch '9' then some (c.toNat - (ch '0').toNat + 52)
  else if c = ch '+' then some 62
  else if c = ch '/' then some 63
  else none

/-- How many `=` the text ends in; `none` when the one before the end is not padding. -/
def b64Pad (src : Bytes) : Option Nat :=
  let len := src.length
  if len = 0 then some 0
  else if src.getD (len - 1) 0 = ch '=' then some (if src.getD (len - 2) 0 = ch '=' then 2 else 1)
  else if src.getD (len - 2) 0 = ch '=' then none
  else some 0

/-- `v[k]`: a `=` counts as 0 in the last two places of the last group. -/
def b64Sextet (last : Bool) (k : Nat) (c : UInt8) : Option Nat :=
  if last = true ∧ 2 ≤ k ∧ c = ch '=' then some 0 else b64val c

def b64Word (v₀ v₁ v₂ v₃ : Nat) : Nat := v₀ <<< 18 ||| v₁ <<< 12 ||| v₂ <<< 6 ||| v₃

/-- `if (o < out_len) out[o++] = ...` -/
def b64Put (outLen : Nat) (out : Bytes) (w : Nat) : Bytes :=
  if out.length < outLen then out ++ [UInt8.ofNat (w &&& 0xff)] else out

/-- The loop over the groups of four that are left. -/
def b64Groups (outLen : Nat) (out : Bytes) : Bytes → Option Bytes
  | c₀ :: c₁ :: c₂ :: c₃ :: src => do
    let v₀ ← b64Sextet src.isEmpty 0 c₀
    let v₁ ← b64Sextet src.isEmpty 1 c₁
    let v₂ ← b64Sextet src.isEmpty 2 c₂
    let v₃ ← b64Sextet src.isEmpty 3 c₃
    let w := b64Word v₀ v₁ v₂ v₃
    b64Groups outLen (b64Put outLen (b64Put outLen (b64Put outLen out (w >>> 16)) (w >>> 8)) w) src
  | _ => some out

/-- `arpc_b64_decode`: the buffer, and `*n`. -/
def b64Decode : Option Bytes → Option Bytes × Nat
  | none => (none, 0)
  | some src =>
    let src := cstr src
    if src.length % 4 ≠ 0 then (none, 0)
    else
      match b64Pad src with
      | none => (none, 0)
      | some pad =>
        let outLen := src.length / 4 * 3 - pad
        match b64Groups outLen [] src with
        | none => (none, 0)
        | some out => (some out, outLen)

/-! ## What well-formed text is -/

/-- The value of a digit: its place in the alphabet. -/
def digitValue (c : UInt8) : Nat := b64Table.idxOf c

/-- The text `s` is the digits `ds` in groups of four, the last one filled up with `pad` `=`. -/
structure Padded (s ds : Bytes) (pad : Nat) : Prop where
  eq : s = ds ++ List.replicate pad (ch '=')
  digits : ∀ c ∈ ds, c ∈ b64Table
  whole : s.length % 4 = 0
  short : pad = 0 ∨ (pad = 1 ∧ ds.length % 4 = 3) ∨ (pad = 2 ∧ ds.length % 4 = 2)

end Json
