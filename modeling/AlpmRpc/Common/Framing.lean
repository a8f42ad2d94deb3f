import AlpmRpc.Common.Json
import AlpmRpc.Lib.Transfer

/-!
# Framing

`arpc_send_frame` and `arpc_recv_frame` of `src/common/arpc_wire.c` over a byte stream. The operating
system decides how many bytes each `WriteFile` and `ReadFile` moves: the `k`-th of a side moves up to
`moves k` of the bytes it is asked for, and none when it fails. A read of a stream that has ended
moves none. The two shapes of an I/O (with an event, and without) end in the same `ok` and `did`.
`malloc` succeeds.
-/

set_option autoImplicit false

namespace Wire

open Json

/-- `ARPC_MAX_FRAME` -/
def maxFrame : Nat := 64 * 1024 * 1024

/-- One side's view of the stream: the bytes that were written and not read, and how many I/Os the
side has made. -/
structure Stream where
  bytes : Bytes
  ios : Nat

/-- An `io_exact` at work: `buf` is what is left to write, or what has been read. -/
structure Io extends Stream where
  buf : Bytes

variable (moves : Nat → Nat)

def writeFile (n : Nat) (s : Io) : Nat × Io :=
  let did := min n (moves s.ios)
  (did, { bytes := s.bytes ++ s.buf.take did, ios := s.ios + 1, buf := s.buf.drop did })

def readFile (n : Nat) (s : Io) : Nat × Io :=
  let did := min (min n s.bytes.length) (moves s.ios)
  (did, { bytes := s.bytes.drop did, ios := s.ios + 1, buf := s.buf ++ s.bytes.take did })

def ioExact (writing : Bool) (buf : Bytes) (n : Nat) (s : Stream) : Bool × Io :=
  Transfer.exactly (if writing then writeFile moves else readFile moves) n { s with buf }

/-- The header of a frame of `len` bytes. -/
def header (len : Nat) : Bytes :=
  [UInt8.ofNat (len &&& 0xFF), UInt8.ofNat ((len >>> 8) &&& 0xFF),
    UInt8.ofNat ((len >>> 16) &&& 0xFF), UInt8.ofNat ((len >>> 24) &&& 0xFF)]

/-- The length that a header announces. -/
def announced : Bytes → Nat
  | [a, b, c, d] => a.toNat ||| b.toNat <<< 8 ||| c.toNat <<< 16 ||| d.toNat <<< 24
  | _ => 0

/-- `arpc_send_frame` -/
def sendFrame (s : Stream) (buf : Bytes) : Bool × Stream :=
  let (sent, io) := ioExact moves true (header buf.length) 4 s
  if sent then
    let (sent, io) := ioExact moves true buf (buf.length % 2 ^ 32) io.toStream
    (sent, io.toStream)
  else (false, io.toStream)

/-- `arpc_recv_frame`: the buffer with the NUL after it, and `*len_out`. -/
def recvFrame (s : Stream) : (Option Bytes × Nat) × Stream :=
  let (got, io) := ioExact moves false [] 4 s
  if got then
    let len := announced io.buf
    if len = 0 ∨ maxFrame < len then ((none, len), io.toStream)
    else
      let (got, io) := ioExact moves false [] len io.toStream
      if got then ((some (io.buf ++ [0]), len), io.toStream) else ((none, 0), io.toStream)
  else ((none, 0), io.toStream)

/-! ## A sequence of frames -/

/-- Frames sent one after the other, as long as that succeeds. -/
def sendFrames : Stream → List Bytes → Bool × Stream
  | s, [] => (true, s)
  | s, b :: bs =>
    let (sent, s) := sendFrame moves s b
    if sent then sendFrames s bs else (false, s)

/-- What `n` calls return. -/
def recvFrames : Nat → Stream → List (Option Bytes × Nat) × Stream
  | 0, s => ([], s)
  | n + 1, s =>
    let (r, s) := recvFrame moves s
    let (rs, s) := recvFrames n s
    (r :: rs, s)

/-- A payload on the stream. -/
def frame (payload : Bytes) : Bytes := header payload.length ++ payload

/-- What a read returns of it. -/
def received (payload : Bytes) : Option Bytes × Nat := (some (payload ++ [0]), payload.length)

/-- What `arpc_recv_frame` gives of a payload that was sent: header and payload keep 32 bits of the
length, and one that is `0` or more than `ARPC_MAX_FRAME` is refused. -/
def delivered (payload : Bytes) : Option Bytes :=
  let len := payload.length % 2 ^ 32
  if len = 0 ∨ maxFrame < len then none else some (payload.take len)

/-- A payload that both sides take. -/
def Sendable (payload : Bytes) : Prop := 1 ≤ payload.length ∧ payload.length ≤ maxFrame

end Wire
