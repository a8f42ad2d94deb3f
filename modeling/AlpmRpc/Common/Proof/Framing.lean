import AlpmRpc.Common.Framing
import Mathlib.Data.Nat.Bitwise

/-!
# Frames survive any chunking

`io_exact` writes all of its buffer, and reads what it is asked for off the front of the stream, however
the bytes are cut up (`ioExact_write`, `ioExact_read`); a read of more than the stream still gives fails
(`ioExact_short`). One frame is then written whole (`sendFrame_eq`) and read whole (`recvFrame_frame`), and
a sequence of them by induction.
-/

set_option autoImplicit false

namespace Wire

open Json

variable {moves : Nat → Nat}

/-! ## One transfer -/

theorem ioExact_write (hm : ∀ k, 0 < moves k) {buf : Bytes} {n : Nat} (hn : n ≤ buf.length)
    (s : Stream) :
    (ioExact moves true buf n s).1 = true ∧
      (ioExact moves true buf n s).2.bytes = s.bytes ++ buf.take n := by
  have hrule := @Transfer.exactly_all _ (writeFile moves)
    (fun m t => t.bytes ++ t.buf.take m = s.bytes ++ buf.take n ∧ m ≤ t.buf.length)
    (fun m t hm' ⟨hb, hl⟩ => ?_) n { s with buf } ⟨rfl, hn⟩
  · obtain ⟨hd, hb, -⟩ := hrule
    refine ⟨hd, ?_⟩
    rw [List.take_zero, List.append_nil] at hb
    exact hb
  · have hk := hm t.ios
    refine ⟨?_, ?_, ?_⟩
    · simp only [writeFile]
      omega
    · simp only [writeFile]
      rw [← hb, List.append_assoc, ← List.take_add, Nat.add_sub_cancel' (Nat.min_le_left _ _)]
    · simp only [writeFile, List.length_drop]
      omega

theorem ioExact_read (hm : ∀ k, 0 < moves k) {front rest : Bytes} {s : Stream}
    (hs : s.bytes = front ++ rest) :
    (ioExact moves false [] front.length s).1 = true ∧
      (ioExact moves false [] front.length s).2.buf = front ∧
        (ioExact moves false [] front.length s).2.bytes = rest := by
  have hrule := @Transfer.exactly_all _ (readFile moves)
    (fun n t => t.buf ++ t.bytes = front ++ rest ∧ t.buf.length + n = front.length)
    (fun n t hn ⟨hb, hl⟩ => ?_) front.length { s with buf := [] } ⟨by simpa using hs, by simp⟩
  · obtain ⟨hd, hb, hl⟩ := hrule
    obtain ⟨hfront, hrest⟩ := List.append_inj hb (by simpa using hl)
    exact ⟨hd, hfront, hrest⟩
  · have hk := hm t.ios
    have hlen := congrArg List.length hb
    simp only [List.length_append] at hlen
    refine ⟨?_, ?_, ?_⟩
    · simp only [readFile]
      omega
    · simp only [readFile]
      rw [List.append_assoc, List.take_append_drop, hb]
    · simp only [readFile, List.length_append, List.length_take]
      omega

/-- A stream that ends early fails the read. -/
theorem ioExact_short {n : Nat} {s : Stream} (hs : s.bytes.length < n) :
    (ioExact moves false [] n s).1 = false := by
  refine @Transfer.exactly_short _ (readFile moves) (fun n t => t.bytes.length < n)
    (fun m t _ ht _ => ?_) (fun t => Nat.not_lt_zero _) _ _ hs
  simp only [readFile, List.length_drop]
  omega

/-! ## The header -/

theorem header_length (n : Nat) : (header n).length = 4 := rfl

/-- A header's four bytes hold 32 bits of the length. -/
theorem announced_mod (n : Nat) : announced (header n) = n % 2 ^ 32 := by
  have hb : ∀ k, (UInt8.ofNat ((n >>> k) &&& 0xFF)).toNat = n / 2 ^ k % 256 := by
    intro k
    rw [UInt8.toNat_ofNat', show 0xFF = 2 ^ 8 - 1 by rfl, Nat.and_two_pow_sub_one_eq_mod,
      Nat.shiftRight_eq_div_pow, Nat.mod_mod]
  have h0 := hb 0
  rw [Nat.shiftRight_zero] at h0
  rw [header, announced, h0, hb, hb, hb]
  rw [Nat.or_comm (n / 2 ^ 0 % 256), ← Nat.shiftLeft_add_eq_or_of_lt (by omega),
    Nat.or_comm _ ((n / 2 ^ 16 % 256) <<< 16), ← Nat.shiftLeft_add_eq_or_of_lt (by
      rw [Nat.shiftLeft_eq]; omega),
    Nat.or_comm _ ((n / 2 ^ 24 % 256) <<< 24), ← Nat.shiftLeft_add_eq_or_of_lt (by
      simp only [Nat.shiftLeft_eq]; omega)]
  simp only [Nat.shiftLeft_eq]
  omega

theorem announced_header {n : Nat} (hn : n < 2 ^ 32) : announced (header n) = n := by
  rw [announced_mod, Nat.mod_eq_of_lt hn]

/-! ## One frame -/

theorem frame_length (b : Bytes) : (frame b).length = 4 + b.length := by
  rw [frame, List.length_append, header_length]

theorem Sendable.lt {b : Bytes} (h : Sendable b) : b.length < 2 ^ 32 :=
  Nat.lt_of_le_of_lt h.2 (by decide)

theorem Sendable.length_fits {b : Bytes} (h : Sendable b) : ¬(b.length = 0 ∨ maxFrame < b.length) := by
  have := h.1
  have := h.2
  omega

theorem sendFrame_bytes (hm : ∀ k, 0 < moves k) (b : Bytes) (s : Stream) :
    (sendFrame moves s b).1 = true ∧
      (sendFrame moves s b).2.bytes = s.bytes ++ header b.length ++ b.take (b.length % 2 ^ 32) := by
  obtain ⟨hok, hbytes⟩ := ioExact_write hm (Nat.le_of_eq (header_length b.length).symm) s
  obtain ⟨hok', hbytes'⟩ := ioExact_write hm (Nat.mod_le b.length (2 ^ 32))
    (ioExact moves true (header b.length) 4 s).2.toStream
  rw [sendFrame]
  simp only [hok, if_true]
  rw [hbytes', hbytes, List.take_of_length_le (Nat.le_of_eq (header_length b.length))]
  exact ⟨hok', rfl⟩

theorem sendFrame_eq (hm : ∀ k, 0 < moves k) {b : Bytes} (hb : b.length < 2 ^ 32) (s : Stream) :
    (sendFrame moves s b).1 = true ∧ (sendFrame moves s b).2.bytes = s.bytes ++ frame b := by
  obtain ⟨hok, hbytes⟩ := sendFrame_bytes hm b s
  rw [Nat.mod_eq_of_lt hb, List.take_length, List.append_assoc] at hbytes
  exact ⟨hok, hbytes⟩

/-- The header is read, and what follows it is left. -/
theorem recv_header (hm : ∀ k, 0 < moves k) {hdr rest : Bytes} (hh : hdr.length = 4) {s : Stream}
    (hs : s.bytes = hdr ++ rest) :
    (ioExact moves false [] 4 s).1 = true ∧ (ioExact moves false [] 4 s).2.buf = hdr ∧
      (ioExact moves false [] 4 s).2.bytes = rest := by
  have hread := ioExact_read hm hs
  rwa [hh] at hread

theorem recvFrame_frame (hm : ∀ k, 0 < moves k) {b rest : Bytes} (hb : Sendable b) {s : Stream}
    (hs : s.bytes = frame b ++ rest) :
    (recvFrame moves s).1 = received b ∧ (recvFrame moves s).2.bytes = rest := by
  rw [frame, List.append_assoc] at hs
  obtain ⟨hok, hbuf, hbytes⟩ := recv_header hm (header_length b.length) hs
  obtain ⟨hok', hbuf', hbytes'⟩ := ioExact_read hm hbytes
  rw [recvFrame]
  simp only [hok, if_true, hbuf, announced_header hb.lt, if_neg hb.length_fits, hok', hbuf', hbytes',
    received, and_self]

/-- A frame of any length, sent and received, is what the frame loops are given of it. -/
theorem recvFrame_sendFrame {moves' : Nat → Nat} (hm : ∀ k, 0 < moves k) (hm' : ∀ k, 0 < moves' k)
    (b : Bytes) {s s' : Stream} (hs : s.bytes = []) (hs' : s'.bytes = (sendFrame moves s b).2.bytes) :
    (recvFrame moves' s').1.1 = (delivered b).map (· ++ [0]) := by
  rw [(sendFrame_bytes hm b s).2, hs, List.nil_append] at hs'
  obtain ⟨hok, hbuf, hbytes⟩ := recv_header hm' (header_length b.length) hs'
  have hlen : (b.take (b.length % 2 ^ 32)).length = b.length % 2 ^ 32 :=
    List.length_take_of_le (Nat.mod_le _ _)
  obtain ⟨hok', hbuf', -⟩ := ioExact_read hm' (hbytes.trans (List.append_nil _).symm)
  rw [hlen] at hok' hbuf'
  rw [recvFrame, delivered]
  simp only [hok, if_true, hbuf, announced_mod]
  split
  · rfl
  · simp only [hbuf', Option.map_some]

theorem delivered_eq {b : Bytes} (hb : Sendable b) : delivered b = some b := by
  rw [delivered, Nat.mod_eq_of_lt hb.lt, if_neg hb.length_fits, List.take_length]

/-- A stream that ends inside a frame. -/
theorem recvFrame_truncated (hm : ∀ k, 0 < moves k) {b : Bytes} (hb : Sendable b) {k : Nat}
    (hk : k < (frame b).length) {s : Stream} (hs : s.bytes = (frame b).take k) :
    (recvFrame moves s).1 = (none, 0) := by
  rw [frame_length] at hk
  rw [recvFrame]
  by_cases h4 : k < 4
  · have hshort : s.bytes.length < 4 := by
      rw [hs, List.length_take, frame_length]
      omega
    simp only [ioExact_short hshort]
    rfl
  · rw [frame, List.take_append, header_length,
      List.take_of_length_le (by rw [header_length]; omega)] at hs
    obtain ⟨hok, hbuf, hbytes⟩ := recv_header hm (header_length b.length) hs
    have hshort : (ioExact moves false [] 4 s).2.bytes.length < b.length := by
      rw [hbytes, List.length_take]
      omega
    simp only [hok, if_true, hbuf, announced_header hb.lt, if_neg hb.length_fits, ioExact_short hshort]
    rfl

/-- A header that announces too much: nothing after it is read. -/
theorem recvFrame_refused (hm : ∀ k, 0 < moves k) {hdr rest : Bytes} (hh : hdr.length = 4)
    (hbig : maxFrame < announced hdr) {s : Stream} (hs : s.bytes = hdr ++ rest) :
    (recvFrame moves s).1 = (none, announced hdr) ∧ (recvFrame moves s).2.bytes = rest := by
  obtain ⟨hok, hbuf, hbytes⟩ := recv_header hm hh hs
  rw [recvFrame]
  simp only [hok, if_true, hbuf, if_pos (Or.inr hbig), hbytes, and_self]

/-! ## A sequence of frames -/

theorem sendFrames_eq (hm : ∀ k, 0 < moves k) {bs : List Bytes} (hbs : ∀ b ∈ bs, Sendable b)
    (s : Stream) :
    (sendFrames moves s bs).1 = true ∧
      (sendFrames moves s bs).2.bytes = s.bytes ++ bs.flatMap frame := by
  induction bs generalizing s with
  | nil => exact ⟨rfl, (List.append_nil _).symm⟩
  | cons b bs ih =>
    obtain ⟨hok, hbytes⟩ := sendFrame_eq hm (hbs b List.mem_cons_self).lt s
    obtain ⟨hok', hbytes'⟩ := ih (fun c hc => hbs c (List.mem_cons_of_mem _ hc)) (sendFrame moves s b).2
    rw [sendFrames]
    simp only [hok, if_true]
    refine ⟨hok', ?_⟩
    rw [hbytes', hbytes, List.flatMap_cons, List.append_assoc]

theorem recvFrames_eq (hm : ∀ k, 0 < moves k) {bs : List Bytes} (hbs : ∀ b ∈ bs, Sendable b)
    {rest : Bytes} {s : Stream} (hs : s.bytes = bs.flatMap frame ++ rest) :
    (recvFrames moves bs.length s).1 = bs.map received ∧
      (recvFrames moves bs.length s).2.bytes = rest := by
  induction bs generalizing s with
  | nil => exact ⟨rfl, hs⟩
  | cons b bs ih =>
    rw [List.flatMap_cons, List.append_assoc] at hs
    obtain ⟨hr, hbytes⟩ := recvFrame_frame hm (hbs b List.mem_cons_self) hs
    obtain ⟨hrs, hrest⟩ := ih (fun c hc => hbs c (List.mem_cons_of_mem _ hc)) hbytes
    rw [List.length_cons, recvFrames]
    dsimp only
    rw [hr, hrs, hrest, List.map_cons]
    exact ⟨rfl, rfl⟩

/-- **Frames survive any chunking**: they are read as they were written, and what follows them on the
stream is left to the next read, which refuses a frame that is cut off or announces too much. -/
theorem frames_survive {out inn : Nat → Nat} (ho : ∀ k, 0 < out k) (hi : ∀ k, 0 < inn k)
    {bs : List Bytes} (hbs : ∀ b ∈ bs, Sendable b) (m n : Nat) (rest : Bytes) :
    let w := sendFrames out { bytes := [], ios := m } bs
    let r := recvFrames inn bs.length { bytes := w.2.bytes ++ rest, ios := n }
    w.1 = true ∧ r.1 = bs.map received ∧ r.2.bytes = rest ∧
      (∀ b k, Sendable b → k < (frame b).length → rest = (frame b).take k →
        (recvFrame inn r.2).1 = (none, 0)) ∧
      ∀ hdr more, hdr.length = 4 → maxFrame < announced hdr → rest = hdr ++ more →
        (recvFrame inn r.2).1 = (none, announced hdr) ∧ (recvFrame inn r.2).2.bytes = more := by
  intro w r
  obtain ⟨hok, hw⟩ := sendFrames_eq ho hbs { bytes := [], ios := m }
  have hbytes : w.2.bytes ++ rest = bs.flatMap frame ++ rest := by rw [hw, List.nil_append]
  obtain ⟨hr, hrest⟩ := recvFrames_eq hi hbs (s := { bytes := w.2.bytes ++ rest, ios := n }) hbytes
  refine ⟨hok, hr, hrest, ?_, ?_⟩
  · intro b k hb hk he
    exact recvFrame_truncated hi hb hk (hrest.trans he)
  · intro hdr more hh hbig he
    exact recvFrame_refused hi hh hbig (hrest.trans he)

/-- A byte at a time on one side, three on the other, and a header of `2 ^ 27` bytes after it. -/
theorem frames_survive_split :
    (recvFrames (fun _ => 3) 2 { bytes := (sendFrames (fun _ => 1) { bytes := [], ios := 0 }
      [lit "{}", lit "[1]"]).2.bytes ++ [0, 0, 0, 8], ios := 0 }).1 =
      [received (lit "{}"), received (lit "[1]")] :=
  (@frames_survive (fun _ => 1) (fun _ => 3) (fun _ => Nat.one_pos) (fun _ => Nat.succ_pos 2)
    [lit "{}", lit "[1]"] (List.forall_mem_cons.2 ⟨⟨by decide, by decide⟩,
      List.forall_mem_singleton.2 ⟨by decide, by decide⟩⟩) 0 0 [0, 0, 0, 8]).2.1

end Wire
