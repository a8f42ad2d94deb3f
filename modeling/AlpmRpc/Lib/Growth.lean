import Mathlib.Data.List.Flatten
import Mathlib.Tactic.TypeStar

/-!
# Buffers that grow

A buffer is appended to in chunks, each after room was made for it, by a growth where the buffer is
full. Growths are counted, and `mem k` says whether growth `k` succeeds. One that fails is the last:
nothing is appended after it. `fit cap n` is what a buffer of `cap` grows to for `n`.

`exec_ok_iff`: chunks all get in exactly when the growths they need all succeed. Then the buffer has
them all (`exec_data`), and otherwise it is short of some (`exec_short`).
-/

set_option autoImplicit false

namespace Growth

variable {α : Type*}

/-- What is appended, and the room made for it. -/
structure Chunk (α : Type*) where
  need : Nat
  data : List α

def total (cs : List (Chunk α)) : List α := cs.flatMap (·.data)

/-- No chunk is empty. -/
def Solid (cs : List (Chunk α)) : Prop := ∀ c ∈ cs, c.data ≠ []

section

variable {c : Chunk α} {cs cs' : List (Chunk α)}

@[simp]
theorem total_nil : total ([] : List (Chunk α)) = [] := rfl

@[simp]
theorem total_cons : total (c :: cs) = c.data ++ total cs := rfl

@[simp]
theorem total_append : total (cs ++ cs') = total cs ++ total cs' := List.flatMap_append

@[simp]
theorem solid_nil : Solid ([] : List (Chunk α)) := by simp [Solid]

@[simp]
theorem solid_cons : Solid (c :: cs) ↔ c.data ≠ [] ∧ Solid cs := List.forall_mem_cons

@[simp]
theorem solid_append : Solid (cs ++ cs') ↔ Solid cs ∧ Solid cs' := List.forall_mem_append

end

/-- Allocated memory. -/
structure Block (α : Type*) where
  data : List α
  cap : Nat

structure Buffer (α : Type*) where
  block : Option (Block α) := none
  failed : Bool := false
  /-- the growths so far -/
  tries : Nat := 0

namespace Buffer

def data (b : Buffer α) : List α := b.block.elim [] (·.data)

def cap (b : Buffer α) : Nat := b.block.elim 0 (·.cap)

def append (b : Buffer α) (s : List α) : Buffer α :=
  { b with block := b.block.map fun k => { k with data := k.data ++ s } }

variable (fit : Nat → (n : Nat) → { cap : Nat // n ≤ cap }) (mem : Nat → Bool)

/-- Room for `need` more and a terminator; whether there is. -/
def grow (b : Buffer α) (need : Nat) : Buffer α × Bool :=
  if b.failed then (b, false)
  else if b.data.length + need + 1 ≤ b.cap then (b, true)
  else if mem b.tries then
    ({ b with
      block := some ⟨b.data, (fit b.cap (b.data.length + need + 1)).1⟩
      tries := b.tries + 1 }, true)
  else ({ b with failed := true, tries := b.tries + 1 }, false)

def put (b : Buffer α) (c : Chunk α) : Buffer α :=
  match b.grow fit mem c.need with
  | (b, true) => b.append c.data
  | (b, false) => b

def exec (b : Buffer α) (cs : List (Chunk α)) : Buffer α := cs.foldl (put fit mem) b

/-- How often a buffer of `cap` that holds `len` must grow for the chunks. -/
def growths : Nat → Nat → List (Chunk α) → Nat
  | _, _, [] => 0
  | cap, len, c :: cs =>
    if len + c.need + 1 ≤ cap then growths cap (len + c.data.length) cs
    else growths (fit cap (len + c.need + 1)).1 (len + c.data.length) cs + 1

variable {fit mem} {b : Buffer α}

@[simp]
theorem append_data (h : b.block.isSome = true) (s : List α) : (b.append s).data = b.data ++ s := by
  obtain ⟨k, hk⟩ := Option.isSome_iff_exists.1 h
  simp [append, data, hk]

@[simp]
theorem append_cap (s : List α) : (b.append s).cap = b.cap := by
  cases h : b.block <;> simp [append, cap, h]

theorem append_nil (b : Buffer α) : b.append [] = b := by
  obtain ⟨block, failed, tries⟩ := b
  cases block <;> simp [append]

theorem isSome_of_fits {n : Nat} (h : n + 1 ≤ b.cap) : b.block.isSome = true := by
  cases hb : b.block with
  | none => simp [cap, hb] at h
  | some k => rfl

variable (fit mem) in
/-- What a chunk does to a buffer. -/
theorem put_cases (b : Buffer α) (c : Chunk α) :
    (b.failed = true ∧ b.put fit mem c = b) ∨
    (b.failed = false ∧ b.data.length + c.need + 1 ≤ b.cap ∧ b.put fit mem c = b.append c.data ∧
      (b.put fit mem c).data = b.data ++ c.data) ∨
    (b.failed = false ∧ ¬b.data.length + c.need + 1 ≤ b.cap ∧ mem b.tries = true ∧
      b.put fit mem c = { b with
        block := some ⟨b.data ++ c.data, (fit b.cap (b.data.length + c.need + 1)).1⟩
        tries := b.tries + 1 }) ∨
    (b.failed = false ∧ ¬b.data.length + c.need + 1 ≤ b.cap ∧ mem b.tries = false ∧
      b.put fit mem c = { b with failed := true, tries := b.tries + 1 }) := by
  unfold put grow
  by_cases hf : b.failed = true
  · simp [hf]
  by_cases hfit : b.data.length + c.need + 1 ≤ b.cap
  · simp [hf, hfit, append_data (isSome_of_fits hfit)]
  by_cases hm : mem b.tries = true
  · simp [hf, hfit, hm, append]
  · simp [hf, hfit, hm]

theorem put_failed (h : b.failed = true) (c : Chunk α) : b.put fit mem c = b := by
  simp [put, grow, h]

/-- The first growth of a buffer, which decides whether it has memory at all. -/
theorem put_of_none (hb : b.block = none) (h : b.failed = false) (c : Chunk α) :
    (mem b.tries = true ∧ ∃ cap, (b.put fit mem c).block = some ⟨c.data, cap⟩) ∨
    (mem b.tries = false ∧ b.put fit mem c = { b with failed := true, tries := b.tries + 1 }) := by
  have hd : b.data = [] := by simp [data, hb]
  have hfit : ¬b.data.length + c.need + 1 ≤ b.cap := by simp [cap, hb]
  rcases put_cases fit mem b c with ⟨hf, -⟩ | ⟨-, hfit', -⟩ | ⟨-, -, hm, hp⟩ |
    ⟨-, -, hm, hp⟩
  · rw [h] at hf
    cases hf
  · exact absurd hfit' hfit
  · rw [hp, hd]
    exact .inl ⟨hm, _, rfl⟩
  · exact .inr ⟨hm, hp⟩

theorem exec_nil : b.exec fit mem [] = b := rfl

theorem exec_cons (c : Chunk α) (cs : List (Chunk α)) :
    b.exec fit mem (c :: cs) = (b.put fit mem c).exec fit mem cs := rfl

theorem exec_append (cs cs' : List (Chunk α)) :
    b.exec fit mem (cs ++ cs') = (b.exec fit mem cs).exec fit mem cs' := List.foldl_append

/-- **A failure is sticky.** -/
theorem exec_failed (h : b.failed = true) (cs : List (Chunk α)) : b.exec fit mem cs = b := by
  induction cs with
  | nil => rfl
  | cons c cs ih => rw [exec_cons, put_failed h, ih]

theorem not_failed_of_exec {cs : List (Chunk α)} (h : (b.exec fit mem cs).failed = false) :
    b.failed = false := by
  cases hf : b.failed with
  | false => rfl
  | true =>
    rw [exec_failed hf, hf] at h
    cases h

/-- **Chunks all get in exactly when the growths they need succeed.** -/
theorem exec_ok_iff (h : b.failed = false) (cs : List (Chunk α)) :
    (b.exec fit mem cs).failed = false ↔
      ∀ k < growths fit b.cap b.data.length cs, mem (b.tries + k) = true := by
  induction cs generalizing b with
  | nil => simp [exec, growths, h]
  | cons c cs ih =>
    rw [exec_cons, growths]
    rcases put_cases fit mem b c with ⟨hf, -⟩ | ⟨-, hfit, hp, hd⟩ |
      ⟨-, hfit, hm, hp⟩ | ⟨-, hfit, hm, hp⟩
    · rw [h] at hf
      cases hf
    · rw [if_pos hfit, ih (by rw [hp]; exact h), hd, hp, append_cap, List.length_append]
      rfl
    · have hput : (b.put fit mem c).data.length = b.data.length + c.data.length := by
        rw [hp]
        exact List.length_append
      rw [if_neg hfit, ih (by rw [hp]; exact h), hput, hp]
      show (∀ k < growths fit (fit b.cap (b.data.length + c.need + 1)).1 _ cs,
        mem (b.tries + 1 + k) = true) ↔ _
      constructor
      · intro hall k hk
        cases k with
        | zero => exact hm
        | succ k =>
          have hk' := hall k (by omega)
          rwa [show b.tries + 1 + k = b.tries + (k + 1) by omega] at hk'
      · intro hall k hk
        have hk' := hall (k + 1) (by omega)
        rwa [show b.tries + (k + 1) = b.tries + 1 + k by omega] at hk'
    · rw [if_neg hfit, exec_failed (by rw [hp]), hp]
      refine iff_of_false (by simp) fun hall => ?_
      have h0 := hall 0 (by omega)
      rw [Nat.add_zero, hm] at h0
      cases h0

/-- Then they are all there. -/
theorem exec_data {cs : List (Chunk α)} (h : (b.exec fit mem cs).failed = false) :
    (b.exec fit mem cs).data = b.data ++ total cs := by
  induction cs generalizing b with
  | nil => simp [exec, total]
  | cons c cs ih =>
    rw [exec_cons] at h ⊢
    have hput := not_failed_of_exec h
    have hd : (b.put fit mem c).data = b.data ++ c.data := by
      rcases put_cases fit mem b c with ⟨hf, hp⟩ | ⟨-, -, -, hd⟩ | ⟨-, -, -, hp⟩ |
        ⟨-, -, -, hp⟩
      · rw [hp, hf] at hput
        cases hput
      · exact hd
      · rw [hp]
        rfl
      · rw [hp] at hput
        cases hput
    rw [ih h, hd, List.append_assoc]
    rfl

variable (fit mem) in
theorem put_length_le (b : Buffer α) (c : Chunk α) :
    (b.put fit mem c).data.length ≤ b.data.length + c.data.length := by
  rcases put_cases fit mem b c with ⟨-, hp⟩ | ⟨-, -, -, hd⟩ | ⟨-, -, -, hp⟩ |
    ⟨-, -, -, hp⟩
  · rw [hp]
    omega
  · simp [hd]
  · rw [hp]
    simp [data]
  · rw [hp]
    exact Nat.le_add_right _ _

theorem exec_length_le (b : Buffer α) (cs : List (Chunk α)) :
    (b.exec fit mem cs).data.length ≤ b.data.length + (total cs).length := by
  induction cs generalizing b with
  | nil => exact Nat.le_refl _
  | cons c cs ih =>
    have hput := put_length_le fit mem b c
    have hrest := ih (b.put fit mem c)
    rw [exec_cons, total_cons, List.length_append]
    omega

/-- **Otherwise the buffer is short of some.** -/
theorem exec_short {cs : List (Chunk α)} (hn : Solid cs) (h : b.failed = false)
    (hf : (b.exec fit mem cs).failed = true) :
    (b.exec fit mem cs).data.length < b.data.length + (total cs).length := by
  induction cs generalizing b with
  | nil =>
    rw [exec_nil, h] at hf
    cases hf
  | cons c cs ih =>
    obtain ⟨hne, hn⟩ := solid_cons.1 hn
    have hc := List.length_pos_iff.2 hne
    have hput := put_length_le fit mem b c
    rw [exec_cons] at hf ⊢
    rw [total_cons, List.length_append]
    cases hp : (b.put fit mem c).failed with
    | false =>
      have hrest := ih hn hp hf
      omega
    | true =>
      -- the chunk that fails is not there, nor any after it
      have hsame : (b.put fit mem c).data = b.data := by
        rcases put_cases fit mem b c with ⟨hb, -⟩ | ⟨-, -, he, -⟩ |
          ⟨-, -, -, he⟩ | ⟨-, -, -, he⟩
        · rw [h] at hb
          cases hb
        · rw [he] at hp
          rw [show (b.append c.data).failed = b.failed from rfl, h] at hp
          cases hp
        · rw [he] at hp
          rw [h] at hp
          cases hp
        · rw [he]
          rfl
      rw [exec_failed hp, hsame]
      omega

/-- A buffer without memory has to grow. -/
theorem growths_pos (c : Chunk α) (cs : List (Chunk α)) : 0 < growths fit 0 0 (c :: cs) := by
  rw [growths, if_neg (by omega)]
  exact Nat.succ_pos _

/-- Memory that is allocated stays. -/
theorem exec_block (h : b.block.isSome = true) (cs : List (Chunk α)) :
    (b.exec fit mem cs).block.isSome = true := by
  induction cs generalizing b with
  | nil => exact h
  | cons c cs ih =>
    rw [exec_cons]
    apply ih
    rcases put_cases fit mem b c with ⟨-, hp⟩ | ⟨-, -, hp, -⟩ | ⟨-, -, -, hp⟩ |
      ⟨-, -, -, hp⟩
    · rw [hp]
      exact h
    · rw [hp]
      simpa [append] using h
    · rw [hp]
      rfl
    · rw [hp]
      exact h

end Buffer

end Growth
