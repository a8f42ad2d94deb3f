import AlpmRpc.Server.Proof.TableRefine

/-!
# Programs over the handle table

`Op` is one call of the handle table's interface, `exec` runs it on the table and `Reg.exec` on the
registry. The server's handlers are `TProg`s: programs that call the table and go on with the
answer. `TProg.run_rep` carries the refinement over to any such program, so what a handler does to
the registry it does to the table.
-/

set_option autoImplicit false

namespace Server

/-- A call of the handle table. -/
inductive Op where
  | put (ptr : Nat) (tag : HandleTag) (owner : Nat)
  | adopt (ptr owner release : Nat)
  | get (id : Nat) (tag : HandleTag)
  | ancestor (id : Nat) (tag : HandleTag)
  | drop (id : Nat)
  | dropOwner (owner : Nat)
  | dropUnder (owner : Nat)
  | dropPtr (ptr : Nat) (tag : HandleTag)
  | reset
  deriving DecidableEq, Repr

/-- The call and what it returns; `0` for one that returns nothing. -/
def exec (t : Table) : Op → Option (Table × Nat)
  | .put ptr tag owner => arpcHandlePut t ptr tag owner
  | .adopt ptr owner release => arpcHandleAdopt t ptr owner release
  | .get id tag => do return (t, ← arpcHandleGet t id tag)
  | .ancestor id tag => do return (t, ← arpcAncestor t id tag)
  | .drop id => do return (← arpcHandleDrop t id, 0)
  | .dropOwner owner => do return (← arpcHandleDropOwner t owner, 0)
  | .dropUnder owner => do return (← arpcHandleDropUnder t owner, 0)
  | .dropPtr ptr tag => do return (← arpcHandleDropPtr t ptr tag, 0)
  | .reset => some (arpcHandleReset t, 0)

def Reg.exec (a : Reg) : Op → Reg × Nat
  | .put ptr tag owner => a.put ptr tag owner
  | .adopt ptr owner release => a.adopt ptr owner release
  | .get id tag => (a, a.get id tag)
  | .ancestor id tag => (a, a.ancestor id tag)
  | .drop id => (a.drop id, 0)
  | .dropOwner owner => (a.dropOwner owner, 0)
  | .dropUnder owner => (a.dropUnder owner, 0)
  | .dropPtr ptr tag => (a.dropPtr ptr tag, 0)
  | .reset => (a.reset, 0)

theorem Reg.exec_get (a : Reg) (id : Nat) (tag : HandleTag) :
    a.exec (.get id tag) = (a, a.get id tag) := rfl

/-! ## The sequence counter -/

theorem Reg.put_nextSeq (a : Reg) (p : Nat) (tag : HandleTag) (o : Nat) :
    (a.put p tag o).1.nextSeq = a.nextSeq ∨
      (a.put p tag o).1.nextSeq = (a.nextSeq + 1) % 2 ^ 64 := by
  unfold Reg.put
  split
  · exact .inl rfl
  · cases a.findPtr p tag with
    | none => exact .inr rfl
    | some s => dsimp only; split <;> exact .inl rfl

theorem Reg.exec_nextSeq (a : Reg) (op : Op) :
    (a.exec op).1.nextSeq = a.nextSeq ∨ (a.exec op).1.nextSeq = (a.nextSeq + 1) % 2 ^ 64 := by
  cases op with
  | put p tag o => exact a.put_nextSeq p tag o
  | adopt p o f => exact a.put_nextSeq p .none o
  | dropOwner o => unfold exec dropOwner; dsimp only; split <;> exact .inl rfl
  | dropUnder o => unfold exec dropUnder; dsimp only; split <;> exact .inl rfl
  | dropPtr p tag =>
    unfold exec dropPtr dropOwner
    dsimp only
    split
    · exact .inl rfl
    · cases a.findPtr p tag with
      | none => exact .inl rfl
      | some s => dsimp only; split <;> exact .inl rfl
  | _ => exact .inl rfl

/-- How many ids the call issues. -/
def Reg.issues (a : Reg) (op : Op) : Nat := if (a.exec op).1.nextSeq = a.nextSeq then 0 else 1

theorem Reg.nextSeq_exec {a : Reg} {op : Op} (hb : a.nextSeq + a.issues op ≤ 2 ^ 40) :
    (a.exec op).1.nextSeq = a.nextSeq + a.issues op := by
  unfold issues at hb ⊢
  split
  · rename_i h; rw [h]; rfl
  · rename_i h
    rw [if_neg h] at hb
    rcases a.exec_nextSeq op with h' | h'
    · exact absurd h' h
    · rw [h', Nat.mod_eq_of_lt (by omega)]

/-- **One call**: it returns, and answers as the registry does. -/
theorem Rep.exec {t : Table} {a : Reg} (h : Rep t a) (op : Op)
    (hb : a.nextSeq + a.issues op ≤ 2 ^ 40) :
    ∃ t', Server.exec t op = some (t', (a.exec op).2) ∧ Rep t' (a.exec op).1 := by
  have hlt : (a.exec op).1.nextSeq ≠ a.nextSeq → a.nextSeq < 2 ^ 40 := by
    intro hne
    rw [Reg.issues, if_neg hne] at hb
    omega
  cases op with
  | put ptr tag owner => exact h.put ptr tag owner hlt
  | adopt ptr owner release => exact h.adopt ptr owner release hlt
  | get id tag => exact ⟨t, by simp [Server.exec, Reg.exec, h.get], h⟩
  | ancestor id tag => exact ⟨t, by simp [Server.exec, Reg.exec, h.ancestor], h⟩
  | drop id =>
    obtain ⟨t', ht', hR⟩ := h.drop id
    exact ⟨t', by simp [Server.exec, Reg.exec, ht'], hR⟩
  | dropOwner owner =>
    obtain ⟨t', ht', hR⟩ := h.dropOwner owner
    exact ⟨t', by simp [Server.exec, Reg.exec, ht'], hR⟩
  | dropUnder owner =>
    obtain ⟨t', ht', hR⟩ := h.dropUnder owner
    exact ⟨t', by simp [Server.exec, Reg.exec, ht'], hR⟩
  | dropPtr ptr tag =>
    obtain ⟨t', ht', hR⟩ := h.dropPtr ptr tag
    exact ⟨t', by simp [Server.exec, Reg.exec, ht'], hR⟩
  | reset => exact ⟨_, rfl, h.reset⟩

/-! ## Programs -/

/-- A program that calls the handle table. -/
inductive TProg (α : Type) where
  | ret (x : α)
  | call (op : Op) (k : Nat → TProg α)

namespace TProg

variable {α β : Type}

def bind : TProg α → (α → TProg β) → TProg β
  | .ret x, f => f x
  | .call op k, f => .call op fun r => (k r).bind f

instance : Monad TProg where
  pure := .ret
  bind := bind

def op (o : Op) : TProg Nat := .call o .ret

@[simp] theorem ret_bind (x : α) (f : α → TProg β) : (TProg.ret x >>= f) = f x := rfl

@[simp] theorem call_bind (o : Op) (k : Nat → TProg α) (f : α → TProg β) :
    (TProg.call o k >>= f) = .call o fun r => k r >>= f := rfl

@[simp] theorem op_bind (o : Op) (f : Nat → TProg β) : (op o >>= f) = .call o f := rfl

@[simp] theorem pure_eq (x : α) : (pure x : TProg α) = .ret x := rfl

/-- The program on the table; `none` when a probe loop does not end. -/
def run : TProg α → Table → Option (Table × α)
  | .ret x, t => some (t, x)
  | .call o k, t => do
    let (t, r) ← exec t o
    (k r).run t

theorem run_bind (p : TProg α) (f : α → TProg β) (t : Table) :
    (p >>= f).run t = (p.run t).bind fun r => (f r.2).run r.1 := by
  induction p generalizing t with
  | ret x => rfl
  | call o k ih =>
    rw [call_bind, run, run]
    cases exec t o with
    | none => rfl
    | some r => exact ih r.2 r.1

/-- The program on the registry. -/
def runReg : TProg α → Reg → Reg × α
  | .ret x, a => (a, x)
  | .call o k, a => (k (a.exec o).2).runReg (a.exec o).1

@[simp] theorem runReg_pure (x : α) (a : Reg) : (pure x : TProg α).runReg a = (a, x) := rfl

@[simp] theorem runReg_ret (x : α) (a : Reg) : (TProg.ret x).runReg a = (a, x) := rfl

@[simp] theorem runReg_op (o : Op) (a : Reg) : (op o).runReg a = a.exec o := rfl

@[simp] theorem runReg_bind (p : TProg α) (f : α → TProg β) (a : Reg) :
    (p >>= f).runReg a = (f (p.runReg a).2).runReg (p.runReg a).1 := by
  induction p generalizing a with
  | ret x => rfl
  | call o k ih => exact ih (a.exec o).2 (a.exec o).1

/-- How many ids the program issues. -/
def issued : TProg α → Reg → Nat
  | .ret _, _ => 0
  | .call o k, a => a.issues o + (k (a.exec o).2).issued (a.exec o).1

/-- **A program on the table** returns what it returns on the registry. -/
theorem run_rep (p : TProg α) {t : Table} {a : Reg} (h : Rep t a)
    (hb : a.nextSeq + p.issued a ≤ 2 ^ 40) :
    ∃ t', p.run t = some (t', (p.runReg a).2) ∧ Rep t' (p.runReg a).1 := by
  induction p generalizing t a with
  | ret x => exact ⟨t, rfl, h⟩
  | call o k ih =>
    rw [issued] at hb
    obtain ⟨t', ht', h'⟩ := h.exec o (by omega)
    have hn : (a.exec o).1.nextSeq = a.nextSeq + a.issues o := Reg.nextSeq_exec (by omega)
    obtain ⟨t'', ht'', h''⟩ := ih (a.exec o).2 h' (by omega)
    exact ⟨t'', by simp only [run, ht', Option.bind_eq_bind, Option.bind_some, ht'']; rfl, h''⟩

end TProg

end Server
