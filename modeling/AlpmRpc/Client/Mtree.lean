import Mathlib.Data.List.Perm.Basic

/-!
# Open mtrees

`src/client/arpc_mtree.c`, with any number of threads. `alpm_pkg_mtree_open` holds the lock all along
and is one step; `alpm_pkg_mtree_close` frees the archive before it takes the lock, and is two. The
buffers opened so far are numbered, and an archive has the number of the buffer it was opened for; its
address is for libarchive to choose, which takes no address in use.
-/

set_option autoImplicit false

namespace Client.Mtree

/-- `stream` -/
structure Stream where
  archive : Nat
  buf : Nat
  deriving DecidableEq

/-- An archive that its thread has opened and not yet closed. -/
structure Archive where
  thread : Nat
  addr : Nat
  num : Nat
  /-- freed, and not yet forgotten -/
  closing : Bool := false
  deriving DecidableEq

/-- `g_streams`, the archives, and the buffers freed, each with the archive whose close freed it. -/
structure State where
  streams : List Stream := []
  archives : List Archive := []
  freed : List (Nat × Option Nat) := []
  next : Nat := 0

/-- `remember`; the buffer is freed at once when there is no memory for its entry. -/
def remember (s : State) (addr buf : Nat) (mem : Bool) : State :=
  if mem then { s with streams := ⟨addr, buf⟩ :: s.streams }
  else { s with freed := s.freed ++ [(buf, none)] }

/-- `forget`: the list without the first entry of the archive, and that entry's buffer. -/
def forget (addr : Nat) : List Stream → List Stream × Option Nat
  | [] => ([], none)
  | p :: ps =>
    if p.archive = addr then (ps, some p.buf)
    else ((p :: (forget addr ps).1), (forget addr ps).2)

inductive Event where
  /-- `alpm_pkg_mtree_open`: the address of the archive, or `none` when there is none to return -/
  | openMtree (thread : Nat) (addr : Option Nat) (mem : Bool)
  /-- `alpm_pkg_mtree_next`, or any reading of the archive -/
  | read (thread num : Nat)
  /-- `archive_read_free` in `alpm_pkg_mtree_close` -/
  | free (thread num : Nat)
  /-- the rest of `alpm_pkg_mtree_close` -/
  | forget (thread : Nat)

/-- A thread in the middle of a close does nothing else. -/
def State.busy (s : State) (thread : Nat) : Bool :=
  s.archives.any fun a => a.thread = thread ∧ a.closing

/-- Is this an open archive of the thread? -/
def State.owns (s : State) (thread num : Nat) : Bool :=
  s.archives.any fun a => a.thread = thread ∧ a.num = num ∧ !a.closing

/-- `alpm_pkg_mtree_open`, which has an archive to return when libarchive gives one. -/
def alpmPkgMtreeOpen (s : State) (thread : Nat) (mem : Bool) : Option Nat → Option State
  | none => some s
  | some addr =>
    if s.archives.any fun a => a.addr = addr ∧ !a.closing then none
    else
      let s' := remember s addr s.next mem
      some { s' with archives := ⟨thread, addr, s.next, false⟩ :: s.archives, next := s.next + 1 }

/-- The end of `alpm_pkg_mtree_close`. -/
def closeEnd (s : State) (a : Archive) : State :=
  let (streams, buf) := forget a.addr s.streams
  { s with
    streams
    archives := s.archives.filter fun b => b.num ≠ a.num
    freed := s.freed ++ buf.toList.map fun b => (b, some a.num) }

def step (s : State) : Event → Option State
  | .openMtree thread addr mem =>
    if s.busy thread then none else alpmPkgMtreeOpen s thread mem addr
  | .read thread num => if s.owns thread num ∧ s.busy thread = false then some s else none
  | .free thread num =>
    if s.owns thread num ∧ s.busy thread = false then
      some { s with
        archives := s.archives.map fun a => if a.num = num then { a with closing := true } else a }
    else none
  | .forget thread =>
    (s.archives.find? fun a => a.thread = thread ∧ a.closing).map (closeEnd s)

/-! ## What is meant -/

/-- Every open archive has its buffer, and the buffers of the others were freed, each once and by its
own archive's close; a buffer whose close is not over may be either. -/
structure Kept (s : State) : Prop where
  nums : (s.archives.map (·.num)).Nodup
  listed : ∀ a ∈ s.archives, a.closing = false → ⟨a.addr, a.num⟩ ∈ s.streams
  unfreed : ∀ a ∈ s.archives, a.closing = false → a.num ∉ s.freed.map (·.1)
  own : ∀ f ∈ s.freed, f.2 = some f.1
  once : (s.freed.map (·.1)).Nodup
  closed : ∀ n < s.next, n ∉ s.archives.map (·.num) → n ∈ s.freed.map (·.1)

/-- There is memory for the entry of an archive that is opened, and while a close is between its two
steps no archive opened later has the same address and an entry still. -/
def Clean (s : State) (ev : Event) (_ : State) : Prop :=
  match ev with
  | .openMtree _ addr mem => addr ≠ none → mem = true
  | .forget thread =>
    ∀ a ∈ s.archives, a.thread = thread → a.closing = true → ∀ b ∈ s.archives, b.addr = a.addr →
      b.num ≤ a.num
  | _ => True

/-- There is memory for the entry of an archive that is opened, and no close under way has its
address. -/
def TakesTurns (s : State) (ev : Event) (_ : State) : Prop :=
  match ev with
  | .openMtree _ addr mem => ∀ x, addr = some x → mem = true ∧ ∀ a ∈ s.archives, a.addr ≠ x
  | _ => True

end Client.Mtree
