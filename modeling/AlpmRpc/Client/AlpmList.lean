import AlpmRpc.Lib.Store

/-!
# Lists in memory

The vendored `alpm_list.c` the client's DLL has its lists from, and `arpc_free_list` of
`src/client/arpc_client.c`. A cell of memory is a number: an address, or `0` for `NULL`. A node is a
block of three, and the head's `prev` is the last node. A function that takes an `alpm_list_t **` is
given what is there and returns what is to be there. `fn` compares what two `data` point to, and leaves
it as it is. Each turn of a loop takes one `fuel`; a loop that is not over when the fuel is has failed.
-/

set_option autoImplicit false

namespace Client.AlpmList

open Store Checked

/-- The fields of `alpm_list_t`. -/
def data : Nat := 0
def prev : Nat := 1
def next : Nat := 2

variable (place : Nat → Nat) (fn : Nat → Nat → Int)

/-- `if (p) m` -/
def ifSet (p : Nat) (m : Cmd Nat Unit) : Cmd Nat Unit := if p = 0 then pure () else m

/-! ## Allocation -/

def alpmListFree : Nat → Nat → Cmd Nat Unit
  | 0, _ => fault
  | fuel + 1, it =>
    if it = 0 then pure ()
    else do
      let tmp ← load it next
      free it
      alpmListFree fuel tmp

/-- `alpm_list_free_inner`, of a function that is not `NULL`. -/
def alpmListFreeInner (fn : Nat → Cmd Nat Unit) : Nat → Nat → Cmd Nat Unit
  | 0, _ => fault
  | fuel + 1, it =>
    if it = 0 then pure ()
    else do
      let d ← load it data
      ifSet d (fn d)
      let it ← load it next
      alpmListFreeInner fn fuel it

def arpcFreeList (fuel : Nat) (l : Nat) (elemFree : Option (Nat → Cmd Nat Unit)) : Cmd Nat Unit :=
  if l = 0 then pure ()
  else do
    elemFree.elim (pure ()) fun fn => alpmListFreeInner fn fuel l
    alpmListFree fuel l

/-! ## Accessors -/

def alpmListLast (list : Nat) : Cmd Nat Nat :=
  if list ≠ 0 then load list prev else pure 0

def alpmListNth : Nat → Nat → Cmd Nat Nat
  | i, 0 => pure i
  | i, n + 1 => do
    let i ← load i next
    alpmListNth i n

/-- The loop of `alpm_list_count`. -/
def countLoop : Nat → Nat → Nat → Cmd Nat Nat
  | 0, _, _ => fault
  | fuel + 1, i, lp =>
    if lp = 0 then pure i
    else do
      let lp ← load lp next
      countLoop fuel (i + 1) lp

def alpmListCount (fuel list : Nat) : Cmd Nat Nat := countLoop fuel 0 list

def alpmListFind : Nat → Nat → Nat → Cmd Nat Nat
  | 0, _, _ => fault
  | fuel + 1, lp, needle =>
    if lp = 0 then pure 0
    else do
      let d ← load lp data
      if d ≠ 0 ∧ fn d needle = 0 then load lp data
      else do
        let lp ← load lp next
        alpmListFind fuel lp needle

def ptrCmp (p q : Nat) : Int := if p ≠ q then 1 else 0

def alpmListFindPtr (fuel haystack needle : Nat) : Cmd Nat Nat :=
  alpmListFind ptrCmp fuel haystack needle

/-! ## Mutators -/

/-- `alpm_list_append`: the new node, and the list. -/
def alpmListAppend (list d : Nat) : Cmd Nat (Nat × Nat) := do
  let ptr ← malloc place 3
  if ptr = 0 then return (0, list)
  store ptr data d
  store ptr next 0
  if list = 0 then
    store ptr prev ptr
    return (ptr, ptr)
  else
    let lp ← alpmListLast list
    store lp next ptr
    store ptr prev lp
    store list prev ptr
    return (ptr, list)

def alpmListAdd (list d : Nat) : Cmd Nat Nat := do
  let (_, list) ← alpmListAppend place list d
  return list

/-- The loop of `alpm_list_add_sorted` that finds where to insert: `prev` and `next`. -/
def insertionPoint (d : Nat) : Nat → Nat → Nat → Cmd Nat (Nat × Nat)
  | 0, _, _ => fault
  | fuel + 1, p, n =>
    if n = 0 then pure (p, n)
    else do
      let e ← load n data
      if fn d e ≤ 0 then pure (p, n)
      else do
        let n' ← load n next
        insertionPoint d fuel n n'

/-- `alpm_list_add_sorted`, with a comparison that is not `NULL`. -/
def alpmListAddSorted (fuel list d : Nat) : Cmd Nat Nat :=
  if list = 0 then alpmListAdd place list d
  else do
    let add ← malloc place 3
    if add = 0 then return list
    store add data d
    let (p, n) ← insertionPoint fn d fuel 0 list
    if p = 0 then
      let l ← load list prev
      store add prev l
      store add next list
      store list prev add
      return add
    else if n = 0 then
      store add prev p
      store add next 0
      store p next add
      store list prev add
      return list
    else
      store add prev p
      store add next n
      store n prev add
      store p next add
      return list

def alpmListJoin (first second : Nat) : Cmd Nat Nat :=
  if first = 0 then pure second
  else if second = 0 then pure first
  else do
    let tmp ← load first prev
    store tmp next second
    let l ← load second prev
    store first prev l
    store second prev tmp
    return first

/-- The loop of `alpm_list_mmerge`, and what follows it; `lp` is the last node of the new list. -/
def mergeLoop (newlist leftTail rightTail : Nat) : Nat → Nat → Nat → Nat → Cmd Nat Nat
  | 0, _, _, _ => fault
  | fuel + 1, lp, left, right =>
    if left ≠ 0 ∧ right ≠ 0 then do
      let x ← load left data
      let y ← load right data
      if fn x y ≤ 0 then
        store lp next left
        store left prev lp
        let left' ← load left next
        let lp ← load lp next
        store lp next 0
        mergeLoop newlist leftTail rightTail fuel lp left' right
      else
        store lp next right
        store right prev lp
        let right' ← load right next
        let lp ← load lp next
        store lp next 0
        mergeLoop newlist leftTail rightTail fuel lp left right'
    else if left ≠ 0 then do
      store lp next left
      store left prev lp
      store newlist prev leftTail
      return newlist
    else if right ≠ 0 then do
      store lp next right
      store right prev lp
      store newlist prev rightTail
      return newlist
    else do
      store newlist prev lp
      return newlist

def alpmListMmerge (fuel left right : Nat) : Cmd Nat Nat :=
  if left = 0 then pure right
  else if right = 0 then pure left
  else do
    let leftTail ← load left prev
    let rightTail ← load right prev
    let x ← load left data
    let y ← load right data
    if fn x y ≤ 0 then
      let left' ← load left next
      store left prev 0
      store left next 0
      mergeLoop fn left leftTail rightTail fuel left left' right
    else
      let right' ← load right next
      store right prev 0
      store right next 0
      mergeLoop fn right leftTail rightTail fuel right left right'

/-- `alpm_list_msort`; the recursion takes `fuel` too. -/
def alpmListMsort : Nat → Nat → Nat → Cmd Nat Nat
  | 0, _, _ => fault
  | fuel + 1, list, n =>
    if 1 < n then do
      let half := n / 2
      let lastleft ← alpmListNth list (half - 1)
      let right ← load lastleft next
      store lastleft next 0
      let l ← load list prev
      store right prev l
      store list prev lastleft
      let left ← alpmListMsort fuel list half
      let right ← alpmListMsort fuel right (n - half)
      alpmListMmerge fn (n + 1) left right
    else pure list

def alpmListRemoveItem (haystack item : Nat) : Cmd Nat Nat :=
  if haystack = 0 ∨ item = 0 then pure haystack
  else if item = haystack then do
    let n ← load item next
    ifSet n do
      let p ← load item prev
      store n prev p
    store item prev 0
    return n
  else do
    let last ← load haystack prev
    if item = last then
      let p ← load item prev
      ifSet p do
        let n ← load item next
        store p next n
        store haystack prev p
        store item prev 0
      return haystack
    else
      let n ← load item next
      ifSet n do
        let p ← load item prev
        store n prev p
      let p ← load item prev
      ifSet p do
        let n ← load item next
        store p next n
      return haystack

/-- The loop of `alpm_list_remove`: the list, and `*data`. -/
def removeLoop (haystack needle : Nat) : Nat → Nat → Cmd Nat (Nat × Nat)
  | 0, _ => fault
  | fuel + 1, i =>
    if i = 0 then pure (haystack, 0)
    else do
      let d ← load i data
      if d = 0 then
        let i ← load i next
        removeLoop haystack needle fuel i
      else if fn d needle = 0 then
        let haystack ← alpmListRemoveItem haystack i
        let d ← load i data
        free i
        return (haystack, d)
      else
        let i ← load i next
        removeLoop haystack needle fuel i

def alpmListRemove (fuel haystack needle : Nat) : Cmd Nat (Nat × Nat) :=
  if needle = 0 then pure (haystack, 0) else removeLoop fn haystack needle fuel haystack

/-! ## Copies -/

/-- The loop of `alpm_list_copy`; `total` is the fuel that freeing takes. -/
def copyLoop (total : Nat) : Nat → Nat → Nat → Cmd Nat Nat
  | 0, _, _ => fault
  | fuel + 1, newlist, lp =>
    if lp = 0 then pure newlist
    else do
      let d ← load lp data
      let (ptr, newlist) ← alpmListAppend place newlist d
      if ptr = 0 then
        alpmListFree total newlist
        return 0
      let lp ← load lp next
      copyLoop total fuel newlist lp

def alpmListCopy (fuel list : Nat) : Cmd Nat Nat := copyLoop place fuel fuel 0 list

/-- The loop of `alpm_list_remove_dupes`. -/
def dupesLoop (total : Nat) : Nat → Nat → Nat → Cmd Nat Nat
  | 0, _, _ => fault
  | fuel + 1, newlist, lp =>
    if lp = 0 then pure newlist
    else do
      let d ← load lp data
      let found ← alpmListFindPtr total newlist d
      if found = 0 then
        let (ptr, newlist) ← alpmListAppend place newlist d
        if ptr = 0 then
          alpmListFree total newlist
          return 0
        let lp ← load lp next
        dupesLoop total fuel newlist lp
      else
        let lp ← load lp next
        dupesLoop total fuel newlist lp

def alpmListRemoveDupes (fuel list : Nat) : Cmd Nat Nat := dupesLoop place fuel fuel 0 list

/-- The loop of `alpm_list_reverse`, from the last node back: the new list, or nothing where a node was
refused. -/
def reverseLoop (total : Nat) : Nat → Nat → Nat → Cmd Nat (Option Nat)
  | 0, _, _ => fault
  | fuel + 1, newlist, lp =>
    if lp = 0 then pure (some newlist)
    else do
      let d ← load lp data
      let (ptr, newlist) ← alpmListAppend place newlist d
      if ptr = 0 then
        alpmListFree total newlist
        return none
      let lp ← load lp prev
      reverseLoop total fuel newlist lp

def alpmListReverse (fuel list : Nat) : Cmd Nat Nat :=
  if list = 0 then pure 0
  else do
    let lp ← alpmListLast list
    let backup ← load list prev
    store list prev 0
    match ← reverseLoop place fuel fuel 0 lp with
    | none =>
      store list prev backup
      return 0
    | some newlist =>
      store list prev backup
      return newlist

/-! ## Comparisons of lists -/

/-- The loop of `alpm_list_diff_sorted`, as `alpm_list_diff` calls it: with no `onlyright`. -/
def diffLoop : Nat → Nat → Nat → Nat → Cmd Nat Nat
  | 0, _, _, _ => fault
  | fuel + 1, onlyleft, l, r =>
    if l ≠ 0 ∧ r ≠ 0 then do
      let x ← load l data
      let y ← load r data
      if fn x y < 0 then
        let onlyleft ← alpmListAdd place onlyleft x
        let l ← load l next
        diffLoop fuel onlyleft l r
      else if fn x y > 0 then
        let r ← load r next
        diffLoop fuel onlyleft l r
      else
        let l ← load l next
        let r ← load r next
        diffLoop fuel onlyleft l r
    else if l ≠ 0 then do
      let x ← load l data
      let onlyleft ← alpmListAdd place onlyleft x
      let l ← load l next
      diffLoop fuel onlyleft l r
    else if r ≠ 0 then do
      let r ← load r next
      diffLoop fuel onlyleft l r
    else pure onlyleft

def alpmListDiff (fuel lhs rhs : Nat) : Cmd Nat Nat := do
  let left ← alpmListCopy place fuel lhs
  let n ← alpmListCount fuel left
  let left ← alpmListMsort fn (n + 1) left n
  let right ← alpmListCopy place fuel rhs
  let n ← alpmListCount fuel right
  let right ← alpmListMsort fn (n + 1) right n
  let ret ← diffLoop place fn (2 * fuel) 0 left right
  alpmListFree fuel left
  alpmListFree fuel right
  return ret

/-! ## What a caller does with lists -/

/-- A call, with the variables of the caller's that its lists are in. -/
inductive Call (V : Type) where
  | add (v : V) (d : Nat)
  | addSorted (v : V) (d : Nat)
  /-- `w` is `NULL` then -/
  | join (v w : V)
  | sort (v : V)
  | remove (v : V) (needle : Nat)
  | copy (v result : V)
  | reverse (v result : V)
  | removeDupes (v result : V)
  | diff (v w result : V)
  | free (v : V)

section
variable {V : Type} [DecidableEq V]

/-- A list is put where there is none. -/
def result (held : V → Nat) (v : V) (m : Cmd Nat Nat) : Cmd Nat (V → Nat) :=
  if held v = 0 then do
    let l ← m
    return Function.update held v l
  else pure held

def call (fuel : Nat) (held : V → Nat) : Call V → Cmd Nat (V → Nat)
  | .add v d => do
    let l ← alpmListAdd place (held v) d
    return Function.update held v l
  | .addSorted v d => do
    let l ← alpmListAddSorted place fn fuel (held v) d
    return Function.update held v l
  | .join v w =>
    if v = w then pure held
    else do
      let l ← alpmListJoin (held v) (held w)
      return Function.update (Function.update held w 0) v l
  | .sort v => do
    let n ← alpmListCount fuel (held v)
    let l ← alpmListMsort fn (n + 1) (held v) n
    return Function.update held v l
  | .remove v needle => do
    let r ← alpmListRemove fn fuel (held v) needle
    return Function.update held v r.1
  | .copy v r => result held r (alpmListCopy place fuel (held v))
  | .reverse v r => result held r (alpmListReverse place fuel (held v))
  | .removeDupes v r => result held r (alpmListRemoveDupes place fuel (held v))
  | .diff v w r => result held r (alpmListDiff place fn fuel (held v) (held w))
  | .free v => do
    alpmListFree fuel (held v)
    return Function.update held v 0

def calls (fuel : Nat) : (V → Nat) → List (Call V) → Cmd Nat (V → Nat)
  | held, [] => pure held
  | held, c :: cs => do
    let held ← call place fn fuel held c
    calls fuel held cs

end

end Client.AlpmList
