import AlpmRpc.Common.Proof.OutOfMemory
import AlpmRpc.Common.Proof.Splice
import AlpmRpc.Server.OutOfMemory
import AlpmRpc.Server.Proof.Reply

/-!
# When no success is wrong

Neither `arpc_handle_parsed` nor `arpc_cb_send` looks at the `err` of the writer it splices in, so
what matters is whether that writer got all its memory.

* `replyResult_eq`, `cbSend_eq`: a frame that is sent is the text around whatever was spliced in;
* `run_started`: from a first allocation that succeeds on, the result puts the chunks of its object;
* `result_text`, `result_short`: so its bytes are the object's, or fewer than the object has;
* `success_iff`: and fewer are never read as the object, or as an error.
-/

set_option autoImplicit false

namespace OutOfMemory

open Json Growth Server

variable {mem : Nat → Bool}

/-! ## Frames -/

variable (mem) in
theorem puts_new : Puts mem {} [] false {} := .refl mem {}

/-- A frame that is sent has all its bytes. -/
theorem finish_eq {cs : List (Chunk UInt8)} {nc : Bool} {w : AjW} {f : Bytes}
    (h : Puts mem {} cs nc w) (hf : finish w = some f) : f = total cs := by
  unfold finish at hf
  split at hf
  · cases hf
  · rename_i hw
    rw [Bool.not_eq_true, h.out] at hw
    cases hf
    rw [h.out, Buffer.exec_data hw]
    rfl

/-- With enough memory, it is sent. -/
theorem finish_all {cs : List (Chunk UInt8)} {nc : Bool} {w : AjW} (h : Puts mem {} cs nc w)
    (hm : ∀ k, mem k = true) : finish w = some (total cs) := by
  have hw : w.out.failed = false := by
    rw [h.out, Buffer.exec_ok_iff rfl]
    exact fun k _ => hm _
  cases hf : finish w with
  | none =>
    rw [finish, hw] at hf
    cases hf
  | some f => rw [finish_eq h hf]

theorem replyError_tree (id code : Int) (msg : Bytes) :
    replyError mem id code msg = finish (ajwTree mem {} (errorFrame id code msg)) := by
  simp [replyError, errorFrame, ajwTree, ajwMembers]

/-- **An error reply is one.** -/
theorem replyError_parse {id code : Int} {msg f : Bytes} (hid : I64 id) (hc : I64 code)
    (hm : NulFree msg) (h : replyError mem id code msg = some f) :
    ajParse f = some (errorFrame id code msg) := by
  have hfit := fits_error hid hc hm
  rw [replyError_tree] at h
  rw [finish_eq ((puts_new mem).tree hfit) h, List.nil_append, total_tree hfit]
  have hp := ajParse_ajwTree (hfit.mono (by decide))
  rwa [ajwTree_text (hfit.mono (by decide))] at hp

/-- A success with the bytes of a result in it. -/
def spliced (id : Int) (bytes : Bytes) : Bytes :=
  ch '{' :: (quoted (lit "id") ++ ch ':' :: (i64Text id ++ ch ',' ::
    (quoted (lit "result") ++ ch ':' :: (bytes ++ [ch '}']))))

/-- The chunks of it. -/
def splicedChunks (id : Int) (bytes : Bytes) : List (Chunk UInt8) :=
  sepChunks false ++ [⟨1, [ch '{']⟩] ++ keyChunks false (lit "id") ++ treeChunks false (.num id) ++
    [⟨bytes.length + 2, []⟩] ++ keyChunks true (lit "result") ++ [⟨bytes.length, bytes⟩] ++
    [⟨1, [ch '}']⟩]

theorem total_spliced (id : Int) (bytes : Bytes) :
    total (splicedChunks id bytes) = spliced id bytes := by
  simp [splicedChunks, spliced, treeChunks, sepText]

variable (mem) in
theorem puts_replyResult (id : Int) (out : AjW) :
    ∃ w, replyResult mem id out = finish w ∧
      Puts mem {} (splicedChunks id out.out.data) true w :=
  ⟨_, rfl, ((((((puts_new mem).opened (ch '{')).key (lit "id")).i64 id).reserve
    (out.out.data.length + 2)).key (lit "result")).raw out.out.data |>.closed (ch '}')⟩

theorem replyResult_eq {id : Int} {out : AjW} {f : Bytes} (h : replyResult mem id out = some f) :
    f = spliced id out.out.data := by
  obtain ⟨w, hw, hp⟩ := puts_replyResult mem id out
  rw [hw] at h
  rw [finish_eq hp h, total_spliced]

theorem replyResult_all {id : Int} {out : AjW} (hm : ∀ k, mem k = true) :
    replyResult mem id out = some (spliced id out.out.data) := by
  obtain ⟨w, hw, hp⟩ := puts_replyResult mem id out
  rw [hw, finish_all hp hm, total_spliced]

theorem text_okFrame (id : Int) (ms : List (Bytes × Tree)) :
    text (okFrame id ms) = spliced id (text (.obj ms)) := by
  simp [okFrame, spliced, text, membersText, sepText]

/-- A callback frame with the bytes of its arguments. -/
def cbText (kind : Bytes) (seq handle : Int) (bytes : Bytes) : Bytes :=
  ch '{' :: (quoted (lit "cb") ++ ch ':' :: (quoted kind ++ ch ',' ::
    (quoted (lit "seq") ++ ch ':' :: (i64Text seq ++ ch ',' ::
    (quoted (lit "handle") ++ ch ':' :: (i64Text handle ++ ch ',' ::
    (quoted (lit "args") ++ ch ':' :: (bytes ++ [ch '}']))))))))

/-- The chunks of it, with those that are put for the arguments. -/
def cbChunks (kind : Bytes) (seq handle : Int) (args : List (Chunk UInt8)) :
    List (Chunk UInt8) :=
  sepChunks false ++ [⟨1, [ch '{']⟩] ++ keyChunks false (lit "cb") ++
    treeChunks false (.str kind) ++ keyChunks true (lit "seq") ++ treeChunks false (.num seq) ++
    keyChunks true (lit "handle") ++ treeChunks false (.num handle) ++
    keyChunks true (lit "args") ++ args ++ [⟨1, [ch '}']⟩]

theorem total_cbChunks (kind : Bytes) (seq handle : Int) (args : List (Chunk UInt8)) :
    total (cbChunks kind seq handle args) = cbText kind seq handle (total args) := by
  simp [cbChunks, cbText, treeChunks, sepText]

theorem text_cbFrame (kind : Bytes) (seq handle : Int) (args : Tree) :
    text (cbFrame kind seq handle args) = cbText kind seq handle (text args) := by
  simp [cbFrame, cbText, text, membersText, sepText]

/-- What `arpc_cb_send` makes of the arguments' writer: `null` of one without memory. -/
def argsText (args : AjW) : Bytes := args.out.block.elim (lit "null") (·.data)

variable (mem) in
theorem puts_cbSend (kind : Bytes) (seq handle : Int) (args : AjW) :
    ∃ w chunks, cbSend mem kind seq handle args = finish w ∧ total chunks = argsText args ∧
      Puts mem {} (cbChunks kind seq handle chunks) true w := by
  have hp := ((((((((puts_new mem).opened (ch '{')).key (lit "cb")).str kind).key
    (lit "seq")).i64 seq).key (lit "handle")).i64 handle).key (lit "args")
  unfold cbSend argsText
  cases args.out.block with
  | none => exact ⟨_, treeChunks false .null, rfl, by simp [treeChunks, sepText],
    hp.null.closed (ch '}')⟩
  | some k =>
    exact ⟨_, [⟨k.data.length, k.data⟩], rfl, by simp, (hp.raw k.data).closed (ch '}')⟩

theorem cbSend_eq {kind f : Bytes} {seq handle : Int} {args : AjW}
    (h : cbSend mem kind seq handle args = some f) : f = cbText kind seq handle (argsText args) := by
  obtain ⟨w, chunks, hw, ht, hp⟩ := puts_cbSend mem kind seq handle args
  rw [hw] at h
  rw [finish_eq hp h, total_cbChunks, ht]

theorem cbSend_all {kind : Bytes} {seq handle : Int} {args : AjW} (hm : ∀ k, mem k = true) :
    cbSend mem kind seq handle args = some (cbText kind seq handle (argsText args)) := by
  obtain ⟨w, chunks, hw, ht, hp⟩ := puts_cbSend mem kind seq handle args
  rw [hw, finish_all hp hm, total_cbChunks, ht]

/-! ## A result that has its first allocation -/

/-- What a handler may write: names and values that fit, and codes of 64 bits. -/
def Call.Sound : Call → Prop
  | .ret _ v => Fits valueDepth v
  | .out name v => NulFree name ∧ Fits valueDepth v
  | .fail code _ => I64 code

/-- The result's writer once the handler and `arpc_handle_parsed` are done. -/
def run (mem : Nat → Bool) (rs : ArpcRes) (calls : List Call) : AjW :=
  complete mem (calls.foldl (Call.apply mem) rs)

theorem ensureObj_some {rs : ArpcRes} (h : rs.out.out.block.isSome = true) :
    ensureObj mem rs = rs := by
  unfold ensureObj
  obtain ⟨k, hk⟩ := Option.isSome_iff_exists.1 h
  rw [hk]

theorem ensureObj_none {rs : ArpcRes} (h : rs.out.out.block = none) :
    ensureObj mem rs = { rs with out := ajwObjBegin mem (ajwInit rs.out) } := by
  unfold ensureObj
  rw [h]

theorem Puts.block {b : Buffer UInt8} {cs : List (Chunk UInt8)} {nc : Bool} {w : AjW}
    (h : Puts mem b cs nc w) (hb : b.block.isSome = true) : w.out.block.isSome = true := by
  rw [h.out]
  exact Buffer.exec_block hb cs

section

variable {b : Buffer UInt8} {cs : List (Chunk UInt8)} {nc : Bool} {rs : ArpcRes}

/-- A member goes where the writer is. -/
theorem puts_member {w : AjW} (hb : w.out.block.isSome = true) (h : Puts mem b cs nc w) (k : Bytes)
    {d : Nat} {v : Tree} (hv : Fits d v) :
    Puts mem b (cs ++ membersChunks nc [(k, v)]) true (ajwTree mem (ajwKey mem w k) v) ∧
      (ajwTree mem (ajwKey mem w k) v).out.block.isSome = true := by
  refine ⟨?_, (((Puts.refl mem w).key k).tree hv).block hb⟩
  have hp := (h.key k).tree hv
  rw [membersChunks, membersChunks, List.append_nil, ← List.append_assoc]
  exact hp

theorem arpcRet_some (hb : rs.out.out.block.isSome = true) (v : Tree) :
    arpcRet mem rs v =
      { rs with out := ajwTree mem (ajwKey mem rs.out retKey) v, hasRet := true } := by
  unfold arpcRet setRet
  rw [ensureObj_some hb]
  rfl

theorem arpcRetBegin_some (hb : rs.out.out.block.isSome = true) (v : Tree) :
    arpcRetBegin mem rs v = arpcRet mem rs v := by
  have hkey : (setRet mem rs).out.out.block.isSome = true := by
    unfold setRet
    rw [ensureObj_some hb]
    exact ((Puts.refl mem rs.out).key retKey).block hb
  unfold arpcRetBegin
  rw [ensureObj_some hkey]
  rfl

theorem membersChunks_append {ms : List (Bytes × Tree)} (h : ms ≠ []) (sep : Bool)
    (ms' : List (Bytes × Tree)) :
    membersChunks sep (ms ++ ms') = membersChunks sep ms ++ membersChunks true ms' := by
  induction ms generalizing sep with
  | nil => exact absurd rfl h
  | cons m ms ih =>
    obtain ⟨k, v⟩ := m
    cases ms with
    | nil => simp [membersChunks]
    | cons m ms =>
      have hms := ih (List.cons_ne_nil m ms) true
      rw [List.cons_append, membersChunks, hms]
      simp [membersChunks]

/-- The members one call makes. -/
def Call.made (hasRet : Bool) : Call → List (Bytes × Tree)
  | .ret _ v => [(retKey, v)]
  | .out name v => if hasRet then [(name, v)] else [(retKey, .null), (name, v)]
  | .fail _ _ => []

theorem members_cons {c : Call} (hf : c.fails = false) (hasRet : Bool) (calls : List Call) :
    members hasRet (c :: calls) = c.made hasRet ++ members true calls := by
  cases c with
  | ret begun v => simp [members, Call.made]
  | out name v => cases hasRet <;> simp [members, Call.made]
  | fail code msg => cases hf

theorem made_ne_nil {c : Call} (hf : c.fails = false) (hasRet : Bool) : c.made hasRet ≠ [] := by
  cases c with
  | ret begun v => simp [Call.made]
  | out name v => cases hasRet <;> simp [Call.made]
  | fail code msg => cases hf

/-- **A call puts its members.** -/
theorem apply_puts {c : Call} (hs : c.Sound) (hf : c.fails = false)
    (hb : rs.out.out.block.isSome = true) (h : Puts mem b cs nc rs.out) :
    Puts mem b (cs ++ membersChunks nc (c.made rs.hasRet)) true (c.apply mem rs).out ∧
      (c.apply mem rs).out.out.block.isSome = true ∧ (c.apply mem rs).hasRet = true := by
  cases c with
  | ret begun v =>
    have happly : (Call.ret begun v).apply mem rs =
        { rs with out := ajwTree mem (ajwKey mem rs.out retKey) v, hasRet := true } := by
      cases begun with
      | false => exact arpcRet_some hb v
      | true => exact (arpcRetBegin_some hb v).trans (arpcRet_some hb v)
    obtain ⟨hp, hb'⟩ := puts_member hb h retKey hs
    rw [happly]
    exact ⟨hp, hb', rfl⟩
  | out name v =>
    cases hr : rs.hasRet with
    | true =>
      have happly : (Call.out name v).apply mem rs =
          { rs with out := ajwTree mem (ajwKey mem rs.out name) v } := by
        rw [Call.apply, arpcOut, ensureObj_some hb]
        rw [if_pos hr]
        rfl
      obtain ⟨hp, hb'⟩ := puts_member hb h name hs.2
      rw [happly]
      exact ⟨hp, hb', hr⟩
    | false =>
      obtain ⟨hp, hb'⟩ := puts_member hb h retKey (.null (d := 0))
      obtain ⟨hp', hb''⟩ := puts_member hb' hp name hs.2
      have happly : (Call.out name v).apply mem rs =
          { rs with
            out := ajwTree mem (ajwKey mem (ajwTree mem (ajwKey mem rs.out retKey) .null) name) v
            hasRet := true } := by
        rw [Call.apply, arpcOut, ensureObj_some hb]
        rw [if_neg (by rw [hr]; exact Bool.false_ne_true), arpcRet_some hb]
        rfl
      rw [happly]
      refine ⟨?_, hb'', rfl⟩
      rw [List.append_assoc, ← membersChunks_append (List.cons_ne_nil _ _)] at hp'
      exact hp'
  | fail code msg => cases hf

/-- **Calls put their members, and the end of the object.** -/
theorem run_puts {calls : List Call} (hc : ∀ c ∈ calls, c.Sound ∧ c.fails = false)
    (hb : rs.out.out.block.isSome = true) (h : Puts mem b cs nc rs.out) :
    Puts mem b (cs ++ (membersChunks nc (members rs.hasRet calls) ++ [⟨1, [ch '}']⟩])) true
      (run mem rs calls) := by
  induction calls generalizing rs cs nc with
  | nil =>
    rw [← List.append_assoc]
    unfold run complete
    rw [List.foldl_nil, ensureObj_some hb]
    dsimp only
    cases hr : rs.hasRet with
    | true =>
      rw [if_pos rfl, members, membersChunks, List.append_nil]
      exact h.closed (ch '}')
    | false =>
      rw [if_neg Bool.false_ne_true, arpcRet_some hb]
      exact (puts_member hb h retKey (.null (d := 0))).1.closed (ch '}')
  | cons c calls ih =>
    obtain ⟨hs, hf⟩ := hc c List.mem_cons_self
    obtain ⟨hp, hb', hr⟩ := apply_puts hs hf hb h
    have hrest := ih (fun c hc' => hc c (List.mem_cons_of_mem _ hc')) hb' hp
    rw [show run mem rs (c :: calls) = run mem (c.apply mem rs) calls from rfl, members_cons hf,
      membersChunks_append (made_ne_nil hf _)]
    rw [hr] at hrest
    simpa only [List.append_assoc] using hrest

end

/-! ## The first allocation -/

section

variable {rs : ArpcRes}

variable (mem) in
/-- What `ensure_obj` puts. -/
theorem puts_begin (w : AjW) :
    Puts mem { tries := w.out.tries } [⟨1, [ch '{']⟩] false (ajwObjBegin mem (ajwInit w)) :=
  (Puts.refl mem (ajwInit w)).opened (ch '{')

variable (mem) in
theorem begin_cases (w : AjW) :
    (mem w.out.tries = true ∧ ∃ cap,
      (ajwObjBegin mem (ajwInit w)).out.block = some ⟨[ch '{'], cap⟩) ∨
    (mem w.out.tries = false ∧
      (ajwObjBegin mem (ajwInit w)).out = { failed := true, tries := w.out.tries + 1 }) := by
  have hout := (puts_begin mem w).out
  rw [Buffer.exec_cons, Buffer.exec_nil] at hout
  rw [hout]
  exact Buffer.put_of_none (b := { tries := w.out.tries }) rfl rfl _

theorem ensureObj_granted (hb : rs.out.out.block = none) (hm : mem rs.out.out.tries = true) :
    (ensureObj mem rs).out.out.block.isSome = true ∧
      Puts mem { tries := rs.out.out.tries } [⟨1, [ch '{']⟩] false (ensureObj mem rs).out := by
  rw [ensureObj_none hb]
  refine ⟨?_, puts_begin mem rs.out⟩
  rcases begin_cases mem rs.out with ⟨-, cap, hblock⟩ | ⟨hm', -⟩
  · exact Option.isSome_iff_exists.2 ⟨_, hblock⟩
  · rw [hm] at hm'
    cases hm'

theorem ensureObj_refused (hb : rs.out.out.block = none) (hm : mem rs.out.out.tries = false) :
    (ensureObj mem rs).out.out = { failed := true, tries := rs.out.out.tries + 1 } := by
  rw [ensureObj_none hb]
  rcases begin_cases mem rs.out with ⟨hm', -⟩ | ⟨-, hout⟩
  · rw [hm] at hm'
    cases hm'
  · exact hout

theorem ensureObj_hasRet : (ensureObj mem rs).hasRet = rs.hasRet := by
  unfold ensureObj
  split <;> rfl

theorem setRet_ensure (hb : (ensureObj mem rs).out.out.block.isSome = true) :
    setRet mem (ensureObj mem rs) = setRet mem rs := by
  unfold setRet
  rw [ensureObj_some hb]

/-- Whatever comes first makes the object when there is none. -/
theorem run_ensure {calls : List Call} (hc : ∀ c ∈ calls, c.fails = false)
    (hb : (ensureObj mem rs).out.out.block.isSome = true) :
    run mem rs calls = run mem (ensureObj mem rs) calls := by
  have hsame : ensureObj mem (ensureObj mem rs) = ensureObj mem rs := ensureObj_some hb
  have hret := setRet_ensure hb
  cases calls with
  | nil =>
    unfold run complete
    rw [List.foldl_nil, List.foldl_nil, hsame]
  | cons c calls =>
    have happly : c.apply mem rs = c.apply mem (ensureObj mem rs) := by
      cases c with
      | ret begun v =>
        cases begun with
        | false => rw [Call.apply, Call.apply, arpcRet, arpcRet, hret]
        | true => rw [Call.apply, Call.apply, arpcRetBegin, arpcRetBegin, hret]
      | out name v => rw [Call.apply, Call.apply, arpcOut, arpcOut, hsame]
      | fail code msg => cases hc _ List.mem_cons_self
    show complete mem (calls.foldl (Call.apply mem) (c.apply mem rs)) = _
    rw [happly]
    rfl

/-- **From a first allocation that succeeds on, the result puts its object.** -/
theorem run_started {calls : List Call} (hc : ∀ c ∈ calls, c.Sound ∧ c.fails = false)
    (hb : rs.out.out.block = none) (hm : mem rs.out.out.tries = true) :
    Puts mem { tries := rs.out.out.tries } (treeChunks false (.obj (members rs.hasRet calls))) true
      (run mem rs calls) := by
  obtain ⟨hb', hp⟩ := ensureObj_granted hb hm
  have hrun := run_puts hc hb' hp
  rw [run_ensure (fun c hc' => (hc c hc').2) hb']
  rw [ensureObj_hasRet] at hrun
  simpa [treeChunks, sepChunks] using hrun

/-! ## A second try -/

/-- A result whose first allocation was refused, as the next `ensure_obj` finds it. -/
def again (mem : Nat → Bool) (rs : ArpcRes) : ArpcRes :=
  { rs with out := ajwInit (ensureObj mem rs).out }

theorem ensureObj_again (hb : rs.out.out.block = none) (hm : mem rs.out.out.tries = false) :
    ensureObj mem (ensureObj mem rs) = ensureObj mem (again mem rs) := by
  have hb' : (ensureObj mem rs).out.out.block = none := by rw [ensureObj_refused hb hm]
  have hagain : (again mem rs).out.out.block = none := rfl
  rw [ensureObj_none hb', ensureObj_none hagain, again, ensureObj_none hb]
  rfl

/-- Without a return to lose, the second allocation makes up for the first. -/
theorem run_again {calls : List Call} (hc : ∀ c ∈ calls, c.fails = false)
    (hr : rs.hasRet = false) (hs : startsWithRet calls = false) (hb : rs.out.out.block = none)
    (hm : mem rs.out.out.tries = false)
    (hb' : (ensureObj mem (again mem rs)).out.out.block.isSome = true) :
    run mem rs calls = run mem (again mem rs) calls := by
  have hret : arpcRet mem (ensureObj mem rs) .null =
      arpcRet mem (ensureObj mem (again mem rs)) .null := by
    have hset : setRet mem (ensureObj mem rs) = setRet mem (again mem rs) := by
      unfold setRet
      rw [ensureObj_again hb hm]
    rw [arpcRet, arpcRet, hset, setRet_ensure hb']
  have h1 : ¬(ensureObj mem rs).hasRet = true := by
    rw [ensureObj_hasRet, hr]
    exact Bool.false_ne_true
  have h2 : ¬(ensureObj mem (again mem rs)).hasRet = true := by
    rw [ensureObj_hasRet]
    change ¬rs.hasRet = true
    rw [hr]
    exact Bool.false_ne_true
  cases calls with
  | nil =>
    unfold run complete
    dsimp only [List.foldl_nil]
    rw [if_neg h1, if_neg h2, hret]
  | cons c calls =>
    cases c with
    | ret begun v => cases hs
    | out name v =>
      have happly : arpcOut mem rs name v = arpcOut mem (again mem rs) name v := by
        unfold arpcOut
        dsimp only
        rw [if_neg h1, if_neg h2, hret]
      show complete mem (calls.foldl (Call.apply mem) (arpcOut mem rs name v)) = _
      rw [happly]
      rfl
    | fail code msg => cases hc _ List.mem_cons_self

/-! ## A result that lost its first allocation -/

/-- The bytes of a result, counting the `{` that is still to come. -/
def base (b : Buffer UInt8) : Nat := b.block.elim 1 (·.data.length)

/-- `ensure_obj` has been there. -/
def Begun (b : Buffer UInt8) : Prop := b.block.isSome = true ∨ b.failed = true

theorem length_le_base (b : Buffer UInt8) : b.data.length ≤ base b := by
  unfold Buffer.data base
  cases b.block with
  | none => exact Nat.zero_le _
  | some k => exact Nat.le_refl _

theorem base_none {b : Buffer UInt8} (h : b.block = none) : base b = 1 := by rw [base, h]; rfl

theorem base_some {b : Buffer UInt8} (h : b.block.isSome = true) : base b = b.data.length := by
  obtain ⟨k, hk⟩ := Option.isSome_iff_exists.1 h
  rw [base, Buffer.data, hk]
  rfl

/-- No more is put than the chunks. -/
theorem Puts.base_le {b : Buffer UInt8} {cs : List (Chunk UInt8)} {nc : Bool} {w : AjW}
    (h : Puts mem b cs nc w) (hb : Begun b) :
    Begun w.out ∧ base w.out ≤ base b + (total cs).length := by
  rcases hb with hb | hb
  · have hw := h.block hb
    refine ⟨.inl hw, ?_⟩
    rw [base_some hb, base_some hw, h.out]
    exact Buffer.exec_length_le b cs
  · rw [h.out, Buffer.exec_failed hb]
    exact ⟨.inr hb, Nat.le_add_right _ _⟩

variable (mem) in
theorem ensureObj_base (rs : ArpcRes) :
    Begun (ensureObj mem rs).out.out ∧ base (ensureObj mem rs).out.out = base rs.out.out := by
  cases hb : rs.out.out.block with
  | some k =>
    have hsome : rs.out.out.block.isSome = true := by rw [hb]; rfl
    rw [ensureObj_some hsome]
    exact ⟨.inl hsome, rfl⟩
  | none =>
    rw [base_none hb, ensureObj_none hb]
    rcases begin_cases mem rs.out with ⟨-, cap, hblock⟩ | ⟨-, hout⟩
    · refine ⟨.inl (Option.isSome_iff_exists.2 ⟨_, hblock⟩), ?_⟩
      rw [base, hblock]
      rfl
    · rw [hout]
      exact ⟨.inr rfl, rfl⟩

theorem sepText_length_le (sep : Bool) : (sepText sep).length ≤ 1 := by cases sep <;> simp [sepText]

theorem membersText_cons (k : Bytes) (v : Tree) (ms : List (Bytes × Tree)) :
    (membersText true ((k, v) :: ms)).length =
      (quoted k).length + (text v).length + 2 + (membersText true ms).length := by
  simp [membersText, sepText]
  omega

theorem membersText_append (ms ms' : List (Bytes × Tree)) :
    (membersText true (ms ++ ms')).length =
      (membersText true ms).length + (membersText true ms').length := by
  induction ms with
  | nil => simp [membersText]
  | cons m ms ih =>
    obtain ⟨k, v⟩ := m
    rw [List.cons_append, membersText_cons, membersText_cons, ih]
    omega

/-- An object's first member has no comma. -/
theorem text_obj_length (k : Bytes) (v : Tree) (ms : List (Bytes × Tree)) :
    (text (.obj ((k, v) :: ms))).length =
      (quoted k).length + (text v).length + 3 + (membersText true ms).length := by
  simp [text, membersText, sepText]
  omega

variable (mem) in
theorem base_member {w : AjW} (hw : Begun w.out) (k : Bytes) {d : Nat} {v : Tree} (hv : Fits d v) :
    Begun (ajwTree mem (ajwKey mem w k) v).out ∧
      base (ajwTree mem (ajwKey mem w k) v).out ≤
        base w.out + ((quoted k).length + (text v).length + 2) := by
  obtain ⟨hb, hle⟩ := (((Puts.refl mem w).key k).tree hv).base_le hw
  have hsep := sepText_length_le w.needComma
  refine ⟨hb, ?_⟩
  simp only [total_append, total_nil, total_key, total_tree hv, List.length_append,
    List.length_cons, List.length_nil, sepText, Bool.false_eq_true, if_false] at hle hsep
  omega

variable (mem) in
theorem base_ret (rs : ArpcRes) {v : Tree} (hv : Fits valueDepth v) :
    Begun (arpcRet mem rs v).out.out ∧
      base (arpcRet mem rs v).out.out ≤
        base rs.out.out + ((quoted retKey).length + (text v).length + 2) := by
  obtain ⟨hb, hbase⟩ := ensureObj_base mem rs
  rw [← hbase]
  exact base_member mem hb retKey hv

/-- A value that is written with nothing before it. -/
theorem base_tree {w : AjW} {d : Nat} {v : Tree} (hv : Fits d v) (hw : Begun w.out)
    (h1 : base w.out = 1) : base (ajwTree mem w v).out ≤ (text v).length + 2 := by
  have hle := (((Puts.refl mem w).tree hv).base_le hw).2
  have hsep := sepText_length_le w.needComma
  rw [List.nil_append, total_tree hv, List.length_append] at hle
  omega

variable (mem) in
/-- A return whose `arpc_ret_begin` found no memory: the value may be there, the key is not. -/
theorem base_ret_refused (begun : Bool) {v : Tree} (hv : Fits valueDepth v)
    (hb : rs.out.out.block = none) (hm : mem rs.out.out.tries = false) :
    base ((Call.ret begun v).apply mem rs).out.out ≤ (text v).length + 2 := by
  have hset : (setRet mem rs).out.out = { failed := true, tries := rs.out.out.tries + 1 } := by
    have hkey := ((Puts.refl mem (ensureObj mem rs).out).key retKey).out
    rw [ensureObj_refused hb hm, Buffer.exec_failed rfl] at hkey
    exact hkey
  have hbase : base (setRet mem rs).out.out = 1 := by
    rw [hset]
    rfl
  cases begun with
  | false =>
    have hbegun : Begun (setRet mem rs).out.out := by
      rw [hset]
      exact .inr rfl
    exact base_tree hv hbegun hbase
  | true =>
    obtain ⟨hbegun, hsame⟩ := ensureObj_base mem (setRet mem rs)
    exact base_tree hv hbegun (hsame.trans hbase)

variable (mem) in
theorem base_retBegin (rs : ArpcRes) {v : Tree} (hv : Fits valueDepth v) :
    base (arpcRetBegin mem rs v).out.out ≤
      base rs.out.out + ((quoted retKey).length + (text v).length + 2) := by
  cases hb : (setRet mem rs).out.out.block with
  | none =>
    obtain ⟨hbegun, hsame⟩ := ensureObj_base mem (setRet mem rs)
    have hle : base (arpcRetBegin mem rs v).out.out ≤ (text v).length + 2 :=
      base_tree hv hbegun (hsame.trans (base_none hb))
    omega
  | some k =>
    have hsome : (setRet mem rs).out.out.block.isSome = true := by
      rw [hb]
      rfl
    have hret : arpcRetBegin mem rs v = arpcRet mem rs v := by
      unfold arpcRetBegin
      rw [ensureObj_some hsome]
      rfl
    rw [hret]
    exact (base_ret mem rs hv).2

variable (mem) in
/-- A call adds its members, or less. -/
theorem base_apply {c : Call} (hs : c.Sound) (hf : c.fails = false) :
    base (c.apply mem rs).out.out ≤
        base rs.out.out + (membersText true (c.made rs.hasRet)).length ∧
      (c.apply mem rs).hasRet = true := by
  cases c with
  | ret begun v =>
    rw [Call.made, membersText_cons]
    cases begun with
    | false =>
      have hle := (base_ret mem rs hs).2
      exact ⟨hle, rfl⟩
    | true =>
      have hle := base_retBegin mem rs hs
      exact ⟨hle, ensureObj_hasRet⟩
  | out name v =>
    obtain ⟨hbegun, hbase⟩ := ensureObj_base mem rs
    rw [Call.apply, arpcOut]
    cases hr : rs.hasRet with
    | true =>
      have hr' : (ensureObj mem rs).hasRet = true := ensureObj_hasRet.trans hr
      have hle := (base_member mem hbegun name hs.2).2
      rw [if_pos hr', Call.made, if_pos rfl, membersText_cons]
      rw [hbase] at hle
      exact ⟨hle, hr'⟩
    | false =>
      have hr' : ¬(ensureObj mem rs).hasRet = true := by
        rw [ensureObj_hasRet, hr]
        exact Bool.false_ne_true
      obtain ⟨hb, hle⟩ := base_ret mem (ensureObj mem rs) .null
      have hle' := (base_member mem hb name hs.2).2
      rw [if_neg hr', Call.made, if_neg Bool.false_ne_true, membersText_cons, membersText_cons]
      refine ⟨?_, rfl⟩
      refine Nat.le_trans hle' ?_
      simp only [membersText, List.length_nil]
      omega
  | fail code msg => cases hf

variable (mem) in
theorem objEnd_length_le {w : AjW} (hw : Begun w.out) :
    (ajwObjEnd mem w).out.data.length ≤ base w.out + 1 := by
  have hle := (((Puts.refl mem w).closed (ch '}')).base_le hw).2
  exact Nat.le_trans (length_le_base _) hle

variable (mem) in
/-- **No more is in a result than what the calls put there.** -/
theorem run_length_le {calls : List Call} (hc : ∀ c ∈ calls, c.Sound ∧ c.fails = false)
    (rs : ArpcRes) :
    (run mem rs calls).out.data.length ≤
      base rs.out.out + (membersText true (members rs.hasRet calls)).length + 1 := by
  induction calls generalizing rs with
  | nil =>
    obtain ⟨hbegun, hbase⟩ := ensureObj_base mem rs
    unfold run complete
    rw [List.foldl_nil]
    cases hr : rs.hasRet with
    | true =>
      have hr' : (ensureObj mem rs).hasRet = true := ensureObj_hasRet.trans hr
      have hle := objEnd_length_le mem hbegun
      dsimp only
      rw [if_pos hr', ← hbase]
      simpa [members, membersText] using hle
    | false =>
      have hr' : ¬(ensureObj mem rs).hasRet = true := by
        rw [ensureObj_hasRet, hr]
        exact Bool.false_ne_true
      obtain ⟨hb, hle⟩ := base_ret mem (ensureObj mem rs) .null
      have hle' := objEnd_length_le mem hb
      dsimp only
      rw [if_neg hr', members, membersText_cons]
      refine Nat.le_trans hle' ?_
      omega
  | cons c calls ih =>
    obtain ⟨hs, hf⟩ := hc c List.mem_cons_self
    obtain ⟨hle, hr⟩ := base_apply mem hs hf
    have hrest := ih (fun c hc' => hc c (List.mem_cons_of_mem _ hc')) (c.apply mem rs)
    rw [hr] at hrest
    rw [members_cons hf, membersText_append]
    refine Nat.le_trans hrest ?_
    omega

end

/-! ## What the result holds -/

theorem quoted_retKey : (quoted retKey).length = 6 := by decide

theorem text_null : (text .null).length = 4 := rfl

/-- **A return that found no memory is missed**: the object is begun again without it. -/
theorem run_lost {calls : List Call} (hc : ∀ c ∈ calls, c.Sound ∧ c.fails = false)
    (h0 : mem 0 = false) (h : startsWithRet calls = true ∨ mem 1 = false) :
    (run mem {} calls).out.data.length < (text (.obj (members false calls))).length := by
  have hq := quoted_retKey
  have hn := text_null
  -- when both allocations are refused, so is the return that goes first
  have hE : (ensureObj mem {}).out.out = { failed := true, tries := 1 } := ensureObj_refused rfl h0
  have hlost : mem 1 = false → Begun (arpcRet mem (ensureObj mem {}) .null).out.out ∧
      base (arpcRet mem (ensureObj mem {}) .null).out.out ≤ 6 := by
    intro h1
    have hnone : (ensureObj mem {}).out.out.block = none := by rw [hE]
    have hm : mem (ensureObj mem {}).out.out.tries = false := by
      rw [hE]
      exact h1
    exact ⟨(base_ret mem _ .null).1, base_ret_refused mem false .null hnone hm⟩
  have hr : ¬(ensureObj mem {}).hasRet = true := by
    rw [ensureObj_hasRet]
    exact Bool.false_ne_true
  cases calls with
  | nil =>
    have h1 : mem 1 = false := h.resolve_left Bool.false_ne_true
    obtain ⟨hbegun, hle⟩ := hlost h1
    have hlen := objEnd_length_le mem hbegun
    unfold run complete
    dsimp only [List.foldl_nil]
    rw [if_neg hr, members, text_obj_length]
    omega
  | cons c calls =>
    have hrest : ∀ c ∈ calls, c.Sound ∧ c.fails = false :=
      fun c hc' => hc c (List.mem_cons_of_mem _ hc')
    have hs := (hc c List.mem_cons_self).1
    have hlen := run_length_le mem hrest (c.apply mem {})
    cases c with
    | ret begun v =>
      have hle : base ((Call.ret begun v).apply mem {}).out.out ≤ (text v).length + 2 :=
        base_ret_refused mem begun hs rfl h0
      have hret : ((Call.ret begun v).apply mem {}).hasRet = true := (base_apply mem hs rfl).2
      rw [hret] at hlen
      rw [members, text_obj_length]
      refine Nat.lt_of_le_of_lt hlen ?_
      omega
    | out name v =>
      have h1 : mem 1 = false := h.resolve_left Bool.false_ne_true
      obtain ⟨hbegun, hle⟩ := hlost h1
      have hle' := (base_member mem hbegun name hs.2).2
      have hout : ((Call.out name v).apply mem {}).out =
          ajwTree mem (ajwKey mem (arpcRet mem (ensureObj mem {}) .null).out name) v := by
        rw [Call.apply, arpcOut, if_neg hr]
        rfl
      have hret : ((Call.out name v).apply mem {}).hasRet = true := (base_apply mem hs rfl).2
      rw [hret, hout] at hlen
      rw [members, text_obj_length, membersText_cons]
      refine Nat.lt_of_le_of_lt hlen ?_
      omega
    | fail code msg => cases (hc _ List.mem_cons_self).2

theorem fits_members {calls : List Call} (hc : ∀ c ∈ calls, c.Sound) (hasRet : Bool) :
    ∀ m ∈ members hasRet calls, NulFree m.1 ∧ Fits valueDepth m.2 := by
  have hret : ∀ v, Fits valueDepth v → NulFree retKey ∧ Fits valueDepth v :=
    fun v hv => ⟨by decide, hv⟩
  induction calls generalizing hasRet with
  | nil =>
    cases hasRet with
    | false =>
      intro m hm
      rw [members, List.mem_singleton] at hm
      rw [hm]
      exact hret _ .null
    | true =>
      intro m hm
      cases hm
  | cons c calls ih =>
    have hs := hc c List.mem_cons_self
    have hrest := ih fun c hc' => hc c (List.mem_cons_of_mem _ hc')
    cases c with
    | ret begun v =>
      rw [members, List.forall_mem_cons]
      exact ⟨hret v hs, hrest true⟩
    | out name v =>
      cases hasRet with
      | false =>
        rw [members, List.forall_mem_cons, List.forall_mem_cons]
        exact ⟨hret _ .null, hs, hrest true⟩
      | true =>
        rw [members, List.forall_mem_cons]
        exact ⟨hs, hrest true⟩
    | fail code msg =>
      rw [members]
      exact hrest hasRet

theorem fits_object {calls : List Call} (hc : ∀ c ∈ calls, c.Sound) :
    Fits (valueDepth + 1) (.obj (members false calls)) :=
  .obj (fun m hm => (fits_members hc false m hm).1) fun m hm => (fits_members hc false m hm).2

/-- A tree's writer has the text, or is short of it. -/
theorem text_or_short {b : Buffer UInt8} {d : Nat} {v : Tree} {w : AjW} (hv : Fits d v)
    (hb : b.block = none) (hf : b.failed = false) (h : Puts mem b (treeChunks false v) true w) :
    (w.out.failed = false ↔ ∀ k < growthsOf v, mem (b.tries + k) = true) ∧
      (w.out.failed = false → w.out.data = text v) ∧
      (w.out.failed = true → w.out.data.length < (text v).length) := by
  have hdata : b.data = [] := by simp [Buffer.data, hb]
  have hcap : b.cap = 0 := by simp [Buffer.cap, hb]
  have htotal : total (treeChunks false v) = text v := total_tree hv false
  rw [h.out]
  refine ⟨?_, fun hw => ?_, fun hw => ?_⟩
  · rw [Buffer.exec_ok_iff hf, hdata, hcap]
    rfl
  · rw [Buffer.exec_data hw, hdata, htotal, List.nil_append]
  · have hshort := Buffer.exec_short (solid_tree hv false) hf hw
    rwa [hdata, htotal, List.length_nil, Nat.zero_add] at hshort

theorem growthsOf_pos (ms : List (Bytes × Tree)) : 0 < growthsOf (.obj ms) :=
  Buffer.growths_pos _ _

/-- From its first try, or its second. -/
theorem run_result {calls : List Call} (hc : ∀ c ∈ calls, c.Sound ∧ c.fails = false) {t : Nat}
    {w : AjW}
    (h : Puts mem { tries := t } (treeChunks false (.obj (members false calls))) true w) :
    ((∀ k < growthsOf (.obj (members false calls)), mem (t + k) = true) →
        w.out.data = text (.obj (members false calls))) ∧
      (¬(∀ k < growthsOf (.obj (members false calls)), mem (t + k) = true) →
        w.out.data.length < (text (.obj (members false calls))).length) := by
  obtain ⟨hiff, htext, hshort⟩ := text_or_short (fits_object fun c hc' => (hc c hc').1) rfl rfl h
  refine ⟨fun hall => htext (hiff.2 hall), fun hall => hshort ?_⟩
  rw [← hiff, Bool.not_eq_false] at hall
  exact hall

/-- **The result is its object when its memory is granted, and shorter when it is not.** -/
theorem run_cases {calls : List Call} (hc : ∀ c ∈ calls, c.Sound ∧ c.fails = false) :
    (Granted mem calls → (run mem {} calls).out.data = text (.obj (members false calls))) ∧
      (¬Granted mem calls →
        (run mem {} calls).out.data.length < (text (.obj (members false calls))).length) := by
  have hpos := growthsOf_pos (members false calls)
  cases h0 : mem 0 with
  | true =>
    have hrun : Puts mem { tries := 0 } (treeChunks false (.obj (members false calls))) true
        (run mem {} calls) := @run_started mem {} calls hc rfl h0
    obtain ⟨htext, hshort⟩ := run_result hc hrun
    simp only [Nat.zero_add] at htext hshort
    refine ⟨fun hg => htext ?_, fun hg => hshort fun hall => hg (.inl hall)⟩
    rcases hg with hall | ⟨-, h0', -⟩
    · exact hall
    · rw [h0] at h0'
      cases h0'
  | false =>
    have hfirst : ¬∀ k < growthsOf (.obj (members false calls)), mem k = true := by
      intro hall
      have h0' := hall 0 hpos
      rw [h0] at h0'
      cases h0'
    by_cases hs : startsWithRet calls = false ∧ mem 1 = true
    · have htries : (again mem {}).out.out = { tries := 1 } := by
        have hE : (ensureObj mem {}).out.out = { failed := true, tries := 1 } :=
          ensureObj_refused rfl h0
        rw [again, ajwInit, hE]
      have hnone : (again mem {}).out.out.block = none := rfl
      have hm : mem (again mem {}).out.out.tries = true := by
        rw [htries]
        exact hs.2
      have hrun := run_started hc hnone hm
      rw [← run_again (fun c hc' => (hc c hc').2) rfl hs.1 rfl h0 (ensureObj_granted hnone hm).1,
        htries] at hrun
      obtain ⟨htext, hshort⟩ := run_result hc hrun
      refine ⟨fun hg => htext fun k hk => ?_, fun hg => hshort fun hall => hg (.inr ⟨hs.1, h0, ?_⟩)⟩
      · rcases hg with hall | ⟨-, -, hall⟩
        · exact absurd hall hfirst
        · rw [Nat.add_comm]
          exact hall k hk
      · intro k hk
        have hk' := hall k hk
        rwa [Nat.add_comm] at hk'
    · have hng : ¬Granted mem calls := by
        intro hg
        rcases hg with hall | ⟨hr, -, hall⟩
        · exact hfirst hall
        · exact hs ⟨hr, hall 0 hpos⟩
      refine ⟨fun hg => absurd hg hng, fun _ => run_lost hc h0 ?_⟩
      cases hr : startsWithRet calls with
      | true => exact .inl rfl
      | false =>
        right
        cases h1 : mem 1 with
        | true => exact absurd ⟨hr, h1⟩ hs
        | false => rfl

/-! ## Errors -/

/-- What an error reply can be made of. -/
def Reportable (rs : ArpcRes) : Prop := rs.failed = true → I64 rs.code ∧ NulFree rs.msg

variable (mem) in
theorem ensureObj_error (rs : ArpcRes) :
    (ensureObj mem rs).failed = rs.failed ∧ (ensureObj mem rs).code = rs.code ∧
      (ensureObj mem rs).msg = rs.msg := by
  unfold ensureObj
  split <;> exact ⟨rfl, rfl, rfl⟩

variable (mem) in
/-- Only `arpc_fail` touches the error. -/
theorem apply_error {c : Call} (hf : c.fails = false) (rs : ArpcRes) :
    (c.apply mem rs).failed = rs.failed ∧ (c.apply mem rs).code = rs.code ∧
      (c.apply mem rs).msg = rs.msg := by
  have hret : ∀ v, (arpcRet mem rs v).failed = rs.failed ∧ (arpcRet mem rs v).code = rs.code ∧
      (arpcRet mem rs v).msg = rs.msg := fun v => ensureObj_error mem rs
  cases c with
  | ret begun v =>
    cases begun with
    | false => exact hret v
    | true =>
      obtain ⟨h1, h2, h3⟩ := ensureObj_error mem (setRet mem rs)
      obtain ⟨h1', h2', h3'⟩ := hret v
      exact ⟨h1.trans h1', h2.trans h2', h3.trans h3'⟩
  | out name v =>
    obtain ⟨h1, h2, h3⟩ := ensureObj_error mem rs
    rw [Call.apply, arpcOut]
    split
    · exact ⟨h1, h2, h3⟩
    · obtain ⟨h1', h2', h3'⟩ := ensureObj_error mem (ensureObj mem rs)
      exact ⟨h1'.trans h1, h2'.trans h2, h3'.trans h3⟩
  | fail code msg => cases hf

variable (mem) in
theorem foldl_error {calls : List Call} (hc : ∀ c ∈ calls, c.Sound) {rs : ArpcRes}
    (h : Reportable rs) :
    Reportable (calls.foldl (Call.apply mem) rs) ∧
      ((calls.foldl (Call.apply mem) rs).failed = true ↔
        rs.failed = true ∨ ∃ c ∈ calls, c.fails = true) := by
  induction calls generalizing rs with
  | nil => simpa using h
  | cons c calls ih =>
    have hs := hc c List.mem_cons_self
    have hrest : ∀ c ∈ calls, c.Sound := fun c hc' => hc c (List.mem_cons_of_mem _ hc')
    rw [List.foldl_cons]
    cases hf : c.fails with
    | true =>
      cases c with
      | fail code msg =>
        have hr : Reportable ((Call.fail code msg).apply mem rs) :=
          fun _ => ⟨hs, snprintf256_nulFree (cstr_nulFree _)⟩
        obtain ⟨h1, h2⟩ := ih hrest hr
        refine ⟨h1, h2.trans (iff_of_true (.inl rfl) (.inr ⟨_, List.mem_cons_self, hf⟩))⟩
      | ret begun v => cases hf
      | out name v => cases hf
    | false =>
      obtain ⟨hfailed, hcode, hmsg⟩ := apply_error mem hf rs
      have hr : Reportable (c.apply mem rs) := by
        unfold Reportable
        rw [hfailed, hcode, hmsg]
        exact h
      obtain ⟨h1, h2⟩ := ih hrest hr
      refine ⟨h1, h2.trans ?_⟩
      rw [hfailed]
      simp [hf]

variable (mem) in
/-- An error is reported when the handler failed, and only then. -/
theorem handler_failed {calls : List Call} (hc : ∀ c ∈ calls, c.Sound) :
    Reportable (calls.foldl (Call.apply mem) {}) ∧
      ((calls.foldl (Call.apply mem) {}).failed = true ↔ ∃ c ∈ calls, c.fails = true) := by
  have hnew : Reportable {} := fun h => by cases h
  obtain ⟨h1, h2⟩ := foldl_error mem hc hnew
  refine ⟨h1, h2.trans ⟨fun h => h.resolve_left Bool.false_ne_true, .inr⟩⟩

/-! ## Wrong successes -/

/-- Whatever is spliced in, the frame is not an error reply. -/
theorem spliced_not_error {id : Int} (hid : I64 id) (bytes : Bytes) (id' code : Int) (msg : Bytes) :
    ajParse (spliced id bytes) ≠ some (errorFrame id' code msg) := by
  intro h
  have hnum : Derives (maxDepth - 1) (text (.num id)) (.num id) := derives_text (.num hid)
  rw [spliced, ← show text (.num id) = i64Text id from rfl] at h
  obtain ⟨v, ms, he⟩ := ajParse_head (by decide) (by decide) hnum h
  rw [errorFrame] at he
  have hkey : lit "error" = lit "result" := by
    injection he with hms
    injection hms with _ htail
    injection htail with hm _
    exact congrArg Prod.fst hm
  exact absurd hkey (by decide)

theorem ajParse_text {v : Tree} (h : Fits maxDepth v) : ajParse (text v) = some v := by
  rw [← ajwTree_text h]
  exact ajParse_ajwTree h

theorem fits_okFrame {id : Int} (hid : I64 id) {ms : List (Bytes × Tree)}
    (h : Fits (valueDepth + 1) (.obj ms)) : Fits maxDepth (okFrame id ms) := by
  refine .obj (d := maxDepth - 1) (fun m hm => ?_) fun m hm => ?_ <;>
    simp only [List.mem_cons, List.not_mem_nil, or_false] at hm <;> rcases hm with rfl | rfl
  · exact (by decide : NulFree (lit "id"))
  · exact (by decide : NulFree (lit "result"))
  · exact .num hid
  · exact h

theorem fits_cbFrame {kind : Bytes} {seq handle : Int} {args : Tree} (hk : NulFree kind)
    (hs : I64 seq) (hh : I64 handle) (ha : Fits (maxDepth - 1) args) :
    Fits maxDepth (cbFrame kind seq handle args) := by
  refine .obj (d := maxDepth - 1) (fun m hm => ?_) fun m hm => ?_ <;>
    simp only [List.mem_cons, List.not_mem_nil, or_false] at hm <;>
    rcases hm with rfl | rfl | rfl | rfl
  · exact (by decide : NulFree (lit "cb"))
  · exact (by decide : NulFree (lit "seq"))
  · exact (by decide : NulFree (lit "handle"))
  · exact (by decide : NulFree (lit "args"))
  · exact .str hk
  · exact .num hs
  · exact .num hh
  · exact ha

theorem spliced_length (id : Int) (x y : Bytes) :
    (spliced id x).length + y.length = (spliced id y).length + x.length := by
  simp [spliced]
  omega

theorem cbText_length (kind : Bytes) (seq handle : Int) (x y : Bytes) :
    (cbText kind seq handle x).length + y.length =
      (cbText kind seq handle y).length + x.length := by
  simp [cbText]
  omega

/-- The reply is an error, or the success that was meant. -/
def Faithful (id : Int) (calls : List Call) (f : Bytes) : Prop :=
  (∃ code msg, ajParse f = some (errorFrame id code msg)) ∨
    ajParse f = some (okFrame id (members false calls))

/-- **With its memory granted, or after `arpc_fail`, every reply is faithful.** -/
theorem faithful_of_granted {M : Memory} {id : Int} (hid : I64 id) {calls : List Call}
    (hc : ∀ c ∈ calls, c.Sound)
    (h : (∃ c ∈ calls, c.fails = true) ∨ Granted M.result calls) {f : Bytes}
    (hf : handleCalls M id calls = some f) : Faithful id calls f := by
  obtain ⟨hrep, hfailed⟩ := handler_failed M.result hc
  have herror : ∀ {mem code msg}, I64 code → NulFree msg →
      replyError mem id code msg = some f → Faithful id calls f :=
    fun hcode hmsg he => .inl ⟨_, _, replyError_parse hid hcode hmsg he⟩
  unfold handleCalls at hf
  dsimp only at hf
  rcases Option.or_eq_some_iff.1 hf with hout | ⟨-, hoom⟩
  · split at hout
    · rename_i hr
      obtain ⟨hcode, hmsg⟩ := hrep hr
      exact herror hcode hmsg hout
    · rename_i hr
      have hnone : ∀ c ∈ calls, c.fails = false := by
        intro c hc'
        cases hcf : c.fails with
        | false => rfl
        | true => exact absurd (hfailed.2 ⟨c, hc', hcf⟩) hr
      have hg : Granted M.result calls := by
        rcases h with ⟨c, hc', hcf⟩ | hg
        · rw [hnone c hc'] at hcf
          cases hcf
        · exact hg
      have hdata := (run_cases fun c hc' => ⟨hc c hc', hnone c hc'⟩).1 hg
      right
      rw [replyResult_eq hout, show (complete M.result _).out.data = _ from hdata, ← text_okFrame]
      exact ajParse_text (fits_okFrame hid (fits_object hc))
  · exact herror (by decide) (by decide) hoom

/-- **Refused, and with memory for the frame, there is a reply that is not.** -/
theorem unfaithful {M : Memory} {id : Int} (hid : I64 id) {calls : List Call}
    (hc : ∀ c ∈ calls, c.Sound) (hnone : ∀ c ∈ calls, c.fails = false)
    (hg : ¬Granted M.result calls) (hm : ∀ k, M.outer k = true) :
    ∃ f, handleCalls M id calls = some f ∧ ¬Faithful id calls f := by
  have hfailed := (handler_failed M.result hc).2
  have hr : ¬(calls.foldl (Call.apply M.result) {}).failed = true := by
    intro hr
    obtain ⟨c, hc', hcf⟩ := hfailed.1 hr
    rw [hnone c hc'] at hcf
    cases hcf
  have hshort := (run_cases fun c hc' => ⟨hc c hc', hnone c hc'⟩).2 hg
  refine ⟨spliced id (run M.result {} calls).out.data, ?_, fun hf => ?_⟩
  · unfold handleCalls
    dsimp only
    rw [if_neg hr, replyResult_all hm]
    rfl
  · rcases hf with ⟨code, msg, he⟩ | hok
    · exact spliced_not_error hid _ _ _ _ he
    · -- it has too few bytes for a text of the success
      have hle := text_le_of_ajParse hok
      have hlen := spliced_length id (run M.result {} calls).out.data
        (text (.obj (members false calls)))
      rw [text_okFrame] at hle
      omega

/-- **A callback is what the trampoline wrote exactly when its writer gets its memory.** -/
theorem callback_iff {kind : Bytes} (hk : NulFree kind) {seq handle : Int} (hs : I64 seq)
    (hh : I64 handle) {args : List (Bytes × Tree)} (ha : Fits (maxDepth - 1) (.obj args)) :
    (∀ outer f, cbSend outer kind seq handle (ajwTree mem {} (.obj args)) = some f →
        ajParse f = some (cbFrame kind seq handle (.obj args))) ↔
      ∀ k < growthsOf (.obj args), mem k = true := by
  obtain ⟨hiff, htext, hshort⟩ := text_or_short ha rfl rfl ((puts_new mem).tree ha)
  generalize ajwTree mem {} (.obj args) = w at hiff htext hshort
  simp only [Nat.zero_add] at hiff
  rw [← hiff]
  constructor
  · intro hall
    have hf := hall (fun _ => true) _ (cbSend_all fun _ => rfl)
    rw [← Bool.not_eq_true]
    intro hw
    cases hb : w.out.block with
    | none =>
      -- sent as `null`
      have hnull := ajParse_text (fits_cbFrame hk hs hh .null)
      rw [argsText, hb, Option.elim_none, show lit "null" = text .null from rfl, ← text_cbFrame,
        hnull] at hf
      simp [cbFrame] at hf
    | some k =>
      have hlen := hshort hw
      have hle := text_le_of_ajParse hf
      have hargs : argsText w = w.out.data := by rw [argsText, Buffer.data, hb]; rfl
      have hdiff := cbText_length kind seq handle (argsText w) (text (.obj args))
      rw [text_cbFrame] at hle
      rw [hargs] at hle hdiff
      omega
  · intro hw outer f hf
    have hdata := htext hw
    have hargs : argsText w = text (.obj args) := by
      rw [← hdata]
      cases hb : w.out.block with
      | none =>
        rw [Buffer.data, hb] at hdata
        simp [text] at hdata
      | some k =>
        rw [argsText, Buffer.data, hb]
        rfl
    rw [cbSend_eq hf, hargs, ← text_cbFrame]
    exact ajParse_text (fits_cbFrame hk hs hh ha)

/-- **Running out of memory becomes no wrong success exactly when it does not hit the writers that
are spliced in.** -/
theorem success_iff {id : Int} (hid : I64 id) {calls : List Call} (hc : ∀ c ∈ calls, c.Sound)
    {kind : Bytes} (hk : NulFree kind) {seq handle : Int} (hs : I64 seq) (hh : I64 handle)
    {args : List (Bytes × Tree)} (ha : Fits (maxDepth - 1) (.obj args)) (mem : Nat → Bool) :
    ((∀ M : Memory, M.result = mem → ∀ f, handleCalls M id calls = some f →
        Faithful id calls f) ↔ (∃ c ∈ calls, c.fails = true) ∨ Granted mem calls) ∧
      ((∀ outer f, cbSend outer kind seq handle (ajwTree mem {} (.obj args)) = some f →
          ajParse f = some (cbFrame kind seq handle (.obj args))) ↔
        ∀ k < growthsOf (.obj args), mem k = true) := by
  refine ⟨⟨fun hall => ?_, fun h M hM f hf => ?_⟩, callback_iff hk hs hh ha⟩
  · by_contra hnot
    rw [not_or] at hnot
    have hnone : ∀ c ∈ calls, c.fails = false := by
      intro c hc'
      cases hcf : c.fails with
      | false => rfl
      | true => exact absurd ⟨c, hc', hcf⟩ hnot.1
    obtain ⟨f, hf, hbad⟩ := unfaithful (M := ⟨mem, fun _ => true, fun _ => true, fun _ => true⟩) hid
      hc hnone hnot.2 fun _ => rfl
    exact hbad (hall _ rfl f hf)
  · subst hM
    exact faithful_of_granted hid hc h hf

theorem success_iff_reply :
    ((∀ M : Memory, M.result = (fun k => k != 2) → ∀ f,
        handleCalls M 7 [.ret false (.num 0), .out (lit "size") (.num 3)] = some f →
          Faithful 7 [.ret false (.num 0), .out (lit "size") (.num 3)] f) ↔
      (∃ c ∈ [Call.ret false (.num 0), .out (lit "size") (.num 3)], c.fails = true) ∨
        Granted (fun k => k != 2) [.ret false (.num 0), .out (lit "size") (.num 3)]) ∧
    ((∀ outer f, cbSend outer (lit "log") 1 16
          (ajwTree (fun k => k != 2) {} (.obj [(lit "level", .num 1)])) = some f →
        ajParse f = some (cbFrame (lit "log") 1 16 (.obj [(lit "level", .num 1)]))) ↔
      ∀ k < growthsOf (.obj [(lit "level", .num 1)]), (k != 2) = true) := by
  have hsize : NulFree (lit "size") ∧ Fits valueDepth (.num 3) := ⟨by decide, .num (by decide)⟩
  have hcalls : ∀ c ∈ [Call.ret false (.num 0), .out (lit "size") (.num 3)], c.Sound := by
    rw [List.forall_mem_cons, List.forall_mem_singleton]
    exact ⟨.num (by decide), hsize⟩
  have hargs : Fits (maxDepth - 1) (.obj [(lit "level", .num 1)]) := by
    refine .obj (d := maxDepth - 2) (fun m hm => ?_) fun m hm => ?_ <;>
      rw [List.mem_singleton.1 hm]
    · exact (by decide : NulFree (lit "level"))
    · exact .num (by decide)
  exact success_iff (by decide) hcalls (by decide) (by decide) (by decide) hargs _

/-- A memory that refuses the first allocation of a result, and no other. -/
def firstRefused : Memory := ⟨fun k => k != 0, fun _ => true, fun _ => true, fun _ => true⟩

/-- The return is lost, and the reply is a success without it. -/
theorem return_lost :
    ∃ f, handleCalls firstRefused 1 [.ret false (.num 0)] = some f ∧
      ajParse f = some (okFrame 1 []) ∧ ¬Faithful 1 [.ret false (.num 0)] f := by
  have hp : ajParse (text (okFrame 1 [])) = some (okFrame 1 []) :=
    ajParse_text (fits_okFrame (by decide) (.obj (by simp) (by simp)))
  refine ⟨text (okFrame 1 []), by decide, hp, fun hf => ?_⟩
  rcases hf with ⟨code, msg, he⟩ | hok
  · rw [hp] at he
    simp [okFrame, errorFrame, lit] at he
  · rw [hp] at hok
    simp [okFrame, members] at hok

end OutOfMemory
