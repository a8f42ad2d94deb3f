import AlpmRpc.Common.OutOfMemory
import AlpmRpc.Common.Proof.RoundTrip

/-!
# What the writer puts

Each call of the writer puts its chunks (`Puts`), and a tree puts `treeChunks`, whose bytes are the
tree's text (`total_tree`). None of them is empty, so a buffer that missed one is short of the text.
-/

set_option autoImplicit false

namespace OutOfMemory

open Json Growth

/-- From the buffer `b`, the calls that led to `w` put the chunks `cs`, and left `nc` in
`need_comma` unless one failed. -/
structure Puts (mem : Nat → Bool) (b : Buffer UInt8) (cs : List (Chunk UInt8)) (nc : Bool)
    (w : AjW) : Prop where
  out : w.out = b.exec fit mem cs
  comma : w.out.failed = false → w.needComma = nc

variable {mem : Nat → Bool} {b : Buffer UInt8} {cs : List (Chunk UInt8)} {nc : Bool} {w : AjW}

variable (mem) in
theorem Puts.refl (w : AjW) : Puts mem w.out [] w.needComma w := ⟨rfl, fun _ => rfl⟩

/-- After a failure, nothing more is put. -/
theorem Puts.stopped (h : Puts mem b cs nc w) (hf : w.out.failed = true)
    (cs' : List (Chunk UInt8)) (nc' : Bool) : Puts mem b (cs ++ cs') nc' w := by
  refine ⟨?_, fun h' => ?_⟩
  · rw [Buffer.exec_append, ← h.out, Buffer.exec_failed hf]
  · rw [hf] at h'
    cases h'

theorem Puts.setComma (h : Puts mem b cs nc w) (nc' : Bool) :
    Puts mem b cs nc' { w with needComma := nc' } := ⟨h.out, fun _ => rfl⟩

/-! ## Growing -/

theorem wgrow_true {n : Nat} {w' : AjW} (h : wgrow mem w n = (w', true)) (s : Bytes) :
    w'.needComma = w.needComma ∧ w'.out.append s = w.out.put fit mem ⟨n, s⟩ := by
  unfold wgrow at h
  unfold Buffer.put
  cases hg : w.out.grow fit mem n with
  | mk b ok =>
    rw [hg] at h
    cases h
    exact ⟨rfl, rfl⟩

theorem wgrow_false {n : Nat} {w' : AjW} (h : wgrow mem w n = (w', false)) (s : Bytes) :
    w'.out.failed = true ∧ w'.out = w.out.put fit mem ⟨n, s⟩ := by
  unfold wgrow at h
  unfold Buffer.put
  cases hg : w.out.grow fit mem n with
  | mk b ok =>
    rw [hg] at h
    cases h
    refine ⟨?_, rfl⟩
    unfold Buffer.grow at hg
    split at hg
    · rename_i hf
      cases hg
      exact hf
    split at hg
    · cases hg
    split at hg
    · cases hg
    · cases hg
      rfl

theorem wgrow_failed (hf : w.out.failed = true) (n : Nat) : wgrow mem w n = (w, false) := by
  unfold wgrow Buffer.grow
  rw [if_pos hf]

/-- Room was made, and the bytes appended, or no more is put. -/
theorem Puts.grow (h : Puts mem b cs nc w) (n : Nat) (s : Bytes) :
    (∃ w', wgrow mem w n = (w', true) ∧ Puts mem b (cs ++ [⟨n, s⟩]) nc (wraw w' s)) ∨
      ∃ w', wgrow mem w n = (w', false) ∧ w'.out.failed = true ∧
        ∀ nc', Puts mem b (cs ++ [⟨n, s⟩]) nc' w' := by
  have hput : b.exec fit mem (cs ++ [⟨n, s⟩]) = w.out.put fit mem ⟨n, s⟩ := by
    rw [Buffer.exec_append, ← h.out]
    rfl
  cases hg : wgrow mem w n with
  | mk w' ok =>
    cases ok with
    | true =>
      obtain ⟨hc, hs⟩ := wgrow_true hg s
      refine .inl ⟨w', rfl, hs.trans hput.symm, fun hf => ?_⟩
      -- a writer that failed makes no room
      have hw : w.out.failed = false := by
        have hput : (w.out.exec fit mem [⟨n, s⟩]).failed = false := by
          rw [Buffer.exec_cons, Buffer.exec_nil, ← hs]
          exact hf
        exact Buffer.not_failed_of_exec hput
      exact hc.trans (h.comma hw)
    | false =>
      obtain ⟨hf, hs⟩ := wgrow_false hg s
      refine .inr ⟨w', rfl, hf, fun nc' => ⟨hs.trans hput.symm, fun hf' => ?_⟩⟩
      rw [hf] at hf'
      cases hf'

theorem Puts.reserve (h : Puts mem b cs nc w) (n : Nat) :
    Puts mem b (cs ++ [⟨n, []⟩]) nc (ajwReserve mem w n) := by
  unfold ajwReserve
  rcases h.grow n [] with ⟨w', he, hw⟩ | ⟨w', he, -, hw⟩
  · rw [he]
    have hsame : wraw w' [] = w' := by rw [wraw, Buffer.append_nil]
    rwa [hsame] at hw
  · rw [he]
    exact hw nc

theorem Puts.put (h : Puts mem b cs nc w) (s : Bytes) :
    Puts mem b (cs ++ [⟨s.length, s⟩]) nc (wput mem w s) := by
  unfold wput
  rcases h.grow s.length s with ⟨w', he, hw⟩ | ⟨w', he, -, hw⟩
  · rw [he]
    exact hw
  · rw [he]
    exact hw nc

theorem Puts.raw (h : Puts mem b cs nc w) (s : Bytes) :
    Puts mem b (cs ++ [⟨s.length, s⟩]) true (ajwRaw mem w s) := (h.put s).setComma true

/-- A bracket, a colon or a comma, and the flag it leaves. -/
theorem Puts.mark (h : Puts mem b cs nc w) (c : UInt8) (nc' : Bool) :
    Puts mem b (cs ++ [⟨1, [c]⟩]) nc'
      (match wgrow mem w 1 with
        | (w, true) => { wraw w [c] with needComma := nc' }
        | (w, false) => w) := by
  rcases h.grow 1 [c] with ⟨w', he, hw⟩ | ⟨w', he, -, hw⟩
  · rw [he]
    exact hw.setComma nc'
  · rw [he]
    exact hw nc'

theorem Puts.sep (h : Puts mem b cs nc w) : Puts mem b (cs ++ sepChunks nc) true (wsep mem w) := by
  unfold wsep
  cases hf : w.out.failed with
  | true =>
    have hw := h.stopped hf (sepChunks nc) true
    split
    · rw [wgrow_failed hf]
      exact hw
    · exact hw.setComma true
  | false =>
    rw [h.comma hf]
    cases nc with
    | true => exact h.mark (ch ',') true
    | false =>
      rw [sepChunks, if_neg Bool.false_ne_true, List.append_nil]
      exact h.setComma true

theorem Puts.opened (h : Puts mem b cs nc w) (c : UInt8) :
    Puts mem b (cs ++ sepChunks nc ++ [⟨1, [c]⟩]) false (wopen mem w c) := h.sep.mark c false

theorem Puts.closed (h : Puts mem b cs nc w) (c : UInt8) :
    Puts mem b (cs ++ [⟨1, [c]⟩]) true (wclose mem w c) := h.mark c true

theorem Puts.null (h : Puts mem b cs nc w) :
    Puts mem b (cs ++ treeChunks nc .null) true (ajwNull mem w) := by
  have hw := h.sep.put (lit "null")
  rwa [List.append_assoc] at hw

theorem Puts.i64 (h : Puts mem b cs nc w) (v : Int) :
    Puts mem b (cs ++ treeChunks nc (.num v)) true (ajwI64 mem w v) := by
  rw [treeChunks, ← List.append_assoc]
  unfold ajwI64
  rcases h.sep.grow 24 (i64Text v) with ⟨w', he, hw⟩ | ⟨w', he, -, hw⟩
  · rw [he]
    exact hw
  · rw [he]
    exact hw true

/-! ## Strings -/

theorem Puts.run (h : Puts mem b cs nc w) (run : Bytes) :
    (∃ w', putRun mem w run = (w', true) ∧ Puts mem b (cs ++ runChunks run) nc w') ∨
      ∃ w', putRun mem w run = (w', false) ∧ w'.out.failed = true ∧
        Puts mem b (cs ++ runChunks run) nc w' := by
  unfold putRun runChunks
  split
  · rw [List.append_nil]
    exact .inl ⟨w, rfl, h⟩
  · rcases h.grow run.length run with ⟨w', he, hw⟩ | ⟨w', he, hf, hw⟩
    · rw [he]
      exact .inl ⟨_, rfl, hw⟩
    · rw [he]
      exact .inr ⟨_, rfl, hf, hw nc⟩

theorem Puts.loop (s : Bytes) {run : Bytes} (h : Puts mem b cs nc w) :
    Puts mem b (cs ++ loopChunks run s) nc (wstrLoop mem w run s) := by
  induction s generalizing w run cs with
  | nil =>
    rw [wstrLoop, loopChunks, ← List.append_assoc]
    rcases h.run run with ⟨w', he, hw⟩ | ⟨w', he, hf, hw⟩
    · rw [he]
      exact hw.put [ch '"']
    · rw [he]
      exact hw.stopped hf _ _
  | cons c s ih =>
    rw [wstrLoop, loopChunks]
    split
    · exact ih h
    · rw [← List.append_assoc]
      rcases h.run run with ⟨w', he, hw⟩ | ⟨w', he, hf, hw⟩
      · rw [he]
        dsimp only
        rw [← List.singleton_append, ← List.append_assoc]
        rcases hw.grow 6 (escape c) with ⟨w'', he', hw'⟩ | ⟨w'', he', hf, hw'⟩
        · rw [he']
          exact ih hw'
        · rw [he']
          exact (hw' nc).stopped hf _ _
      · rw [he]
        exact hw.stopped hf _ _

theorem Puts.escaped (h : Puts mem b cs nc w) (s : Bytes) :
    Puts mem b (cs ++ strChunks s) nc (wstrEscaped mem w s) := by
  unfold wstrEscaped strChunks
  rw [← List.singleton_append, ← List.append_assoc]
  rcases h.grow ((cstr s).length + 2) [ch '"'] with ⟨w', he, hw⟩ | ⟨w', he, hf, hw⟩
  · rw [he]
    exact hw.loop (cstr s)
  · rw [he]
    exact (hw nc).stopped hf _ _

theorem Puts.str (h : Puts mem b cs nc w) (s : Bytes) :
    Puts mem b (cs ++ treeChunks nc (.str s)) true (ajwStr mem w (some s)) := by
  rw [treeChunks, ← List.append_assoc]
  exact h.sep.escaped s

theorem Puts.key (h : Puts mem b cs nc w) (key : Bytes) :
    Puts mem b (cs ++ keyChunks nc key) false (ajwKey mem w key) := by
  rw [keyChunks, ← List.append_assoc, ← List.append_assoc]
  exact (h.sep.escaped key).mark (ch ':') false

/-! ## Trees -/

theorem Puts.elems {es : List Tree}
    (ih : ∀ v ∈ es, ∀ {cs : List (Chunk UInt8)} {nc : Bool} {w : AjW}, Puts mem b cs nc w →
      Puts mem b (cs ++ treeChunks nc v) true (ajwTree mem w v)) (h : Puts mem b cs nc w) :
    Puts mem b (cs ++ elemsChunks nc es) (nc || !es.isEmpty) (ajwElems mem w es) := by
  induction es generalizing cs nc w with
  | nil =>
    rw [ajwElems, elemsChunks, List.append_nil]
    simpa using h
  | cons v es ihs =>
    have hes := ihs (fun u hu => ih u (List.mem_cons_of_mem _ hu)) (ih v List.mem_cons_self h)
    rw [ajwElems, elemsChunks, ← List.append_assoc]
    simpa using hes

theorem Puts.members {ms : List (Bytes × Tree)}
    (ih : ∀ m ∈ ms, ∀ {cs : List (Chunk UInt8)} {nc : Bool} {w : AjW}, Puts mem b cs nc w →
      Puts mem b (cs ++ treeChunks nc m.2) true (ajwTree mem w m.2)) (h : Puts mem b cs nc w) :
    Puts mem b (cs ++ membersChunks nc ms) (nc || !ms.isEmpty) (ajwMembers mem w ms) := by
  induction ms generalizing cs nc w with
  | nil =>
    rw [ajwMembers, membersChunks, List.append_nil]
    simpa using h
  | cons m ms ihs =>
    obtain ⟨k, v⟩ := m
    have hms := ihs (fun u hu => ih u (List.mem_cons_of_mem _ hu))
      (ih (k, v) List.mem_cons_self (h.key k))
    rw [ajwMembers, membersChunks, ← List.append_assoc, ← List.append_assoc]
    simpa using hms

/-- **The calls that emit a tree put its chunks.** -/
theorem Puts.tree {d : Nat} {v : Tree} (hv : Fits d v) (h : Puts mem b cs nc w) :
    Puts mem b (cs ++ treeChunks nc v) true (ajwTree mem w v) := by
  induction hv generalizing cs nc w with
  | null => exact h.null
  | num _ => exact h.i64 _
  | str _ => exact h.str _
  | arr _ ih =>
    rw [ajwTree, treeChunks, ← List.append_assoc, ← List.append_assoc, ← List.append_assoc]
    exact ((h.opened (ch '[')).elems ih).closed (ch ']')
  | obj _ _ ih =>
    rw [ajwTree, treeChunks, ← List.append_assoc, ← List.append_assoc, ← List.append_assoc]
    exact ((h.opened (ch '{')).members ih).closed (ch '}')

/-! ## The bytes of a tree -/

@[simp]
theorem total_sep (sep : Bool) : total (sepChunks sep) = sepText sep := by
  cases sep <;> rfl

theorem total_run (run : Bytes) : total (runChunks run) = run := by
  unfold runChunks
  split
  · rename_i h
    exact h.symm
  · simp

theorem escape_plain {c : UInt8} (h : Plain c) : escape c = [c] := if_pos h

theorem total_loop (run s : Bytes) :
    total (loopChunks run s) = run ++ s.flatMap escape ++ [ch '"'] := by
  induction s generalizing run with
  | nil => simp [loopChunks, total_run]
  | cons c s ih =>
    rw [loopChunks]
    split
    · rename_i h
      simp [ih, escape_plain h]
    · simp [ih, total_run]

@[simp]
theorem total_str (s : Bytes) : total (strChunks s) = quoted s := by
  simp [strChunks, total_loop, quoted]

@[simp]
theorem total_key (sep : Bool) (key : Bytes) :
    total (keyChunks sep key) = sepText sep ++ quoted key ++ [ch ':'] := by
  simp [keyChunks]

theorem total_elems {es : List Tree}
    (ih : ∀ v ∈ es, ∀ sep, total (treeChunks sep v) = sepText sep ++ text v) (sep : Bool) :
    total (elemsChunks sep es) = elemsText sep es := by
  induction es generalizing sep with
  | nil => rfl
  | cons v es ihs =>
    simp [elemsChunks, elemsText, ih v List.mem_cons_self,
      ihs fun u hu => ih u (List.mem_cons_of_mem _ hu)]

theorem total_members {ms : List (Bytes × Tree)}
    (ih : ∀ m ∈ ms, ∀ sep, total (treeChunks sep m.2) = sepText sep ++ text m.2) (sep : Bool) :
    total (membersChunks sep ms) = membersText sep ms := by
  induction ms generalizing sep with
  | nil => rfl
  | cons m ms ihs =>
    obtain ⟨k, v⟩ := m
    have hv := ih (k, v) List.mem_cons_self false
    simp [membersChunks, membersText, hv, ihs fun u hu => ih u (List.mem_cons_of_mem _ hu),
      sepText]

/-- **The chunks of a tree are its text.** -/
theorem total_tree {d : Nat} {v : Tree} (hv : Fits d v) (sep : Bool) :
    total (treeChunks sep v) = sepText sep ++ text v := by
  induction hv generalizing sep with
  | null => simp [treeChunks, text]
  | num _ => simp [treeChunks, text]
  | str _ => simp [treeChunks, text]
  | arr _ ih => simp [treeChunks, text, total_elems ih]
  | obj _ _ ih => simp [treeChunks, text, total_members ih]

/-! ## Nothing empty is put -/

@[simp]
theorem solid_sep (sep : Bool) : Solid (sepChunks sep) := by cases sep <;> simp [sepChunks]

theorem escape_ne_nil (c : UInt8) : escape c ≠ [] := by
  unfold escape
  repeat' split
  all_goals simp

theorem solid_loop (run s : Bytes) : Solid (loopChunks run s) := by
  have hrun : ∀ run : Bytes, Solid (runChunks run) := by
    intro run
    unfold runChunks
    split
    · simp
    · rename_i h
      simpa using h
  induction s generalizing run with
  | nil => simp [loopChunks, hrun]
  | cons c s ih =>
    rw [loopChunks]
    split
    · exact ih _
    · simp [hrun, ih, escape_ne_nil]

@[simp]
theorem solid_str (s : Bytes) : Solid (strChunks s) := by simp [strChunks, solid_loop]

@[simp]
theorem solid_key (sep : Bool) (key : Bytes) : Solid (keyChunks sep key) := by simp [keyChunks]

theorem i64Text_ne_nil (v : Int) : i64Text v ≠ [] := by simp [i64Text, tmpDigits]

theorem solid_elems {es : List Tree} (ih : ∀ v ∈ es, ∀ sep, Solid (treeChunks sep v)) (sep : Bool) :
    Solid (elemsChunks sep es) := by
  induction es generalizing sep with
  | nil => simp [elemsChunks]
  | cons v es ihs =>
    simp [elemsChunks, ih v List.mem_cons_self, ihs fun u hu => ih u (List.mem_cons_of_mem _ hu)]

theorem solid_members {ms : List (Bytes × Tree)} (ih : ∀ m ∈ ms, ∀ sep, Solid (treeChunks sep m.2))
    (sep : Bool) : Solid (membersChunks sep ms) := by
  induction ms generalizing sep with
  | nil => simp [membersChunks]
  | cons m ms ihs =>
    obtain ⟨k, v⟩ := m
    have hv := ih (k, v) List.mem_cons_self false
    simp [membersChunks, hv, ihs fun u hu => ih u (List.mem_cons_of_mem _ hu)]

theorem solid_tree {d : Nat} {v : Tree} (hv : Fits d v) (sep : Bool) : Solid (treeChunks sep v) := by
  induction hv generalizing sep with
  | null => simp [treeChunks, lit]
  | num _ => simp [treeChunks, i64Text_ne_nil]
  | str _ => simp [treeChunks]
  | arr _ ih => simp [treeChunks, solid_elems ih]
  | obj _ _ ih => simp [treeChunks, solid_members ih]

end OutOfMemory
