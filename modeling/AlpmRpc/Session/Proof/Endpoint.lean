import AlpmRpc.Session.Endpoint
import Mathlib.Logic.Function.Iterate

/-!
# One endpoint for one root

What follows the root in a name is told from the hash of the root and back (`pipeName_inj`), so that
two names are one when the roots' hashes are. A root's hash is its core's, and then a step for each
trailing separator (`hashRoot_eq`), of which the client keeps one at most (`hashRoot_trimLoop`): the
names are one when the other side's extra separators lead the hash back to where it was
(`meets_iff`).
-/

set_option autoImplicit false

namespace Endpoint

open Json Function

/-! ## The hash -/

theorem fnvStep_injective (b : UInt8) : Injective fun h => fnvStep h b := by
  intro h h' he
  -- the prime is odd
  have hinv : (1099511628211 : UInt64) * 14886173955864302971 = 1 := by decide
  have hmul := congrArg (· * (14886173955864302971 : UInt64)) he
  simp only [fnvStep, UInt64.mul_assoc, hinv, UInt64.mul_one] at hmul
  exact (UInt64.xor_left_inj _).1 hmul

theorem fnv1a_append (h : UInt64) (p q : Bytes) : fnv1a h (p ++ q) = fnv1a (fnv1a h p) q :=
  List.foldl_append

theorem fnv1a_injective (p : Bytes) : Injective fun h => fnv1a h p := by
  induction p with
  | nil => exact injective_id
  | cons b p ih =>
    intro h h' he
    exact fnvStep_injective b (ih he)

theorem hashRest_injective (me : Identity) : Injective (hashRest me) := by
  intro h h' he
  have he := fnv1a_injective _ he
  have he := fnv1a_injective _ he
  have he := fnv1a_injective _ he
  have he := fnv1a_injective _ he
  have he := fnv1a_injective _ he
  exact fnv1a_injective _ he

theorem fnv1a_replicate (h : UInt64) (n : Nat) :
    fnv1a h (List.replicate n (ch '\\')) = sepStep^[n] h := by
  induction n generalizing h with
  | zero => rfl
  | succ n ih => rw [List.replicate_succ, iterate_succ_apply, ← ih]; rfl

theorem hashRoot_eq_fnv1a (root : Bytes) :
    hashRoot root = fnv1a 14695981039346656037 (root.map foldChar) := by
  rw [hashRoot, fnv1a, List.foldl_map]
  rfl

/-! ## The name -/

theorem hexPad_length (k n : Nat) : (hexPad k n).length = k := by
  induction k generalizing n with
  | zero => rfl
  | succ k ih => simp [hexPad, ih]

theorem hexDigit_inj {m n : Nat} (hm : m < 16) (hn : n < 16) (h : hexDigit m = hexDigit n) :
    m = n := by
  have hall : ∀ m < 16, ∀ n < 16, hexDigit m = hexDigit n → m = n := by decide
  exact hall m hm n hn h

theorem hexPad_inj {k m n : Nat} (hm : m < 16 ^ k) (hn : n < 16 ^ k) (h : hexPad k m = hexPad k n) :
    m = n := by
  induction k generalizing m n with
  | zero =>
    rw [pow_zero] at hm hn
    omega
  | succ k ih =>
    obtain ⟨hhi, hlo⟩ := List.append_inj h (by rw [hexPad_length, hexPad_length])
    rw [pow_succ] at hm hn
    have hdiv := ih (by omega) (by omega) hhi
    have hmod := hexDigit_inj (by omega) (by omega) (List.singleton_inj.1 hlo)
    omega

theorem arpcPipeName_eq (root : Bytes) (me : Identity) : arpcPipeName root (some me) =
    some (pipePrefix ++ hexPad 16 (hashRest me (hashRoot root)).toNat) := by
  have hlen : pipePrefix.length = 19 := by decide +kernel
  rw [arpcPipeName, Option.bind_eq_bind, Option.bind_some, if_pos]
  rw [List.length_append, hexPad_length, hlen]
  decide

/-- **A name tells the hash of its root.** -/
theorem pipeName_inj (me : Identity) (root root' : Bytes) :
    arpcPipeName root (some me) = arpcPipeName root' (some me) ↔ hashRoot root = hashRoot root' := by
  rw [arpcPipeName_eq, arpcPipeName_eq, Option.some_inj, List.append_cancel_left_eq]
  refine ⟨fun h => hashRest_injective me (UInt64.toNat_inj.1 (hexPad_inj ?_ ?_ h)), fun h => by rw [h]⟩
  · exact UInt64.toNat_lt _
  · exact UInt64.toNat_lt _

/-! ## Roots -/

theorem foldChar_sep {c : UInt8} (h : isSep c = true) : foldChar c = ch '\\' := by
  rw [isSep, decide_eq_true_eq] at h
  rcases h with rfl | rfl <;> decide

theorem map_foldChar_trailing (root : Bytes) :
    (root.rtakeWhile isSep).map foldChar = List.replicate (trailing root) (ch '\\') := by
  refine List.eq_replicate_iff.2 ⟨List.length_map _, fun c hc => ?_⟩
  obtain ⟨b, hb, rfl⟩ := List.mem_map.1 hc
  exact foldChar_sep (List.mem_rtakeWhile_imp hb)

/-- **The hash of a root** is its core's and a step for each trailing separator. -/
theorem hashRoot_eq (root : Bytes) : hashRoot root = sepStep^[trailing root] (coreHash root) := by
  have hsplit : root = core root ++ root.rtakeWhile isSep := List.rdropWhile_append_rtakeWhile.symm
  rw [hashRoot_eq_fnv1a, hsplit, List.map_append, fnv1a_append, map_foldChar_trailing,
    fnv1a_replicate, ← hsplit]
  rfl

theorem core_concat (s : Bytes) (c : UInt8) :
    core (s ++ [c]) = if isSep c = true then core s else s ++ [c] := List.rdropWhile_concat _ _ _

theorem trimLoop_eq (s : Bytes) {n : Nat} (hn : n ≤ s.length) :
    trimLoop s n = if core (s.take n) = [] then s.take (min n 1) else core (s.take n) := by
  induction n with
  | zero => simp [trimLoop, core]
  | succ n ih =>
    have hlast : s.getD n 0 = s[n] := by simp [List.getD, List.getElem?_eq_getElem hn]
    have htake : s.take (n + 1) = s.take n ++ [s[n]] := List.take_succ_eq_append_getElem hn
    rw [trimLoop, hlast, htake, core_concat]
    by_cases hsep : isSep s[n] = true
    · rw [if_pos hsep]
      cases n with
      | zero =>
        have hcore : core (s.take 0) = [] := by simp [core]
        rw [if_neg (fun h => absurd h.1 (by decide)), if_pos hcore, ← htake]
        rfl
      | succ n =>
        rw [if_pos ⟨by omega, hsep⟩, ih (by omega), Nat.min_eq_right (by omega),
          Nat.min_eq_right (by omega)]
    · rw [if_neg hsep, if_neg (fun h => hsep h.2),
        if_neg (List.append_ne_nil_of_right_ne_nil _ (List.cons_ne_nil _ _))]

/-- What the client hashes of its root. -/
theorem hashRoot_trimLoop {env : Bytes} (hne : env ≠ []) :
    hashRoot (trimLoop env env.length) = sepStep^[kept env] (coreHash env) := by
  rw [trimLoop_eq env (Nat.le_refl _), List.take_length, kept, coreHash]
  by_cases hc : core env = []
  · obtain ⟨c, t, rfl⟩ := List.exists_cons_of_ne_nil hne
    have hsep : isSep c = true := List.rdropWhile_eq_nil_iff.1 hc c List.mem_cons_self
    rw [if_pos hc, if_pos hc, hc, hashRoot_eq_fnv1a]
    simp [foldChar_sep hsep, fnv1a, sepStep]
  · rw [if_neg hc, if_neg hc, hashRoot_eq_fnv1a]
    rfl

/-! ## The two sides -/

theorem iterate_eq_iff {α : Type} {f : α → α} (hf : Injective f) (m n : Nat) (a : α) :
    f^[m] a = f^[n] a ↔ IsPeriodicPt f ((m - n) + (n - m)) a := by
  rcases Nat.le_total m n with hle | hle
  · rw [Nat.sub_eq_zero_of_le hle, Nat.zero_add]
    refine ⟨fun h => iterate_cancel hf h.symm, fun h => ?_⟩
    rw [← Nat.sub_add_cancel hle, Nat.add_comm, iterate_add_apply, h.isFixedPt.eq]
  · rw [Nat.sub_eq_zero_of_le hle, Nat.add_zero]
    refine ⟨fun h => iterate_cancel hf h, fun h => ?_⟩
    rw [← Nat.sub_add_cancel hle, Nat.add_comm, iterate_add_apply, h.isFixedPt.eq]

theorem sepStep_injective : Injective sepStep := fnvStep_injective _

theorem clientEndpoint_eq {env : Bytes} (hne : env ≠ []) (hlen : env.length < maxPath)
    (self : Option Bytes) (me : Identity) : clientEndpoint (some env) self (some me) =
      arpcPipeName (trimLoop env env.length) (some me) := by
  have hpos : env.length > 0 := List.length_pos_iff.2 hne
  rw [clientEndpoint, msysRoot, if_pos ⟨hpos, hlen⟩, Option.bind_eq_bind, Option.bind_some]

/-- The server's name, whether it serves or stops. -/
theorem serverMain_eq {argv : List Bytes} {o : Options} {root : Bytes}
    (hargs : parseArgs {} argv = .options o) (hio : o.stdio = false) (hroot : o.root = some root)
    (hlen : root.length < maxPath) (exe : Option Bytes) (me : Identity) :
    ∃ name, arpcPipeName root (some me) = some name ∧
      serverMain argv exe (some me) = if o.stop then .stops name else .serves name := by
  have htake : root.take (maxPath - 1) = root := List.take_of_length_le (by omega)
  refine ⟨_, arpcPipeName_eq root me, ?_⟩
  rw [serverMain, hargs]
  simp only [hio, hroot, Option.elim_some, htake, arpcPipeName_eq, Bool.false_eq_true, if_false]

theorem meets_iff_hash (me : Identity) (env root : Bytes) (self exe : Option Bytes)
    {argv : List Bytes} {o : Options} (hne : env ≠ []) (henv : env.length < maxPath)
    (hlen : root.length < maxPath) (hargs : parseArgs {} argv = .options o) (hio : o.stdio = false)
    (hroot : o.root = some root) :
    Meets env self exe argv o.stop me ↔ hashRoot (trimLoop env env.length) = hashRoot root := by
  obtain ⟨name, hname, hmain⟩ := serverMain_eq hargs hio hroot hlen exe me
  rw [← pipeName_inj me, hname]
  constructor
  · rintro ⟨name', hclient, hserver⟩
    rw [clientEndpoint_eq hne henv] at hclient
    rw [hclient]
    rw [hmain] at hserver
    cases hs : o.stop <;> simp [hs] at hserver <;> rw [hserver]
  · intro h
    exact ⟨name, (clientEndpoint_eq hne henv self me).trans h, hmain⟩

/-- **Client and server meet** exactly when the server's root has the trailing separators that the
client keeps of its own, or when hashing those that one of them has more leads back to the hash
before. -/
theorem meets_iff (me : Identity) (env root : Bytes) (self exe : Option Bytes) (argv : List Bytes)
    (o : Options) (hsame : SameRoot env root) (hne : env ≠ []) (henv : env.length < maxPath)
    (hlen : root.length < maxPath) (hargs : parseArgs {} argv = .options o) (hio : o.stdio = false)
    (hroot : o.root = some root) :
    Meets env self exe argv o.stop me ↔ IsPeriodicPt sepStep (extra env root) (coreHash env) := by
  have hcore : coreHash root = coreHash env := by rw [coreHash, coreHash, hsame]
  rw [meets_iff_hash me env root self exe hne henv hlen hargs hio hroot, hashRoot_trimLoop hne,
    hashRoot_eq root, hcore, eq_comm]
  exact iterate_eq_iff sepStep_injective _ _ _

/-- Some user. -/
def someone : Identity := ⟨lit "S-1-5-21-1000", 8192⟩

theorem meets_iff_stop :
    Meets (lit "C:/msys64/") none none [lit "--stop", lit "--root", lit "c:/MSYS64"] true someone ∧
      Meets (lit "C:/msys64/") none none [lit "--root", lit "c:/MSYS64"] false someone := by
  have hextra : extra (lit "C:/msys64/") (lit "c:/MSYS64") = 0 := by decide +kernel
  have hper : IsPeriodicPt sepStep (extra (lit "C:/msys64/") (lit "c:/MSYS64"))
      (coreHash (lit "C:/msys64/")) := hextra ▸ isPeriodicPt_zero _ _
  have hsame : SameRoot (lit "C:/msys64/") (lit "c:/MSYS64") := by
    unfold SameRoot
    decide +kernel
  refine ⟨(meets_iff someone _ (lit "c:/MSYS64") none none _ ⟨false, some (lit "c:/MSYS64"), true⟩
    hsame ?_ ?_ ?_ ?_ rfl rfl).2 hper, (meets_iff someone _ (lit "c:/MSYS64") none none _
    ⟨false, some (lit "c:/MSYS64"), false⟩ hsame ?_ ?_ ?_ ?_ rfl rfl).2 hper⟩
  · decide
  · decide
  · decide
  · rfl
  · decide
  · decide
  · decide
  · rfl

/-- A server told to stop with a separator after its root asks elsewhere than where the client's
server is. -/
theorem separator_apart : SameRoot (lit "C:/msys64") (lit "C:/msys64/") ∧
    ¬Meets (lit "C:/msys64") none none [lit "--root", lit "C:/msys64/", lit "--stop"] true someone := by
  refine ⟨by unfold SameRoot; decide +kernel, fun h => ?_⟩
  have hhash := (meets_iff_hash someone (lit "C:/msys64") (lit "C:/msys64/") none none
    (o := ⟨false, some (lit "C:/msys64/"), true⟩) (by decide) (by decide) (by decide) rfl rfl rfl).1 h
  exact absurd hhash (by decide +kernel)

end Endpoint
