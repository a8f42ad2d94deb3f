import AlpmRpc.Client.CacheKey
import AlpmRpc.Client.Proof.Cache
import AlpmRpc.Common.Proof.RoundTrip
import AlpmRpc.Gen.Proof.Invalidate
import AlpmRpc.Lib.Run

/-!
# Keys tell arguments apart

`line_inj`: what the key of a call is made from gives back the getter's name and every argument, when
colons stand in the strings of one parameter at most. The fields before it are split off from the
left, and those after it from the right (`fields_inj`). With that, what is cached under a key is what
was fetched for it (`answers_right`).
-/

set_option autoImplicit false

namespace Client.Keyed

open Wire Json Gen

/-! ## Splitting at colons -/

theorem split_left {c : UInt8} {x y r s : Bytes} (hx : c ∉ x) (hy : c ∉ y)
    (h : x ++ c :: r = y ++ c :: s) : x = y ∧ r = s := by
  induction x generalizing y with
  | nil =>
    cases y with
    | nil =>
      injection h with _ hrs
      exact ⟨rfl, hrs⟩
    | cons b y =>
      injection h with hcb _
      exact absurd (hcb ▸ List.mem_cons_self) hy
  | cons a x ih =>
    cases y with
    | nil =>
      injection h with hac _
      exact absurd (hac ▸ List.mem_cons_self) hx
    | cons b y =>
      injection h with hab hrest
      obtain ⟨hxy, hrs⟩ := ih (fun hc => hx (List.mem_cons_of_mem _ hc))
        (fun hc => hy (List.mem_cons_of_mem _ hc)) hrest
      exact ⟨by rw [hab, hxy], hrs⟩

theorem split_right {c : UInt8} {x y r s : Bytes} (hr : c ∉ r) (hs : c ∉ s)
    (h : x ++ c :: r = y ++ c :: s) : x = y ∧ r = s := by
  have hrev : r.reverse ++ c :: x.reverse = s.reverse ++ c :: y.reverse := by
    have := congrArg List.reverse h
    simpa using this
  obtain ⟨h1, h2⟩ := split_left (by simpa using hr) (by simpa using hs) hrev
  exact ⟨List.reverse_injective h2, List.reverse_injective h1⟩

/-- Fields, each after a colon. -/
def fields (ts : List Bytes) : Bytes := ts.flatMap (ch ':' :: ·)

theorem fields_cons (t : Bytes) (ts : List Bytes) : fields (t :: ts) = ch ':' :: (t ++ fields ts) :=
  rfl

def Plain (ts : List Bytes) : Prop := ∀ t ∈ ts, ch ':' ∉ t

/-- Plain fields come off from the right, whatever is before them. -/
theorem fields_right {ts us : List Bytes} (hlen : ts.length = us.length) (ht : Plain ts)
    (hu : Plain us) {x y : Bytes} (h : x ++ fields ts = y ++ fields us) : x = y ∧ ts = us := by
  induction ts generalizing us x y with
  | nil =>
    rw [List.length_nil] at hlen
    rw [List.length_eq_zero_iff.1 hlen.symm] at h ⊢
    exact ⟨by simpa [fields] using h, rfl⟩
  | cons t ts ih =>
    cases us with
    | nil => cases hlen
    | cons u us =>
      obtain ⟨ht₁, ht⟩ := List.forall_mem_cons.1 ht
      obtain ⟨hu₁, hu⟩ := List.forall_mem_cons.1 hu
      have h' : (x ++ ch ':' :: t) ++ fields ts = (y ++ ch ':' :: u) ++ fields us := by
        simpa [fields_cons] using h
      obtain ⟨hxy, hts⟩ := ih (Nat.succ.inj hlen) ht hu h'
      obtain ⟨rfl, rfl⟩ := split_right ht₁ hu₁ hxy
      exact ⟨rfl, by rw [hts]⟩

/-- All fields but the one at `p` are plain. -/
def PlainBut (p : Nat) (ts : List Bytes) : Prop :=
  ∀ i t, ts[i]? = some t → i ≠ p → ch ':' ∉ t

/-- **Fields are told apart** when colons stand in one at most. -/
theorem fields_inj {p : Nat} {ts us : List Bytes} (hlen : ts.length = us.length)
    (ht : PlainBut p ts) (hu : PlainBut p us) {x y : Bytes} (hx : ch ':' ∉ x) (hy : ch ':' ∉ y)
    (h : x ++ fields ts = y ++ fields us) : x = y ∧ ts = us := by
  induction ts generalizing us x y p with
  | nil =>
    rw [List.length_nil] at hlen
    rw [List.length_eq_zero_iff.1 hlen.symm] at h ⊢
    exact ⟨by simpa [fields] using h, rfl⟩
  | cons t ts ih =>
    cases us with
    | nil => cases hlen
    | cons u us =>
      cases p with
      | zero =>
        -- the fields after it, and then the field and what is before it
        have htail : ∀ {t : Bytes} {ts : List Bytes}, PlainBut 0 (t :: ts) → Plain ts := by
          intro t ts hp t' ht'
          obtain ⟨i, hi⟩ := List.getElem?_of_mem ht'
          exact hp (i + 1) t' (by simpa using hi) (Nat.succ_ne_zero i)
        have h' : (x ++ ch ':' :: t) ++ fields ts = (y ++ ch ':' :: u) ++ fields us := by
          simpa [fields_cons] using h
        obtain ⟨hxy, hts⟩ := fields_right (Nat.succ.inj hlen) (htail ht) (htail hu) h'
        obtain ⟨rfl, rfl⟩ := split_left hx hy hxy
        exact ⟨rfl, by rw [hts]⟩
      | succ p =>
        have hhead : ∀ {t : Bytes} {ts : List Bytes}, PlainBut (p + 1) (t :: ts) →
            ch ':' ∉ t ∧ PlainBut p ts := by
          intro t ts hp
          refine ⟨hp 0 t rfl (Nat.succ_ne_zero p).symm, fun i t' hi hne => ?_⟩
          exact hp (i + 1) t' (by simpa using hi) (by omega)
        obtain ⟨ht₁, ht⟩ := hhead ht
        obtain ⟨hu₁, hu⟩ := hhead hu
        obtain ⟨rfl, hrest⟩ := split_left hx hy (by simpa [fields_cons] using h)
        obtain ⟨rfl, hts⟩ := ih (Nat.succ.inj hlen) ht hu ht₁ hu₁ hrest
        exact ⟨rfl, by rw [hts]⟩

/-! ## Arguments -/

/-- The digits of a number, after its sign. -/
theorem toList_decimal (v : Int) : (toString v).toList =
    (if 0 ≤ v then [] else ['-']) ++ Nat.toDigits 10 (if 0 ≤ v then v.toNat else (-v).toNat) := by
  rw [Int.toString_eq_repr, Int.repr_eq_if]
  split <;> simp [Nat.repr]

theorem digit_of_mem {n : Nat} {c : Char} (h : c ∈ Nat.toDigits 10 n) : c.isDigit = true :=
  Nat.isDigit_of_mem_toDigits (by decide) (by decide) h

theorem decimal_inj {v w : Int} (h : (toString v).toList = (toString w).toList) : v = w := by
  have hdigits : ∀ {m n : Nat}, Nat.toDigits 10 m = Nat.toDigits 10 n → m = n := by
    intro m n he
    rw [← Nat.ofDigitChars_toDigits (b := 10) (n := m) (by decide) (by decide), he,
      Nat.ofDigitChars_toDigits (by decide) (by decide)]
  -- a sign is no digit
  have hsign : ∀ {m n : Nat}, '-' :: Nat.toDigits 10 m ≠ Nat.toDigits 10 n := by
    intro m n he
    have hd : '-'.isDigit = true := digit_of_mem (he ▸ List.mem_cons_self)
    exact absurd hd (by decide)
  rw [toList_decimal, toList_decimal] at h
  by_cases hv : 0 ≤ v
  · by_cases hw : 0 ≤ w
    · simp only [if_pos hv, if_pos hw, List.nil_append] at h
      have he := hdigits h
      omega
    · simp only [if_pos hv, if_neg hw, List.nil_append] at h
      exact absurd h.symm hsign
  · by_cases hw : 0 ≤ w
    · simp only [if_neg hv, if_pos hw, List.nil_append] at h
      exact absurd h hsign
    · simp only [if_neg hv, if_neg hw] at h
      have he := hdigits (List.append_cancel_left h)
      omega

theorem decimal_chars {v : Int} {c : Char} (h : c ∈ (toString v).toList) :
    c = '-' ∨ c.isDigit = true := by
  rw [toList_decimal] at h
  rcases List.mem_append.1 h with h | h
  · split at h
    · cases h
    · exact .inl (List.mem_singleton.1 h)
  · exact .inr (digit_of_mem h)

/-- The characters of a number come before the colon. -/
theorem decimal_small {v : Int} {c : Char} (h : c ∈ (toString v).toList) : c.toNat < 58 := by
  have h9 : '9'.toNat = 57 := by decide
  rcases decimal_chars h with rfl | hd
  · decide
  · rw [Char.isDigit_iff_toNat] at hd
    omega

theorem ch_toNat {c : Char} (h : c.toNat < 256) : (ch c).toNat = c.toNat := by
  rw [ch, UInt8.toNat_ofNat_of_lt' h]

theorem colon_notMem_decimal (v : Int) : ch ':' ∉ lit (toString v) := by
  intro h
  obtain ⟨c, hc, he⟩ := List.mem_map.1 h
  have hlt := decimal_small hc
  have hn := congrArg UInt8.toNat he
  rw [ch_toNat (by omega)] at hn
  have h58 : (ch ':').toNat = 58 := by decide
  omega

theorem lit_decimal_inj {v w : Int} (h : lit (toString v) = lit (toString w)) : v = w := by
  have hinj : ∀ {cs ds : List Char}, (∀ c ∈ cs, c.toNat < 58) → (∀ c ∈ ds, c.toNat < 58) →
      cs.map ch = ds.map ch → cs = ds := by
    intro cs
    induction cs with
    | nil =>
      intro ds _ _ he
      exact (List.map_eq_nil_iff.1 he.symm).symm
    | cons c cs ih =>
      intro ds hcs hds he
      cases ds with
      | nil => cases he
      | cons d ds =>
        obtain ⟨hc, hcs⟩ := List.forall_mem_cons.1 hcs
        obtain ⟨hd, hds⟩ := List.forall_mem_cons.1 hds
        injection he with hhead htail
        have hn := congrArg UInt8.toNat hhead
        rw [ch_toNat (by omega), ch_toNat (by omega)] at hn
        rw [Char.toNat_inj.1 hn, ih hcs hds htail]
  exact decimal_inj (hinj (fun c hc => decimal_small hc) (fun c hc => decimal_small hc) h)

/-- **An argument is told by its text**, but for `NULL`. -/
theorem text_inj {k : KeyKind} {a b : Arg} (ha : a.Typed k) (hb : b.Typed k)
    (hna : a ≠ .string none) (hnb : b ≠ .string none) (h : a.keyArg.text = b.keyArg.text) :
    a = b := by
  cases ha with
  | null => exact absurd rfl hna
  | @string s _ =>
    cases hb with
    | null => exact absurd rfl hnb
    | @string s' _ =>
      have hs : s = s' := h
      rw [hs]
  | @scalar ty v hv =>
    cases hb with
    | @scalar _ w hw =>
      have he : toI64 v = toI64 w := lit_decimal_inj h
      rw [← (cast_toI64_eq_iff .client .client hv).2 hv, he,
        (cast_toI64_eq_iff .client .client hw).2 hw]
  | @handle id hid =>
    cases hb with
    | @handle id' hid' =>
      have he : (id : Int) = (id' : Int) := lit_decimal_inj h
      rw [Int.ofNat.inj he]

/-! ## Keys -/

variable {g g' : Getter} {args args' : List Arg}

theorem line_eq (g : Getter) (args : List Arg) :
    g.line args = g.name ++ fields (args.map fun a => a.keyArg.text) := by
  rw [Getter.line, fields, List.flatMap_map]

theorem intercalate_eq_fields (t : Bytes) (ts : List Bytes) :
    ch ':' :: [ch ':'].intercalate (t :: ts) = fields (t :: ts) := by
  induction ts generalizing t with
  | nil => simp [fields, List.intercalate]
  | cons u ts ih => rw [fields_cons, ← ih u, List.intercalate_cons_cons, List.append_assoc]; rfl

/-- The key is the line, as far as the buffer takes it. -/
theorem key_eq_take (g : Getter) (hne : args ≠ []) : g.key args = (g.line args).take 511 := by
  obtain ⟨a, rest, rfl⟩ := List.exists_cons_of_ne_nil hne
  rw [Getter.key, cacheKey, if_neg (by simp), line_eq, List.map_map, List.map_cons,
    intercalate_eq_fields]
  rfl

/-- With room for every byte, the key is the line. -/
theorem key_eq_line {free : Nat} (h : g.Told free args) : g.key args = g.line args := by
  by_cases hne : args = []
  · subst hne
    simp [Getter.key, cacheKey, Getter.line]
  · rw [key_eq_take g hne, List.take_of_length_le (Nat.le_of_lt_succ (h.fits hne))]

/-- Colons stand where a told call says. -/
theorem Getter.Told.plainBut {free : Nat} (h : g.Told free args) :
    PlainBut free (args.map fun a => a.keyArg.text) := by
  intro i t hi hne
  rw [List.getElem?_map, Option.map_eq_some_iff] at hi
  obtain ⟨a, ha, rfl⟩ := hi
  cases a with
  | string s =>
    cases s with
    | none => exact absurd (List.mem_of_getElem? ha) h.notNull
    | some s => exact h.clear i s ha hne
  | scalar v => exact colon_notMem_decimal _
  | handle id => exact colon_notMem_decimal (id : Int)

theorem args_inj {ks : List KeyKind} (h : List.Forall₂ Arg.Typed ks args)
    (h' : List.Forall₂ Arg.Typed ks args') (hn : .string none ∉ args) (hn' : .string none ∉ args')
    (he : (args.map fun a => a.keyArg.text) = args'.map fun a => a.keyArg.text) : args = args' := by
  induction h generalizing args' with
  | nil =>
    cases h'
    rfl
  | @cons k a ks args ha _ ih =>
    cases h' with
    | @cons _ b _ args' hb htail =>
      rw [List.map_cons, List.map_cons] at he
      injection he with hhead hrest
      rw [List.mem_cons, not_or] at hn hn'
      rw [text_inj ha hb (Ne.symm hn.1) (Ne.symm hn'.1) hhead, ih htail hn.2 hn'.2 hrest]

/-! ## Names -/

variable {gs : Getters}

theorem Getters.colon (gs : Getters) (hg : g ∈ gs.all) : ch ':' ∉ g.name := by
  intro hc
  exact absurd (gs.ident g hg _ hc) (by decide)

theorem Getters.name_inj (gs : Getters) (hg : g ∈ gs.all) (hg' : g' ∈ gs.all)
    (h : g.name = g'.name) : g = g' :=
  List.inj_on_of_nodup_map gs.nodup hg hg' h

/-- The name of a line ends at its first colon, or with it. -/
theorem name_of_line {x y : Bytes} {ts us : List Bytes} (hx : ch ':' ∉ x) (hy : ch ':' ∉ y)
    (h : x ++ fields ts = y ++ fields us) : x = y := by
  cases ts with
  | nil =>
    cases us with
    | nil => simpa [fields] using h
    | cons u us =>
      have hx' : x = y ++ fields (u :: us) := by simpa [fields] using h
      exact absurd (by rw [hx', fields_cons]; simp) hx
  | cons t ts =>
    cases us with
    | nil =>
      have hy' : y = x ++ fields (t :: ts) := by simpa [fields] using h.symm
      exact absurd (by rw [hy', fields_cons]; simp) hy
    | cons u us => exact (split_left hx hy h).1

/-- **Keys are told apart.** -/
theorem key_inj {free : Getter → Nat} (hg : g ∈ gs.all) (hg' : g' ∈ gs.all) (ht : g.Takes args)
    (ht' : g'.Takes args') (h : g.Told (free g) args) (h' : g'.Told (free g') args')
    (he : g.key args = g'.key args') : g = g' ∧ args = args' := by
  rw [key_eq_line h, key_eq_line h', line_eq, line_eq] at he
  obtain rfl := gs.name_inj hg hg' (name_of_line (gs.colon hg) (gs.colon hg') he)
  have hlen : args.length = args'.length := by
    rw [← List.Forall₂.length_eq ht, List.Forall₂.length_eq ht']
  obtain ⟨-, htexts⟩ := fields_inj (by simpa using hlen) h.plainBut h'.plainBut
    (gs.colon hg) (gs.colon hg') he
  exact ⟨rfl, args_inj ht ht' h.notNull h'.notNull htexts⟩

/-- **Detaching by name** takes the keys of the getter named, and no other's. -/
theorem keyNames_key_iff (hg : g ∈ gs.all) (hg' : g' ∈ gs.all) (hlen : g.name.length < 511) :
    Cache.keyNames (g.key args) g'.name = true ↔ g' = g := by
  have hown : Cache.keyNames (g.key args) g.name = true := keyNames_cacheKey _ hlen
  refine ⟨fun h => gs.name_inj hg' hg ?_, fun h => h ▸ hown⟩
  simp only [Cache.keyNames, Bool.and_eq_true, Bool.or_eq_true, beq_iff_eq,
    List.isPrefixOf_iff_prefix] at h hown
  -- two prefixes of one key: the shorter one ends the key, or has a colon after it
  have hends : ∀ {m n : Bytes}, ch ':' ∉ n → m <+: g.key args → n <+: g.key args →
      ((g.key args).length = m.length ∨ (g.key args)[m.length]? = some (ch ':')) →
      n.length ≤ m.length := by
    intro m n hn hm hnk hend
    by_contra hlt
    rcases hend with hend | hend
    · have := hnk.length_le
      omega
    · have hin : n[m.length]? = some (ch ':') := by
        have hlt : m.length < n.length := by omega
        rw [List.getElem?_eq_getElem hlt, hnk.getElem hlt, ← hend, List.getElem?_eq_getElem]
      exact hn (List.mem_of_getElem? hin)
  have h₁ := hends (gs.colon hg) h.1 hown.1 h.2
  have h₂ := hends (gs.colon hg') hown.1 h.1 hown.2
  exact (List.prefix_of_prefix_length_le h.1 hown.1 h₂).eq_of_length (by omega)

/-! ## Runs -/

variable {β : Type} {free : Getter → Nat}

/-- What is in the table for a getter is under the key of what it was fetched for. -/
def Filed (gs : Getters) (free : Getter → Nat) (c : Cache (Fetched β)) : Prop :=
  ∀ e ∈ c.owned, ∀ f, e.value = .obj f → e.key = f.getter.key f.args ∧ f.getter ∈ gs.all ∧
    f.getter.Takes f.args ∧ f.getter.Told (free f.getter) f.args

theorem Filed.answer {c : Cache (Fetched β)} (hI : Filed gs free c) {owner n : Nat}
    (hg : g ∈ gs.all) (ht : g.Takes args) (h : g.Told (free g) args)
    (hc : c.arpcCached owner (g.key args) = some n) :
    ∃ e ∈ c.owned, e.num = n ∧ e.owner = owner ∧ ∃ r, e.value = .obj ⟨g, args, r⟩ := by
  unfold Cache.arpcCached at hc
  split at hc
  · rename_i e hf
    obtain ⟨hmem, ho, hk⟩ := Cache.findOwned_some hf
    cases hv : e.value with
    | str s => simp [hv, Payload.isStr] at hc
    | obj f =>
      obtain ⟨g₁, args₁, r⟩ := f
      obtain ⟨hkey, hg₁, ht₁, h₁⟩ := hI e hmem _ hv
      obtain ⟨rfl, rfl⟩ := key_inj hg hg₁ ht ht₁ h h₁ (hk.symm.trans hkey)
      refine ⟨e, hmem, ?_, ho, r, hv⟩
      simpa [hv, Payload.isStr] using hc
  · cases hc

theorem Filed.of_sub {c c' : Cache (Fetched β)} (hI : Filed gs free c)
    (h : ∀ e ∈ c'.owned, e ∈ c.owned ∨ e.value.isStr = true) : Filed gs free c' := by
  intro e he f hf
  rcases h e he with he | hs
  · exact hI e he f hf
  · simp [hf, Payload.isStr] at hs

theorem event_spec {c c' : Answered β} {ev : Event β} (hI : Filed gs free c.1)
    (hs : event c ev = some c') (ha : Asks gs free c ev c') :
    FetchedFor c ev c' ∧ Filed gs free c'.1 := by
  obtain ⟨c', a⟩ := c'
  cases ev with
  | lookup g owner args =>
    obtain ⟨hg, ht, h⟩ := ha g owner args rfl
    cases hs
    refine ⟨?_, hI⟩
    rintro _ _ _ ⟨⟩ n hn
    exact hI.answer hg ht h hn
  | store g owner args r release =>
    obtain ⟨hg, ht, h⟩ := ha g owner args rfl
    have hs : c.1.arpcCache owner (g.key args) ⟨g, args, r⟩ release = some (c', a) := hs
    unfold Cache.arpcCache at hs
    split at hs
    · rename_i v hv
      cases hs
      refine ⟨?_, hI⟩
      rintro _ _ _ ⟨⟩ n hn
      cases hn
      exact hI.answer hg ht h hv
    · obtain ⟨c₁, hadd, hc⟩ := Option.bind_eq_some_iff.1 hs
      cases hc
      obtain ⟨ho, -⟩ := Cache.hashAdd_owned hadd
      refine ⟨?_, ?_⟩
      · rintro _ _ _ ⟨⟩ n hn
        cases hn
        exact ⟨_, by rw [ho]; exact List.mem_append_right _ List.mem_cons_self, rfl, rfl, r, rfl⟩
      · intro e he f hf
        rw [ho] at he
        rcases List.mem_append.1 he with he | he
        · exact hI e he f hf
        · obtain rfl := List.mem_singleton.1 he
          cases hf
          exact ⟨rfl, hg, ht, h⟩
  | intern owner key value =>
    exact ⟨nofun, hI.of_sub (Cache.intern_owned hs).1⟩
  | detach owner wholeRoot keys =>
    cases hs
    exact ⟨nofun, hI.of_sub fun e he => .inl (List.mem_filter.1 he).1⟩
  | purgeOwner owner =>
    cases hs
    exact ⟨nofun, hI.of_sub fun e he => .inl (List.mem_filter.1 he).1⟩
  | purgeRoot handle =>
    cases hs
    exact ⟨nofun, hI.of_sub fun e he => .inl (List.mem_filter.1 he).1⟩
  | register ids =>
    cases hs
    exact ⟨nofun, hI⟩
  | pkgGroup id =>
    cases hs
    exact ⟨nofun, hI⟩

/-- **Cached results are kept apart.** In a run whose calls' keys say all, two calls share a key only
if they are of one getter with the same arguments, a detach takes the keys of the getters it names,
and every answer is the result that was fetched for the arguments asked for. -/
theorem answers_right (gs : Getters) (free : Getter → Nat) (evs : List (Event β))
    (h : Run.Along event (Asks gs free) ({}, none) evs) :
    Run.Along event FetchedFor ({}, none) evs ∧
      (∀ g ∈ gs.all, ∀ g' ∈ gs.all, ∀ args args', g.Takes args → g'.Takes args' →
        g.Told (free g) args → g'.Told (free g') args' → g.key args = g'.key args' →
        g = g' ∧ args = args') ∧
      ∀ g ∈ gs.all, ∀ g' ∈ gs.all, ∀ args, g.Takes args → g.name.length < 511 →
        (Cache.keyNames (g.key args) g'.name = true ↔ g' = g) := by
  refine ⟨h.of_inv (I := fun c => Filed gs free c.1) (fun _ _ _ => event_spec) nofun, ?_, ?_⟩
  · intro g hg g' hg' args args' ht ht' hk hk' he
    exact key_inj hg hg' ht ht' hk hk' he
  · intro g hg g' hg' args _ hlen
    exact keyNames_key_iff hg hg' hlen

/-- `alpm_db_get_groupcache`, whose name begins with the other's. -/
def getGroupcache : Getter := ⟨lit "alpm_db_get_groupcache", []⟩

def twoGetters : Getters where
  all := [getGroup, getGroupcache]
  ident g hg := by
    have hall : ∀ g ∈ [getGroup, getGroupcache], g.name.all isIdent = true := by decide
    exact List.all_eq_true.1 (hall g hg)
  nodup := by decide

def named (name : String) : List Arg := [.string (some (lit name))]

/-- Two groups and the group list of a db are stored, and the list is detached. -/
def groupsRun : List (Event Nat) :=
  [.store getGroup 1 (named "base") 7 1, .store getGroup 1 (named "base-devel") 8 1,
   .store getGroupcache 1 [] 9 1, .detach 1 false [lit "alpm_db_get_groupcache"],
   .lookup getGroupcache 1 [], .lookup getGroup 1 (named "base"),
   .lookup getGroup 1 (named "base-devel")]

theorem answers_right_groups :
    ((groupsRun.take 5).foldlM event ({}, none)).map (·.2) = some none ∧
      ((groupsRun.take 6).foldlM event ({}, none)).map (·.2) = some (some 0) ∧
      (groupsRun.foldlM event ({}, none)).map (·.2) = some (some 1) ∧
      Run.Along event FetchedFor ({}, none) groupsRun := by
  have htold (name : String) (hnul : NulFree (lit name)) (hlen : (getGroup.line (named name)).length < 512) :
      getGroup ∈ twoGetters.all ∧ getGroup.Takes (named name) ∧ getGroup.Told 0 (named name) := by
    refine ⟨List.mem_cons_self, .cons (.string hnul) .nil, by simp [named], ?_, fun _ => hlen⟩
    rintro (_ | i) s hs hi
    · exact absurd rfl hi
    · cases hs
  have hlist : getGroupcache ∈ twoGetters.all ∧ getGroupcache.Takes [] ∧ getGroupcache.Told 0 [] :=
    ⟨by decide, .nil, List.not_mem_nil, nofun, fun h => absurd rfl h⟩
  have hbase := htold "base" (by decide) (by decide)
  have hdevel := htold "base-devel" (by decide) (by decide)
  refine ⟨by decide +kernel, by decide +kernel, by decide +kernel,
    (answers_right twoGetters (fun _ => 0) _ (Run.Along.of_mem ?_ _)).1⟩
  intro ev hev _ _ g owner as ha
  simp only [groupsRun, List.mem_cons, List.not_mem_nil, or_false] at hev
  rcases hev with rfl | rfl | rfl | rfl | rfl | rfl | rfl <;> cases ha
  exacts [hbase, hdevel, hlist, hlist, hbase, hdevel]

/-! ## Keys cut short -/

/-- Of one string, the key has what the buffer takes. -/
theorem key_string_iff (hlen : g.name.length < 511) (s s' : Bytes) :
    g.key [.string (some s)] = g.key [.string (some s')] ↔
      s.take (510 - g.name.length) = s'.take (510 - g.name.length) := by
  have hkey : ∀ s : Bytes, g.key [.string (some s)] =
      g.name ++ ch ':' :: s.take (510 - g.name.length) := by
    intro s
    have hroom : 511 - g.name.length = 510 - g.name.length + 1 := by omega
    rw [key_eq_take g (List.cons_ne_nil _ _), line_eq, List.take_append,
      List.take_of_length_le (by omega), hroom]
    simp [fields, Arg.keyArg, KeyArg.text]
  rw [hkey, hkey]
  simp

/-- **Calls that share a key share their results.** -/
theorem mixed_of_key_eq (owner : Nat) (r : β) (release : Nat) (hne : args ≠ args')
    (he : g.key args = g.key args') :
    ¬Run.Along event FetchedFor ({}, none) [.store g owner args r release, .lookup g owner args'] := by
  intro h
  let e : Owned (Fetched β) := ⟨owner, g.key args, 0, .obj ⟨g, args, r⟩, release⟩
  let c : Cache (Fetched β) := { owned := [e], next := 1 }
  have hcached : c.arpcCached owner (g.key args') = some 0 := by
    simp [c, e, Cache.arpcCached, Cache.findOwned, he, Payload.isStr]
  obtain ⟨e', he', -, -, r', hv⟩ := (((h (c, some 0) rfl).2 (c, some 0) (by
    show some (c, c.arpcCached owner (g.key args')) = _
    rw [hcached])).1) g owner args' rfl 0 rfl
  obtain rfl : e' = e := List.mem_singleton.1 he'
  injection hv with hv
  injection hv with _ hargs
  exact hne hargs

/-- A name of 494 bytes. -/
def longName (c : Char) : Bytes := List.replicate 493 (ch 'a') ++ [ch c]

theorem longName_nulFree {c : Char} (h : ch c ≠ 0) : NulFree (longName c) := by
  intro b hb
  rcases List.mem_append.1 hb with hb | hb
  · rw [List.eq_of_mem_replicate hb]
    decide
  · rw [List.mem_singleton.1 hb]
    exact h

/-- Two groups whose names differ in the last byte are one to the cache. -/
theorem longName_mixed :
    NulFree (longName 'x') ∧ NulFree (longName 'y') ∧ longName 'x' ≠ longName 'y' ∧
      getGroup.key [.string (some (longName 'x'))] = getGroup.key [.string (some (longName 'y'))] ∧
      ¬Run.Along event FetchedFor ({}, none)
        [.store getGroup 1 [.string (some (longName 'x'))] () 1,
          .lookup getGroup 1 [.string (some (longName 'y'))]] := by
  have hne : longName 'x' ≠ longName 'y' := by
    intro h
    exact absurd (List.append_cancel_left h) (by decide)
  have hcut : ∀ c, (longName c).take (510 - getGroup.name.length) = List.replicate 493 (ch 'a') := by
    intro c
    have hlen : 510 - getGroup.name.length = 493 := by decide
    rw [hlen, longName, List.take_left' List.length_replicate]
  have hkey := (key_string_iff (g := getGroup) (by decide) (longName 'x') (longName 'y')).2
    ((hcut 'x').trans (hcut 'y').symm)
  refine ⟨longName_nulFree (by decide), longName_nulFree (by decide), hne, hkey, ?_⟩
  refine mixed_of_key_eq 1 () 1 (fun h => hne ?_) hkey
  injection h with h _
  injection h with h
  injection h

end Client.Keyed
