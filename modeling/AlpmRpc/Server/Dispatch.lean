import AlpmRpc.Common.Strings
import AlpmRpc.Lib.Keyed
import AlpmRpc.Server.Reply

/-!
# The table of methods

`arpc_methods` as the generator's `emit_server` writes it, and the search of `arpc_handle_parsed`: the
methods that are not libalpm's one after another, then the table by `bsearch`. No name of a C function has
a dot, and the others have one, so each method has its own handler.
-/

set_option autoImplicit false

namespace Server

open Json

variable {H σ : Type} {method : Bytes}

/-- What `emit_server` puts into the table: `arpc.pkg_fields` if a function is batchable, and each
function's handler. -/
def entries (batch : Option H) (gen : List (Bytes × H)) : List (Bytes × H) :=
  batch.toList.map (lit "arpc.pkg_fields", ·) ++ gen

/-- `methods.sort(key=lambda m: m[0].encode())` -/
def arpcMethods (batch : Option H) (gen : List (Bytes × H)) : List (Bytes × H) :=
  (entries batch gen).mergeSort fun a b => bytesLe a.1 b.1

def methodCmp (key : Bytes) (elem : Bytes × H) : Int := strcmp key elem.1

/-- The `bsearch` of `arpc_handle_parsed`. -/
def searchMethods (table : List (Bytes × H)) (method : Bytes) : Option H :=
  ((Search.bsearch (methodCmp method) table 0 table.length).bind (table[·]?)).map (·.2)

def builtins (setPathStyle setCallback mtree : H) : List (Bytes × H) :=
  [(lit "arpc.set_path_style", setPathStyle), (lit "arpc.set_callback", setCallback),
    (lit "arpc.mtree", mtree)]

/-- What the dispatcher looks a method up in. -/
def methodsOf (setPathStyle setCallback mtree : Handler σ) (batch : Option (Handler σ))
    (gen : List (Bytes × Handler σ)) (follow : Option Tree → σ → σ) : Methods σ where
  builtins := builtins setPathStyle setCallback mtree
  generated := searchMethods (arpcMethods batch gen)
  follow := follow

/-- It may be the name of a C function. -/
def CName (s : Bytes) : Prop := NulFree s ∧ ch '.' ∉ s

/-! ## The search -/

/-- A table with each name once is searched as a map. -/
theorem searchMethods_iff {table : List (Bytes × H)} {h : H}
    (hsorted : table.Pairwise fun a b => bytesLe a.1 b.1) (hnames : ∀ e ∈ table, NulFree e.1)
    (hnodup : (table.map (·.1)).Nodup) (hm : NulFree method) :
    searchMethods table method = some h ↔ (method, h) ∈ table := by
  have horder : Search.InOrder (methodCmp method) table := inOrder_strcmp hsorted hnames hm
  have hname {e : Bytes × H} (he : e ∈ table) (hzero : methodCmp method e = 0) : method = e.1 :=
    (strcmp_eq_zero hm (hnames e he)).1 hzero
  constructor
  · intro hfound
    obtain ⟨e, he, rfl⟩ := Option.map_eq_some_iff.1 hfound
    obtain ⟨i, hi, hei⟩ := Option.bind_eq_some_iff.1 he
    obtain ⟨e', he', hzero⟩ := Search.bsearch_sound hi
    obtain rfl := Option.some.inj (hei.symm.trans he')
    have hmem := List.mem_of_getElem? hei
    rw [hname hmem hzero]
    exact hmem
  · intro hmem
    have hsome := (Search.bsearch_isSome_iff horder).2 ⟨(method, h), hmem, strcmp_self method⟩
    obtain ⟨i, hi⟩ := Option.isSome_iff_exists.1 hsome
    obtain ⟨e, he, hzero⟩ := Search.bsearch_sound hi
    have heq : e = (method, h) :=
      List.inj_on_of_nodup_map hnodup (List.mem_of_getElem? he) hmem
        (hname (List.mem_of_getElem? he) hzero).symm
    rw [searchMethods, hi, Option.bind_some, he, heq, Option.map_some]

variable {a b c : H} {batch : Option H} {gen : List (Bytes × H)}

theorem arpcMethods_iff {h : H} (hnames : ∀ e ∈ entries batch gen, NulFree e.1)
    (hnodup : ((entries batch gen).map (·.1)).Nodup) (hm : NulFree method) :
    searchMethods (arpcMethods batch gen) method = some h ↔ (method, h) ∈ entries batch gen := by
  have hperm : (arpcMethods batch gen).Perm (entries batch gen) := List.mergeSort_perm _ _
  have hsorted : (arpcMethods batch gen).Pairwise fun a b => bytesLe a.1 b.1 :=
    List.pairwise_mergeSort (fun a b c => bytesLe_trans a.1 b.1 c.1) (fun a b => bytesLe_total a.1 b.1) _
  rw [searchMethods_iff hsorted (fun e he => hnames e (hperm.mem_iff.1 he))
    ((hperm.map _).nodup_iff.2 hnodup) hm, hperm.mem_iff]

/-! ## Each method has its own handler -/

/-- The names with a dot. -/
def dotted (a b c : H) (batch : Option H) : List (Bytes × H) :=
  builtins a b c ++ batch.toList.map (lit "arpc.pkg_fields", ·)

theorem dotted_nodup (a b c : H) (batch : Option H) : ((dotted a b c batch).map (·.1)).Nodup := by
  cases batch with
  | none => exact (by decide : [lit "arpc.set_path_style", lit "arpc.set_callback", lit "arpc.mtree"].Nodup)
  | some h =>
    exact (by decide : [lit "arpc.set_path_style", lit "arpc.set_callback", lit "arpc.mtree",
      lit "arpc.pkg_fields"].Nodup)

theorem dotted_names {e : Bytes × H} (he : e ∈ dotted a b c batch) : NulFree e.1 ∧ ch '.' ∈ e.1 := by
  have hall : ∀ s ∈ [lit "arpc.set_path_style", lit "arpc.set_callback", lit "arpc.mtree",
      lit "arpc.pkg_fields"], NulFree s ∧ ch '.' ∈ s := by decide
  refine hall e.1 ?_
  cases batch with
  | none =>
    have hmem := List.mem_map_of_mem (f := Prod.fst) he
    exact List.mem_append_left [lit "arpc.pkg_fields"] hmem
  | some h => exact List.mem_map_of_mem (f := Prod.fst) he

theorem names_nodup (a b c : H) (batch : Option H) (hgen : ∀ e ∈ gen, CName e.1)
    (hnodup : (gen.map (·.1)).Nodup) :
    ((dotted a b c batch ++ gen).map (·.1)).Nodup := by
  rw [List.map_append]
  refine List.nodup_append'.2 ⟨dotted_nodup a b c batch, hnodup, fun s hs hs' => ?_⟩
  obtain ⟨e, he, rfl⟩ := List.mem_map.1 hs
  obtain ⟨e', he', heq⟩ := List.mem_map.1 hs'
  exact (hgen e' he').2 (heq ▸ (dotted_names he).2)

/-- **Each method is dispatched to its own handler.** Take any functions with names of their own, as C has
them, and their handlers: of a method's name, the dispatcher finds a handler exactly if it is the name's,
a method's that is not libalpm's, the batch's or a function's. -/
theorem find_own {setPathStyle setCallback mtree h : Handler σ} {batch : Option (Handler σ)}
    {gen : List (Bytes × Handler σ)} {follow : Option Tree → σ → σ} (hgen : ∀ e ∈ gen, CName e.1)
    (hnodup : (gen.map (·.1)).Nodup) (hm : NulFree method) :
    (methodsOf setPathStyle setCallback mtree batch gen follow).find method = some h ↔
      (method, h) ∈ builtins setPathStyle setCallback mtree ∨
        (batch = some h ∧ method = lit "arpc.pkg_fields") ∨ (method, h) ∈ gen := by
  have hall := names_nodup setPathStyle setCallback mtree batch hgen hnodup
  have hentries : (method, h) ∈ entries batch gen ↔
      (batch = some h ∧ method = lit "arpc.pkg_fields") ∨ (method, h) ∈ gen := by
    rw [entries, List.mem_append, List.mem_map]
    refine or_congr_left ⟨fun hex => ?_, fun hb => ⟨h, Option.mem_toList.2 hb.1, by rw [hb.2]⟩⟩
    obtain ⟨h', hh', heq⟩ := hex
    cases heq
    exact ⟨Option.mem_toList.1 hh', rfl⟩
  rw [← hentries, Methods.find, methodsOf]
  dsimp only
  cases hfind : (builtins setPathStyle setCallback mtree).find? (fun k => k.1 = method) with
  | some k =>
    obtain ⟨hk, hname⟩ := Keyed.of_find? hfind
    refine ⟨fun hh => .inl ?_, fun hmem => ?_⟩
    · obtain rfl := Option.some.inj hh
      exact hname ▸ hk
    · have hin : (method, h) ∈ dotted setPathStyle setCallback mtree batch ++ gen := by
        rw [dotted, List.append_assoc]
        exact List.mem_append.2 hmem
      have hk' : k ∈ dotted setPathStyle setCallback mtree batch ++ gen :=
        List.mem_append_left _ (List.mem_append_left _ hk)
      rw [List.inj_on_of_nodup_map hall hk' hin hname]
  | none =>
    have hno := Keyed.find?_none_iff.1 hfind
    rw [or_iff_right fun hmem => hno _ hmem rfl]
    refine arpcMethods_iff (fun e he => ?_) ?_ hm
    · obtain he | he := List.mem_append.1 he
      · have hdotted : e ∈ dotted setPathStyle setCallback mtree batch := List.mem_append_right _ he
        exact (dotted_names hdotted).1
      · exact (hgen e he).1
    · rw [dotted, List.append_assoc, List.map_append] at hall
      exact (List.nodup_append'.1 hall).2.1

/-- A handler that is known by what it leaves. -/
def leaves (n : Nat) : Handler Nat := fun _ _ => (n, [])

theorem find_own_release :
    (methodsOf (leaves 0) (leaves 1) (leaves 2) (some (leaves 3))
      [(lit "alpm_release", leaves 4), (lit "alpm_initialize", leaves 5)] fun _ s => s).find
        (lit "alpm_release") = some (leaves 4) ↔
      (lit "alpm_release", leaves 4) ∈ builtins (leaves 0) (leaves 1) (leaves 2) ∨
        (some (leaves 3) = some (leaves 4) ∧ lit "alpm_release" = lit "arpc.pkg_fields") ∨
        (lit "alpm_release", leaves 4) ∈
          [(lit "alpm_release", leaves 4), (lit "alpm_initialize", leaves 5)] := by
  have hnames : ∀ s ∈ [lit "alpm_release", lit "alpm_initialize"], NulFree s ∧ ch '.' ∉ s := by decide
  refine find_own (fun e he => ?_) ?_ (by decide)
  · exact hnames e.1 (List.mem_map_of_mem (f := Prod.fst) he)
  · exact (by decide : [lit "alpm_release", lit "alpm_initialize"].Nodup)

end Server
