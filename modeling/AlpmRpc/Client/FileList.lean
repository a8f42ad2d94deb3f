import AlpmRpc.Common.Strings

/-!
# Looking a file up

`alpm_filelist_contains` of `src/client/arpc_local.c`, on the caller's own copy of a file list. Of a file
only its name is read; what is returned is its place in the array.
-/

set_option autoImplicit false

namespace Client

open Json

/-- `file_cmp`, of the key's name and a file's. -/
def fileCmp (path : Bytes) (name : Bytes) : Int := strcmp path name

def alpmFilelistContains (filelist : Option (List Bytes)) (path : Bytes) : Option Nat :=
  match filelist with
  | none => none
  | some files =>
    if files.length = 0 then none else Search.bsearch (fileCmp path) files 0 files.length

/-- libalpm's order of a file list. -/
def ByName (files : List Bytes) : Prop := files.Pairwise fun s t => strcmp s t ≤ 0

instance (files : List Bytes) : Decidable (ByName files) :=
  inferInstanceAs (Decidable (files.Pairwise fun s t => strcmp s t ≤ 0))

variable {files : List Bytes} {path : Bytes}

/-- **The search agrees with a look at every file.** In a list in libalpm's order, names given more than
once or not: a place that is returned has a file of that name, and none is returned only where there is
none. -/
theorem filelist_contains (hsorted : ByName files) (hfiles : ∀ s ∈ files, NulFree s)
    (hpath : NulFree path) :
    (∀ i, alpmFilelistContains (some files) path = some i → files[i]? = some path) ∧
      (alpmFilelistContains (some files) path = none ↔ path ∉ files) := by
  have horder : Search.InOrder (fileCmp path) files := by
    refine inOrder_strcmp (hsorted.imp_of_mem fun hs _ hst => ?_) hfiles hpath
    exact (strcmp_nonpos (hfiles _ hs)).1 hst
  have hsearch : alpmFilelistContains (some files) path =
      Search.bsearch (fileCmp path) files 0 files.length := by
    rw [alpmFilelistContains, ite_eq_right_iff]
    intro hlen
    rw [hlen, Search.bsearch, if_pos rfl]
  have hzero {s : Bytes} (hs : s ∈ files) : fileCmp path s = 0 ↔ path = s :=
    strcmp_eq_zero hpath (hfiles s hs)
  rw [hsearch]
  refine ⟨fun i hi => ?_, ?_⟩
  · obtain ⟨s, hs, hcmp⟩ := Search.bsearch_sound hi
    rw [hs, (hzero (List.mem_of_getElem? hs)).1 hcmp]
  · rw [← Option.not_isSome_iff_eq_none, Search.bsearch_isSome_iff horder, not_iff_not]
    constructor
    · intro hex
      obtain ⟨s, hs, hcmp⟩ := hex
      exact (hzero hs).1 hcmp ▸ hs
    · exact fun hmem => ⟨path, hmem, (hzero hmem).2 rfl⟩

theorem filelist_contains_bin :
    (∀ i, alpmFilelistContains (some [lit "bin/", lit "bin/ls", lit "etc/"]) (lit "bin/ls") = some i →
      [lit "bin/", lit "bin/ls", lit "etc/"][i]? = some (lit "bin/ls")) ∧
    (alpmFilelistContains (some [lit "bin/", lit "bin/ls", lit "etc/"]) (lit "bin/ls") = none ↔
      lit "bin/ls" ∉ [lit "bin/", lit "bin/ls", lit "etc/"]) :=
  filelist_contains (by decide) (by decide) (by decide)

end Client
