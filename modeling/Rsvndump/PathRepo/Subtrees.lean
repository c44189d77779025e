import Rsvndump.PathRepo.Filled

/-! Deletions from the working tree.

The walk for the paths below a given one compares no prefixes. It follows the
deciding bits of the tree, so for a path that is not there it may end at others.
-/

set_option autoImplicit false

namespace Rsvndump

open Library

variable {sys : Platform}

/-- A deletion of `path` takes away what is at or below it, with one entry for each removed path. -/
def DeletesSubtree (sys : Platform) (repo : PathRepo) (path : CString) : Prop :=
  (∀ x, x ∈ (pathRepoDelete sys repo path).tree ↔ x ∈ repo.tree ∧ ¬ Below path x) ∧
    ∃ removed : List CString, (pathRepoDelete sys repo path).delta = repo.delta ++ removed.map (fun x => ⟨.minus, x⟩) ∧
      removed.Nodup ∧ ∀ x, x ∈ removed ↔ x ∈ repo.tree ∧ Below path x

/-- The path looks as if it were at or below `path`: the descent reaches it, and behind
as many characters there is a separator or the end. -/
def TakenFor (sys : Platform) (tree : CbSet) (path x : CString) : Prop :=
  Reaches tree.tree.strings path x ∧ (path = [] ∨ sys.charAt x path.length = 0 ∨ sys.charAt x path.length = slash.byte)

theorem mem_prTreeToArray_iff {tree : CbSet} {path x : CString} :
    x ∈ prTreeToArray sys tree path ↔ x ∈ tree ∧ TakenFor sys tree path x := by
  rw [prTreeToArray, List.mem_filter, CbSet.mem_walkPrefixed_iff, and_assoc, TakenFor, decide_eq_true_eq, List.length_eq_zero_iff]

theorem nodup_prTreeToArray (tree : CbSet) (path : CString) : (prTreeToArray sys tree path).Nodup :=
  (tree.nodup_walkPrefixed path).filter _

/-- What is at or below the path is always found. -/
theorem takenFor_of_below {tree : CbSet} {path x : CString} (member : x ∈ tree) (below : Below path x) : TakenFor sys tree path x :=
  (mem_prTreeToArray_iff.mp ((mem_prTreeToArray member below.isPrefix x).mpr ⟨member, below⟩)).2

/-- A deletion takes away one subtree just when no other path is taken for one below it. -/
theorem pathRepoDelete_subtree (repo : PathRepo) (path : CString) :
    DeletesSubtree sys repo path ↔ ∀ x ∈ repo.tree, TakenFor sys repo.tree path x → Below path x := by
  constructor
  · rintro ⟨kept, -⟩ x member taken
    by_contra outside
    exact (mem_pathRepoDelete.mp ((kept x).mpr ⟨member, outside⟩)).2 (mem_prTreeToArray_iff.mpr ⟨member, taken⟩)
  · intro exact'
    have found : ∀ x, x ∈ prTreeToArray sys repo.tree path ↔ x ∈ repo.tree ∧ Below path x := by
      intro x
      rw [mem_prTreeToArray_iff]
      exact and_congr_right fun member => ⟨exact' x member, takenFor_of_below member⟩
    constructor
    · intro x
      rw [mem_pathRepoDelete, found]
      exact and_congr_right fun member => not_congr (and_iff_right member)
    · refine ⟨prTreeToArray sys repo.tree path, ?_, nodup_prTreeToArray _ _, found⟩
      rw [pathRepoDelete, foldl_deleteOne]

/-- a and a/c, from which a/b is deleted. -/
def siblingRepo : PathRepo := (pathRepoAdd (pathRepoAdd pathRepoCreate (cstr "a")).1 (cstr "a/c")).1

/-- The deletion of a path that is not there takes its sibling. -/
theorem pathRepoDelete_sibling :
    cstr "a/c" ∈ siblingRepo.tree ∧ ¬ Below (cstr "a/b") (cstr "a/c") ∧
      cstr "a/c" ∉ (pathRepoDelete .plain siblingRepo (cstr "a/b")).tree ∧
      ¬ DeletesSubtree .plain siblingRepo (cstr "a/b") := by
  have there : cstr "a/c" ∈ siblingRepo.tree := by decide
  have outside : ¬ Below (cstr "a/b") (cstr "a/c") := by decide
  have gone : cstr "a/c" ∉ (pathRepoDelete .plain siblingRepo (cstr "a/b")).tree := by decide
  exact ⟨there, outside, gone, fun deletes => gone ((deletes.1 _).mpr ⟨there, outside⟩)⟩

end Rsvndump
