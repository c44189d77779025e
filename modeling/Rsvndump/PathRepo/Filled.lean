import Rsvndump.PathRepo.CommitLog
import Rsvndump.PathRepo.Course

/-! A path storage that answers with the trees committed to it.

The storage is filled one number after another; numbers may be left out as long
as no snapshot is needed in between.
-/

set_option autoImplicit false

namespace Rsvndump

open Library

variable {sys : Platform}

/-! ## Walks -/

theorem charAt_isPrefix {path x : CString} (pre : path <+: x) :
    (sys.charAt x path.length = 0 ∨ sys.charAt x path.length = slash.byte) ↔ x = path ∨ path ++ [slash] <+: x := by
  obtain ⟨rest, rfl⟩ := pre
  cases rest with
  | nil => simp [Platform.charAt]
  | cons c rest =>
    have own : (path ++ c :: rest)[path.length]? = some c := by simp
    have same : c.byte = slash.byte ↔ c = slash := by
      constructor
      · intro same
        cases c
        cases same
        rfl
      · exact congrArg CChar.byte
    simp only [Platform.charAt, own, c.nonzero, false_or, same]
    constructor
    · rintro rfl
      exact .inr ⟨rest, by simp⟩
    · rintro (wrong | ⟨tail, found⟩)
      · simp at wrong
      · rw [List.append_assoc, List.append_cancel_left_eq] at found
        exact (List.cons.inj found).1.symm

/-- The walk is exact as soon as some string has the path as its prefix. -/
theorem mem_prTreeToArray {tree : CbSet} {path y : CString} (present : y ∈ tree) (pre : path <+: y) (x : CString) :
    x ∈ prTreeToArray sys tree path ↔ x ∈ tree ∧ Below path x := by
  by_cases root : path = []
  · subst root
    simp [mem_prTreeToArray_nil]
  have length : path.length ≠ 0 := by simpa using root
  rw [prTreeToArray, List.mem_filter, CbSet.mem_walkPrefixed present pre x, and_assoc]
  refine and_congr_right fun _ => ?_
  simp only [length, false_or, decide_eq_true_eq]
  constructor
  · rintro ⟨pre, next⟩
    exact .inr ((charAt_isPrefix pre).mp next)
  · intro below
    exact ⟨below.isPrefix, (charAt_isPrefix below.isPrefix).mpr (below.resolve_left root)⟩

theorem mem_pathRepoDelete {repo : PathRepo} {path x : CString} :
    x ∈ (pathRepoDelete sys repo path).tree ↔ x ∈ repo.tree ∧ x ∉ prTreeToArray sys repo.tree path := by
  rw [pathRepoDelete, foldl_deleteOne]
  exact mem_applyEntries_minus _ _ _

/-- A walk for the strings below a path finds no others. -/
def WalkKept (sys : Platform) (tree : CbSet) (path : CString) : Prop := ∀ x ∈ prTreeToArray sys tree path, Below path x

theorem walkKept_of_mem {tree : CbSet} {path : CString} (present : path ∈ tree) : WalkKept sys tree path :=
  fun x member => ((mem_prTreeToArray present List.prefix_rfl x).mp member).2

theorem WalkKept.mem_delete {repo : PathRepo} {path : CString} (kept : WalkKept sys repo.tree path) (x : CString) :
    x ∈ (pathRepoDelete sys repo path).tree ↔ x ∈ repo.tree ∧ ¬ Below path x := by
  rw [mem_pathRepoDelete]
  refine and_congr_right fun member => not_congr ⟨kept x, fun below => ?_⟩
  exact (mem_prTreeToArray member below.isPrefix x).mpr ⟨member, below⟩

/-! ## Filling -/

/-- The storage answers with `version` for every number below the next one to be committed. -/
structure Filled (t : TracedRepo sys) (last next : Int) (version : Int → CbSet) : Prop where
  tracks : Tracks sys t.repo last version
  below : last < next
  cached : Cached next t
  bases : ∀ s, isSnapshot s → s < next → (t.repo.db s).isSome ∨ version (s - 1) = .empty

variable {t t' : TracedRepo sys} {last next : Int} {version : Int → CbSet}

theorem commit_tree (t : TracedRepo sys) (revision : Int) : (t.commit revision).repo.tree = t.repo.tree := by
  simp only [TracedRepo.commit, pathRepoCommit]
  split <;> rfl

theorem delete_db (t : TracedRepo sys) (path : CString) : (t.delete path).repo.db = t.repo.db := by
  simp only [TracedRepo.delete, pathRepoDelete, foldl_deleteOne]

theorem filled_create : Filled (.create : TracedRepo sys) (-1) 0 fun _ => .empty where
  tracks := tracks_create sys
  below := by decide
  cached := cached_create
  bases _ _ _ := .inr rfl

theorem Filled.add (filled : Filled t last next version) (path : CString) : Filled (t.add path).1 last next version where
  tracks := filled.tracks.add path
  below := filled.below
  cached := filled.cached.other rfl rfl rfl (by simp) (by simp)
  bases := filled.bases

theorem Filled.delete (filled : Filled t last next version) (path : CString) : Filled (t.delete path) last next version where
  tracks := filled.tracks.delete path
  below := filled.below
  cached := by
    refine filled.cached.other (delete_db t path) ?_ rfl (by simp) (by simp)
    simp only [TracedRepo.delete, pathRepoDelete, foldl_deleteOne]
  bases := by
    rw [delete_db]
    exact filled.bases

theorem Filled.reconstruct (filled : Filled t last next version) {r : Int} (below : r < next) :
    prReconstruct sys t.repo .empty r = some (version r) := by
  apply filled.tracks.reconstruct
  by_cases positive : 0 < snapshotBase r
  · have snapshot : isSnapshot (snapshotBase r) := by
      refine ⟨positive, ?_⟩
      simp only [snapshotBase, snapshotInterval]
      omega
    have before : snapshotBase r < next := by
      have := snapshotBase_le r
      omega
    exact (filled.bases _ snapshot before).imp_left fun stored => ⟨stored, snapshot⟩
  · exact .inr (filled.tracks.unborn _ (by omega))

/-- A query is answered with the tree that was committed. -/
theorem Filled.tree (filled : Filled t last next version) {r : Int} (below : r < next) :
    ∃ t', t.tree r = some (version r, t') ∧ Filled t' last next version ∧ t'.repo.tree = t.repo.tree := by
  obtain ⟨found, repo, answered, tracks, db, tree, -⟩ := filled.tracks.query r
  have hit : found = version r := by
    have rebuilt := filled.reconstruct below
    rcases prTree_cases answered with ⟨hit, -⟩ | ⟨-, fresh, -⟩
    · exact Option.some.inj ((filled.cached.coherent.find hit trivial).symm.trans rebuilt)
    · exact Option.some.inj (fresh.symm.trans rebuilt)
  subst hit
  have reached : t.tree r = some (version r, ⟨repo, t.calls ++ [.tree r], t.ran_snoc (by simp [pathRepoStep, answered])⟩) :=
    TracedRepo.tree_eq_some.mpr ⟨answered, rfl⟩
  refine ⟨_, reached, ⟨tracks, filled.below, filled.cached.query below reached, ?_⟩, tree⟩
  simp only [db]
  exact filled.bases

/-- Numbers are left out; a snapshot among them only as long as the storage is empty. -/
theorem Filled.pass (filled : Filled t last next version) {m : Int} (le : next ≤ m)
    (left : ∀ s, isSnapshot s → next ≤ s → s < m → version last = .empty) : Filled t last m version where
  tracks := filled.tracks
  below := by have := filled.below; omega
  cached := filled.cached.pass le
  bases := by
    intro s snapshot below
    by_cases old : s < next
    · exact filled.bases s snapshot old
    · have := filled.below
      rw [filled.tracks.frozen (s - 1) (by omega)]
      exact .inr (left s snapshot (by omega) below)

theorem Filled.commit (filled : Filled t last next version) (fits : EncodedFits sys (t.commit next).calls) :
    Filled (t.commit next) next (next + 1) (committed version next t.repo.tree) where
  tracks := filled.tracks.commit filled.below (fits.commit t.ran)
  below := by omega
  cached := filled.cached.commit
  bases := by
    intro s snapshot below
    have before : committed version next t.repo.tree (s - 1) = version (s - 1) := if_pos (by omega)
    rw [before]
    by_cases same : s = next
    · left
      subst same
      simp [TracedRepo.commit, pathRepoCommit, snapshot]
    · have kept : (t.commit next).repo.db s = t.repo.db s := by
        simp only [TracedRepo.commit, pathRepoCommit]
        split
        · rfl
        · exact Function.update_of_ne same _ _
      rw [kept]
      exact filled.bases s snapshot (by omega)

end Rsvndump
