import Rsvndump.Log
import Rsvndump.PathRepo.Listings
import Rsvndump.PathRepo.LogTrees
import Rsvndump.PathRepo.Subtrees

/-! The rounds of `path_repo_commit_log`.

A round applies one changed path to the working tree. The paths of a copy are
made from the strings of a stored tree, which is right for a source that is not
the session root.
-/

set_option autoImplicit false

namespace Rsvndump

open Library

variable {sys : Platform}

/-! ## Copied strings -/

theorem subpath_of_ne {path : CString} (named : path ≠ []) (rel : CString) : subpath path rel = path ++ slash :: rel :=
  if_pos (List.length_pos_iff.mpr named)

@[simp] theorem subpath_nil (rel : CString) : subpath [] rel = rel := rfl

/-- The paths of a copy come out right. Without a source the strings of the tree are appended to the
target as they are, and a tree with one element is taken for a file. -/
def CopyKept (path source : CString) (tree : CbSet) : Prop :=
  if source = [] then (∀ x, x ∈ tree ↔ x = []) ∨ (path = [] ∧ ∃ x ∈ tree, ∃ y ∈ tree, x ≠ y)
  else path = [] → ∀ x ∈ tree, Below source x → x = source

/-- What a copy adds to the tree, in terms of the tree its source is in. -/
def CopyPath (path source : CString) (tree : CbSet) (q : CString) : Prop :=
  q = path ∨ ∃ rel ≠ [], subpath source rel ∈ tree ∧ q = subpath path rel

/-- The strings found for the source of a copy pass the assertions, and their images are the copied paths. -/
structure Pastes (path source : CString) (tree : CbSet) (cpaths : List CString) : Prop where
  some : cpaths.length > 0
  long : ∀ relpath ∈ cpaths, relpath.length ≥ source.length
  paths : ∀ q ≠ [], q ∈ copiedPaths path source cpaths ↔ CopyPath path source tree q

theorem pastes_root {path : CString} {tree : CbSet} (kept : CopyKept path [] tree) :
    Pastes path [] tree (prTreeToArray sys tree []) := by
  have member : ∀ x, x ∈ prTreeToArray sys tree [] ↔ x ∈ tree := mem_prTreeToArray_nil sys tree
  have nodup := @nodup_prTreeToArray sys tree []
  rw [CopyKept, if_pos rfl] at kept
  rcases kept with only | ⟨rfl, x, inside, y, inside', different⟩
  · have single : prTreeToArray sys tree [] = [[]] := by
      refine List.perm_singleton.mp ((List.perm_ext_iff_of_nodup nodup (List.nodup_singleton _)).mpr fun x => ?_)
      rw [member, only, List.mem_singleton]
    refine ⟨by rw [single]; exact Nat.one_pos, fun _ _ => Nat.zero_le _, fun q _ => ?_⟩
    rw [single, copiedPaths, if_pos (show [([] : CString)].length = 1 from rfl), List.mem_singleton]
    refine ⟨.inl, ?_⟩
    rintro (same | ⟨rel, more, inside, -⟩)
    · exact same
    · exact absurd ((only _).mp inside) more
  · have found := (member x).mpr inside
    have several : (prTreeToArray sys tree []).length ≠ 1 := by
      intro one
      obtain ⟨z, single⟩ := List.length_eq_one_iff.mp one
      have found' := (member y).mpr inside'
      rw [single, List.mem_singleton] at found found'
      exact different (found.trans found'.symm)
    refine ⟨List.length_pos_of_mem found, fun _ _ => Nat.zero_le _, fun q visible => ?_⟩
    rw [copiedPaths, if_neg several]
    simp only [List.length_nil, List.drop_zero, List.nil_append, List.map_id', member, CopyPath, visible, false_or, subpath_nil]
    constructor
    · exact fun inside => ⟨q, visible, inside, rfl⟩
    · rintro ⟨rel, -, inside, rfl⟩
      exact inside

theorem pastes_inside {path source : CString} {tree : CbSet} (named : source ≠ []) (present : source ∈ tree)
    (closed : ∀ x ∈ tree, x.getLast? ≠ some slash) (kept : CopyKept path source tree) :
    Pastes path source tree (prTreeToArray sys tree source) := by
  have member : ∀ x, x ∈ prTreeToArray sys tree source ↔ x ∈ tree ∧ Below source x :=
    mem_prTreeToArray present List.prefix_rfl
  have itself := (member source).mpr ⟨present, below_refl source⟩
  refine ⟨List.length_pos_of_mem itself, fun x inside => ((member x).mp inside).2.length_le, fun q _ => ?_⟩
  rw [copiedPaths]
  split
  · next one =>
    obtain ⟨z, single⟩ := List.length_eq_one_iff.mp one
    have only : ∀ x, x ∈ tree → Below source x → x = source := by
      intro x inside below
      have found := (member x).mpr ⟨inside, below⟩
      rw [single, List.mem_singleton] at found itself
      exact found.trans itself.symm
    rw [List.mem_singleton]
    refine ⟨.inl, ?_⟩
    rintro (same | ⟨rel, more, inside, -⟩)
    · exact same
    · exact absurd (only _ inside (below_subpath source rel)) (subpath_ne source more)
  · next several =>
    have target : path ≠ [] := by
      rintro rfl
      rw [CopyKept, if_neg named] at kept
      have nodup := @nodup_prTreeToArray sys tree source
      have single : prTreeToArray sys tree source = [source] := by
        refine List.perm_singleton.mp ((List.perm_ext_iff_of_nodup nodup (List.nodup_singleton _)).mpr fun x => ?_)
        rw [member, List.mem_singleton]
        refine ⟨fun inside => kept rfl x inside.1 inside.2, ?_⟩
        rintro rfl
        exact ⟨present, below_refl x⟩
      exact several (by rw [single]; rfl)
    rw [List.mem_map]
    constructor
    · rintro ⟨x, inside, rfl⟩
      obtain ⟨inside, below⟩ := (member x).mp inside
      by_cases same : x = source
      · left
        rw [same, List.drop_length, List.append_nil]
      · obtain ⟨rest, rfl⟩ := below.exists_rest named same
        refine .inr ⟨rest, ?_, by rwa [subpath_of_ne named], by rw [List.drop_left, subpath_of_ne target]⟩
        rintro rfl
        exact closed _ inside (by simp)
    · rintro (rfl | ⟨rel, -, inside, rfl⟩)
      · exact ⟨source, itself, by simp⟩
      · refine ⟨_, (member _).mpr ⟨inside, below_subpath source rel⟩, ?_⟩
        rw [subpath_of_ne named, List.drop_left, subpath_of_ne target]

/-! ## Sources -/

/-- The local path of a source in the session leads back to it. -/
theorem local_source {p source : CString} (canonical : CanonicalPath source) (inside : Below p source) :
    ∃ rel, deltaGetLocalCopyfromPath p source = some rel ∧ source = if rel = [] then p else subpath p rel := by
  obtain ⟨rel, found, absolute⟩ := localPath_inside canonical inside
  refine ⟨rel, found, ?_⟩
  have same := (List.cons.inj absolute).2.symm
  rw [same]
  by_cases root : p = []
  · by_cases whole : rel = [] <;> simp [root, whole]
  · by_cases whole : rel = []
    · simp [root, whole, joinPath]
    · simp [root, whole, joinPath, subpath_of_ne root]

theorem subpath_ne_nil (path : CString) {rel : CString} (more : rel ≠ []) : subpath path rel ≠ [] := by
  by_cases root : path = []
  · rwa [root]
  · simp [subpath_of_ne root]

theorem subpath_local {p rel source : CString} (named : source = if rel = [] then p else subpath p rel) (r : CString) :
    subpath p (subpath rel r) = subpath source r := by
  by_cases whole : rel = []
  · rw [named, if_pos whole, whole, subpath_nil]
  · rw [named, if_neg whole, subpath_of_ne whole, subpath_of_ne (subpath_ne_nil p whole)]
    by_cases root : p = []
    · simp [root]
    · simp [subpath_of_ne root]

section Source

variable {p path source rel : CString} {tree : CbSet} {present : Set CString} (agrees : Agrees tree (subtree p present))

include agrees

theorem copyPath_iff (named : source = if rel = [] then p else subpath p rel) (q : CString) :
    CopyPath path rel tree q ↔ q ∈ copied source path present := by
  have same : ∀ r ≠ [], subpath rel r ∈ tree ↔ r ∈ subtree source present := by
    intro r more
    rw [agrees _ (subpath_ne_nil rel more)]
    simp [subtree, subpath_ne_nil, more, subpath_local named]
  refine or_congr_right ⟨?_, ?_⟩
  · rintro ⟨r, more, inside, rfl⟩
    exact ⟨r, (same r more).mp inside, rfl⟩
  · rintro ⟨r, inside, rfl⟩
    exact ⟨r, inside.1, (same r inside.1).mpr inside, rfl⟩

/-- No path of the tree ends in a separator. -/
theorem closed_of_agrees (canonical : ∀ q ∈ present, CanonicalPath q) : ∀ x ∈ tree, x.getLast? ≠ some slash := by
  intro x inside
  by_cases root : x = []
  · simp [root]
  · have closed := (canonical _ ((agrees x root).mp inside).2).closed
    by_cases top : p = []
    · rwa [top, subpath_nil] at closed
    · rw [subpath_of_ne top, List.getLast?_append, List.getLast?_cons] at closed
      intro ends
      simp [ends] at closed

/-- A copy inside the session adds what it means. -/
theorem pastes_source (canonical : ∀ q ∈ present, CanonicalPath q)
    (named : source = if rel = [] then p else subpath p rel) (exists' : source = [] ∨ source ∈ present)
    (kept : CopyKept path rel tree) : Pastes path rel tree (prTreeToArray sys tree rel) := by
  by_cases whole : rel = []
  · subst whole
    exact pastes_root kept
  · refine pastes_inside whole ?_ (closed_of_agrees agrees canonical) kept
    rw [agrees rel whole]
    refine ⟨whole, ?_⟩
    rw [if_neg whole] at named
    rw [← named]
    refine exists'.resolve_left fun root => ?_
    rw [root] at named
    exact subpath_ne_nil p whole named.symm

end Source

/-! ## Rounds -/

section Round

variable {t : TracedRepo sys} {last next : Int} {version : Int → CbSet}

theorem Filled.addAll (filled : Filled t last next version) (paths : List CString) :
    Filled (addAll t paths) last next version ∧
      ∀ x, x ∈ (Rsvndump.addAll t paths).repo.tree ↔ x ∈ paths ∨ x ∈ t.repo.tree := by
  induction paths generalizing t with
  | nil => simpa [Rsvndump.addAll] using filled
  | cons path paths ih =>
    obtain ⟨later, members⟩ := ih (filled.add path)
    refine ⟨later, fun x => ?_⟩
    rw [show Rsvndump.addAll t (path :: paths) = Rsvndump.addAll (t.add path).1 paths from rfl, members]
    simp only [TracedRepo.add, pathRepoAdd, CbSet.mem_insert, List.mem_cons]
    rw [or_left_comm, or_assoc]

/-- The first half of a round. -/
def removePath (t : TracedRepo sys) (path : CString) (info : ChangedPath) : TracedRepo sys :=
  if info.action = .delete ∨ info.action = .replace then t.delete path else t

theorem Filled.removePath (filled : Filled t last next version) {path : CString} {info : ChangedPath}
    (kept : info.removes → WalkKept sys t.repo.tree path) :
    Filled (removePath t path info) last next version ∧
      ∀ x, x ∈ (Rsvndump.removePath t path info).repo.tree ↔ x ∈ t.repo.tree ∧ ¬ (info.removes ∧ Below path x) := by
  unfold Rsvndump.removePath
  split
  · next removes =>
    refine ⟨filled.delete path, fun x => ?_⟩
    rw [TracedRepo.delete, (kept removes).mem_delete x]
    have removes : info.removes := removes
    simp [removes]
  · next stays =>
    have stays : ¬ info.removes := stays
    exact ⟨filled, fun x => by simp [stays]⟩

/-- The listing of the server shows what is at or below the path in the revision. -/
structure Lists (listing : CString → Int → RemoteNode) (p : CString) (repo : RepoPaths) (path : CString) (revision : Int) :
    Prop where
  wellFormed : (listing path revision).WellFormed
  answered : listing path revision ≠ .failed ∧ ¬ (listing path revision).ListingFails
  exact : ∀ q ≠ [], RemotePath path (listing path revision) q ↔ Below path q ∧ q ∈ subtree p (repo revision)

theorem Lists.fetched {listing : CString → Int → RemoteNode} {p path : CString} {repo : RepoPaths} {revision : Int}
    (lists : Lists listing p repo path revision) :
    ∃ paths, prFetchPaths path (listing path revision) = some paths ∧
      ∀ q ≠ [], q ∈ paths ↔ Below path q ∧ q ∈ subtree p (repo revision) := by
  obtain ⟨wellFormed, ⟨reached, listed⟩, exact'⟩ := lists
  generalize listing path revision = node at *
  have all : FetchesAll path node := by
    refine (fetchesAll_iff wellFormed).mpr fun children same => ?_
    subst same
    by_contra unlisted
    exact listed (.inr unlisted)
  have fetched : ∃ paths, prFetchPaths path node = some paths := by
    cases node with
    | failed => exact absurd rfl reached
    | missing => exact ⟨_, rfl⟩
    | file => exact ⟨_, rfl⟩
    | dir own children =>
      cases own with
      | false => exact absurd (.inl rfl) listed
      | true => exact ⟨_, rfl⟩
  obtain ⟨paths, found⟩ := fetched
  exact ⟨paths, found, fun q visible => ((all.1 paths found).2 q).trans (exact' q visible)⟩

/-- A path that is copied from outside of the session can be listed. -/
def ListsOutside (listing : CString → Int → RemoteNode) (session : Session) (repo : RepoPaths) (path : CString)
    (info : ChangedPath) (revision : Int) : Prop :=
  info.adds → ∀ source original, info.copyfrom = some (source, original) →
    deltaGetLocalCopyfromPath session.prefixPath source = none → Lists listing session.prefixPath repo path revision

/-- In the state before a round, the walk for a removed path finds no others, and the paths of a copy
from the session come out right. -/
structure RoundKept (session : Session) (opts : DumpOptions) (logs : List LogRevision) (t : TracedRepo sys)
    (path : CString) (info : ChangedPath) : Prop where
  removes : info.removes → WalkKept sys t.repo.tree path
  copies : info.adds → ∀ source original rel, info.copyfrom = some (source, original) →
    deltaGetLocalCopyfromPath session.prefixPath source = some rel → Below session.prefixPath source ∧
      ∀ tree, prReconstruct sys t.repo .empty (deltaGetLocalCopyfromRev original opts logs) = some tree → CopyKept path rel tree

/-- What a round makes of a path is what the changed path means, or already what the revision has. -/
theorem run_round {change : Overwrite CString} {rest : List (Overwrite CString)} {before mid after : Set CString}
    (result : ∀ q ≠ [], q ∈ Overwrite.run (change :: rest) before ↔ q ∈ after)
    (round : ∀ q ≠ [], (q ∈ mid ↔ q ∈ Overwrite.apply before change) ∨ (q ∈ mid ↔ q ∈ after)) :
    ∀ q ≠ [], q ∈ Overwrite.run rest mid ↔ q ∈ after := by
  intro q visible
  rw [← result q visible, Overwrite.run_cons]
  apply Overwrite.mem_run_of_agree
  refine (round q visible).imp_right fun same => ?_
  rw [same, ← result q visible, Overwrite.run_cons]

/-- The tree stored for the source of a copy is the one the source was in. -/
def SourceStored (session : Session) (opts : DumpOptions) (logs : List LogRevision) (repo : RepoPaths) (next : Int)
    (version : Int → CbSet) (info : ChangedPath) : Prop :=
  ∀ source original, info.copyfrom = some (source, original) → deltaGetLocalCopyfromRev original opts logs < next ∧
    Agrees (version (deltaGetLocalCopyfromRev original opts logs)) (subtree session.prefixPath (repo original)) ∧
    (source = [] ∨ source ∈ repo original)

variable {listing : CString → Int → RemoteNode} {session : Session} {opts : DumpOptions} {logs : List LogRevision}
  {repo : RepoPaths} {revision : Int} {path : CString} {info : ChangedPath}

/-- The part of a round that follows the removal, for a path that is added without a source. -/
theorem mem_apply_pathChange {before : Set CString} {q : CString} :
    q ∈ Overwrite.apply before (pathChange repo path info) ↔
      (info.adds ∧ q ∈ addedPaths repo path info.copyfrom) ∨ (q ∈ before ∧ ¬ (info.removes ∧ Below path q)) := Iff.rfl

theorem commitCopy_round (filled : Filled t last next version)
    (stored : SourceStored session opts logs repo next version info) (canonical : ∀ r, ∀ q ∈ repo r, CanonicalPath q)
    {source : CString} {original : Int} (copies : info.copyfrom = some (source, original))
    (lists : deltaGetLocalCopyfromPath session.prefixPath source = none → Lists listing session.prefixPath repo path revision)
    (kept : ∀ rel, deltaGetLocalCopyfromPath session.prefixPath source = some rel → Below session.prefixPath source ∧
      ∀ tree, prReconstruct sys t.repo .empty (deltaGetLocalCopyfromRev original opts logs) = some tree → CopyKept path rel tree) :
    Post (fun t' => Filled t' last next version ∧ ∀ q ≠ [],
        (q ∈ t'.repo.tree ↔ q ∈ copied source path (repo original) ∨ q ∈ t.repo.tree) ∨
        (q ∈ t'.repo.tree ↔ (Below path q ∧ q ∈ subtree session.prefixPath (repo revision)) ∨ q ∈ t.repo.tree))
      (fun _ => False) (commitCopy listing session opts revision logs t path source original) := by
  unfold commitCopy
  split
  · next outside =>
    obtain ⟨paths, fetched, members⟩ := (lists outside).fetched
    rw [fetched]
    obtain ⟨later, added⟩ := filled.addAll paths
    refine ⟨later, fun q visible => .inr ?_⟩
    rw [added, members q visible]
  · next rel found =>
    obtain ⟨below, agrees, present⟩ := stored source original copies
    obtain ⟨inside, right⟩ := kept rel found
    obtain ⟨t', reached, filled', same⟩ := filled.tree below
    have own : CanonicalPath source := by
      rcases present with rfl | member
      · exact ⟨by simp, by simp, .nil⟩
      · exact canonical original source member
    obtain ⟨rel', found', named⟩ := local_source own inside
    cases Option.some.inj (found.symm.trans found')
    have pastes : Pastes path rel _ (prTreeToArray sys _ rel) :=
      pastes_source agrees (canonical original) named present (right _ (filled.reconstruct below))
    simp only [reached, orError, ok_bind]
    rw [if_pos ⟨pastes.some, .inr pastes.long⟩]
    obtain ⟨later, added⟩ := filled'.addAll (copiedPaths path rel (prTreeToArray sys
      (version (deltaGetLocalCopyfromRev original opts logs)) rel))
    refine ⟨later, fun q visible => .inl ?_⟩
    rw [added, pastes.paths q visible, copyPath_iff agrees named, same]

/-! What the round of a changed path does. -/

theorem commitPath_removes (only : ¬ info.adds) :
    commitPath listing session opts revision logs t path info = .ok (removePath t path info) := by
  unfold commitPath
  rw [if_pos ⟨fun add => only (.inl add), fun replace => only (.inr replace)⟩]
  rfl

theorem commitPath_added (adds : info.adds) (plain : info.copyfrom = none) :
    commitPath listing session opts revision logs t path info = .ok ((removePath t path info).add path).1 := by
  unfold commitPath
  rw [if_neg fun neither => adds.elim neither.1 neither.2, plain]
  rfl

theorem commitPath_copied {source : CString} {original : Int} (adds : info.adds) (copied : info.copyfrom = some (source, original)) :
    commitPath listing session opts revision logs t path info =
      commitCopy listing session opts revision logs (removePath t path info) path source original := by
  unfold commitPath
  rw [if_neg fun neither => adds.elim neither.1 neither.2, copied]
  rfl

/-- A round keeps what the changed paths still to come make of the working tree. -/
theorem commitPath_round (filled : Filled t last next version)
    (stored : SourceStored session opts logs repo next version info) (canonical : ∀ r, ∀ q ∈ repo r, CanonicalPath q)
    (lists : ListsOutside listing session repo path info revision) (kept : RoundKept session opts logs t path info)
    {rest : List (Overwrite CString)} (result : ∀ q ≠ [], q ∈ Overwrite.run (pathChange repo path info :: rest)
      (treePaths t.repo.tree) ↔ q ∈ subtree session.prefixPath (repo revision)) :
    Post (fun t' => Filled t' last next version ∧ ∀ q ≠ [], q ∈ Overwrite.run rest (treePaths t'.repo.tree) ↔
        q ∈ subtree session.prefixPath (repo revision)) (fun _ => False)
      (commitPath listing session opts revision logs t path info) := by
  obtain ⟨filled', members⟩ := filled.removePath kept.removes
  by_cases adds : info.adds
  · cases copies : info.copyfrom with
    | none =>
      rw [commitPath_added adds copies]
      refine ⟨filled'.add path, run_round result fun q _ => .inl ?_⟩
      rw [mem_apply_pathChange, copies, mem_treePaths, mem_treePaths, ← members q]
      simp [adds, addedPaths, TracedRepo.add, pathRepoAdd]
    | some copy =>
      obtain ⟨source, original⟩ := copy
      rw [commitPath_copied adds copies]
      refine (commitCopy_round filled' stored canonical copies (lists adds source original copies) fun rel found => ?_).mono
        (fun t' _ round => ⟨round.1, run_round result fun q visible => ?_⟩) fun _ => id
      · refine (kept.copies adds source original rel copies found).imp_right fun right tree rebuilt => right tree ?_
        have below := (stored source original copies).1
        rw [filled.reconstruct below, ← filled'.reconstruct below]
        exact rebuilt
      · rw [mem_apply_pathChange, copies, mem_treePaths, mem_treePaths, ← members q]
        rcases round.2 q visible with pasted | listed
        · left
          rw [pasted]
          simp [adds, addedPaths]
        · -- a path below the target is listed just when the revision has it
          by_cases old : q ∈ (removePath t path info).repo.tree
          · exact .inl ⟨fun _ => .inr old, fun _ => listed.mpr (.inr old)⟩
          · by_cases below : Below path q
            · right
              rw [listed]
              simp [old, below]
            · left
              rw [listed]
              simp only [old, below, false_and, or_false, false_iff, not_and]
              exact fun _ added => below (below_of_mem_addedPaths added)
  · rw [commitPath_removes adds]
    refine ⟨filled', run_round result fun q _ => .inl ?_⟩
    rw [mem_apply_pathChange]
    simpa [adds] using members q

/-- Every round of a log entry that begins in `t` is kept. -/
def RoundsKept (listing : CString → Int → RemoteNode) (session : Session) (opts : DumpOptions) (logs : List LogRevision)
    (t : TracedRepo sys) (log : LogRevision) : Prop :=
  ∀ table before path after mid info, log.changedPaths = some table → utilsSort table.keys = before ++ path :: after →
    commitPaths listing session opts log.revision logs table before t = .ok mid → table.lookup path = some info →
    RoundKept session opts logs mid path info

theorem commitPaths_run {log : LogRevision} {table : AprHash ChangedPath} (filled : Filled t last next version)
    (entries : log.changedPaths = some table)
    (stored : ∀ path info, table.lookup path = some info → SourceStored session opts logs repo next version info)
    (canonical : ∀ r, ∀ q ∈ repo r, CanonicalPath q)
    (lists : ∀ path info, table.lookup path = some info → ListsOutside listing session repo path info log.revision)
    (kept : RoundsKept listing session opts logs t log)
    (result : ∀ q ≠ [], q ∈ Overwrite.run ((utilsSort table.keys).map (tableChange repo table)) (treePaths t.repo.tree) ↔
      q ∈ subtree session.prefixPath (repo log.revision)) :
    Post (fun t' => Filled t' last next version ∧ Agrees t'.repo.tree (subtree session.prefixPath (repo log.revision)))
      (fun _ => False) (commitPaths listing session opts log.revision logs table (utilsSort table.keys) t) := by
  have run : Post (fun t' => Filled t' last next version ∧ ∀ rest, utilsSort table.keys = utilsSort table.keys ++ rest →
      ∀ q ≠ [], q ∈ Overwrite.run (rest.map (tableChange repo table)) (treePaths t'.repo.tree) ↔
        q ∈ subtree session.prefixPath (repo log.revision))
      (fun _ => False) (commitPaths listing session opts log.revision logs table (utilsSort table.keys) t) := by
    refine @post_foldlM_split _ _ _ _ _ _ _ (fun done mid => Filled mid last next version ∧
      ∀ rest, utilsSort table.keys = done ++ rest → ∀ q ≠ [], q ∈ Overwrite.run (rest.map (tableChange repo table))
        (treePaths mid.repo.tree) ↔ q ∈ subtree session.prefixPath (repo log.revision))
      ⟨filled, fun rest whole => ?_⟩ fun before path after mid split ran holds => ?_
    · rw [List.nil_append] at whole
      rw [← whole]
      exact result
    · obtain ⟨filled, result⟩ := holds
      have result := result (path :: after) split
      have tail : ∀ rest, utilsSort table.keys = before ++ [path] ++ rest → rest = after := by
        intro rest whole
        rw [split, List.append_assoc, List.singleton_append, List.append_cancel_left_eq] at whole
        exact (List.cons.inj whole).2.symm
      cases found : table.lookup path with
      | none =>
        refine ⟨filled, fun rest whole => ?_⟩
        rw [tail rest whole]
        rw [List.map_cons, tableChange, found] at result
        refine run_round result fun q _ => .inl ?_
        simp
      | some info =>
        rw [List.map_cons, tableChange, found] at result
        refine (commitPath_round filled (stored path info found) canonical (lists path info found)
          (kept table before path after mid info entries split ran found) result).mono
          (fun t' _ round => ⟨round.1, fun rest whole => ?_⟩) fun _ => id
        rw [tail rest whole]
        exact round.2
  refine run.mono (fun t' _ holds => ⟨holds.1, ?_⟩) fun _ => id
  exact holds.2 [] (List.append_nil _).symm

/-- A log entry turns the tree of the revision before it into its own, which is stored under the next number. -/
theorem pathRepoCommitLog_run {log : LogRevision} (filled : Filled t last next version)
    (stored : ∀ table path info, log.changedPaths = some table → table.lookup path = some info →
      SourceStored session opts logs repo next version info)
    (canonical : ∀ r, ∀ q ∈ repo r, CanonicalPath q)
    (lists : ∀ table path info, log.changedPaths = some table → table.lookup path = some info →
      ListsOutside listing session repo path info log.revision)
    (kept : RoundsKept listing session opts logs t log)
    (turns : ∀ table, log.changedPaths = some table →
      Turns repo table (subtree session.prefixPath (repo (log.revision - 1))) (subtree session.prefixPath (repo log.revision)))
    (still : log.changedPaths = none →
      subtree session.prefixPath (repo log.revision) = subtree session.prefixPath (repo (log.revision - 1)))
    (before : Agrees t.repo.tree (subtree session.prefixPath (repo (log.revision - 1)))) :
    Post (fun t' => Agrees t'.repo.tree (subtree session.prefixPath (repo log.revision)) ∧
        (EncodedFits sys t'.calls → Filled t' next (next + 1) (committed version next t'.repo.tree)))
      (fun _ => False) (pathRepoCommitLog listing session opts log next logs t) := by
  unfold pathRepoCommitLog
  cases entries : log.changedPaths with
  | none =>
    refine ⟨?_, ?_⟩
    · rw [commit_tree, still entries]
      exact before
    · rw [commit_tree]
      exact filled.commit
  | some table =>
    refine Post.bind (commitPaths_run filled entries (fun path info => stored table path info entries) canonical
      (fun path info => lists table path info entries) kept ?_) fun t' holds => ⟨?_, ?_⟩
    · intro q visible
      rw [← (turns table entries).utilsSort q visible]
      exact Overwrite.mem_run_of_agree (.inl (before q visible))
    · rw [commit_tree]
      exact holds.2
    · rw [commit_tree]
      exact holds.1.commit

end Round

end Rsvndump
