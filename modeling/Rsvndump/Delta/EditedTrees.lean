import Rsvndump.Delta.Calls
import Rsvndump.PathRepo.LogTrees

/-! What an edit makes of the working tree.

Only the callbacks for deleted and added entries schedule paths. What is dumped
when the edit is closed asks for trees, which changes none.
-/

set_option autoImplicit false

namespace Rsvndump

open Library

variable {sys : Platform} {baton : DeBaton}

/-- The calls turn the paths `before` into `after`: only what is there is deleted, and nothing that is
there is added. -/
def Drive.Makes : Drive → Set CString → Set CString → Prop
  | .done, before, after => before = after
  | .deleteEntry path rest, before, after => path ∈ before ∧ rest.Makes {q ∈ before | ¬ Below path q} after
  | .addDirectory path _ children rest, before, after =>
      path ∉ before ∧ ∃ mid, children.Makes (insert path before) mid ∧ rest.Makes mid after
  | .openDirectory _ _ children rest, before, after => ∃ mid, children.Makes before mid ∧ rest.Makes mid after
  | .addFile path _ _ rest, before, after => path ∉ before ∧ rest.Makes (insert path before) after
  | .openFile _ _ _ rest, before, after => rest.Makes before after

/-! ## Callbacks -/

variable {parent node : DeNode} {path : CString} {st : DeltaState sys}

theorem treePaths_add (t : TracedRepo sys) (path : CString) :
    treePaths (t.add path).1.repo.tree = insert path (treePaths t.repo.tree) := by
  ext x
  simp [TracedRepo.add, pathRepoAdd]

theorem treePaths_delete {t : TracedRepo sys} (present : path ∈ treePaths t.repo.tree) :
    treePaths (t.delete path).repo.tree = {q ∈ treePaths t.repo.tree | ¬ Below path q} := by
  ext x
  exact (walkKept_of_mem present).mem_delete x

theorem schedulePath_tree (wet : baton.opts.initialDryRun = false) :
    Post (fun st' => treePaths st'.repo.repo.tree = insert path (treePaths st.repo.repo.tree)) (fun _ => True)
      (schedulePath baton path st) := by
  unfold schedulePath
  rw [wet]
  simp only [Bool.false_eq_true, if_false]
  split
  · trivial
  · exact treePaths_add _ _

theorem deAddDirectory_tree (wet : baton.opts.initialDryRun = false) :
    Post (fun result => treePaths result.2.repo.repo.tree = insert path (treePaths st.repo.repo.tree)) (fun _ => True)
      (deAddDirectory baton parent path st) := by
  unfold deAddDirectory
  refine Post.bind (@logEntry_post _ baton (fun _ => True) path st trivial) fun entry _ => ?_
  exact Post.bind (schedulePath_tree wet) fun st' added => added

theorem deAddFile_tree (wet : baton.opts.initialDryRun = false) :
    Post (fun result => treePaths result.2.repo.repo.tree = insert path (treePaths st.repo.repo.tree)) (fun _ => True)
      (deAddFile baton parent path st) := by
  unfold deAddFile
  refine Post.bind (@logEntry_post _ baton (fun _ => True) path st trivial) fun entry _ => ?_
  exact Post.bind (schedulePath_tree wet) fun st' added => added

theorem deDeleteEntry_tree (wet : baton.opts.initialDryRun = false) (present : path ∈ treePaths st.repo.repo.tree) :
    Post (fun result => treePaths result.2.repo.repo.tree = {q ∈ treePaths st.repo.repo.tree | ¬ Below path q})
      (fun _ => True) (deDeleteEntry baton parent path st) := by
  unfold deDeleteEntry deDeleteEntryWith
  refine Post.bind (post_orError_fails trivial) fun _ _ => ?_
  refine Post.bind (post_orError_fails trivial) fun _ _ => ?_
  simp only [wet, Bool.false_eq_true, if_false]
  exact treePaths_delete present

theorem openNode_repo {kind : NodeKind} :
    Post (fun result => result.2.repo = st.repo) (fun _ => True) (openNode kind parent path st) := by
  unfold openNode
  exact Post.bind (post_orError_fails trivial) fun _ _ => rfl

theorem applyText_repo (text : Option TextDelta) :
    Post (fun result => result.2.repo = st.repo) (fun _ => True) (applyText node st text) := by
  cases text with
  | none => exact rfl
  | some delta =>
    simp only [applyText, deApplyTextdelta]
    exact Post.bind (@localText_post _ (fun _ => True) _ trivial _) fun _ _ => rfl

/-! ## Edits -/

theorem runDrive_tree (wet : baton.opts.initialDryRun = false) (drive : Drive) {before after : Set CString}
    (makes : drive.Makes before after) (holds : treePaths st.repo.repo.tree = before) :
    Post (fun result => treePaths result.2.repo.repo.tree = after) (fun _ => True) (runDrive baton parent drive st) := by
  induction drive generalizing parent st before after with
  | done => exact holds.trans makes
  | deleteEntry path rest ih =>
    obtain ⟨present, later⟩ := makes
    rw [← holds] at present later
    refine Post.bind (deDeleteEntry_tree wet present) fun created deleted => ?_
    exact Post.bind (ih later deleted) fun _ tail => tail
  | addDirectory path props children rest ihChildren ihRest =>
    obtain ⟨-, mid, inner, later⟩ := makes
    rw [← holds] at inner
    refine Post.bind (deAddDirectory_tree wet) fun created added => ?_
    refine Post.bind (ihChildren inner added) fun below body => ?_
    exact Post.bind (ihRest later body) fun _ tail => tail
  | openDirectory path props children rest ihChildren ihRest =>
    obtain ⟨mid, inner, later⟩ := makes
    refine Post.bind openNode_repo fun created same => ?_
    refine Post.bind (ihChildren inner (by rw [same]; exact holds)) fun below body => ?_
    exact Post.bind (ihRest later body) fun _ tail => tail
  | addFile path props text rest ih =>
    obtain ⟨-, later⟩ := makes
    rw [← holds] at later
    refine Post.bind (deAddFile_tree wet) fun created added => ?_
    refine Post.bind (applyText_repo text) fun changed same => ?_
    exact Post.bind (ih later (by rw [← added, ← same]; rfl)) fun _ tail => tail
  | openFile path props text rest ih =>
    refine Post.bind openNode_repo fun created same => ?_
    refine Post.bind (applyText_repo text) fun changed same' => ?_
    exact Post.bind (ih makes (by rw [← holds, ← same, ← same']; rfl)) fun _ tail => tail

/-- Queries leave the working tree as it is. -/
theorem queryable_tree (paths : Set CString) (asked : Int → Prop) :
    Queryable (fun t : TracedRepo sys => treePaths t.repo.tree = paths) asked := by
  refine ⟨fun t t' r found _ holds reached => ?_⟩
  obtain ⟨answered, -⟩ := TracedRepo.tree_eq_some.mp reached
  have same : t'.repo.tree = t.repo.tree := by
    rcases prTree_cases answered with ⟨-, same⟩ | ⟨-, -, same⟩ <;> rw [same]
  rw [same]
  exact holds

/-- A whole edit makes of the working tree what its calls make of the paths. -/
theorem runEdit_tree (wet : baton.opts.initialDryRun = false) (edit : Edit) {before after : Set CString}
    (makes : edit.children.Makes before after) (holds : treePaths st.repo.repo.tree = before) :
    Post (fun st' => treePaths st'.repo.repo.tree = after) (fun _ => True) (runEdit baton edit st) := by
  have root : FromLog baton (edit.rootProps.foldl changeProp deOpenRoot) := fromLog_root.changeProps edit.rootProps
  have nodes := @runDrive_post _ baton (fun _ : TracedRepo sys => True) (fun _ => True)
    ⟨fun _ _ _ => trivial, fun _ _ _ => trivial, fun _ _ _ _ _ _ _ => trivial⟩ edit.children _
    { st with dumpedEntries := ∅, out := [] } root trivial
  have tree : Post (fun result => treePaths result.2.repo.repo.tree = after) (fun _ => True)
      (runDrive baton (edit.rootProps.foldl changeProp deOpenRoot) edit.children { st with dumpedEntries := ∅, out := [] }) :=
    runDrive_tree wet edit.children makes holds
  refine Post.bind ((nodes.and tree).mono (fun _ _ => id) fun _ _ => trivial) fun driven both => ?_
  obtain ⟨⟨nodes, -⟩, tree⟩ := both
  have closing : treePaths (deCloseDirectory (edit.rootProps.foldl deChangeDirProp deOpenRoot) driven.2).repo.repo.tree = after :=
    tree
  exact (deCloseEdit_post (queryable_tree after _) root nodes closing).mono (fun _ _ => id) fun _ _ => trivial

end Rsvndump
