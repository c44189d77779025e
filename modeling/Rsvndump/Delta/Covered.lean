import Rsvndump.Delta.Calls
import Rsvndump.Delta.Frame

/-! The first revision of a dump that starts later.

Its edit adds the whole tree, and its copies come from before the range, so
that their targets are dumped in full. Deletions below such a target are skipped
without a look into the tree.
-/

set_option autoImplicit false

namespace Rsvndump

open Library

variable {sys : Platform}

/-! ## Edits that only add -/

def Drive.AddsOnly : Drive → Prop
  | .done => True
  | .addDirectory _ _ children rest => children.AddsOnly ∧ rest.AddsOnly
  | .addFile _ _ _ rest => rest.AddsOnly
  | .deleteEntry _ _ | .openDirectory _ _ _ _ | .openFile _ _ _ _ => False

/-- The paths an edit adds. -/
def Drive.added : Drive → List CString
  | .done => []
  | .deleteEntry _ rest => rest.added
  | .addDirectory path _ children rest => path :: (children.added ++ rest.added)
  | .openDirectory _ _ children rest => children.added ++ rest.added
  | .addFile path _ _ rest => path :: rest.added
  | .openFile _ _ _ rest => rest.added

def NodeTree.paths : NodeTree → List CString
  | .nil => []
  | .cons node children rest => node.path :: (children.paths ++ rest.paths)

variable (baton : DeBaton)

/-- A path below the root that the log reports as a copy. -/
def CopiedPath (log : LogRevision) (path : CString) : Prop :=
  path ≠ [slash] ∧ ∃ table info, log.changedPaths = some table ∧ table.lookup path = some info ∧
    (info.action = .add ∨ info.action = .replace) ∧ info.copyfrom ≠ none

/-- No copy of the revision has a source that can be named. -/
structure Outside : Prop where
  wet : baton.opts.initialDryRun = false
  untrusted : ¬ trustsLog baton.session baton.opts
  sources : ∀ source original, LoggedSource baton.logRevision source original →
    baton.opts.incremental = true ∨ baton.opts.start ≤ original →
    deltaGetLocalCopyfromRev original baton.opts baton.logs ≤ 0

/-- A node made for an added path. -/
structure Added (node : DeNode) : Prop where
  fromLog : FromLog baton node
  needed : node.dumpNeeded = true
  copied : CopiedPath baton.logRevision node.path → node.copyfrom ≠ none ∧ node.action ≠ .modify

variable {baton}

theorem Added.changeProps {node : DeNode} (added : Added baton node) (props : List PropChange) :
    Added baton (props.foldl changeProp node) ∧ (props.foldl changeProp node).path = node.path := by
  induction props generalizing node with
  | nil => exact ⟨added, rfl⟩
  | cons change props ih =>
    have changed : Added baton (changeProp node change) ∧ (changeProp node change).path = node.path := by
      have fromLog := added.fromLog.changeProps [change]
      unfold changeProp at *
      split
      · split <;> exact ⟨⟨added.fromLog.congr rfl rfl fun _ => id, rfl, added.copied⟩, rfl⟩
      · exact ⟨added, rfl⟩
    obtain ⟨rest, path⟩ := ih changed.1
    exact ⟨rest, path.trans changed.2⟩

theorem added_addFromLog {node : DeNode} {entry : Option ChangedPath} {table : AprHash ChangedPath}
    (fromLog : FromLog baton node) (needed : node.dumpNeeded = true)
    (found : baton.logRevision.changedPaths = some table) (looked : table.lookup node.path = entry) :
    Added baton (addFromLog node entry) ∧ (addFromLog node entry).path = node.path := by
  cases entry with
  | none =>
    refine ⟨⟨fromLog, needed, ?_⟩, rfl⟩
    rintro ⟨-, table', info, found', looked', -⟩
    cases Option.some.inj (found.symm.trans found')
    simp [addFromLog, looked] at looked'
  | some info =>
    have logged : ∀ info' ∈ some info, ∃ table, baton.logRevision.changedPaths = some table ∧
        table.lookup node.path = some info' := by
      intro info' member
      cases Option.mem_some_iff.mp member
      exact ⟨table, found, looked⟩
    refine ⟨⟨fromLog_addFromLog fromLog logged, needed, ?_⟩, rfl⟩
    · rintro ⟨-, table', info', found', looked', action, copied⟩
      cases Option.some.inj (found.symm.trans found')
      cases Option.some.inj (looked.symm.trans looked')
      refine ⟨copied, ?_⟩
      rcases action with add | replace
      · simp [addFromLog, add]
      · simp [addFromLog, replace]

theorem logEntry_ok {path : CString} {st : DeltaState sys} :
    Post (fun entry => ∃ table, baton.logRevision.changedPaths = some table ∧ table.lookup path = entry)
      (fun _ => True) (logEntry baton path st) :=
  Post.bind (post_orError (fun _ found => found) trivial) fun table found => ⟨table, found, rfl⟩

theorem deAddDirectory_added {parent : DeNode} {path : CString} {st : DeltaState sys}
    (above : FromLog baton parent) :
    Post (fun result => Added baton result.1 ∧ result.1.path = path ∧ result.2.dumpedEntries = st.dumpedEntries)
      (fun _ => True) (deAddDirectory baton parent path st) := by
  unfold deAddDirectory
  refine Post.bind logEntry_ok fun entry logged => ?_
  refine Post.bind (schedulePath_frame path st) fun st' same => ?_
  obtain ⟨table, found, looked⟩ := logged
  have created : FromLog baton { deltaCreateNode path parent .dir .add with dumpNeeded := true } :=
    (fromLog_create above path .dir .add).congr rfl rfl fun _ => id
  obtain ⟨added, path_eq⟩ := added_addFromLog created rfl found looked
  exact ⟨added, path_eq, same.dumpedEntries⟩

theorem deAddFile_added {parent : DeNode} {path : CString} {st : DeltaState sys} (above : FromLog baton parent) :
    Post (fun result => Added baton result.1 ∧ result.1.path = path ∧ result.2.dumpedEntries = st.dumpedEntries)
      (fun _ => True) (deAddFile baton parent path st) := by
  unfold deAddFile
  refine Post.bind logEntry_ok fun entry logged => ?_
  refine Post.bind (schedulePath_frame path st) fun st' same => ?_
  obtain ⟨table, found, looked⟩ := logged
  have created : FromLog baton { deltaCreateNode path parent .file .add with dumpNeeded := true } :=
    (fromLog_create above path .file .add).congr rfl rfl fun _ => id
  obtain ⟨added, path_eq⟩ := added_addFromLog created rfl found looked
  refine ⟨?_, ?_, same.dumpedEntries⟩
  · simp only
    split
    · exact ⟨added.fromLog.congr rfl rfl fun _ => id, added.needed, fun copied => ⟨(added.copied copied).1, by simp⟩⟩
    · exact added
  · simp only
    split
    · exact path_eq
    · exact path_eq

theorem applyText_added {node : DeNode} {st : DeltaState sys} (added : Added baton node) (text : Option TextDelta) :
    Post (fun result => Added baton result.1 ∧ result.1.path = node.path ∧
      result.2.dumpedEntries = st.dumpedEntries) (fun _ => True) (applyText node st text) := by
  cases text with
  | none => exact ⟨added, rfl, rfl⟩
  | some delta =>
    simp only [applyText, deApplyTextdelta]
    have read : Post (fun _ => True) (fun _ => True) (localText st (st.deltaHash.lookup node.path)) :=
      @localText_post sys (fun _ => True) st trivial _
    refine Post.bind read fun source _ => ?_
    exact ⟨⟨added.fromLog.congr rfl rfl fun _ => id, rfl, added.copied⟩, rfl, rfl⟩

theorem runDrive_added {drive : Drive} (adds : drive.AddsOnly) {parent : DeNode} {st : DeltaState sys}
    (above : FromLog baton parent) :
    Post (fun result => result.1.All (Added baton) ∧ result.1.paths = drive.added ∧
      result.2.dumpedEntries = st.dumpedEntries) (fun _ => True) (runDrive baton parent drive st) := by
  induction drive generalizing parent st with
  | done => exact ⟨trivial, rfl, rfl⟩
  | deleteEntry path rest ih => exact adds.elim
  | openDirectory path props children rest ihChildren ihRest => exact adds.elim
  | openFile path props text rest ih => exact adds.elim
  | addDirectory path props children rest ihChildren ihRest =>
    refine Post.bind (deAddDirectory_added above) fun created step => ?_
    obtain ⟨added, kept_path⟩ := step.1.changeProps props
    refine Post.bind (ihChildren adds.1 added.fromLog) fun inner body => ?_
    refine Post.bind (ihRest adds.2 above) fun later tail => ?_
    refine ⟨⟨added, body.1, tail.1⟩, ?_, tail.2.2.trans (body.2.2.trans step.2.2)⟩
    simp only [NodeTree.paths, Drive.added, body.2.1, tail.2.1]
    rw [show (props.foldl deChangeDirProp created.1).path = path from kept_path.trans step.2.1]
  | addFile path props text rest ih =>
    refine Post.bind (deAddFile_added above) fun created step => ?_
    obtain ⟨added, kept_path⟩ := step.1.changeProps props
    refine Post.bind (applyText_added added text) fun written body => ?_
    refine Post.bind (ih adds above) fun later tail => ?_
    refine ⟨⟨body.1, trivial, tail.1⟩, ?_, tail.2.2.trans (body.2.2.trans step.2.2)⟩
    simp only [NodeTree.paths, Drive.added, tail.2.1, List.nil_append]
    rw [body.2.1, kept_path, step.2.1]

/-! ## Manual copies -/

theorem deltaCheckCopy_failed (outside : Outside baton) {node : DeNode} (fromLog : FromLog baton node)
    (copied : node.copyfrom ≠ none) : (deltaCheckCopy baton node).cpInfo.isFailed = true := by
  unfold deltaCheckCopy
  split
  · next none => exact absurd none copied
  · next path revision source =>
    split
    · assumption
    · rw [if_neg outside.untrusted]
      split
      · next inside =>
        have none := outside.sources path revision (fromLog.source _ _ source) inside.1
        simp only [if_neg (Int.not_lt.mpr none)]
        rfl
      · rfl

@[simp] theorem deltaCheckCopy_path (node : DeNode) : (deltaCheckCopy baton node).path = node.path := by
  unfold deltaCheckCopy
  grind

@[simp] theorem deltaCheckCopy_copyfrom (node : DeNode) :
    (deltaCheckCopy baton node).copyfrom = node.copyfrom := by
  unfold deltaCheckCopy
  grind

@[simp] theorem deltaCheckCopy_dumpNeeded (node : DeNode) :
    (deltaCheckCopy baton node).dumpNeeded = node.dumpNeeded := by
  unfold deltaCheckCopy
  grind

/-- A dumped node is entered under its path. -/
theorem finish_entries (node : DeNode) (st : DeltaState sys) (record : NodeRecord) :
    (finish node (emit st record)).1 = { node with dumpNeeded := false } ∧
      (finish node (emit st record)).2.dumpedEntries =
        st.dumpedEntries.insert node.path { node with dumpNeeded := false } := by
  refine ⟨rfl, ?_⟩
  unfold finish deltaMarkNode
  simp only
  split <;> rfl

theorem contentFile_entries (node : DeNode) (st : DeltaState sys) :
    Post (fun result => result.2.dumpedEntries = st.dumpedEntries) (fun _ => True) (contentFile baton node st) := by
  unfold contentFile
  refine Post.bind (post_orError_fails trivial) fun name _ => ?_
  refine Post.bind (post_orError_fails trivial) fun target _ => ?_
  split
  · have read : Post (fun _ => True) (fun _ => True) (localText st node.oldFilename) :=
      @localText_post sys (fun _ => True) st trivial _
    exact Post.bind read fun source _ => rfl
  · exact rfl

theorem dumpRecord_entries (node : DeNode) (st : DeltaState sys) :
    Post (fun result => result.1 = { node with dumpNeeded := false } ∧
        result.2.dumpedEntries = st.dumpedEntries.insert node.path { node with dumpNeeded := false })
      (fun _ => True) (dumpRecord baton node st) := by
  unfold dumpRecord
  simp only
  split
  · exact finish_entries _ _ _
  · split
    · exact finish_entries _ _ _
    · split
      · refine Post.bind (contentFile_entries node st) fun answer same => ?_
        have finished := finish_entries node answer.2
        rw [same] at finished
        exact finished _
      · exact finish_entries _ _ _

/-- What dumping an added node does to the table of dumped entries. -/
def Marks (baton : DeBaton) (node : DeNode) (st st' : DeltaState sys) : Prop :=
  (st'.dumpedEntries = st.dumpedEntries ∧ ¬ CopiedPath baton.logRevision node.path) ∨
    ∃ marked : DeNode, st'.dumpedEntries = st.dumpedEntries.insert node.path marked ∧
      (CopiedPath baton.logRevision node.path → marked.cpInfo.isFailed = true)

theorem Marks.congr {node node' : DeNode} {before before' after : DeltaState sys}
    (marks : Marks baton node' before' after) (path : node'.path = node.path)
    (entries : before'.dumpedEntries = before.dumpedEntries) : Marks baton node before after := by
  unfold Marks at *
  rw [← path, ← entries]
  exact marks

theorem dumpRecord_marks (outside : Outside baton) {node node' : DeNode} {st st' : DeltaState sys}
    (added : Added baton node) (same : OnlyAction (deltaCheckCopy baton node) node') (repo : OnlyRepo st st') :
    Post (fun result => result.1.dumpNeeded = false ∧ Marks baton node st result.2) (fun _ => True)
      (dumpRecord baton node' st') := by
  refine (dumpRecord_entries node' st').mono (fun result _ marked => ?_) fun _ => id
  refine ⟨by rw [marked.1], .inr ⟨{ node' with dumpNeeded := false }, ?_, fun copied => ?_⟩⟩
  · rw [marked.2, repo.dumpedEntries, same.path, deltaCheckCopy_path]
  · exact (congrArg CpInfo.isFailed same.cpInfo).trans
      (deltaCheckCopy_failed outside added.fromLog (added.copied copied).1)

theorem dumpNodeWith_marks (outside : Outside baton)
    {replaceNode : DeNode → DeltaState sys → Result sys (DeNode × DeltaState sys)} {above : List DeNode}
    {node : DeNode} {st : DeltaState sys} (added : Added baton node)
    (replaced : ∀ node' st', OnlyAction (deltaCheckCopy baton node) node' → OnlyRepo st st' →
      Post (fun result => result.1.dumpNeeded = false ∧ Marks baton node st result.2) (fun _ => True)
        (replaceNode node' st')) :
    Post (fun result => result.1.dumpNeeded = false ∧ Marks baton node st result.2) (fun _ => True)
      (dumpNodeWith baton replaceNode above node st) := by
  unfold dumpNodeWith
  split
  · next skipped =>
    refine ⟨rfl, .inl ⟨rfl, fun copied => ?_⟩⟩
    obtain ⟨source, action⟩ := added.copied copied
    simp [isSkipped, added.needed, outside.wet, source, action] at skipped
  · refine Post.bind (deltaCheckAction_frame above (deltaCheckCopy baton node) st) fun checked same => ?_
    obtain ⟨node', st'⟩ := checked
    simp only
    split
    · exact replaced node' st' same.1 same.2
    · exact dumpRecord_marks outside added same.1 same.2

theorem deltaDumpNode_marks (outside : Outside baton) {above : List DeNode} {node : DeNode} {st : DeltaState sys}
    (added : Added baton node) :
    Post (fun result => result.1.dumpNeeded = false ∧ Marks baton node st result.2) (fun _ => True)
      (deltaDumpNode baton above node st) := by
  refine dumpNodeWith_marks outside added fun node' st' same repo => ?_
  have path : node'.path = node.path := same.path.trans (deltaCheckCopy_path node)
  have copyfrom : node'.copyfrom = node.copyfrom := same.copyfrom.trans (deltaCheckCopy_copyfrom node)
  -- the copy is checked once more, with the same outcome
  have again : Added baton { node' with cpInfo := .none, action := .add } := by
    have fromLog := fromLog_deltaCheckCopy added.fromLog outside.wet
    refine ⟨fromLog.congr same.copyfrom same.copyfromRevLocal fun _ _ => by simp, ?_, fun copied => ?_⟩
    · exact same.dumpNeeded.trans ((deltaCheckCopy_dumpNeeded node).trans added.needed)
    · simp only [path] at copied
      refine ⟨?_, by simp⟩
      simp only [copyfrom]
      exact (added.copied copied).1
  have start : (emit st' ⟨printedPath baton node'.path, none, .delete, none, none⟩).dumpedEntries =
      st.dumpedEntries := repo.dumpedEntries
  refine Post.mono (dumpNodeWith_marks outside again fun _ _ => dumpRecord_marks outside again) ?_ fun _ => id
  exact fun result _ done => ⟨done.1, done.2.congr path start⟩

/-! ## The table of dumped entries -/

/-- Every copy in the table was made by hand, and those of `dumped` are in it. -/
def Covers (baton : DeBaton) (dumped : List CString) (st : DeltaState sys) : Prop :=
  ∀ path, CopiedPath baton.logRevision path → (∀ node ∈ st.dumpedEntries.lookup path, node.cpInfo.isFailed = true) ∧
    (path ∈ dumped → (st.dumpedEntries.lookup path).isSome = true)

theorem Covers.marks {dumped : List CString} {node : DeNode} {st st' : DeltaState sys}
    (covers : Covers baton dumped st) (marks : Marks baton node st st') :
    Covers baton (node.path :: dumped) st' := by
  intro path copied
  obtain ⟨failed, present⟩ := covers path copied
  rcases marks with ⟨same, plain⟩ | ⟨marked, inserted, failed'⟩
  · rw [same]
    refine ⟨failed, fun member => ?_⟩
    rcases List.mem_cons.mp member with rfl | member
    · exact absurd copied plain
    · exact present member
  · rw [inserted]
    by_cases here : path = node.path
    · subst here
      rw [AList.lookup_insert]
      exact ⟨fun found same => Option.mem_some_iff.mp same ▸ failed' copied, fun _ => rfl⟩
    · rw [AList.lookup_insert_ne here]
      refine ⟨failed, fun member => present ?_⟩
      exact (List.mem_cons.mp member).resolve_left here

theorem Covers.weaken {dumped fewer : List CString} {st : DeltaState sys} (covers : Covers baton dumped st)
    (subset : ∀ path ∈ fewer, path ∈ dumped) : Covers baton fewer st :=
  fun path copied => ⟨(covers path copied).1, fun member => (covers path copied).2 (subset path member)⟩

theorem Covers.congr {dumped : List CString} {st st' : DeltaState sys} (covers : Covers baton dumped st)
    (same : st'.dumpedEntries = st.dumpedEntries) : Covers baton dumped st' := by
  intro path copied
  rw [same]
  exact covers path copied

theorem deltaDumpNode_skips {above : List DeNode} {node : DeNode} {st : DeltaState sys}
    (done : node.dumpNeeded = false) : deltaDumpNode baton above node st = .ok ({ node with dumpNeeded := false }, st) := by
  have skipped : isSkipped baton node = true := by simp [isSkipped, done]
  simp [deltaDumpNode, dumpNodeWith, skipped]

theorem Added.onlyCpInfo {node node' : DeNode} (added : Added baton node) (same : OnlyCpInfo node node')
    (wet : baton.opts.initialDryRun = false) : Added baton node' ∧ node'.path = node.path := by
  unfold OnlyCpInfo at same
  rw [same]
  refine ⟨⟨added.fromLog.congr rfl rfl fun dry => ?_, added.needed, added.copied⟩, rfl⟩
  simp [wet] at dry

theorem dumpChildren_covers (outside : Outside baton) {nodes : NodeTree} {parent : DeNode} {above : List DeNode}
    {dumped : List CString} {st : DeltaState sys} (tree : nodes.All (Added baton)) (covers : Covers baton dumped st) :
    Post (fun st' => Covers baton (nodes.paths ++ dumped) st') (fun _ => True)
      (dumpChildren baton parent above nodes st) := by
  induction nodes generalizing parent above dumped st with
  | nil => exact covers
  | cons child children rest ihChildren ihRest =>
    obtain ⟨added, inner, later⟩ := tree
    rw [dumpChildren]
    refine Post.bind (deltaPropagateCopy_frame parent above child st) fun propagated same => ?_
    obtain ⟨added', path⟩ := added.onlyCpInfo same.1 outside.wet
    have start : Covers baton dumped propagated.2 := covers.congr same.2.dumpedEntries
    have ending : ∀ {st' : DeltaState sys}, Covers baton (child.path :: (children.paths ++ dumped)) st' →
        Post (fun st'' => Covers baton ((NodeTree.cons child children rest).paths ++ dumped) st'') (fun _ => True)
          (dumpChildren baton parent above rest st') := by
      intro st' whole
      refine (ihRest later whole).mono (fun st'' _ done => done.weaken fun q member => ?_) fun _ => id
      simp only [NodeTree.paths, List.mem_append, List.mem_cons] at member ⊢
      grind
    -- a deleted node is dumped after its children
    by_cases late : propagated.1.action = .delete
    · simp only [deltaDumpNodeIf, late, ne_eq, not_true_eq_false, decide_false, Bool.false_eq_true, if_false,
        decide_true, if_true, ok_bind]
      refine Post.bind (ihChildren inner start) fun below first => ?_
      refine Post.bind (deltaDumpNode_marks outside added') fun bottom second => ?_
      have whole := first.marks second.2
      rw [path] at whole
      exact ending whole
    · simp only [deltaDumpNodeIf, ne_eq, late, not_false_eq_true, decide_true, if_true]
      refine Post.bind (deltaDumpNode_marks outside added') fun top first => ?_
      have early := start.marks first.2
      rw [path] at early
      refine Post.bind (ihChildren inner early) fun below second => ?_
      have whole : Covers baton (child.path :: (children.paths ++ dumped)) below :=
        second.weaken fun q member => by simpa [or_left_comm] using member
      rw [deltaDumpNode_skips first.1]
      split
      · exact ending whole
      · exact ending whole

theorem rootNode_path (props : List PropChange) : (props.foldl changeProp deOpenRoot).path = [slash] := by
  rw [onlyProps_changeProps props deOpenRoot]
  rfl

theorem deltaDumpNodeRecursive_covers (outside : Outside baton) {root : DeNode} {nodes : NodeTree}
    {dumped : List CString} {st : DeltaState sys} (fromLog : FromLog baton root) (top : root.path = [slash])
    (tree : nodes.All (Added baton)) (covers : Covers baton dumped st) :
    Post (fun st' => Covers baton (nodes.paths ++ dumped) st') (fun _ => True)
      (deltaDumpNodeRecursive baton root nodes st) := by
  unfold deltaDumpNodeRecursive
  cases needed : root.dumpNeeded with
  | false =>
    rw [deltaDumpNode_skips needed]
    exact dumpChildren_covers outside tree covers
  | true =>
    have added : Added baton root := ⟨fromLog, needed, fun copied => absurd top copied.1⟩
    refine Post.bind (deltaDumpNode_marks outside added) fun result done => ?_
    have marked := covers.marks done.2
    exact dumpChildren_covers outside tree (marked.weaken fun q member => List.mem_cons_of_mem _ member)

/-! ## Covered deletions -/

theorem closeEntry_covered {entry : (_ : CString) × ChangedPath} {dumped : List CString} {st : DeltaState sys}
    (covers : Covers baton dumped st)
    (inside : entry.2.action = .delete → ∃ parent ∈ parentChain entry.1.length entry.1,
      CopiedPath baton.logRevision parent ∧ parent ∈ dumped) :
    ∃ st', closeEntry baton st entry = .ok st' ∧ st'.repo = st.repo ∧ st'.dumpedEntries = st.dumpedEntries := by
  have entries : (unlinkLocal st entry.1).dumpedEntries = st.dumpedEntries := by
    unfold unlinkLocal
    split <;> rfl
  unfold closeEntry
  simp only
  split
  · exact ⟨st, rfl, rfl, rfl⟩
  · next deleted =>
    obtain ⟨parent, member, copied, present⟩ := inside (Decidable.not_not.mp deleted)
    obtain ⟨failed, found⟩ := covers parent copied
    have covered : isCovered (unlinkLocal st entry.1) entry.1 = true := by
      obtain ⟨node, lookup⟩ := Option.isSome_iff_exists.mp (found present)
      refine List.any_eq_true.mpr ⟨parent, member, ?_⟩
      simp [entries, lookup, failed node lookup]
    rw [covered]
    split
    · exact ⟨_, rfl, unlinkLocal_repo _ _, entries⟩
    · exact ⟨_, rfl, unlinkLocal_repo _ _, entries⟩

/-- An edit whose deletions are all covered does not ask for the tree being edited. -/
theorem runEdit_covered {kept : TracedRepo sys → Prop} (closed : Closed kept (AsksFor baton)) (outside : Outside baton)
    {edit : Edit} (adds : edit.children.AddsOnly)
    (inside : ∀ table path info, baton.logRevision.changedPaths = some table → table.lookup path = some info →
      info.action = .delete → ∃ parent ∈ parentChain path.length path,
        CopiedPath baton.logRevision parent ∧ parent ∈ edit.children.added) {st : DeltaState sys} (holds : kept st.repo) :
    Post (fun st' => kept st'.repo) (fun e => kept e.repo) (runEdit baton edit st) := by
  have root : FromLog baton (edit.rootProps.foldl changeProp deOpenRoot) := fromLog_root.changeProps edit.rootProps
  have start : kept { st with dumpedEntries := ∅, out := [] }.repo := holds
  have driving := (runDrive_post closed edit.children root start).and (runDrive_added adds root)
  refine Post.bind (driving.mono (fun _ _ both => both) fun _ both => both.1) fun driven both => ?_
  obtain ⟨⟨tree, first⟩, added, paths, empty⟩ := both
  have closing : kept (deCloseDirectory (edit.rootProps.foldl deChangeDirProp deOpenRoot) driven.2).repo := first
  have covers : Covers baton [] (deCloseDirectory (edit.rootProps.foldl deChangeDirProp deOpenRoot) driven.2) := by
    intro path copied
    have none : (deCloseDirectory (edit.rootProps.foldl deChangeDirProp deOpenRoot) driven.2).dumpedEntries = ∅ := empty
    simp [none]
  have dumping := (deltaDumpNodeRecursive_post closed.queries root tree closing).and
    (deltaDumpNodeRecursive_covers outside root (rootNode_path _) added covers)
  refine Post.bind (dumping.mono (fun _ _ both => both) fun _ both => both.1) fun dumped both => ?_
  refine Post.bind (post_orError (fun table found => found) both.1) fun table found => ?_
  -- no round of the loop touches the path storage
  have loop : Post (fun st' => kept st'.repo ∧ Covers baton (driven.1.paths ++ []) st') (fun e => kept e.repo)
      (table.entries.foldlM (closeEntry baton) dumped) := ?_
  · exact loop.mono (fun _ _ done => done.1) fun _ => id
  refine post_foldlM both fun st' entry member holds' => ?_
  obtain ⟨st'', closed', repo, entries⟩ := closeEntry_covered holds'.2 fun deleted => by
    have looked := AList.mem_lookup_iff.mpr member
    obtain ⟨parent, above, copied, present⟩ := inside table entry.1 entry.2 found looked deleted
    exact ⟨parent, above, copied, by rw [List.append_nil, paths]; exact present⟩
  rw [closed']
  exact ⟨by rw [repo]; exact holds'.1, holds'.2.congr entries⟩

end Rsvndump
