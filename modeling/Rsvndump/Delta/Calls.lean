import Rsvndump.Delta.Node
import Rsvndump.PathRepo.Versions

/-! The calls an edit makes on the path storage.

An edit schedules paths and asks for the trees of few revisions: those of the
copy sources in the log entry, the one before its own and, when it is closed,
its own. A property of the storage that these calls keep is kept by the edit,
also when it fails.
-/

set_option autoImplicit false

namespace Rsvndump

open Library

variable {sys : Platform}

/-- A property of the path storage that is kept by scheduled paths and by queries for the
revisions `asked`. -/
structure Closed (kept : TracedRepo sys → Prop) (asked : Int → Prop) : Prop where
  add : ∀ t path, kept t → kept (t.add path).1
  delete : ∀ t path, kept t → kept (t.delete path)
  query : ∀ t t' r found, asked r → kept t → t.tree r = some (found, t') → kept t'

/-- A property of the path storage that is kept by queries for the revisions `asked`. -/
structure Queryable (kept : TracedRepo sys → Prop) (asked : Int → Prop) : Prop where
  query : ∀ t t' r found, asked r → kept t → t.tree r = some (found, t') → kept t'

theorem Closed.queries {kept : TracedRepo sys → Prop} {asked : Int → Prop} (closed : Closed kept asked) :
    Queryable kept asked :=
  ⟨closed.query⟩

theorem Queryable.mono {kept : TracedRepo sys → Prop} {asked fewer : Int → Prop} (closed : Queryable kept asked)
    (subset : ∀ r, fewer r → asked r) : Queryable kept fewer :=
  ⟨fun t t' r found asks => closed.query t t' r found (subset r asks)⟩

theorem Closed.mono {kept : TracedRepo sys → Prop} {asked fewer : Int → Prop} (closed : Closed kept asked)
    (subset : ∀ r, fewer r → asked r) : Closed kept fewer :=
  ⟨closed.add, closed.delete, fun t t' r found asks => closed.query t t' r found (subset r asks)⟩

theorem Closed.mono_or {kept : TracedRepo sys → Prop} {asked never : Int → Prop} (closed : Closed kept asked)
    (none : ∀ r, ¬ never r) : Closed kept fun r => asked r ∨ never r :=
  closed.mono fun r either => either.resolve_right (none r)

/-- An edit commits nothing, so that what it keeps is kept as well while the encoded lengths fit. -/
theorem Closed.fitting {kept : TracedRepo sys → Prop} {asked : Int → Prop} (closed : Closed kept asked) :
    Closed (fun t => EncodedFits sys t.calls → kept t) asked where
  add t path keeps fits := closed.add t path (keeps fits.shorter)
  delete t path keeps fits := closed.delete t path (keeps fits.shorter)
  query := by
    intro t t' r found asks keeps reached fits
    obtain ⟨-, calls⟩ := TracedRepo.tree_eq_some.mp reached
    rw [calls] at fits
    exact closed.query t t' r found asks (keeps fits.shorter) reached

theorem TracedRepo.eq_of {t t' : TracedRepo sys} (repo : t.repo = t'.repo) (calls : t.calls = t'.calls) : t = t' := by
  cases t
  cases t'
  cases repo
  cases calls
  rfl

/-- A query for a revision before 0 is answered without a tree. -/
theorem TracedRepo.pathExists_reaches {t t' : TracedRepo sys} {path : CString} {r : Int} {found : Bool}
    (answered : t.pathExists path r = some (found, t')) :
    (r < 0 ∧ found = false ∧ t' = t) ∨
      (0 ≤ r ∧ ∃ tree, t.tree r = some (tree, t') ∧ found = cbTreeContains tree.tree path) := by
  unfold pathExists at answered
  split at answered
  · cases answered
  · next found' repo reached =>
    cases answered
    rcases pathRepoExists_reaches reached with ⟨negative, none, same⟩ | ⟨valid, tree, reached, contains⟩
    · exact .inl ⟨negative, none, TracedRepo.eq_of same (if_pos negative)⟩
    · exact .inr ⟨by omega, tree, TracedRepo.tree_eq_some.mpr ⟨reached, if_neg valid⟩, contains⟩

theorem Queryable.answered {kept : TracedRepo sys → Prop} {asked : Int → Prop} (closed : Queryable kept asked)
    {t t' : TracedRepo sys} {path : CString} {r : Int} {found : Bool} (asks : asked r) (holds : kept t)
    (answered : t.pathExists path r = some (found, t')) : kept t' := by
  rcases TracedRepo.pathExists_reaches answered with ⟨-, -, same⟩ | ⟨-, tree, reached, -⟩
  · rw [same]
    exact holds
  · exact closed.query _ _ _ _ asks holds reached

theorem TracedRepo.checkParent_eq (t : TracedRepo sys) (parent child : CString) (r : Int) :
    t.checkParent parent child r = t.pathExists (parent ++ slash :: child) r := rfl

section Edit

variable (baton : DeBaton)

/-! ## Revisions asked for -/

/-- A copy in a log entry. -/
def LoggedSource (log : LogRevision) (source : CString) (original : Int) : Prop :=
  ∃ table path info, log.changedPaths = some table ∧ table.lookup path = some info ∧
    info.copyfrom = some (source, original)

/-- The revisions the nodes of an edit ask for. -/
inductive AsksFor : Int → Prop
  | source {source : CString} {original : Int} : baton.opts.initialDryRun = false →
      LoggedSource baton.logRevision source original → baton.session.prefixPath <+: source →
      AsksFor (deltaGetLocalCopyfromRev original baton.opts baton.logs)
  | unset : baton.opts.initialDryRun = false → ¬ trustsLog baton.session baton.opts → AsksFor 0
  | previous : baton.opts.initialDryRun = false → ¬ trustsLog baton.session baton.opts →
      AsksFor (baton.localRevnum - 1)

/-- The copy information of a node comes from the log entry, and a dry run decides on no copies. -/
structure FromLog (node : DeNode) : Prop where
  source : ∀ source original, node.copyfrom = some (source, original) → LoggedSource baton.logRevision source original
  revision : ¬ trustsLog baton.session baton.opts → node.copyfromRevLocal = 0 ∨
    ∃ source original, LoggedSource baton.logRevision source original ∧ baton.session.prefixPath <+: source ∧
      node.copyfromRevLocal = deltaGetLocalCopyfromRev original baton.opts baton.logs
  dry : baton.opts.initialDryRun = true → node.cpInfo ≠ .copy

variable {baton} {kept : TracedRepo sys → Prop}

theorem FromLog.congr {node node' : DeNode} (fromLog : FromLog baton node)
    (copyfrom : node'.copyfrom = node.copyfrom) (revision : node'.copyfromRevLocal = node.copyfromRevLocal)
    (cpInfo : baton.opts.initialDryRun = true → node.cpInfo ≠ .copy → node'.cpInfo ≠ .copy) :
    FromLog baton node' := by
  refine ⟨?_, ?_, fun dry => cpInfo dry (fromLog.dry dry)⟩
  · rw [copyfrom]
    exact fromLog.source
  · rw [revision]
    exact fromLog.revision

theorem FromLog.changeProps {node : DeNode} (fromLog : FromLog baton node) (props : List PropChange) :
    FromLog baton (props.foldl changeProp node) := by
  induction props generalizing node with
  | nil => exact fromLog
  | cons change props ih =>
    apply ih
    unfold changeProp
    split
    · split <;> exact fromLog.congr rfl rfl fun _ => id
    · exact fromLog

theorem fromLog_create {parent : DeNode} (above : FromLog baton parent) (path : CString) (kind : NodeKind)
    (action : Action) : FromLog baton (deltaCreateNode path parent kind action) := by
  refine ⟨?_, fun _ => .inl rfl, above.dry⟩
  intro source original copied
  simp [deltaCreateNode, deltaCreateNodeNoParent] at copied

theorem fromLog_root : FromLog baton deOpenRoot := by
  refine ⟨?_, fun _ => .inl rfl, fun _ => by simp [deOpenRoot, deltaCreateNodeNoParent]⟩
  intro source original copied
  simp [deOpenRoot, deltaCreateNodeNoParent] at copied

/-! ## Callbacks -/

theorem logEntry_post {path : CString} {st : DeltaState sys} (holds : kept st.repo) :
    Post (fun entry => ∀ info ∈ entry, ∃ table, baton.logRevision.changedPaths = some table ∧
      table.lookup path = some info) (fun e => kept e.repo) (logEntry baton path st) := by
  unfold logEntry
  refine Post.bind (post_orError (fun table found => found) holds) ?_
  intro table found
  exact fun info member => ⟨table, found, member⟩

theorem fromLog_addFromLog {node : DeNode} {path : CString} {entry : Option ChangedPath}
    (fromLog : FromLog baton node)
    (logged : ∀ info ∈ entry, ∃ table, baton.logRevision.changedPaths = some table ∧
      table.lookup path = some info) : FromLog baton (addFromLog node entry) := by
  cases entry with
  | none => exact fromLog
  | some info =>
    obtain ⟨table, found, looked⟩ := logged info rfl
    refine ⟨fun source original copied => ⟨table, path, info, found, looked, copied⟩, fromLog.revision, ?_⟩
    intro dry
    simp only [addFromLog]
    split
    · exact fromLog.dry dry
    · simp

theorem schedulePath_post {asked : Int → Prop} (closed : Closed kept asked) {path : CString}
    {st : DeltaState sys} (holds : kept st.repo) :
    Post (fun st' => kept st'.repo) (fun e => kept e.repo) (schedulePath baton path st) := by
  unfold schedulePath
  split
  · exact holds
  · simp only
    split
    · exact holds
    · exact closed.add _ _ holds

theorem deAddDirectory_post {asked : Int → Prop} (closed : Closed kept asked) {parent : DeNode} {path : CString}
    {st : DeltaState sys} (above : FromLog baton parent) (holds : kept st.repo) :
    Post (fun result => FromLog baton result.1 ∧ kept result.2.repo) (fun e => kept e.repo)
      (deAddDirectory baton parent path st) := by
  unfold deAddDirectory
  refine Post.bind (logEntry_post holds) fun entry logged => ?_
  refine Post.bind (schedulePath_post closed holds) fun st' holds' => ⟨?_, holds'⟩
  exact fromLog_addFromLog ((fromLog_create above path .dir .add).congr rfl rfl fun _ => id) logged

theorem deAddFile_post {asked : Int → Prop} (closed : Closed kept asked) {parent : DeNode} {path : CString}
    {st : DeltaState sys} (above : FromLog baton parent) (holds : kept st.repo) :
    Post (fun result => FromLog baton result.1 ∧ kept result.2.repo) (fun e => kept e.repo)
      (deAddFile baton parent path st) := by
  unfold deAddFile
  refine Post.bind (logEntry_post holds) fun entry logged => ?_
  refine Post.bind (schedulePath_post closed holds) fun st' holds' => ⟨?_, holds'⟩
  have created : FromLog baton { deltaCreateNode path parent .file .add with dumpNeeded := true } :=
    (fromLog_create above path .file .add).congr rfl rfl fun _ => id
  have fromLog := fromLog_addFromLog created logged
  simp only
  split
  · exact fromLog.congr rfl rfl fun _ => id
  · exact fromLog

theorem openNode_post {kind : NodeKind} {parent : DeNode} {path : CString} {st : DeltaState sys}
    (above : FromLog baton parent) (holds : kept st.repo) :
    Post (fun result => FromLog baton result.1 ∧ kept result.2.repo) (fun e => kept e.repo)
      (openNode kind parent path st) := by
  unfold openNode
  refine Post.bind (post_orError_fails holds) ?_
  intro loaded _
  exact ⟨(fromLog_create above path kind .modify).congr rfl rfl fun _ => id, holds⟩

theorem deDeleteEntry_post {asked : Int → Prop} (closed : Closed kept asked) {parent : DeNode} {path : CString}
    {st : DeltaState sys} (above : FromLog baton parent) (holds : kept st.repo) :
    Post (fun result => FromLog baton result.1 ∧ kept result.2.repo) (fun e => kept e.repo)
      (deDeleteEntry baton parent path st) := by
  unfold deDeleteEntry deDeleteEntryWith
  refine Post.bind (post_orError_fails holds) fun _ _ => ?_
  refine Post.bind (post_orError_fails holds) fun _ _ => ?_
  refine ⟨(fromLog_create above path .none .delete).congr rfl rfl fun _ => id, ?_⟩
  split
  · exact holds
  · exact closed.delete _ _ holds

theorem localText_post {st : DeltaState sys} (holds : kept st.repo) (name : Option Nat) :
    Post (fun _ => True) (fun e => kept e.repo) (localText st name) := by
  cases name with
  | none => trivial
  | some name => exact post_orError (fun _ _ => trivial) holds

theorem applyText_post {node : DeNode} {st : DeltaState sys} (fromLog : FromLog baton node)
    (holds : kept st.repo) (text : Option TextDelta) :
    Post (fun result => FromLog baton result.1 ∧ kept result.2.repo) (fun e => kept e.repo)
      (applyText node st text) := by
  cases text with
  | none => exact ⟨fromLog, holds⟩
  | some delta =>
    simp only [applyText, deApplyTextdelta]
    refine Post.bind (localText_post holds _) fun source _ => ?_
    exact ⟨fromLog.congr rfl rfl fun _ => id, holds⟩

/-- Every node of a tree. -/
def NodeTree.All (holds : DeNode → Prop) : NodeTree → Prop
  | .nil => True
  | .cons node children rest => holds node ∧ children.All holds ∧ rest.All holds

theorem runDrive_post {asked : Int → Prop} (closed : Closed kept asked) (drive : Drive) {parent : DeNode}
    {st : DeltaState sys} (above : FromLog baton parent) (holds : kept st.repo) :
    Post (fun result => result.1.All (FromLog baton) ∧ kept result.2.repo) (fun e => kept e.repo)
      (runDrive baton parent drive st) := by
  induction drive generalizing parent st with
  | done => exact ⟨trivial, holds⟩
  | deleteEntry path rest ih =>
    refine Post.bind (deDeleteEntry_post closed above holds) fun created step => ?_
    refine Post.bind (ih above step.2) fun later tail => ?_
    exact ⟨⟨step.1, trivial, tail.1⟩, tail.2⟩
  | addDirectory path props children rest ihChildren ihRest =>
    refine Post.bind (deAddDirectory_post closed above holds) fun created step => ?_
    refine Post.bind (ihChildren (step.1.changeProps props) step.2) fun inner body => ?_
    refine Post.bind (ihRest above body.2) fun later tail => ?_
    exact ⟨⟨step.1.changeProps props, body.1, tail.1⟩, tail.2⟩
  | openDirectory path props children rest ihChildren ihRest =>
    refine Post.bind (openNode_post above holds) fun created step => ?_
    refine Post.bind (ihChildren (step.1.changeProps props) step.2) fun inner body => ?_
    refine Post.bind (ihRest above body.2) fun later tail => ?_
    exact ⟨⟨step.1.changeProps props, body.1, tail.1⟩, tail.2⟩
  | addFile path props text rest ih =>
    refine Post.bind (deAddFile_post closed above holds) fun created step => ?_
    refine Post.bind (applyText_post (step.1.changeProps props) step.2 text) fun written body => ?_
    refine Post.bind (ih above body.2) fun later tail => ?_
    exact ⟨⟨body.1, trivial, tail.1⟩, tail.2⟩
  | openFile path props text rest ih =>
    refine Post.bind (openNode_post above holds) fun created step => ?_
    refine Post.bind (applyText_post (step.1.changeProps props) step.2 text) fun written body => ?_
    refine Post.bind (ih above body.2) fun later tail => ?_
    exact ⟨⟨body.1, trivial, tail.1⟩, tail.2⟩

/-! ## Nodes -/

theorem checkedParent_post {asked : Int → Prop} (closed : Queryable kept asked) {parent child : CString} {r : Int}
    (asks : asked r) {st : DeltaState sys} (holds : kept st.repo) :
    Post (fun result => kept result.2.repo) (fun e => kept e.repo) (checkedParent parent child r st) := by
  refine post_orError ?_ holds
  intro answer answered
  obtain ⟨⟨found, repo⟩, reached, rfl⟩ := Option.map_eq_some_iff.mp answered
  exact closed.answered asks holds reached

theorem pathExists_kept {asked : Int → Prop} (closed : Queryable kept asked) {path : CString} {r : Int}
    (asks : asked r) {st st' : DeltaState sys} {found : Bool} (holds : kept st.repo)
    (answered : st.pathExists path r = some (found, st')) : kept st'.repo := by
  obtain ⟨⟨found, repo⟩, reached, same⟩ := Option.map_eq_some_iff.mp answered
  cases same
  exact closed.answered asks holds reached

theorem fromLog_deltaCheckCopy {node : DeNode} (fromLog : FromLog baton node)
    (wet : baton.opts.initialDryRun = false) : FromLog baton (deltaCheckCopy baton node) := by
  have noDry : ∀ {node' : DeNode}, baton.opts.initialDryRun = true → node.cpInfo ≠ .copy → node'.cpInfo ≠ .copy := by
    intro _ dry
    simp [wet] at dry
  unfold deltaCheckCopy
  split
  · split
    · exact fromLog
    · exact fromLog.congr rfl rfl noDry
  · next path revision copied =>
    split
    · exact fromLog
    · split
      · next trusts =>
        exact ⟨fromLog.source, fun not_trusts => absurd trusts not_trusts, fun dry => by simp [wet] at dry⟩
      · split
        · next inside =>
          simp only
          split
          · refine ⟨fromLog.source, fun _ => ?_, fun dry => by simp [wet] at dry⟩
            exact .inr ⟨path, revision, fromLog.source _ _ copied, inside.2, rfl⟩
          · exact fromLog.congr rfl rfl noDry
        · exact fromLog.congr rfl rfl noDry

theorem FromLog.toAdd {node : DeNode} (fromLog : FromLog baton node) (found : Bool) :
    FromLog baton (toAdd node found) := by
  unfold Rsvndump.toAdd
  split
  · exact fromLog
  · exact fromLog.congr rfl rfl fun _ => id

theorem checkParents_post (closed : Queryable kept (AsksFor baton)) (wet : baton.opts.initialDryRun = false)
    (untrusted : ¬ trustsLog baton.session baton.opts) {node : DeNode} {above : List DeNode} {st : DeltaState sys}
    (fromLog : FromLog baton node) (parents : ∀ parent ∈ above, FromLog baton parent) (holds : kept st.repo) :
    Post (fun result => FromLog baton result.2.1 ∧ kept result.2.2.repo) (fun e => kept e.repo)
      (checkParents baton node above st) := by
  induction above with
  | nil => exact ⟨fromLog, holds⟩
  | cons parent above ih =>
    have next := ih fun p member => parents p (List.mem_cons_of_mem _ member)
    rw [checkParents]
    split
    · exact ⟨fromLog.congr rfl rfl fun _ => id, holds⟩
    · split
      · exact next
      · split
        · exact next
        · refine Post.bind (checkedParent_post closed ?_ holds) fun answer holds' => ⟨fromLog.toAdd _, holds'⟩
          rcases (parents parent List.mem_cons_self).revision untrusted with unset | ⟨source, original, logged, inside, same⟩
          · rw [unset]
            exact .unset wet untrusted
          · rw [same]
            exact .source wet logged inside

theorem checkFailedReplace_post (closed : Queryable kept (AsksFor baton)) (wet : baton.opts.initialDryRun = false)
    (untrusted : ¬ trustsLog baton.session baton.opts) {node : DeNode} {st : DeltaState sys}
    (fromLog : FromLog baton node) (holds : kept st.repo) :
    Post (fun result => FromLog baton result.1 ∧ kept result.2.repo) (fun e => kept e.repo)
      (checkFailedReplace baton node st) := by
  unfold checkFailedReplace
  split
  · refine Post.bind (checkedParent_post closed (.previous wet untrusted) holds) fun answer holds' => ?_
    exact ⟨fromLog.toAdd _, holds'⟩
  · exact ⟨fromLog, holds⟩

theorem checkModify_post (closed : Queryable kept (AsksFor baton)) (wet : baton.opts.initialDryRun = false)
    (untrusted : ¬ trustsLog baton.session baton.opts) {node : DeNode} {st : DeltaState sys}
    (fromLog : FromLog baton node) (holds : kept st.repo) :
    Post (fun result => FromLog baton result.1 ∧ kept result.2.repo) (fun e => kept e.repo)
      (checkModify baton node st) := by
  unfold checkModify
  split
  · refine Post.bind (post_orError (fun answer answered => ?_) holds) fun answer holds' => ⟨fromLog.toAdd _, holds'⟩
    exact pathExists_kept closed (.previous wet untrusted) holds answered
  · exact ⟨fromLog, holds⟩

theorem deltaCheckAction_post (closed : Queryable kept (AsksFor baton)) (wet : baton.opts.initialDryRun = false)
    {above : List DeNode} {node : DeNode} {st : DeltaState sys}
    (fromLog : FromLog baton node) (parents : ∀ parent ∈ above, FromLog baton parent) (holds : kept st.repo) :
    Post (fun result => FromLog baton result.1 ∧ kept result.2.repo) (fun e => kept e.repo)
      (deltaCheckAction baton above node st) := by
  unfold deltaCheckAction
  split
  · exact ⟨fromLog, holds⟩
  · split
    · exact ⟨fromLog, holds⟩
    · next untrusted =>
      refine Post.bind (checkParents_post closed wet untrusted fromLog parents holds) fun settled first => ?_
      obtain ⟨flag, node', st'⟩ := settled
      simp only
      split
      · exact first
      · refine Post.bind (checkFailedReplace_post closed wet untrusted first.1 first.2) fun replaced second => ?_
        refine Post.bind (checkModify_post closed wet untrusted second.1 second.2) fun modified third => ?_
        refine ⟨?_, third.2⟩
        simp only
        split
        · exact third.1.congr rfl rfl fun _ => id
        · exact third.1

theorem propagateLoop_post {asked : Int → Prop} (closed : Queryable kept asked) {revision : Int}
    (asks : asked revision) (stop fuel : Nat) {buffer : Bytes} {base : Nat} {st : DeltaState sys}
    (holds : kept st.repo) :
    Post (fun result => kept result.2.repo) (fun e => kept e.repo)
      (propagateLoop revision stop fuel buffer base st) := by
  induction fuel generalizing buffer base st with
  | zero => exact holds
  | succ fuel ih =>
    rw [propagateLoop]
    split
    · exact holds
    · simp only
      have answered : ∀ {parent child : CString} {found : Bool} {st' : DeltaState sys},
          st.checkParent parent child revision = some (found, st') → kept st'.repo := by
        intro parent child found st' same
        exact pathExists_kept closed asks holds same
      split
      · exact holds
      · next same => exact answered same
      · next same => exact ih (answered same)

theorem copiedParent_mem {above : List DeNode} {node : DeNode} {path : CString} {revision : Int}
    (found : copiedParent above = some (node, path, revision)) :
    node ∈ above ∧ node.copyfrom = some (path, revision) := by
  induction above with
  | nil => cases found
  | cons parent above ih =>
    rw [copiedParent] at found
    split at found
    · next copied =>
      cases found
      exact ⟨List.mem_cons_self, copied⟩
    · obtain ⟨member, copied⟩ := ih found
      exact ⟨List.mem_cons_of_mem _ member, copied⟩

theorem deltaPropagateCopy_post (closed : Queryable kept (AsksFor baton)) {parent : DeNode} {above : List DeNode}
    {child : DeNode} {st : DeltaState sys} (fromLog : FromLog baton child)
    (parents : ∀ node ∈ parent :: above, FromLog baton node) (holds : kept st.repo) :
    Post (fun result => FromLog baton result.1 ∧ kept result.2.repo) (fun e => kept e.repo)
      (deltaPropagateCopy baton parent above child st) := by
  have top := parents parent List.mem_cons_self
  unfold deltaPropagateCopy
  split
  · exact ⟨fromLog.congr rfl rfl fun dry _ => top.dry dry, holds⟩
  · next copy =>
    have wet : baton.opts.initialDryRun = false := by
      cases dry : baton.opts.initialDryRun with
      | false => rfl
      | true => exact absurd (top.dry dry) copy
    have noDry : ∀ {node' : DeNode}, baton.opts.initialDryRun = true → child.cpInfo ≠ .copy → node'.cpInfo ≠ .copy := by
      intro _ dry
      simp [wet] at dry
    split
    · exact ⟨fromLog, holds⟩
    · split
      · exact ⟨fromLog.congr rfl rfl noDry, holds⟩
      · next copied source original found =>
        obtain ⟨member, copies⟩ := copiedParent_mem found
        split
        · exact ⟨fromLog.congr rfl rfl noDry, holds⟩
        · next path reached =>
          have inside : baton.session.prefixPath <+: source := by
            unfold deltaGetLocalCopyfromPath at reached
            split at reached
            · assumption
            · cases reached
          have asks := AsksFor.source wet ((parents copied member).source _ _ copies) inside
          refine Post.bind (propagateLoop_post closed asks _ _ holds) fun answer holds' => ?_
          exact ⟨fromLog.congr rfl rfl noDry, holds'⟩

/-! ## Records -/

@[simp] theorem emit_repo (st : DeltaState sys) (record : NodeRecord) : (emit st record).repo = st.repo := rfl

@[simp] theorem finish_repo (node : DeNode) (st : DeltaState sys) : (finish node st).2.repo = st.repo := by
  unfold finish deltaMarkNode
  simp only
  split <;> rfl

theorem FromLog.finish {node : DeNode} (fromLog : FromLog baton node) (st : DeltaState sys) :
    FromLog baton (finish node st).1 :=
  fromLog.congr rfl rfl fun _ => id

theorem contentFile_post {node : DeNode} {st : DeltaState sys} (holds : kept st.repo) :
    Post (fun result => kept result.2.repo) (fun e => kept e.repo) (contentFile baton node st) := by
  unfold contentFile
  refine Post.bind (post_orError_fails holds) fun name _ => ?_
  refine Post.bind (post_orError_fails holds) fun target _ => ?_
  split
  · exact Post.bind (localText_post holds _) fun source _ => holds
  · exact holds

theorem dumpRecord_post {node : DeNode} {st : DeltaState sys} (fromLog : FromLog baton node)
    (holds : kept st.repo) :
    Post (fun result => FromLog baton result.1 ∧ kept result.2.repo) (fun e => kept e.repo)
      (dumpRecord baton node st) := by
  have finished : ∀ (st' : DeltaState sys) (record : NodeRecord), kept st'.repo →
      FromLog baton (finish node (emit st' record)).1 ∧ kept (finish node (emit st' record)).2.repo := by
    intro st' record holds'
    exact ⟨fromLog.finish _, by simpa using holds'⟩
  unfold dumpRecord
  simp only
  split
  · exact finished _ _ holds
  · split
    · exact finished _ _ holds
    · split
      · exact Post.bind (contentFile_post holds) fun answer holds' => finished _ _ holds'
      · exact finished _ _ holds

theorem dumpNodeWith_post (closed : Queryable kept (AsksFor baton))
    {replaceNode : DeNode → DeltaState sys → Result sys (DeNode × DeltaState sys)} {above : List DeNode}
    {node : DeNode} {st : DeltaState sys} (fromLog : FromLog baton node)
    (parents : ∀ parent ∈ above, FromLog baton parent) (holds : kept st.repo)
    (replaced : ∀ node st, baton.opts.initialDryRun = false → FromLog baton node → kept st.repo →
      Post (fun result => FromLog baton result.1 ∧ kept result.2.repo) (fun e => kept e.repo) (replaceNode node st)) :
    Post (fun result => FromLog baton result.1 ∧ kept result.2.repo) (fun e => kept e.repo)
      (dumpNodeWith baton replaceNode above node st) := by
  unfold dumpNodeWith
  split
  · exact ⟨fromLog.congr rfl rfl fun _ => id, holds⟩
  · next dumped =>
    have wet : baton.opts.initialDryRun = false := by
      simp only [isSkipped, Bool.or_eq_true, not_or, Bool.not_eq_true] at dumped
      exact dumped.1.1.2
    refine Post.bind (deltaCheckAction_post closed wet (fromLog_deltaCheckCopy fromLog wet) parents holds)
      fun checked step => ?_
    obtain ⟨node', st'⟩ := checked
    simp only
    split
    · exact replaced node' st' wet step.1 step.2
    · exact dumpRecord_post step.1 step.2

theorem deltaDumpNode_post (closed : Queryable kept (AsksFor baton)) {above : List DeNode} {node : DeNode}
    {st : DeltaState sys} (fromLog : FromLog baton node) (parents : ∀ parent ∈ above, FromLog baton parent)
    (holds : kept st.repo) :
    Post (fun result => FromLog baton result.1 ∧ kept result.2.repo) (fun e => kept e.repo)
      (deltaDumpNode baton above node st) := by
  refine dumpNodeWith_post closed fromLog parents holds fun node st wet fromLog holds => ?_
  have emitted : kept (emit st ⟨printedPath baton node.path, none, .delete, none, none⟩).repo := holds
  refine dumpNodeWith_post closed (fromLog.congr rfl rfl fun dry => ?_) parents emitted fun node st _ => dumpRecord_post
  simp [wet] at dry

theorem deltaDumpNodeIf_post (closed : Queryable kept (AsksFor baton)) {now : Bool} {above : List DeNode}
    {node : DeNode} {st : DeltaState sys} (fromLog : FromLog baton node)
    (parents : ∀ parent ∈ above, FromLog baton parent) (holds : kept st.repo) :
    Post (fun result => FromLog baton result.1 ∧ kept result.2.repo) (fun e => kept e.repo)
      (deltaDumpNodeIf baton now above node st) := by
  unfold deltaDumpNodeIf
  split
  · exact deltaDumpNode_post closed fromLog parents holds
  · exact ⟨fromLog, holds⟩

theorem dumpChildren_post (closed : Queryable kept (AsksFor baton)) {nodes : NodeTree} {parent : DeNode}
    {above : List DeNode} {st : DeltaState sys} (tree : nodes.All (FromLog baton))
    (parents : ∀ node ∈ parent :: above, FromLog baton node) (holds : kept st.repo) :
    Post (fun st' => kept st'.repo) (fun e => kept e.repo) (dumpChildren baton parent above nodes st) := by
  induction nodes generalizing parent above st with
  | nil => exact holds
  | cons child children rest ihChildren ihRest =>
    obtain ⟨fromLog, inner, later⟩ := tree
    rw [dumpChildren]
    refine Post.bind (deltaPropagateCopy_post closed fromLog parents holds) fun propagated first => ?_
    refine Post.bind (deltaDumpNodeIf_post closed first.1 parents first.2) fun top second => ?_
    refine Post.bind (ihChildren inner ?_ second.2) fun below third => ?_
    · intro node member
      rcases List.mem_cons.mp member with rfl | member
      · exact second.1
      · exact parents node member
    · refine Post.bind (deltaDumpNodeIf_post closed second.1 parents third) fun bottom fourth => ?_
      exact ihRest later parents fourth.2

theorem deltaDumpNodeRecursive_post (closed : Queryable kept (AsksFor baton)) {root : DeNode} {nodes : NodeTree}
    {st : DeltaState sys} (fromLog : FromLog baton root) (tree : nodes.All (FromLog baton))
    (holds : kept st.repo) :
    Post (fun st' => kept st'.repo) (fun e => kept e.repo) (deltaDumpNodeRecursive baton root nodes st) := by
  refine Post.bind (deltaDumpNode_post closed fromLog (by simp) holds) fun dumped first => ?_
  exact dumpChildren_post closed tree (by simpa using first.1) first.2

/-! ## Closing the edit -/

variable (baton) in
/-- The deletions of the first revision are looked up in the tree that is being edited. -/
def AsksCurrent (r : Int) : Prop :=
  r = baton.localRevnum ∧ baton.opts.start > 1 ∧ baton.logRevision.revision = baton.opts.start ∧
    ∃ table path info, baton.logRevision.changedPaths = some table ∧ table.lookup path = some info ∧
      info.action = .delete

@[simp] theorem unlinkLocal_repo (st : DeltaState sys) (path : CString) : (unlinkLocal st path).repo = st.repo := by
  unfold unlinkLocal
  split <;> rfl

/-- A deletion that is not dumped yet and not covered; its tree is only asked for in the first revision. -/
theorem closeEntry_post (closed : Queryable kept (AsksFor baton)) {entry : (_ : CString) × ChangedPath}
    (current : entry.2.action = .delete → baton.opts.start > 1 → baton.logRevision.revision = baton.opts.start →
      Queryable kept (· = baton.localRevnum)) {st : DeltaState sys} (holds : kept st.repo) :
    Post (fun st' => kept st'.repo) (fun e => kept e.repo) (closeEntry baton st entry) := by
  have dumped : ∀ (skip : Bool) (st : DeltaState sys), kept st.repo →
      Post (fun st' => kept st'.repo) (fun e => kept e.repo)
        (if skip then .ok st
        else deltaDumpNode baton [] { deltaCreateNodeNoParent entry.1 .none .delete with dumpNeeded := true } st >>=
          fun dumped => .ok dumped.2) := by
    intro skip st holds
    split
    · exact holds
    · have fromLog : FromLog baton { deltaCreateNodeNoParent entry.1 .none .delete with dumpNeeded := true } :=
        fromLog_root.congr rfl rfl fun _ => id
      exact Post.bind (deltaDumpNode_post closed fromLog (by simp) holds) fun result kept => kept.2
  unfold closeEntry
  simp only
  split
  · exact holds
  · next deleted =>
    split
    · simpa using holds
    · split
      · exact dumped true _ (by simpa using holds)
      · split
        · next first =>
          have asks := current (Decidable.not_not.mp deleted) first.1 first.2
          split
          · next found st' answered =>
            exact dumped _ _ (pathExists_kept asks rfl (by simpa using holds) answered)
          · exact dumped false _ (by simpa using holds)
        · exact dumped false _ (by simpa using holds)

theorem deCloseEdit_post (closed : Queryable kept fun r => AsksFor baton r ∨ AsksCurrent baton r) {root : DeNode}
    {nodes : NodeTree} {st : DeltaState sys} (fromLog : FromLog baton root) (tree : nodes.All (FromLog baton))
    (holds : kept st.repo) :
    Post (fun st' => kept st'.repo) (fun e => kept e.repo) (deCloseEdit baton root nodes st) := by
  have editing := closed.mono fun r asks => Or.inl asks
  refine Post.bind (deltaDumpNodeRecursive_post editing fromLog tree holds) fun dumped first => ?_
  refine Post.bind (post_orError (fun table found => found) first) fun table found => ?_
  refine post_foldlM first fun st entry member holds => closeEntry_post editing ?_ holds
  intro deleted started same
  refine closed.mono fun r current => .inr ⟨current, started, same, table, entry.1, entry.2, found, ?_, deleted⟩
  exact AList.mem_lookup_iff.mpr member

/-- A whole edit keeps what its calls keep. -/
theorem runEdit_post (closed : Closed kept fun r => AsksFor baton r ∨ AsksCurrent baton r) (edit : Edit)
    {st : DeltaState sys} (holds : kept st.repo) :
    Post (fun st' => kept st'.repo) (fun e => kept e.repo) (runEdit baton edit st) := by
  have root : FromLog baton (edit.rootProps.foldl changeProp deOpenRoot) := fromLog_root.changeProps edit.rootProps
  have start : kept { st with dumpedEntries := ∅, out := [] }.repo := holds
  refine Post.bind (runDrive_post closed edit.children root start) fun driven first => ?_
  exact deCloseEdit_post closed.queries root first.1 first.2

end Edit

end Rsvndump
