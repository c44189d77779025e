import Rsvndump.Delta.CopyPropagation
import Rsvndump.Delta.Covered
import Rsvndump.Delta.Dumping
import Rsvndump.Delta.Refused
import Rsvndump.PathRepo.Filled

/-! The records that the nodes of an edit leave.

The log is trusted in a full dump: the action of a node is not checked again, and
its copy source is printed as the log has it.
-/

set_option autoImplicit false

namespace Rsvndump

open Library

variable {sys : Platform} {baton : DeBaton} {repo : RepoPaths} {table : AprHash ChangedPath}

/-! ## Nodes -/

-- The callbacks make nodes of three kinds. What they do with texts and properties is of no
-- concern here, since a path is loaded with any.

/-- The node of an added path, as the log has it. -/
structure AddedNode (table : AprHash ChangedPath) (path : CString) (node : DeNode) : Prop where
  place : node.path = path
  needed : node.dumpNeeded = true
  action : node.action = ((table.lookup path).map ChangedPath.action).getD .add
  copyfrom : node.copyfrom = (table.lookup path).bind ChangedPath.copyfrom

structure OpenedNode (path : CString) (node : DeNode) : Prop where
  place : node.path = path
  action : node.action = .modify
  copyfrom : node.copyfrom = none

structure DeletedNode (path : CString) (node : DeNode) : Prop where
  place : node.path = path
  needed : node.dumpNeeded = true
  action : node.action = .delete
  copyfrom : node.copyfrom = none

/-- The nodes are those the callbacks make for the calls. -/
inductive Builds (table : AprHash ChangedPath) : TreeEdit → NodeTree → Prop
  | done : Builds table .done .nil
  | delete {path : CString} {rest : TreeEdit} {node : DeNode} {nodes : NodeTree} : DeletedNode path node →
      Builds table rest nodes → Builds table (.delete path rest) (.cons node .nil nodes)
  | add {path : CString} {children rest : TreeEdit} {node : DeNode} {inner nodes : NodeTree} : AddedNode table path node →
      Builds table children inner → Builds table rest nodes → Builds table (.add path children rest) (.cons node inner nodes)
  | enter {path : CString} {children rest : TreeEdit} {node : DeNode} {inner nodes : NodeTree} : OpenedNode path node →
      Builds table children inner → Builds table rest nodes → Builds table (.enter path children rest) (.cons node inner nodes)

section Callbacks

variable {parent node : DeNode} {path : CString} {st : DeltaState sys}

theorem changeProp_needed (node : DeNode) (change : PropChange) (needed : node.dumpNeeded = true) :
    (changeProp node change).dumpNeeded = true := by
  unfold changeProp
  split
  · split <;> rfl
  · exact needed

theorem changeProps_needed (changes : List PropChange) (needed : node.dumpNeeded = true) :
    (changes.foldl changeProp node).dumpNeeded = true := by
  induction changes generalizing node with
  | nil => exact needed
  | cons change changes ih => exact ih (changeProp_needed node change needed)

theorem AddedNode.changeProps (added : AddedNode table path node) (changes : List PropChange) :
    AddedNode table path (changes.foldl changeProp node) := by
  refine ⟨?_, changeProps_needed changes added.needed, ?_, ?_⟩
  all_goals rw [onlyProps_changeProps changes node]
  · exact added.place
  · exact added.action
  · exact added.copyfrom

theorem OpenedNode.changeProps (opened : OpenedNode path node) (changes : List PropChange) :
    OpenedNode path (changes.foldl changeProp node) := by
  constructor
  all_goals rw [onlyProps_changeProps changes node]
  · exact opened.place
  · exact opened.action
  · exact opened.copyfrom

theorem changeProps_cpInfo (changes : List PropChange) (node : DeNode) : (changes.foldl changeProp node).cpInfo = node.cpInfo := by
  rw [onlyProps_changeProps changes node]

/-- The node is made outside of copies and nothing is printed. -/
def MakesNode (made : DeNode → Prop) (st : DeltaState sys) (result : DeNode × DeltaState sys) : Prop :=
  made result.1 ∧ result.1.cpInfo = .none ∧ DumpsNothing st result.2

theorem addFromLog_node (outside : node.cpInfo = .none) (place : node.path = path) (needed : node.dumpNeeded = true)
    (action : node.action = .add) (copyfrom : node.copyfrom = none) :
    AddedNode table path (addFromLog node (table.lookup path)) ∧ (addFromLog node (table.lookup path)).cpInfo = .none := by
  cases found : table.lookup path with
  | none => exact ⟨⟨place, needed, by rw [found]; exact action, by rw [found]; exact copyfrom⟩, outside⟩
  | some info => exact ⟨⟨place, needed, by rw [found]; rfl, by rw [found]; rfl⟩, by simp [addFromLog, outside, CpInfo.isFailed]⟩

theorem OnlyRepo.dumpsNothing {st st' : DeltaState sys} (same : OnlyRepo st st') : DumpsNothing st st' :=
  ⟨same.out, same.dumpedEntries⟩

theorem logEntry_lookup (entries : baton.logRevision.changedPaths = some table) :
    logEntry baton path st = .ok (table.lookup path) := by
  unfold logEntry
  rw [entries]
  rfl

theorem deAddDirectory_node (outside : parent.cpInfo = .none) (entries : baton.logRevision.changedPaths = some table) :
    Post (MakesNode (AddedNode table path) st) (fun _ => True) (deAddDirectory baton parent path st) := by
  unfold deAddDirectory
  rw [logEntry_lookup entries, ok_bind]
  refine Post.bind (schedulePath_frame path st) fun st' same => ?_
  obtain ⟨added, none⟩ := @addFromLog_node table { deltaCreateNode path parent .dir .add with dumpNeeded := true } path outside
    rfl rfl rfl rfl
  exact ⟨added, none, same.dumpsNothing⟩

theorem deAddFile_node (outside : parent.cpInfo = .none) (entries : baton.logRevision.changedPaths = some table) :
    Post (MakesNode (AddedNode table path) st) (fun _ => True) (deAddFile baton parent path st) := by
  unfold deAddFile
  rw [logEntry_lookup entries, ok_bind]
  refine Post.bind (schedulePath_frame path st) fun st' same => ?_
  obtain ⟨added, none⟩ := @addFromLog_node table { deltaCreateNode path parent .file .add with dumpNeeded := true } path outside
    rfl rfl rfl rfl
  dsimp only
  rw [if_neg (by simp [none, CpInfo.isFailed])]
  exact ⟨added, none, same.dumpsNothing⟩

theorem openNode_node {kind : NodeKind} (outside : parent.cpInfo = .none) :
    Post (MakesNode (OpenedNode path) st) (fun _ => True) (openNode kind parent path st) :=
  Post.bind (post_orError_fails trivial) fun _ _ => ⟨⟨rfl, rfl, rfl⟩, outside, rfl, rfl⟩

theorem deDeleteEntry_node :
    Post (fun result => DeletedNode path result.1 ∧ DumpsNothing st result.2) (fun _ => True)
      (deDeleteEntry baton parent path st) := by
  unfold deDeleteEntry deDeleteEntryWith
  refine Post.bind (post_orError_fails trivial) fun _ _ => ?_
  refine Post.bind (post_orError_fails trivial) fun _ _ => ⟨⟨rfl, rfl, rfl, rfl⟩, ?_⟩
  dsimp only
  split <;> exact ⟨rfl, rfl⟩

/-- A text changes neither what is known of a node nor what has been printed. -/
theorem applyText_node {made : DeNode → Prop} (text : Option TextDelta)
    (kept : ∀ node' : DeNode, node'.path = node.path → node'.action = node.action → node'.copyfrom = node.copyfrom →
      (node.dumpNeeded = true → node'.dumpNeeded = true) → made node') :
    Post (fun result => made result.1 ∧ DumpsNothing st result.2) (fun _ => True) (applyText node st text) := by
  cases text with
  | none => exact ⟨kept node rfl rfl rfl id, rfl, rfl⟩
  | some delta =>
    simp only [applyText, deApplyTextdelta]
    exact Post.bind (@localText_post _ (fun _ => True) _ trivial _) fun _ _ => ⟨kept _ rfl rfl rfl fun _ => rfl, rfl, rfl⟩

theorem DumpsNothing.trans {a b c : DeltaState sys} (first : DumpsNothing a b) (second : DumpsNothing b c) : DumpsNothing a c :=
  ⟨second.1.trans first.1, second.2.trans first.2⟩

theorem closeNode_prints (node : DeNode) (st : DeltaState sys) : DumpsNothing st (closeNode node st) := ⟨rfl, rfl⟩

/-- The callbacks build the nodes of the calls and print nothing. -/
theorem runDrive_builds (outside : parent.cpInfo = .none) (entries : baton.logRevision.changedPaths = some table) (drive : Drive) :
    Post (fun result => Builds table drive.treeEdit result.1 ∧ DumpsNothing st result.2) (fun _ => True)
      (runDrive baton parent drive st) := by
  induction drive generalizing parent st with
  | done => exact ⟨.done, rfl, rfl⟩
  | deleteEntry path rest ih =>
    refine Post.bind deDeleteEntry_node fun created deleted => ?_
    exact Post.bind (ih outside) fun nodes tail => ⟨.delete deleted.1 tail.1, deleted.2.trans tail.2⟩
  | addDirectory path props children rest ihChildren ihRest =>
    refine Post.bind (deAddDirectory_node outside entries) fun created added => ?_
    obtain ⟨node, none, first⟩ := added
    refine Post.bind (ihChildren ((changeProps_cpInfo props created.1).trans none)) fun inner below => ?_
    refine Post.bind (ihRest outside) fun nodes tail => ?_
    exact ⟨.add (node.changeProps props) below.1 tail.1,
      ((first.trans below.2).trans (closeNode_prints _ _)).trans tail.2⟩
  | openDirectory path props children rest ihChildren ihRest =>
    refine Post.bind (openNode_node outside) fun created opened => ?_
    obtain ⟨node, none, first⟩ := opened
    refine Post.bind (ihChildren ((changeProps_cpInfo props created.1).trans none)) fun inner below => ?_
    refine Post.bind (ihRest outside) fun nodes tail => ?_
    exact ⟨.enter (node.changeProps props) below.1 tail.1,
      ((first.trans below.2).trans (closeNode_prints _ _)).trans tail.2⟩
  | addFile path props text rest ih =>
    refine Post.bind (deAddFile_node outside entries) fun created added => ?_
    obtain ⟨node, -, first⟩ := added
    have changed := node.changeProps props
    refine Post.bind (@applyText_node _ _ _ (AddedNode table path) text fun node' place action copyfrom needed =>
      ⟨place.trans changed.place, needed changed.needed, action.trans changed.action, copyfrom.trans changed.copyfrom⟩)
      fun applied text => ?_
    refine Post.bind (ih outside) fun nodes tail => ?_
    exact ⟨.add text.1 .done tail.1, ((first.trans text.2).trans (closeNode_prints _ _)).trans tail.2⟩
  | openFile path props text rest ih =>
    refine Post.bind (openNode_node outside) fun created opened => ?_
    obtain ⟨node, -, first⟩ := opened
    have changed := node.changeProps props
    refine Post.bind (@applyText_node _ _ _ (OpenedNode path) text fun node' place action copyfrom _ =>
      ⟨place.trans changed.place, action.trans changed.action, copyfrom.trans changed.copyfrom⟩) fun applied text => ?_
    refine Post.bind (ih outside) fun nodes tail => ?_
    exact ⟨.enter text.1 .done tail.1, ((first.trans text.2).trans (closeNode_prints _ _)).trans tail.2⟩

end Callbacks

/-! ## Dumped nodes -/

/-- A dump of the whole repository from the first revision on. -/
structure WholeDump (baton : DeBaton) : Prop where
  root : baton.session.prefixPath = []
  start : baton.opts.start = 0
  wet : baton.opts.initialDryRun = false

/-- The records are printed and the marks entered, in their order. -/
structure Leaves (st : DeltaState sys) (records : List NodeRecord) (marks : List DeNode) (st' : DeltaState sys) : Prop where
  out : st'.out = st.out ++ records
  entries : st'.dumpedEntries = entered st.dumpedEntries marks

theorem DumpsNothing.leaves {st st' : DeltaState sys} (nothing : DumpsNothing st st') : Leaves st [] [] st' :=
  ⟨by rw [nothing.1, List.append_nil], nothing.2⟩

theorem Leaves.trans {st mid st' : DeltaState sys} {records more : List NodeRecord} {marks moreMarks : List DeNode}
    (first : Leaves st records marks mid) (second : Leaves mid more moreMarks st') :
    Leaves st (records ++ more) (marks ++ moreMarks) st' where
  out := by rw [second.out, first.out, List.append_assoc]
  entries := by rw [second.entries, first.entries, entered_append]

section Dumped

variable {above : List DeNode} {node node' : DeNode} {path : CString} {st st' : DeltaState sys}

theorem WholeDump.trusts (whole : WholeDump baton) : trustsLog baton.session baton.opts :=
  ⟨by rw [whole.root]; rfl, .inl whole.start⟩

theorem localPath_root {source : CString} (relative : source.head? ≠ some slash) :
    deltaGetLocalCopyfromPath [] source = some source := by
  rw [deltaGetLocalCopyfromPath, if_pos List.nil_prefix, List.length_nil, List.drop_zero, skipSlashes]
  cases source with
  | nil => rfl
  | cons c rest => exact congrArg some (List.dropWhile_cons_of_neg (by simpa using relative))

theorem deltaCheckAction_trusted (whole : WholeDump baton) : deltaCheckAction baton above node st = .ok (node, st) := by
  unfold deltaCheckAction
  split
  · rfl
  · rw [if_pos whole.trusts]

theorem deltaCheckCopy_without (copyfrom : node.copyfrom = none) (unfailed : node.cpInfo.isFailed = false) :
    deltaCheckCopy baton node = node := by
  have info : node.cpInfo = .copy ∨ node.cpInfo = .none := by
    cases same : node.cpInfo <;> simp_all [CpInfo.isFailed]
  unfold deltaCheckCopy
  rw [copyfrom]
  rcases info with copy | none
  · exact if_pos (.inl copy)
  · have itself : { node with cpInfo := .none } = node := by
      rw [← none]
    dsimp only
    rw [if_neg (by simp [none, CpInfo.isFailed])]
    rwa [copyfrom] at itself

theorem deltaCheckCopy_with (whole : WholeDump baton) {source : CString} {original : Int}
    (copyfrom : node.copyfrom = some (source, original)) (unfailed : node.cpInfo.isFailed = false) :
    deltaCheckCopy baton node = { node with copyfromRevLocal := original, cpInfo := .copy } := by
  unfold deltaCheckCopy
  rw [copyfrom]
  dsimp only
  rw [if_neg (by simp [unfailed]), if_pos whole.trusts]

/-- The copy source of a checked node is the one of the log. -/
theorem copyInfo_checked (whole : WholeDump baton) (unfailed : node.cpInfo.isFailed = false)
    (relative : ∀ source original, node.copyfrom = some (source, original) → source.head? ≠ some slash) :
    copyInfo baton (deltaCheckCopy baton node) = node.copyfrom := by
  cases copyfrom : node.copyfrom with
  | none =>
    rw [deltaCheckCopy_without copyfrom unfailed, copyInfo, copyfrom]
    split <;> rfl
  | some copy =>
    rw [deltaCheckCopy_with whole copyfrom unfailed, copyInfo, if_pos rfl, whole.root]
    simp only [copyfrom, Option.map_some, localPath_root (relative copy.1 copy.2 copyfrom)]
    rfl

/-- A node that is not deleted leaves one record and is entered. -/
theorem dumpRecord_leaves (present : node.action ≠ .delete) (ran : dumpRecord baton node st = .ok (node', st')) :
    node' = { node with dumpNeeded := false } ∧ st'.repo = st.repo ∧
      ∃ body, Leaves st [presentRecord baton node body] [node'] st' := by
  obtain ⟨record, mid, writes, done⟩ := dumpRecord_cases ran
  obtain ⟨own, entries⟩ := finish_entries node mid record
  have node_eq : node' = (finish node (emit mid record)).1 := congrArg Prod.fst done
  have state_eq : st' = (finish node (emit mid record)).2 := congrArg Prod.snd done
  rw [own] at node_eq
  have repo : mid.repo = st.repo := by rw [writes.frame]
  have kept : mid.dumpedEntries = st.dumpedEntries := by rw [writes.frame]
  have leaves : Leaves st [record] [node'] st' := by
    refine ⟨by rw [state_eq, finish_out, emit_out, writes.out], ?_⟩
    rw [state_eq, entries, node_eq, kept]
    rfl
  refine ⟨node_eq, by rw [state_eq, finish_repo, emit_repo, repo], ?_⟩
  cases writes with
  | deleted gone => exact absurd gone present
  | unchanged => exact ⟨_, leaves⟩
  | text => exact ⟨_, leaves⟩
  | props => exact ⟨_, leaves⟩

/-- The node in whose place the record of a node is made: a replaced one is added and is checked once more. -/
def checkedNode (baton : DeBaton) (node : DeNode) : DeNode :=
  if node.action = .replace then deltaCheckCopy baton { deltaCheckCopy baton node with cpInfo := .none, action := .add }
  else deltaCheckCopy baton node

/-- A node that is neither skipped nor deleted leaves one record, behind a deletion if it is replaced. -/
theorem deltaDumpNode_leaves (whole : WholeDump baton) (present : node.action ≠ .delete)
    (ran : deltaDumpNode baton above node st = .ok (node', st')) :
    (isSkipped baton node = true ∧ node' = { node with dumpNeeded := false } ∧ st' = st) ∨
      (isSkipped baton node = false ∧ node' = { checkedNode baton node with dumpNeeded := false } ∧ st'.repo = st.repo ∧
        ∃ body, Leaves st ((if node.action = .replace then [deleteRecord baton node.path] else []) ++
          [presentRecord baton (checkedNode baton node) body]) [node'] st') := by
  obtain skipped | ⟨dumped, checked, mid, check, ran⟩ := deltaDumpNode_checked ran
  · exact .inl skipped
  refine .inr ⟨dumped, ?_⟩
  rw [deltaCheckAction_trusted whole] at check
  obtain ⟨rfl, rfl⟩ := Prod.mk.inj (Except.ok.inj check)
  rw [deltaCheckCopy_action] at ran
  unfold checkedNode
  rcases ran with ⟨kept, ran⟩ | ⟨replaced, ran⟩
  · rw [if_neg kept, if_neg kept]
    have shown : (deltaCheckCopy baton node).action ≠ .delete := by rwa [deltaCheckCopy_action]
    obtain ⟨same, repo, body, leaves⟩ := dumpRecord_leaves shown ran
    exact ⟨same, repo, body, leaves⟩
  · -- a deletion first, and the record of the node as an added one
    rw [if_pos replaced, if_pos replaced]
    have place := @deltaCheckCopy_path baton node
    have shown : (deltaCheckCopy baton { deltaCheckCopy baton node with cpInfo := .none, action := .add }).action ≠ .delete := by
      rw [deltaCheckCopy_action]
      simp
    obtain ⟨same, repo, body, leaves⟩ := dumpRecord_leaves shown ran
    rw [place] at leaves
    have deleted : Leaves st [deleteRecord baton node.path] [] (emit st (deleteRecord baton node.path)) := ⟨rfl, rfl⟩
    exact ⟨same, repo, body, deleted.trans leaves⟩

section Checked

variable (whole : WholeDump baton) (unfailed : node.cpInfo.isFailed = false)

theorem checkedNode_path : (checkedNode baton node).path = node.path := by
  unfold checkedNode
  split
  · rw [deltaCheckCopy_path, deltaCheckCopy_path]
  · exact deltaCheckCopy_path node

theorem checkedNode_copyfrom : (checkedNode baton node).copyfrom = node.copyfrom := by
  unfold checkedNode
  split
  · rw [deltaCheckCopy_copyfrom, deltaCheckCopy_copyfrom]
  · exact deltaCheckCopy_copyfrom node

theorem checkedNode_action : (checkedNode baton node).action = if node.action = .replace then .add else node.action := by
  unfold checkedNode
  split
  · exact deltaCheckCopy_action baton _
  · exact deltaCheckCopy_action baton node

include whole unfailed

theorem copyInfo_checkedNode (relative : ∀ source original, node.copyfrom = some (source, original) → source.head? ≠ some slash) :
    copyInfo baton (checkedNode baton node) = node.copyfrom := by
  unfold checkedNode
  split
  · have reset := @copyInfo_checked baton { deltaCheckCopy baton node with cpInfo := .none, action := .add } whole rfl
    rw [show ({ deltaCheckCopy baton node with cpInfo := .none, action := .add } : DeNode).copyfrom = node.copyfrom from
      deltaCheckCopy_copyfrom node] at reset
    exact reset relative
  · exact copyInfo_checked whole unfailed relative

theorem checkedNode_copy {source : CString} {original : Int} (copyfrom : node.copyfrom = some (source, original)) :
    (checkedNode baton node).cpInfo = .copy := by
  unfold checkedNode
  split
  · rw [@deltaCheckCopy_with baton { deltaCheckCopy baton node with cpInfo := .none, action := .add } whole source original
      ((deltaCheckCopy_copyfrom node).trans copyfrom) rfl]
  · rw [deltaCheckCopy_with whole copyfrom unfailed]

omit whole in
theorem checkedNode_plain (copyfrom : node.copyfrom = none) :
    (checkedNode baton node).cpInfo = if node.action = .replace then .none else node.cpInfo := by
  unfold checkedNode
  split
  · rw [@deltaCheckCopy_without baton { deltaCheckCopy baton node with cpInfo := .none, action := .add }
      ((deltaCheckCopy_copyfrom node).trans copyfrom) rfl]
  · rw [deltaCheckCopy_without copyfrom unfailed]

end Checked

/-- The copy information of a node says whether its path comes with a copy. -/
def Decided (repo : RepoPaths) (table : AprHash ChangedPath) (visited : List CString) (path : CString) (node : DeNode) : Prop :=
  node.cpInfo = .copy ∧ Cloned repo table visited path ∨ node.cpInfo = .none ∧ ¬ Cloned repo table visited path

/-- What an added node that has been visited hands down to those below it. -/
inductive HandsDown (repo : RepoPaths) (table : AprHash ChangedPath) (visited : List CString) (path : CString) (node : DeNode) :
    Prop
  | copy {info : ChangedPath} {source : CString} {original : Int} : table.lookup path = some info → info.adds →
      info.copyfrom = some (source, original) → node.copyfrom = some (source, original) → node.cpInfo = .copy →
      HandsDown repo table visited path node
  | fresh {info : ChangedPath} : table.lookup path = some info → info.adds → info.copyfrom = none → node.cpInfo = .none →
      HandsDown repo table visited path node
  | kept : (∀ info, table.lookup path = some info → ¬ info.adds) → node.copyfrom = none → Decided repo table visited path node →
      HandsDown repo table visited path node

variable {revision : Int} {visited : List CString}

theorem Decided.unfailed (decided : Decided repo table visited path node) : node.cpInfo.isFailed = false := by
  rcases decided with ⟨info, -⟩ | ⟨info, -⟩ <;> rw [info] <;> rfl

theorem presentRecord_add {last : DeNode} {copyfrom : Option (CString × Int)} {body : Option NodeBody} (action : last.action = .add)
    (place : last.path = path) (info : copyInfo baton last = copyfrom) :
    IsAdd baton path copyfrom (presentRecord baton last body) :=
  ⟨action, by rw [presentRecord, place], by rw [presentRecord, info]⟩

theorem isSkipped_added (whole : WholeDump baton) (needed : node.dumpNeeded = true) :
    isSkipped baton node = true ↔ (node.action = .modify ∧ node.kind = .dir ∧ node.propsChanged = false) ∨
      (node.cpInfo = .copy ∧ node.action = .add ∧ node.copyfrom = none) := by
  simp [isSkipped, needed, whole.wet]

theorem HandsDown.unfailed (hands : HandsDown repo table visited path node) : node.cpInfo.isFailed = false := by
  cases hands with
  | copy _ _ _ _ info => rw [info]; rfl
  | fresh _ _ _ info => rw [info]; rfl
  | kept _ _ decided => exact decided.unfailed

section AddedNode

variable (added : AddedNode table path node) (lawful : Lawful repo table revision visited path)

include added lawful

theorem AddedNode.present : node.action ≠ .delete := by
  rw [added.action]
  cases found : table.lookup path with
  | none => exact fun wrong => nomatch wrong
  | some info => exact lawful.kept info found

/-- A path that the log neither adds nor replaces has no copy source. -/
theorem AddedNode.without (quiet : ∀ info, table.lookup path = some info → ¬ info.adds) : node.copyfrom = none := by
  rw [added.copyfrom]
  cases found : table.lookup path with
  | none => rfl
  | some info =>
    cases copies : info.copyfrom with
    | none => exact copies
    | some copy => exact absurd (lawful.source info copy.1 copy.2 found copies).1 (quiet info found)

theorem AddedNode.relative (trees : ∀ r, PathTree (repo r)) (source : CString) (original : Int)
    (copies : node.copyfrom = some (source, original)) : source.head? ≠ some slash := by
  rw [added.copyfrom] at copies
  obtain ⟨info, found, copies⟩ := Option.bind_eq_some_iff.mp copies
  rcases (lawful.source info source original found copies).2.2.2 with rfl | inside
  · simp
  · exact ((trees original).plain source inside).relative

theorem AddedNode.handsDown (whole : WholeDump baton) (decided : Decided repo table visited path node) :
    HandsDown repo table visited path { checkedNode baton node with dumpNeeded := false } := by
  have unfailed := decided.unfailed
  have same : (checkedNode baton node).copyfrom = node.copyfrom := checkedNode_copyfrom
  by_cases adds : ∃ info, table.lookup path = some info ∧ info.adds
  · obtain ⟨info, found, adds⟩ := adds
    have copyfrom : node.copyfrom = info.copyfrom := by rw [added.copyfrom, found]; rfl
    cases copies : info.copyfrom with
    | some copy =>
      have source : (checkedNode baton node).copyfrom = some copy := same.trans (copyfrom.trans copies)
      exact .copy found adds copies source (checkedNode_copy whole unfailed (copyfrom.trans copies))
    | none =>
      refine .fresh found adds copies ((checkedNode_plain unfailed (copyfrom.trans copies)).trans ?_)
      split
      · rfl
      · next kept =>
        -- what the log adds does not come with a copy
        have action : info.action = .add := adds.resolve_right fun replaced => kept (by rw [added.action, found]; exact replaced)
        rcases decided with ⟨-, source, -, supplied⟩ | ⟨none, -⟩
        · exact absurd ⟨source, supplied⟩ (lawful.absent info found action)
        · exact none
  · have quiet : ∀ info, table.lookup path = some info → ¬ info.adds := fun info found own => adds ⟨info, found, own⟩
    have without := added.without lawful quiet
    have action : node.action ≠ .replace := by
      intro replaced
      rw [added.action] at replaced
      cases found : table.lookup path with
      | none =>
        rw [found] at replaced
        cases replaced
      | some info =>
        rw [found] at replaced
        exact quiet info found (.inr replaced)
    have info := @checkedNode_plain baton _ unfailed without
    rw [if_neg action] at info
    refine .kept quiet (same.trans without) ?_
    unfold Decided
    rw [info]
    exact decided

/-- An added node is skipped as a directory without changes, or because it comes with a copy. -/
theorem AddedNode.skipped (whole : WholeDump baton) (decided : Decided repo table visited path node)
    (skipped : isSkipped baton node = true) :
    AddEmits baton repo table visited path [] [] ∧ HandsDown repo table visited path { node with dumpNeeded := false } := by
  have action := added.action
  cases found : table.lookup path with
  | none =>
    have quiet : ∀ info, table.lookup path = some info → ¬ info.adds := by
      intro info listed
      rw [found] at listed
      cases listed
    rw [found] at action
    have copy : node.cpInfo = .copy := by
      rcases (isSkipped_added whole added.needed).mp skipped with ⟨wrong, -⟩ | ⟨copy, -⟩
      · rw [action] at wrong
        cases wrong
      · exact copy
    have cloned : Cloned repo table visited path := by
      rcases decided with ⟨-, cloned⟩ | ⟨wrong, -⟩
      · exact cloned
      · rw [copy] at wrong
        cases wrong
    exact ⟨.cloned found cloned, .kept quiet (added.without lawful quiet) decided⟩
  | some info =>
    rw [found] at action
    have modified : info.action = .modify := by
      rcases (isSkipped_added whole added.needed).mp skipped with ⟨modify, -⟩ | ⟨copy, add, -⟩
      · exact action.symm.trans modify
      · -- what the log adds does not come with a copy
        rcases decided with ⟨-, source, -, supplied⟩ | ⟨wrong, -⟩
        · exact absurd ⟨source, supplied⟩ (lawful.absent info found (action.symm.trans add))
        · rw [copy] at wrong
          cases wrong
    have quiet : ∀ info, table.lookup path = some info → ¬ info.adds := by
      intro info' listed
      cases Option.some.inj (found.symm.trans listed)
      exact not_adds_of_modify modified
    exact ⟨.unchanged found modified, .kept quiet (added.without lawful quiet) decided⟩

/-- An added node that is not skipped is dumped as the log has it. -/
theorem AddedNode.recorded (whole : WholeDump baton) (decided : Decided repo table visited path node)
    (trees : ∀ r, PathTree (repo r)) (dumped : isSkipped baton node = false) (body : Option NodeBody) {marked : DeNode}
    (entry : Present path marked) :
    AddEmits baton repo table visited path
      ((if node.action = .replace then [deleteRecord baton path] else []) ++ [presentRecord baton (checkedNode baton node) body])
      [marked] := by
  have place : (checkedNode baton node).path = path := checkedNode_path.trans added.place
  have shown := @checkedNode_action baton node
  have info' := copyInfo_checkedNode whole decided.unfailed (added.relative lawful trees)
  have action := added.action
  rw [added.copyfrom] at info'
  cases found : table.lookup path with
  | none =>
    rw [found] at action info'
    have kept : node.action ≠ .replace := by
      rw [action]
      exact fun wrong => nomatch wrong
    rw [if_neg kept] at shown ⊢
    refine .plain found ?_ (presentRecord_add (shown.trans action) place info') entry
    rcases decided with ⟨copy, -⟩ | ⟨-, own⟩
    · -- with a copy it would have been skipped
      have without := added.without lawful fun info listed => by
        rw [found] at listed
        cases listed
      have skipped := (isSkipped_added whole added.needed).mpr (.inr ⟨copy, action, without⟩)
      rw [dumped] at skipped
      cases skipped
    · exact own
  | some info =>
    rw [found] at action info'
    have action : node.action = info.action := action
    cases kind : info.action with
    | add =>
      rw [action, kind, if_neg (by decide)] at shown
      rw [action, kind, if_neg (by decide)]
      exact .added found kind (presentRecord_add shown place info') entry
    | delete => exact absurd kind (lawful.kept info found)
    | replace =>
      rw [action, kind, if_pos rfl] at shown
      rw [action, kind, if_pos rfl]
      exact .replaced found kind (presentRecord_add shown place info') entry
    | modify =>
      rw [action, kind, if_neg (by decide)] at shown
      rw [action, kind, if_neg (by decide)]
      exact .modified found kind ⟨shown, by rw [presentRecord, place]⟩ entry

/-- What is dumped for an added path, and what its node hands down. -/
theorem AddedNode.dumped (whole : WholeDump baton) (decided : Decided repo table visited path node)
    (trees : ∀ r, PathTree (repo r)) (ran : deltaDumpNode baton above node st = .ok (node', st')) :
    (∃ own mark, AddEmits baton repo table visited path own mark ∧ Leaves st own mark st') ∧ st'.repo = st.repo ∧
      node'.path = path ∧ node'.action ≠ .delete ∧ HandsDown repo table visited path node' := by
  have present := added.present lawful
  rcases deltaDumpNode_leaves whole present ran with ⟨skipped, rfl, rfl⟩ | ⟨dumped, node_eq, repo', body, leaves⟩
  · obtain ⟨emits, hands⟩ := added.skipped lawful whole decided skipped
    have nothing : Leaves st' [] [] st' := ⟨by simp, rfl⟩
    exact ⟨⟨[], [], emits, nothing⟩, rfl, added.place, present, hands⟩
  · have hands := added.handsDown lawful whole decided
    rw [← node_eq] at hands
    have place : node'.path = path := by
      rw [node_eq]
      exact checkedNode_path.trans added.place
    have shown : node'.action ≠ .delete := by
      rw [node_eq]
      refine fun wrong => ?_
      rw [show (checkedNode baton node).action = _ from checkedNode_action] at wrong
      split at wrong
      · cases wrong
      · exact present wrong
    rw [added.place] at leaves
    exact ⟨⟨_, _, added.recorded lawful whole decided trees dumped body ⟨place, shown, hands.unfailed⟩, leaves⟩, repo', place,
      shown, hands⟩

end AddedNode

/-- An opened path is dumped as changed, or not at all. -/
theorem OpenedNode.dumped (whole : WholeDump baton) (opened : OpenedNode path node) (outside : node.cpInfo = .none)
    (ran : deltaDumpNode baton above node st = .ok (node', st')) :
    (∃ own mark, EnterEmits baton path own mark ∧ Leaves st own mark st') ∧ st'.repo = st.repo ∧ node'.path = path ∧
      node'.action ≠ .delete ∧ node'.cpInfo = .none := by
  have modify := opened.action
  have unfailed : node.cpInfo.isFailed = false := by rw [outside]; rfl
  rcases deltaDumpNode_leaves whole (by simp [modify]) ran with ⟨-, rfl, rfl⟩ | ⟨-, node_eq, repo', body, leaves⟩
  · exact ⟨⟨[], [], .unchanged, by simp, rfl⟩, rfl, opened.place, by simp [modify], outside⟩
  · have place : (checkedNode baton node).path = path := checkedNode_path.trans opened.place
    have shown := @checkedNode_action baton node
    have info := @checkedNode_plain baton _ unfailed opened.copyfrom
    rw [modify, if_neg (by decide)] at shown info leaves
    have place' : node'.path = path := by rw [node_eq]; exact place
    have shown' : node'.action = .modify := by rw [node_eq]; exact shown
    have info' : node'.cpInfo = .none := by rw [node_eq]; exact info.trans outside
    have entry : Present path node' := ⟨place', by simp [shown'], by rw [info']; rfl⟩
    exact ⟨⟨_, _, .changed ⟨shown, by rw [presentRecord, place]⟩ entry, leaves⟩, repo', place', by simp [shown'], info'⟩

/-- A deletion is dumped as it is. -/
theorem DeletedNode.dumped (whole : WholeDump baton) (deleted : DeletedNode path node) (outside : node.cpInfo = .none)
    (ran : deltaDumpNode baton above node st = .ok (node', st')) :
    node'.path = path ∧ node'.action = .delete ∧ node'.cpInfo = .none ∧ st'.repo = st.repo ∧
      Leaves st [deleteRecord baton path] [node'] st' := by
  have gone := deleted.action
  have dumped : isSkipped baton node = false := by simp [isSkipped, deleted.needed, whole.wet, gone]
  obtain ⟨wrong, -⟩ | ⟨-, checked, mid, check, ran⟩ := deltaDumpNode_checked ran
  · rw [dumped] at wrong
    cases wrong
  rw [deltaCheckAction_trusted whole, deltaCheckCopy_without deleted.copyfrom (by rw [outside]; rfl)] at check
  obtain ⟨rfl, rfl⟩ := Prod.mk.inj (Except.ok.inj check)
  rcases ran with ⟨-, ran⟩ | ⟨wrong, -⟩
  · obtain ⟨own, entries⟩ := finish_entries node st (deleteRecord baton path)
    have record : dumpRecord baton node st = .ok (finish node (emit st (deleteRecord baton path))) := by
      rw [dumpRecord, if_pos gone, deleteRecord, deleted.place, gone]
      rfl
    have both := Except.ok.inj (ran.symm.trans record)
    have node_eq : node' = _ := congrArg Prod.fst both
    have state_eq : st' = _ := congrArg Prod.snd both
    rw [own] at node_eq
    refine ⟨by rw [node_eq]; exact deleted.place, by rw [node_eq]; exact gone, by rw [node_eq]; exact outside, ?_, ?_, ?_⟩
    · rw [state_eq, finish_repo, emit_repo]
    · rw [state_eq, finish_out, emit_out]
    · rw [state_eq, entries, node_eq]
      rfl
  · rw [gone] at wrong
    cases wrong

end Dumped

/-! ## Copies -/

/-- The storage answers with the paths of the revisions before, whose numbers have all been committed. -/
def Storing (repo : RepoPaths) (revision : Int) (t : TracedRepo sys) : Prop :=
  ∃ last version, Filled t last revision version ∧ ∀ r, 0 ≤ r → r < revision → treePaths (version r) = repo r

theorem queryable_storing (repo : RepoPaths) (revision : Int) :
    Queryable (Storing repo revision : TracedRepo sys → Prop) fun r => 0 ≤ r ∧ r < revision := by
  refine ⟨fun t t' r found asked holds reached => ?_⟩
  obtain ⟨last, version, filled, trees⟩ := holds
  obtain ⟨later, answered, filled', -⟩ := filled.tree asked.2
  cases (Prod.mk.inj (Option.some.inj (answered.symm.trans reached))).2
  exact ⟨last, version, filled', trees⟩

theorem Storing.answers {revision r : Int} {t : TracedRepo sys} (storing : Storing repo revision t) (valid : 0 ≤ r)
    (earlier : r < revision) : ∃ tree, Answers t r tree ∧ treePaths tree = repo r := by
  obtain ⟨last, version, filled, trees⟩ := storing
  obtain ⟨t', answered, -⟩ := filled.tree earlier
  exact ⟨version r, ⟨valid, t', answered⟩, trees r valid earlier⟩

theorem closed_storing (repo : RepoPaths) (revision : Int) :
    Closed (Storing repo revision : TracedRepo sys → Prop) fun r => 0 ≤ r ∧ r < revision where
  add := by
    rintro t path ⟨last, version, filled, trees⟩
    exact ⟨last, version, filled.add path, trees⟩
  delete := by
    rintro t path ⟨last, version, filled, trees⟩
    exact ⟨last, version, filled.delete path, trees⟩
  query := (queryable_storing repo revision).query

theorem PlainPath.names_below {p q : CString} (plain : PlainPath p) (plain' : PlainPath q) (below : Below p q) (other : q ≠ p) :
    ∃ names, names ≠ [] ∧ (∀ name ∈ names, PlainName name) ∧ q = p ++ slash :: joined names := by
  obtain ⟨front, some, names, rfl⟩ := plain
  obtain ⟨whole, -, names', rfl⟩ := plain'
  obtain ⟨rest, rfl⟩ := (below_joined names names').mp below
  have more : rest ≠ [] := by
    rintro rfl
    rw [List.append_nil] at other
    exact other rfl
  exact ⟨rest, more, fun name member => names' name (List.mem_append_right _ member), joined_append some more⟩

/-- What the nodes above the entries of a directory know of copies is what is supplied at and below the entries: either
the nearest copy brings its part, or nothing but a copy of the root can bring anything. -/
inductive Carries (repo : RepoPaths) (table : AprHash ChangedPath) (revision : Int) (edit : TreeEdit) (dir : CString)
    (visited : List CString) (parent : DeNode) (above : List DeNode) : Prop
  | copy {top : DeNode} {source : CString} {original : Int} : parent.cpInfo = .copy → parent.path = dir →
      copiedParent (parent :: above) = some (top, source, original) → PlainPath top.path → Below top.path dir →
      0 ≤ original → original < revision → (source = [] ∨ source ∈ repo original) →
      (∀ p ∈ edit.entries, ∀ q, Below p q → ∀ s, SuppliedFrom repo table visited s q ↔
        s = source ∧ q ∈ copied source top.path (repo original)) →
      Carries repo table revision edit dir visited parent above
  | none : parent.cpInfo = .none →
      (∀ p ∈ edit.entries, ∀ q, Below p q → ∀ s, SuppliedFrom repo table visited s q → s = []) →
      Carries repo table revision edit dir visited parent above

section Propagation

variable {parent child child' : DeNode} {above : List DeNode} {st st' : DeltaState sys} {edit : TreeEdit} {dir path : CString}
  {visited : List CString} {revision : Int}

/-- The storage is asked for the revision of the copy source only. -/
theorem deltaPropagateCopy_storing
    (asks : ∀ top source original, copiedParent (parent :: above) = some (top, source, original) →
      0 ≤ deltaGetLocalCopyfromRev original baton.opts baton.logs ∧
        deltaGetLocalCopyfromRev original baton.opts baton.logs < revision)
    (storing : Storing repo revision st.repo) :
    Post (fun result => Storing repo revision result.2.repo) (fun _ => True)
      (deltaPropagateCopy baton parent above child st) := by
  unfold deltaPropagateCopy
  split
  · exact storing
  · split
    · exact storing
    · split
      · exact storing
      · next top source original nearest =>
        split
        · exact storing
        · refine Post.bind ((propagateLoop_post (queryable_storing repo revision) (asks top source original nearest) _ _
            storing).mono (fun _ _ => id) fun _ _ => trivial) fun answer kept => kept

theorem mem_copied_below {source target : CString} {names : List CString} {paths : Set CString} (named : target ≠ [])
    (more : joined names ≠ []) :
    target ++ slash :: joined names ∈ copied source target paths ↔ subpath source (joined names) ∈ paths := by
  rw [mem_copied]
  constructor
  · rintro (same | ⟨rel, -, inside, same⟩)
    · have longer := congrArg List.length same
      simp at longer
    · rw [subpath_of_ne named] at same
      have rest : joined names = rel := by simpa using same
      rwa [rest]
  · exact fun inside => .inr ⟨joined names, more, inside, (subpath_of_ne named _).symm⟩

/-- The copy information of an entry is decided as the copies supply it. -/
theorem Carries.propagates (carries : Carries repo table revision edit dir visited parent above) (member : path ∈ edit.entries)
    (entry : EntryOf dir path) (place : child.path = path) (plain : PlainPath path) (whole : WholeDump baton)
    (numbers : ∀ original, 0 ≤ original → original < revision →
      deltaGetLocalCopyfromRev original baton.opts baton.logs = original)
    (storing : Storing repo revision st.repo) (trees : ∀ r, PathTree (repo r))
    (ran : deltaPropagateCopy baton parent above child st = .ok (child', st')) :
    OnlyCpInfo child child' ∧ Decided repo table visited path child' ∧ DumpsNothing st st' ∧ Storing repo revision st'.repo := by
  obtain ⟨same, only⟩ := (deltaPropagateCopy_frame parent above child st).of_ok ran
  cases carries with
  | none info apart =>
    have own : ¬ Cloned repo table visited path := by
      rintro ⟨source, named, supplied⟩
      exact named (apart path member path (below_refl path) source supplied)
    rw [deltaPropagateCopy, if_pos (by simp [info]), info] at ran
    cases ran
    exact ⟨rfl, .inr ⟨rfl, own⟩, ⟨rfl, rfl⟩, storing⟩
  | @copy top source original info parentPath nearest topPlain topAbove valid earlier there supplies =>
    have number := numbers original valid earlier
    have kept : Storing repo revision st'.repo := by
      refine (deltaPropagateCopy_storing (fun top' source' original' nearest' => ?_) storing).of_ok ran
      rw [nearest] at nearest'
      cases nearest'
      rw [number]
      exact ⟨valid, earlier⟩
    refine ⟨same, ?_, only.dumpsNothing, kept⟩
    have other : path ≠ top.path := by
      rintro rfl
      exact entry.ne (topAbove.antisymm entry.below)
    obtain ⟨names, more, plain', split⟩ := topPlain.names_below plain (topAbove.trans entry.below) other
    have under : Below parent.path child.path := by
      rw [parentPath, place]
      exact entry.below
    -- the storage answers with the tree of the source revision
    obtain ⟨tree, answers, paths⟩ := storing.answers valid earlier
    rw [← number] at answers
    have inTree : ∀ x, x ∈ tree ↔ x ∈ repo original := by
      intro x
      rw [← paths]
      exact Iff.rfl
    have local' : ∀ names, source = joined names → (∀ n ∈ names, PlainName n) →
        deltaGetLocalCopyfromPath baton.session.prefixPath source = some (joined names) := by
      rintro names rfl plain
      rw [whole.root]
      exact localPath_root (head_joined plain)
    have supplied := supplies path member path (below_refl path)
    by_cases root : source = []
    · -- below a copy of the root nothing is found, whatever it brings
      subst root
      have relative : ∀ x ∈ tree, x.head? ≠ some slash := fun x inside =>
        ((trees original).plain x ((inTree x).mp inside)).relative
      obtain ⟨st'', ran'⟩ := @deltaPropagateCopy_root _ _ _ top child _ _ _ _ _ _ info nearest (local' [] rfl (by simp)) under
        (place.trans split) plain' more answers relative
      cases ran.symm.trans ran'
      refine .inr ⟨rfl, ?_⟩
      rintro ⟨s, named, given⟩
      exact named ((supplied s).mp given).1
    · -- below any other copy the path is looked up in the tree of the source
      obtain ⟨front, some, plainFront, rfl⟩ := (trees original).plain source (there.resolve_left root)
      have closed : ParentClosed tree := fun x y inside => (inTree x).mpr ((trees original).closed x y ((inTree _).mp inside))
      obtain ⟨st'', ran'⟩ := @deltaPropagateCopy_named _ _ _ top child _ _ _ _ _ _ _ info nearest (local' front rfl plainFront)
        some under (place.trans split) (fun n member => (List.mem_append.mp member).elim (plainFront n) (plain' n)) more answers closed
      cases ran.symm.trans ran'
      have cloned : Cloned repo table visited path ↔ joined (front ++ names) ∈ tree := by
        have rest : joined names ≠ [] := fun empty => more ((joined_eq_nil plain').mp empty)
        have brings : path ∈ copied (joined front) top.path (repo original) ↔ joined (front ++ names) ∈ tree := by
          rw [split, mem_copied_below topPlain.ne_nil rest, subpath_of_ne root, ← joined_append some more, inTree]
        rw [← brings]
        constructor
        · rintro ⟨s, -, given⟩
          exact ((supplied s).mp given).2
        · exact fun inside => ⟨joined front, root, (supplied _).mpr ⟨rfl, inside⟩⟩
      by_cases found : joined (front ++ names) ∈ tree
      · exact .inl ⟨if_pos found, cloned.mpr found⟩
      · exact .inr ⟨if_neg found, fun given => found (cloned.mp given)⟩

end Propagation

section Carried

variable {parent node : DeNode} {above : List DeNode} {edit children rest : TreeEdit} {fresh : Bool} {dir path : CString}
  {visited new : List CString} {revision : Int} {before mid after : Set CString}

theorem Carries.of_entries (carries : Carries repo table revision edit dir visited parent above)
    (subset : ∀ p ∈ rest.entries, p ∈ edit.entries)
    (same : ∀ p ∈ rest.entries, ∀ q, Below p q → ∀ s,
      SuppliedFrom repo table (visited ++ new) s q ↔ SuppliedFrom repo table visited s q) :
    Carries repo table revision rest dir (visited ++ new) parent above := by
  cases carries with
  | none info apart =>
    refine .none info fun p member q below s supplied => ?_
    exact apart p (subset p member) q below s ((same p member q below s).mp supplied)
  | copy info place nearest plain above valid earlier there supplies =>
    refine .copy info place nearest plain above valid earlier there fun p member q below s => ?_
    rw [same p member q below s]
    exact supplies p (subset p member) q below s

/-- What is added below one entry brings nothing below the others. -/
theorem Carries.others (carries : Carries repo table revision edit dir visited parent above)
    (entries : edit.entries = path :: rest.entries) (entry : EntryOf dir path) (leads : rest.Leads fresh dir mid after)
    (once : path ∉ rest.entries) (under : ∀ v ∈ new, Below path v) :
    Carries repo table revision rest dir (visited ++ new) parent above := by
  refine carries.of_entries (fun p member => entries ▸ List.mem_cons_of_mem path member) fun p member q below s => ?_
  refine suppliedFrom_append fun y inside renews => ?_
  exact leads.rest_apart entry once ((under y inside).trans renews.1) p member below

theorem Carries.tail (carries : Carries repo table revision edit dir visited parent above)
    (entries : edit.entries = path :: rest.entries) : Carries repo table revision rest dir visited parent above := by
  have kept : Carries repo table revision rest dir (visited ++ []) parent above :=
    carries.of_entries (fun p member => entries ▸ List.mem_cons_of_mem path member) fun p member q below s => by rw [List.append_nil]
  rwa [List.append_nil] at kept

/-- Nothing is supplied where nothing that has been added is above. -/
theorem Unvisited.carries (unvisited : Unvisited edit false visited) (outside : parent.cpInfo = .none) :
    Carries repo table revision edit dir visited parent above := by
  refine .none outside fun p member q below s supplied => ?_
  obtain ⟨v, inside, renews⟩ := supplied.renewed
  rcases renews.1.total below with first | second
  · exact absurd first (unvisited.above rfl v inside p member)
  · exact absurd second (unvisited.below v inside p member)

/-- An added node carries on what it hands down. -/
theorem HandsDown.carries (hands : HandsDown repo table visited path node)
    (carries : Carries repo table revision edit dir visited parent above) (member : path ∈ edit.entries) (place : node.path = path)
    (entry : EntryOf dir path) (plain : PlainPath path) (trees : ∀ r, PathTree (repo r)) (unvisited : Unvisited edit fresh visited)
    (leads : children.Leads true path before mid) (lawful : Lawful repo table revision visited path) :
    Carries repo table revision children path (visited ++ [path]) node (parent :: above) := by
  have inside : ∀ p ∈ children.entries, ∀ q, Below p q → Below path q ∧ q ≠ path := by
    intro p listed q below
    have own := leads.entryOf listed
    refine ⟨own.below.trans below, ?_⟩
    rintro rfl
    exact own.ne (below.antisymm own.below)
  cases hands with
  | @copy info source original found adds copies source' info' =>
    -- the node is the nearest copy for all that is below it
    obtain ⟨-, valid, earlier, there⟩ := lawful.source info source original found copies
    refine .copy info' place (by rw [copiedParent, source']) (place ▸ plain) (place ▸ below_refl path) valid earlier there
      fun p listed q below s => ?_
    obtain ⟨under, other⟩ := inside p listed q below
    rw [suppliedFrom_snoc ⟨under, other, info, found, adds⟩, place]
    constructor
    · rintro ⟨info', original', found', copies', brings⟩
      cases Option.some.inj (found.symm.trans found')
      cases Option.some.inj (copies.symm.trans copies')
      exact ⟨rfl, brings⟩
    · rintro ⟨rfl, brings⟩
      exact ⟨info, original, found, copies, brings⟩
  | fresh found adds copies info' =>
    -- a node that is added without a source hides the copies above it
    refine .none info' fun p listed q below s supplied => ?_
    obtain ⟨under, other⟩ := inside p listed q below
    obtain ⟨info, original, found', copies', -⟩ := (suppliedFrom_snoc ⟨under, other, _, found, adds⟩).mp supplied
    cases Option.some.inj (found.symm.trans found')
    rw [copies] at copies'
    cases copies'
  | kept quiet without decided =>
    -- the copy above goes on below a node it brings, and brings nothing below one it does not
    have same : ∀ q s, SuppliedFrom repo table (visited ++ [path]) s q ↔ SuppliedFrom repo table visited s q := by
      refine fun q s => suppliedFrom_append fun y listed renews => ?_
      obtain ⟨-, -, info, found, adds⟩ := renews
      exact quiet info (by rw [← List.mem_singleton.mp listed]; exact found) adds
    rcases decided with ⟨info, source, named, supplied⟩ | ⟨info, own⟩
    · cases carries with
      | none _ apart => exact absurd (apart path member path (below_refl path) source supplied) named
      | @copy top _ _ _ _ nearest topPlain topAbove valid earlier there supplies =>
        refine .copy info place (by rw [copiedParent, without]; exact nearest) topPlain (topAbove.trans entry.below) valid earlier
          there fun p listed q below s => ?_
        rw [same]
        exact supplies path member q (inside p listed q below).1 s
    · refine .none info fun p listed q below s supplied => ?_
      rw [same] at supplied
      by_contra named
      refine own ⟨s, named, supplied.up trees unvisited.named (inside p listed q below).1 fun y visits => ?_⟩
      exact unvisited.below y visits path member

end Carried

/-! ## Runs -/

section Runs

variable {parent child child' node : DeNode} {above : List DeNode} {st st' : DeltaState sys} {path : CString}
  {visited : List CString} {revision : Int}

theorem AddedNode.onlyCpInfo (added : AddedNode table path node) {node' : DeNode} (same : OnlyCpInfo node node') :
    AddedNode table path node' := by
  constructor
  all_goals rw [same]
  · exact added.place
  · exact added.needed
  · exact added.action
  · exact added.copyfrom

theorem OpenedNode.onlyCpInfo (opened : OpenedNode path node) {node' : DeNode} (same : OnlyCpInfo node node') :
    OpenedNode path node' := by
  constructor
  all_goals rw [same]
  · exact opened.place
  · exact opened.action
  · exact opened.copyfrom

theorem DeletedNode.onlyCpInfo (deleted : DeletedNode path node) {node' : DeNode} (same : OnlyCpInfo node node') :
    DeletedNode path node' := by
  constructor
  all_goals rw [same]
  · exact deleted.place
  · exact deleted.needed
  · exact deleted.action
  · exact deleted.copyfrom

/-- Outside of copies nothing is asked. -/
theorem deltaPropagateCopy_outside (outside : parent.cpInfo = .none) :
    deltaPropagateCopy baton parent above child st = .ok ({ child with cpInfo := .none }, st) := by
  rw [deltaPropagateCopy, if_pos (by simp [outside]), outside]

theorem deltaDumpNodeIf_now {now : Prop} [Decidable now] (holds : now) :
    deltaDumpNodeIf baton (decide now) above node st = deltaDumpNode baton above node st := by
  rw [deltaDumpNodeIf, if_pos (decide_eq_true holds)]

theorem deltaDumpNodeIf_not {now : Prop} [Decidable now] (fails : ¬ now) :
    deltaDumpNodeIf baton (decide now) above node st = .ok (node, st) := by
  rw [deltaDumpNodeIf, if_neg (by simpa using fails)]

theorem dumpChildren_inherits {children rest : NodeTree}
    (ran : dumpChildren baton parent above (.cons child children rest) st = .ok st') :
    ∃ inherited st₁, deltaPropagateCopy baton parent above child st = .ok (inherited, st₁) := by
  rw [dumpChildren] at ran
  obtain ⟨⟨inherited, st₁⟩, inherits, -⟩ := bind_eq_ok.mp ran
  exact ⟨inherited, st₁, inherits⟩

/-- The first child that is not deleted is dumped before its own children, and these before the others. -/
theorem dumpChildren_shown {children rest : NodeTree} {inherited : DeNode} {st₁ : DeltaState sys}
    (ran : dumpChildren baton parent above (.cons child children rest) st = .ok st')
    (inherits : deltaPropagateCopy baton parent above child st = .ok (inherited, st₁)) (shown : inherited.action ≠ .delete) :
    ∃ top st₂, deltaDumpNode baton (parent :: above) inherited st₁ = .ok (top, st₂) ∧ (top.action ≠ .delete →
      ∃ st₃, dumpChildren baton top (parent :: above) children st₂ = .ok st₃ ∧
        dumpChildren baton parent above rest st₃ = .ok st') := by
  rw [dumpChildren, inherits, ok_bind] at ran
  obtain ⟨⟨top, st₂⟩, dumps, ran⟩ := bind_eq_ok.mp ran
  rw [deltaDumpNodeIf_now shown] at dumps
  refine ⟨top, st₂, dumps, fun present => ?_⟩
  obtain ⟨st₃, below, ran⟩ := bind_eq_ok.mp ran
  obtain ⟨⟨bottom, st₄⟩, closes, ran⟩ := bind_eq_ok.mp ran
  rw [deltaDumpNodeIf_not present] at closes
  cases closes
  exact ⟨st₃, below, ran⟩

/-- A deleted child has no children. -/
theorem dumpChildren_deleted {rest : NodeTree} {inherited : DeNode} {st₁ : DeltaState sys}
    (ran : dumpChildren baton parent above (.cons child .nil rest) st = .ok st')
    (inherits : deltaPropagateCopy baton parent above child st = .ok (inherited, st₁)) (gone : inherited.action = .delete) :
    ∃ bottom st₂, deltaDumpNode baton (parent :: above) inherited st₁ = .ok (bottom, st₂) ∧
      dumpChildren baton parent above rest st₂ = .ok st' := by
  rw [dumpChildren, inherits, ok_bind] at ran
  obtain ⟨⟨top, st₂⟩, first, ran⟩ := bind_eq_ok.mp ran
  rw [deltaDumpNodeIf_not (not_not_intro gone)] at first
  cases first
  obtain ⟨st₂, none, ran⟩ := bind_eq_ok.mp ran
  cases none
  obtain ⟨⟨bottom, st₃⟩, dumps, ran⟩ := bind_eq_ok.mp ran
  rw [deltaDumpNodeIf_now gone] at dumps
  exact ⟨bottom, st₃, dumps, ran⟩

/-- The nodes below a directory leave what the calls on it emit. -/
theorem Builds.emits {edit : TreeEdit} {nodes : NodeTree} (builds : Builds table edit nodes) (whole : WholeDump baton)
    (numbers : ∀ original, 0 ≤ original → original < revision →
      deltaGetLocalCopyfromRev original baton.opts baton.logs = original)
    (trees : ∀ r, PathTree (repo r)) {fresh : Bool} {dir : CString} {before after : Set CString}
    (leads : edit.Leads fresh dir before after) (plain : dir = [] ∨ PlainPath dir) (unvisited : Unvisited edit fresh visited)
    (outside : fresh = false → parent.cpInfo = .none)
    (carries : Carries repo table revision edit dir visited parent above)
    (lawful : HoldsAlong (Lawful repo table revision) visited edit.added)
    (storing : Storing repo revision st.repo) (ran : dumpChildren baton parent above nodes st = .ok st') :
    ∃ records marks, edit.Emits baton repo table visited records marks ∧ Leaves st records marks st' ∧
      Storing repo revision st'.repo := by
  induction builds generalizing parent above st st' fresh dir before after visited with
  | done =>
    cases ran
    exact ⟨[], [], ⟨rfl, rfl⟩, ⟨by simp, rfl⟩, storing⟩
  | @delete path rest node nodes deleted _ ih =>
    -- a deletion stands in an opened directory, so that no copy is asked for it
    obtain ⟨opened, entry, -, leads⟩ := leads
    obtain ⟨bottom, st₁, dumps, ran⟩ := dumpChildren_deleted ran (deltaPropagateCopy_outside (outside opened)) deleted.action
    have deleted' : DeletedNode path { node with cpInfo := .none } := deleted.onlyCpInfo rfl
    obtain ⟨place, action, info, repo', own⟩ := deleted'.dumped whole rfl dumps
    obtain ⟨records, marks, emits, leaves, storing'⟩ := ih leads plain (unvisited.tail rfl) outside (carries.tail rfl) lawful
      (by rw [repo']; exact storing) ran
    exact ⟨_, _, ⟨bottom, records, marks, rfl, rfl, place, action, by rw [info]; rfl, emits⟩, own.trans leaves, storing'⟩
  | @add path children rest node inner nodes added _ _ ihChildren ihRest =>
    obtain ⟨entry, absent, once, mid, childrenLead, restLead⟩ := leads
    have listed : path ∈ (TreeEdit.add path children rest).entries := List.mem_cons_self
    obtain ⟨law, along⟩ := lawful
    obtain ⟨lawBelow, lawLater⟩ := holdsAlong_append.mp along
    have own := entry.plainPath plain
    -- what comes with the copy above is decided before the node is dumped
    obtain ⟨inherited, st₁, inherits⟩ := dumpChildren_inherits ran
    obtain ⟨same, decided, nothing, storing₁⟩ :=
      carries.propagates listed entry added.place own whole numbers storing trees inherits
    have added' := added.onlyCpInfo same
    obtain ⟨top, st₂, dumps, later⟩ := dumpChildren_shown ran inherits (added'.present law)
    obtain ⟨⟨records, marks, emits, leaves⟩, repo₂, place, shown, hands⟩ := added'.dumped law whole decided trees dumps
    obtain ⟨st₃, below, ran⟩ := later shown
    -- the children see the node as dumped, the entries that follow do not see it at all
    have storing₂ : Storing repo revision st₂.repo := by rw [repo₂]; exact storing₁
    have unvisited' := unvisited.children_added listed entry childrenLead
    have under := childrenLead.added_under
    obtain ⟨recordsBelow, marksBelow, emitsBelow, leavesBelow, storing₃⟩ := ihChildren childrenLead (.inr own) unvisited'
      (fun wrong => nomatch wrong) (hands.carries carries listed place entry own trees unvisited childrenLead law) lawBelow
      storing₂ below
    obtain ⟨recordsLater, marksLater, emitsLater, leavesLater, storing₄⟩ := ihRest restLead plain
      (unvisited_rest entry restLead once (unvisited.tail rfl) under) outside (carries.others rfl entry restLead once under)
      (by rwa [List.append_assoc] at lawLater) storing₃ ran
    refine ⟨_, _, ⟨records, marks, recordsBelow, marksBelow, recordsLater, marksLater, rfl, rfl, emits, emitsBelow, ?_⟩,
      (nothing.leaves.trans leaves).trans (leavesBelow.trans leavesLater), storing₄⟩
    rwa [List.append_assoc]
  | @enter path children rest node inner nodes opened _ _ ihChildren ihRest =>
    obtain ⟨reopened, entry, -, once, mid, childrenLead, restLead⟩ := leads
    obtain ⟨lawBelow, lawLater⟩ := holdsAlong_append.mp lawful
    -- an opened directory is not below an added one, and neither has it been copied
    have inherits := @deltaPropagateCopy_outside _ baton _ node above st (outside reopened)
    have opened' : OpenedNode path { node with cpInfo := .none } := opened.onlyCpInfo rfl
    obtain ⟨top, st₂, dumps, later⟩ := dumpChildren_shown ran inherits (by simp [opened.action])
    obtain ⟨⟨records, marks, emits, leaves⟩, repo₂, place, shown, info⟩ := opened'.dumped whole rfl dumps
    obtain ⟨st₃, below, ran⟩ := later shown
    have unvisited' : Unvisited children false visited :=
      Unvisited.children_opened (reopened ▸ unvisited) List.mem_cons_self childrenLead
    have under : ∀ v ∈ children.added, Below path v := fun v member => childrenLead.children_reached (.inl member)
    obtain ⟨recordsBelow, marksBelow, emitsBelow, leavesBelow, storing₃⟩ := ihChildren childrenLead (.inr (entry.plainPath plain))
      unvisited' (fun _ => info) (unvisited'.carries info) lawBelow (by rw [repo₂]; exact storing) below
    obtain ⟨recordsLater, marksLater, emitsLater, leavesLater, storing₄⟩ := ihRest restLead plain
      (unvisited_rest entry restLead once (unvisited.tail rfl) under) outside (carries.others rfl entry restLead once under)
      lawLater storing₃ ran
    exact ⟨_, _, ⟨records, marks, recordsBelow, marksBelow, recordsLater, marksLater, rfl, rfl, emits, emitsBelow, emitsLater⟩,
      leaves.trans (leavesBelow.trans leavesLater), storing₄⟩

/-- What the root leaves changes no path. -/
theorem EnterEmits.replays_root {own : List NodeRecord} {mark : List DeNode} (emits : EnterEmits baton [slash] own mark)
    (paths : Set CString) : Replays (printedPath baton) repo revision own paths paths := by
  cases emits with
  | changed change => exact .single (.change change.1 change.2 (.inl rfl))
  | unchanged => exact .nil paths

theorem EnterEmits.root_only {own : List NodeRecord} {mark : List DeNode} (emits : EnterEmits baton path own mark) (q : CString)
    (node : DeNode) (found : (entered ∅ mark).lookup q = some node) :
    q = path ∧ node.action ≠ .delete ∧ node.cpInfo.isFailed = false := by
  rcases lookup_entered ∅ mark q with ⟨-, same⟩ | ⟨front, last, back, rfl, place, -, same⟩
  · rw [same] at found
    cases found
  · obtain ⟨own, action, unfailed⟩ := emits.present (by simp : last ∈ front ++ last :: back)
    rw [Option.some.inj (found.symm.trans same)]
    exact ⟨place.symm.trans own, action, unfailed⟩

theorem openedNode_root (edit : Edit) : OpenedNode [slash] (rootNode edit) := by
  have opened : OpenedNode [slash] deOpenRoot := ⟨rfl, rfl, rfl⟩
  exact opened.changeProps edit.rootProps

theorem rootNode_outside (edit : Edit) : (rootNode edit).cpInfo = .none := changeProps_cpInfo edit.rootProps deOpenRoot

/-- What a whole edit prints can be loaded, and ends in the paths of its revision, just when the log fits to what the
copies bring. -/
theorem runEdit_replays_iff (whole : WholeDump baton)
    (numbers : ∀ original, 0 ≤ original → original < revision →
      deltaGetLocalCopyfromRev original baton.opts baton.logs = original)
    (trees : ∀ r, PathTree (repo r)) (entries : baton.logRevision.changedPaths = some table) {before after : Set CString}
    (tree : PathTree before) (applies : Applies repo revision table before after) {edit : Edit}
    (leads : edit.children.treeEdit.Leads false [] before after) (storing : Storing repo revision st.repo)
    (ran : runEdit baton edit st = .ok st') :
    Replays (printedPath baton) repo revision st'.out before after ↔ Backed repo table edit.children.treeEdit := by
  obtain ⟨⟨nodes, driven⟩, drives, ran⟩ := bind_eq_ok.mp ran
  have outside := rootNode_outside edit
  obtain ⟨builds, quiet⟩ := (runDrive_builds outside entries edit.children).of_ok drives
  have fromLog : FromLog baton (rootNode edit) := fromLog_root.changeProps edit.rootProps
  have start : Storing repo revision { st with dumpedEntries := ∅, out := [] }.repo := storing
  have storing₁ : Storing repo revision driven.repo :=
    ((runDrive_post (closed_storing repo revision) edit.children fromLog start).of_ok drives).2
  -- the nodes below the root, after the root itself
  obtain ⟨dumped, recursive, ran⟩ := bind_eq_ok.mp ran
  obtain ⟨table', found, closing⟩ := bind_eq_ok.mp ran
  rw [orError_eq_ok, entries] at found
  cases found
  obtain ⟨⟨root, top⟩, dumps, below⟩ := bind_eq_ok.mp recursive
  obtain ⟨⟨own, mark, rootEmits, rootLeaves⟩, repo₂, -, -, info⟩ := (openedNode_root edit).dumped whole outside dumps
  have unvisited : Unvisited edit.children.treeEdit false [] := ⟨by simp, by simp, by simp⟩
  obtain ⟨records, marks, emits, leaves, -⟩ := builds.emits whole numbers trees leads (.inl rfl) unvisited (fun _ => info)
    (unvisited.carries info) (applies.lawful leads tree) (by rw [repo₂]; exact storing₁) below
  -- the deletions that are left
  obtain ⟨paths, st'', closed, closes⟩ := (@closes_nil _ baton dumped).rounds (by rw [whole.start]; decide)
    table.nodupKeys
  cases closed.symm.trans closing
  have entered' : dumped.dumpedEntries = entered (entered ∅ mark) marks := by
    rw [leaves.entries, rootLeaves.entries]
    exact congrArg (fun base => entered (entered base mark) marks) quiet.2
  have out : st'.out = own ++ (records ++ paths.map (deleteRecord baton)) := by
    have printed : (deCloseDirectory (rootNode edit) driven).out = [] := quiet.1
    have top_out : top.out = [] ++ own := rootLeaves.out.trans (congrArg (· ++ own) printed)
    rw [closes.out, leaves.out, show _ = [] ++ own from top_out, List.nil_append, List.nil_append, List.append_assoc]
  have rest := replays_iff emits leads trees tree applies rootEmits.root_only whole.wet entered' closes
  -- the record of the root can always be loaded, so that it makes no difference
  have still := @EnterEmits.replays_root baton repo revision _ _ rootEmits before
  rw [out, ← rest]
  constructor
  · intro replays
    obtain ⟨mid, first, second⟩ := replays.split
    exact Replays.unique (printedPath_named baton) still first ▸ second
  · exact still.append

/-- An edit asks for the revisions of copy sources only. -/
theorem runEdit_storing (whole : WholeDump baton)
    (numbers : ∀ original, 0 ≤ original → original < revision →
      deltaGetLocalCopyfromRev original baton.opts baton.logs = original)
    (sources : ∀ source original, LoggedSource baton.logRevision source original → 0 ≤ original ∧ original < revision)
    (edit : Edit) (storing : EncodedFits sys st.repo.calls → Storing repo revision st.repo) :
    Post (fun st' => EncodedFits sys st'.repo.calls → Storing repo revision st'.repo)
      (fun e => EncodedFits sys e.repo.calls → Storing repo revision e.repo) (runEdit baton edit st) := by
  refine runEdit_post ((closed_storing repo revision).fitting.mono ?_) edit storing
  rintro r (asks | current)
  · cases asks with
    | source _ logged _ =>
      obtain ⟨valid, earlier⟩ := sources _ _ logged
      rw [numbers _ valid earlier]
      exact ⟨valid, earlier⟩
    | unset _ untrusted => exact absurd whole.trusts untrusted
    | previous _ untrusted => exact absurd whole.trusts untrusted
  · have start := whole.start
    have := current.2.1
    omega

end Runs

end Rsvndump
