import Rsvndump.Delta.Calls
import Rsvndump.Delta.Records

/-! The records of a whole edit.

They are written for the nodes the editor has opened and for the deletions of
the log, the root first.
-/

set_option autoImplicit false

namespace Rsvndump

open Library

variable {sys : Platform} {baton : DeBaton}

/-! ## Callbacks -/

/-- The paths of an edit. -/
def Drive.paths : Drive → List CString
  | .done => []
  | .deleteEntry path rest => path :: rest.paths
  | .addDirectory path _ children rest => path :: (children.paths ++ rest.paths)
  | .openDirectory path _ children rest => path :: (children.paths ++ rest.paths)
  | .addFile path _ _ rest => path :: rest.paths
  | .openFile path _ _ rest => path :: rest.paths

@[simp] theorem changeProps_path (changes : List PropChange) (node : DeNode) :
    (changes.foldl changeProp node).path = node.path := by
  rw [onlyProps_changeProps changes node]

/-- A callback makes a node for its path and writes nothing. -/
def Creates (path : CString) (st : DeltaState sys) (result : DeNode × DeltaState sys) : Prop :=
  result.1.path = path ∧ result.2.out = st.out

theorem addFromLog_path (node : DeNode) (entry : Option ChangedPath) : (addFromLog node entry).path = node.path := by
  cases entry <;> rfl

theorem deDeleteEntry_creates (parent : DeNode) (path : CString) (st : DeltaState sys) :
    Post (Creates path st) (fun _ => True) (deDeleteEntry baton parent path st) := by
  refine Post.bind (post_orError_fails trivial) fun children _ => ?_
  refine Post.bind (post_orError_fails trivial) fun store _ => ?_
  refine ⟨rfl, ?_⟩
  dsimp only
  split <;> rfl

theorem deAddDirectory_creates (parent : DeNode) (path : CString) (st : DeltaState sys) :
    Post (Creates path st) (fun _ => True) (deAddDirectory baton parent path st) := by
  refine Post.bind (logEntry_any path st) fun log _ => ?_
  exact Post.bind (schedulePath_frame path st) fun scheduled same => ⟨addFromLog_path _ _, same.out⟩

theorem deAddFile_creates (parent : DeNode) (path : CString) (st : DeltaState sys) :
    Post (Creates path st) (fun _ => True) (deAddFile baton parent path st) := by
  refine Post.bind (logEntry_any path st) fun log _ => ?_
  refine Post.bind (schedulePath_frame path st) fun scheduled same => ⟨?_, same.out⟩
  dsimp only
  split
  · exact addFromLog_path _ _
  · exact addFromLog_path _ _

theorem openNode_creates (kind : NodeKind) (parent : DeNode) (path : CString) (st : DeltaState sys) :
    Post (Creates path st) (fun _ => True) (openNode kind parent path st) :=
  Post.bind (post_orError_fails trivial) fun _ _ => ⟨rfl, rfl⟩

theorem applyText_creates (node : DeNode) (st : DeltaState sys) (text : Option TextDelta) :
    Post (Creates node.path st) (fun _ => True) (applyText node st text) := by
  cases text with
  | none => exact ⟨rfl, rfl⟩
  | some delta =>
    have read : Post (fun _ => True) (fun _ => True) (localText st (st.deltaHash.lookup node.path)) :=
      @localText_post sys (fun _ => True) st trivial _
    exact Post.bind read fun source _ => ⟨rfl, rfl⟩

/-- The callbacks of an edit write nothing and make nodes for its paths. -/
theorem runDrive_creates {holds : CString → Prop} {drive : Drive} (all : ∀ path ∈ drive.paths, holds path)
    {parent : DeNode} {st : DeltaState sys} :
    Post (fun result => result.1.All (fun node => holds node.path) ∧ result.2.out = st.out) (fun _ => True)
      (runDrive baton parent drive st) := by
  induction drive generalizing parent st with
  | done => exact ⟨trivial, rfl⟩
  | deleteEntry path rest ih =>
    rw [Drive.paths, List.forall_mem_cons] at all
    refine Post.bind (deDeleteEntry_creates parent path st) fun created first => ?_
    refine Post.bind (ih all.2) fun later tail => ?_
    refine ⟨⟨?_, trivial, tail.1⟩, tail.2.trans first.2⟩
    exact first.1.symm.subst all.1
  | addDirectory path props children rest ihChildren ihRest =>
    rw [Drive.paths, List.forall_mem_cons, List.forall_mem_append] at all
    refine Post.bind (deAddDirectory_creates parent path st) fun created first => ?_
    refine Post.bind (ihChildren all.2.1) fun inner second => ?_
    refine Post.bind (ihRest all.2.2) fun later tail => ?_
    refine ⟨⟨?_, second.1, tail.1⟩, tail.2.trans (second.2.trans first.2)⟩
    exact ((changeProps_path props created.1).trans first.1).symm.subst all.1
  | openDirectory path props children rest ihChildren ihRest =>
    rw [Drive.paths, List.forall_mem_cons, List.forall_mem_append] at all
    refine Post.bind (openNode_creates _ parent path st) fun created first => ?_
    refine Post.bind (ihChildren all.2.1) fun inner second => ?_
    refine Post.bind (ihRest all.2.2) fun later tail => ?_
    refine ⟨⟨?_, second.1, tail.1⟩, tail.2.trans (second.2.trans first.2)⟩
    exact ((changeProps_path props created.1).trans first.1).symm.subst all.1
  | addFile path props text rest ih =>
    rw [Drive.paths, List.forall_mem_cons] at all
    refine Post.bind (deAddFile_creates parent path st) fun created first => ?_
    refine Post.bind (applyText_creates _ _ text) fun written second => ?_
    refine Post.bind (ih all.2) fun later tail => ?_
    refine ⟨⟨?_, trivial, tail.1⟩, tail.2.trans (second.2.trans first.2)⟩
    exact (second.1.trans ((changeProps_path props created.1).trans first.1)).symm.subst all.1
  | openFile path props text rest ih =>
    rw [Drive.paths, List.forall_mem_cons] at all
    refine Post.bind (openNode_creates _ parent path st) fun created first => ?_
    refine Post.bind (applyText_creates _ _ text) fun written second => ?_
    refine Post.bind (ih all.2) fun later tail => ?_
    refine ⟨⟨?_, trivial, tail.1⟩, tail.2.trans (second.2.trans first.2)⟩
    exact (second.1.trans ((changeProps_path props created.1).trans first.1)).symm.subst all.1

/-! ## Records -/

/-- The record of a node whose path satisfies `holds`. -/
def WrittenFor (sys : Platform) (baton : DeBaton) (holds : CString → Prop) (record : NodeRecord) : Prop :=
  ∃ (node : DeNode) (st mid : DeltaState sys), holds node.path ∧ Writes baton node st record mid

/-- Only records of such nodes are appended to the stream. -/
def Appends (baton : DeBaton) (holds : CString → Prop) (st st' : DeltaState sys) : Prop :=
  ∃ records, st'.out = st.out ++ records ∧ ∀ record ∈ records, WrittenFor sys baton holds record

variable {holds : CString → Prop}

theorem Appends.of_eq {st st' : DeltaState sys} (same : st'.out = st.out) : Appends baton holds st st' :=
  ⟨[], by rw [same, List.append_nil], by simp⟩

theorem Appends.trans {first second third : DeltaState sys} (before : Appends baton holds first second)
    (after : Appends baton holds second third) : Appends baton holds first third := by
  obtain ⟨some, out, all⟩ := before
  obtain ⟨more, out', all'⟩ := after
  refine ⟨some ++ more, by rw [out', out, List.append_assoc], fun record member => ?_⟩
  exact (List.mem_append.mp member).elim (all record) (all' record)

theorem deltaDumpNode_appends {above : List DeNode} {node node' : DeNode} {st st' : DeltaState sys}
    (here : holds node.path) (ran : deltaDumpNode baton above node st = .ok (node', st')) :
    Appends baton holds st st' ∧ node'.path = node.path := by
  obtain ⟨-, rfl, rfl⟩ | ⟨-, last, mid, deleted, decided, frame, deletes, -, ran⟩ := deltaDumpNode_cases ran
  · exact ⟨.of_eq rfl, rfl⟩
  have path : last.path = node.path := by rw [decided]
  obtain ⟨record, written, writes, done⟩ := dumpRecord_cases ran
  refine ⟨⟨deleted ++ [record], ?_, fun other member => ?_⟩, ?_⟩
  · rw [show st' = _ from congrArg Prod.snd done, finish_out, emit_out, writes.out, frame, List.append_assoc]
  · rcases List.mem_append.mp member with member | member
    · rcases deletes with ⟨rfl, -⟩ | ⟨-, rfl⟩
      · cases member
      · rw [List.mem_singleton.mp member]
        exact ⟨{ node with action := .delete }, st, st, here, .deleted rfl⟩
    · rw [List.mem_singleton.mp member]
      exact ⟨last, mid, written, by rw [path]; exact here, writes⟩
  · rw [show node' = _ from congrArg Prod.fst done]
    exact path

theorem deltaDumpNodeIf_appends {now : Bool} {above : List DeNode} {node node' : DeNode} {st st' : DeltaState sys}
    (here : holds node.path) (ran : deltaDumpNodeIf baton now above node st = .ok (node', st')) :
    Appends baton holds st st' ∧ node'.path = node.path := by
  unfold deltaDumpNodeIf at ran
  split at ran
  · exact deltaDumpNode_appends here ran
  · cases ran
    exact ⟨.of_eq rfl, rfl⟩

theorem dumpChildren_appends {nodes : NodeTree} (all : nodes.All fun node => holds node.path) {parent : DeNode}
    {above : List DeNode} {st st' : DeltaState sys} (ran : dumpChildren baton parent above nodes st = .ok st') :
    Appends baton holds st st' := by
  induction nodes generalizing parent above st st' with
  | nil =>
    cases ran
    exact .of_eq rfl
  | cons child children rest ihChildren ihRest =>
    obtain ⟨here, inner, later⟩ := all
    rw [dumpChildren] at ran
    obtain ⟨⟨propagated, first⟩, step, ran⟩ := bind_eq_ok.mp ran
    obtain ⟨same, repo⟩ := (deltaPropagateCopy_frame _ _ _ _).of_ok step
    have path : propagated.path = child.path := same.path
    obtain ⟨⟨top, second⟩, dumped, ran⟩ := bind_eq_ok.mp ran
    obtain ⟨appends, kept⟩ := deltaDumpNodeIf_appends (path.symm.subst here) dumped
    obtain ⟨third, below, ran⟩ := bind_eq_ok.mp ran
    obtain ⟨⟨bottom, fourth⟩, closed, ran⟩ := bind_eq_ok.mp ran
    have after := (deltaDumpNodeIf_appends ((kept.trans path).symm.subst here) closed).1
    have start : Appends baton holds st first := .of_eq repo.out
    exact (((start.trans appends).trans (ihChildren inner below)).trans after).trans (ihRest later ran)

theorem unlinkLocal_out (st : DeltaState sys) (path : CString) : (unlinkLocal st path).out = st.out := by
  unfold unlinkLocal
  split <;> rfl

/-- A logged deletion unlinks the local file and is dumped if nothing speaks against it. -/
theorem closeEntry_cases {entry : (_ : CString) × ChangedPath} {st st' : DeltaState sys}
    (ran : closeEntry baton st entry = .ok st') :
    (entry.2.action ≠ .delete ∧ st' = st) ∨
      (entry.2.action = .delete ∧ ∃ mid, OnlyRepo (unlinkLocal st entry.1) mid ∧
        (st' = mid ∨ ∃ node, deltaDumpNode baton []
          { deltaCreateNodeNoParent entry.1 .none .delete with dumpNeeded := true } mid = .ok (node, st'))) := by
  unfold closeEntry at ran
  dsimp only at ran
  split at ran
  · next other =>
    cases ran
    exact .inl ⟨other, rfl⟩
  next deleted =>
    refine .inr ⟨Decidable.not_not.mp deleted, ?_⟩
    have dumped : ∀ (skip : Bool) (mid : DeltaState sys), OnlyRepo (unlinkLocal st entry.1) mid →
        (if skip then .ok mid
        else deltaDumpNode baton [] { deltaCreateNodeNoParent entry.1 .none .delete with dumpNeeded := true } mid >>=
          fun dumped => .ok dumped.2 : Result sys (DeltaState sys)) = .ok st' →
        ∃ mid, OnlyRepo (unlinkLocal st entry.1) mid ∧ (st' = mid ∨ ∃ node, deltaDumpNode baton []
          { deltaCreateNodeNoParent entry.1 .none .delete with dumpNeeded := true } mid = .ok (node, st')) := by
      intro skip mid same ran
      split at ran
      · cases ran
        exact ⟨_, same, .inl rfl⟩
      · obtain ⟨⟨node, last⟩, step, done⟩ := bind_eq_ok.mp ran
        cases done
        exact ⟨mid, same, .inr ⟨node, step⟩⟩
    split at ran
    · cases ran
      exact ⟨_, .refl _, .inl rfl⟩
    split at ran
    · exact dumped true _ (.refl _) ran
    split at ran
    · split at ran
      · next answered => exact dumped _ _ (onlyRepo_pathExists answered) ran
      · exact dumped false _ (.refl _) ran
    · exact dumped false _ (.refl _) ran

theorem closeEntry_appends {entry : (_ : CString) × ChangedPath} (here : entry.2.action = .delete → holds entry.1)
    {st st' : DeltaState sys} (ran : closeEntry baton st entry = .ok st') : Appends baton holds st st' := by
  obtain ⟨-, rfl⟩ | ⟨deleted, mid, same, ran⟩ := closeEntry_cases ran
  · exact .of_eq rfl
  have start : Appends baton holds st mid := .of_eq (same.out.trans (unlinkLocal_out st entry.1))
  rcases ran with rfl | ⟨node, ran⟩
  · exact start
  · exact start.trans (deltaDumpNode_appends (here deleted) ran).1

theorem closeEntries_appends {entries : List ((_ : CString) × ChangedPath)}
    (all : ∀ entry ∈ entries, entry.2.action = .delete → holds entry.1) {st st' : DeltaState sys}
    (ran : entries.foldlM (closeEntry baton) st = .ok st') : Appends baton holds st st' := by
  induction entries generalizing st with
  | nil =>
    cases ran
    exact .of_eq rfl
  | cons entry entries ih =>
    rw [List.forall_mem_cons] at all
    rw [List.foldlM_cons] at ran
    obtain ⟨mid, first, ran⟩ := bind_eq_ok.mp ran
    exact (closeEntry_appends all.1 first).trans (ih all.2 ran)

/-- The deletions in a log entry. -/
def LogRevision.deletes (log : LogRevision) (path : CString) : Prop :=
  ∃ table info, log.changedPaths = some table ∧ table.lookup path = some info ∧ info.action = .delete

/-- The root node of an edit when it is closed. -/
def rootNode (edit : Edit) : DeNode := edit.rootProps.foldl deChangeDirProp deOpenRoot

/-- The stream of an edit holds the record of the root, if any, and then those of the paths. -/
theorem runEdit_records {edit : Edit} {st st' : DeltaState sys} (drive : ∀ path ∈ edit.children.paths, holds path)
    (log : ∀ path, baton.logRevision.deletes path → holds path) (ran : runEdit baton edit st = .ok st') :
    ∃ (root : DeNode) (before after : DeltaState sys), before.out = [] ∧
      deltaDumpNode baton [] (rootNode edit) before = .ok (root, after) ∧ Appends baton holds after st' := by
  unfold runEdit at ran
  obtain ⟨⟨children, driven⟩, drives, ran⟩ := bind_eq_ok.mp ran
  obtain ⟨tree, out⟩ := (runDrive_creates drive).of_ok drives
  unfold deCloseEdit at ran
  obtain ⟨dumped, dumps, ran⟩ := bind_eq_ok.mp ran
  obtain ⟨table, found, ran⟩ := bind_eq_ok.mp ran
  obtain ⟨⟨root, after⟩, first, dumps⟩ := bind_eq_ok.mp dumps
  refine ⟨root, _, after, ?_, first, (dumpChildren_appends tree dumps).trans (closeEntries_appends ?_ ran)⟩
  · exact out
  · intro entry member deleted
    exact log entry.1 ⟨table, entry.2, orError_eq_ok.mp found, AList.mem_lookup_iff.mpr member, deleted⟩

end Rsvndump
