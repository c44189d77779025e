import Rsvndump.Delta.Node

/-! What the decisions on a node leave as it is.

`delta_check_action` changes the action of a node, `delta_propagate_copy` its
copy information, and both use the path storage; nothing else is touched.
-/

set_option autoImplicit false

namespace Rsvndump

open Library

variable {sys : Platform} {baton : DeBaton}

/-- The nodes differ at most in their action. -/
def OnlyAction (node node' : DeNode) : Prop := node' = { node with action := node'.action }

/-- The nodes differ at most in what is known of their being copied. -/
def OnlyCpInfo (node node' : DeNode) : Prop := node' = { node with cpInfo := node'.cpInfo }

/-- The states differ at most in the path storage. -/
def OnlyRepo (st st' : DeltaState sys) : Prop := st' = { st with repo := st'.repo }

theorem OnlyRepo.refl (st : DeltaState sys) : OnlyRepo st st := rfl

theorem OnlyAction.trans {a b c : DeNode} (first : OnlyAction a b) (second : OnlyAction b c) : OnlyAction a c := by
  unfold OnlyAction at *
  rw [second, first]

theorem OnlyRepo.trans {a b c : DeltaState sys} (first : OnlyRepo a b) (second : OnlyRepo b c) : OnlyRepo a c := by
  unfold OnlyRepo at *
  rw [second, first]

section Fields

variable {node node' : DeNode} (same : OnlyAction node node')

include same

theorem OnlyAction.path : node'.path = node.path := by
  rw [same]

theorem OnlyAction.copyfrom : node'.copyfrom = node.copyfrom := by
  rw [same]

theorem OnlyAction.copyfromRevLocal : node'.copyfromRevLocal = node.copyfromRevLocal := by
  rw [same]

theorem OnlyAction.cpInfo : node'.cpInfo = node.cpInfo := by
  rw [same]

theorem OnlyAction.dumpNeeded : node'.dumpNeeded = node.dumpNeeded := by
  rw [same]

end Fields

theorem OnlyRepo.dumpedEntries {st st' : DeltaState sys} (same : OnlyRepo st st') :
    st'.dumpedEntries = st.dumpedEntries := by
  rw [same]

theorem OnlyRepo.out {st st' : DeltaState sys} (same : OnlyRepo st st') : st'.out = st.out := by
  rw [same]

theorem OnlyRepo.propStore {st st' : DeltaState sys} (same : OnlyRepo st st') : st'.propStore = st.propStore := by
  rw [same]

theorem OnlyRepo.files {st st' : DeltaState sys} (same : OnlyRepo st st') : st'.files = st.files := by
  rw [same]

theorem OnlyRepo.deltaHash {st st' : DeltaState sys} (same : OnlyRepo st st') : st'.deltaHash = st.deltaHash := by
  rw [same]

theorem OnlyRepo.md5Hash {st st' : DeltaState sys} (same : OnlyRepo st st') : st'.md5Hash = st.md5Hash := by
  rw [same]

theorem OnlyCpInfo.path {node node' : DeNode} (same : OnlyCpInfo node node') : node'.path = node.path := by
  rw [same]

/-- The nodes differ at most in their properties and in what follows from these being changed. -/
def OnlyProps (node node' : DeNode) : Prop :=
  node' = { node with
    properties := node'.properties
    delProperties := node'.delProperties
    propsChanged := node'.propsChanged
    dumpNeeded := node'.dumpNeeded }

theorem onlyProps_changeProps (changes : List PropChange) (node : DeNode) :
    OnlyProps node (changes.foldl changeProp node) := by
  induction changes generalizing node with
  | nil => rfl
  | cons change changes ih =>
    have first : OnlyProps node (changeProp node change) := by
      unfold changeProp
      split
      · split <;> rfl
      · rfl
    rw [List.foldl_cons]
    have rest := ih (changeProp node change)
    unfold OnlyProps at *
    rw [rest, first]

/-! ## Callbacks -/

theorem schedulePath_frame (path : CString) (st : DeltaState sys) :
    Post (OnlyRepo st) (fun _ => True) (schedulePath baton path st) := by
  unfold schedulePath
  split
  · rfl
  · dsimp only
    split
    · trivial
    · rfl

theorem logEntry_any (path : CString) (st : DeltaState sys) :
    Post (fun _ => True) (fun _ => True) (logEntry baton path st) :=
  Post.bind (post_orError_fails trivial) fun _ _ => trivial

theorem deAddDirectory_frame (parent : DeNode) (path : CString) (st : DeltaState sys) :
    Post (fun result => OnlyRepo st result.2) (fun _ => True) (deAddDirectory baton parent path st) :=
  Post.bind (logEntry_any path st) fun _ _ => Post.bind (schedulePath_frame path st) fun _ same => same

theorem deAddFile_frame (parent : DeNode) (path : CString) (st : DeltaState sys) :
    Post (fun result => OnlyRepo st result.2) (fun _ => True) (deAddFile baton parent path st) :=
  Post.bind (logEntry_any path st) fun _ _ => Post.bind (schedulePath_frame path st) fun _ same => same

/-! ## Decisions -/

theorem onlyAction_toAdd (node : DeNode) (found : Bool) : OnlyAction node (toAdd node found) := by
  unfold toAdd
  split <;> rfl

theorem onlyRepo_pathExists {st st' : DeltaState sys} {path : CString} {revision : Int} {found : Bool}
    (answered : st.pathExists path revision = some (found, st')) : OnlyRepo st st' := by
  obtain ⟨answer, -, same⟩ := Option.map_eq_some_iff.mp answered
  cases same
  rfl

theorem onlyRepo_checkParent {st st' : DeltaState sys} {parent child : CString} {revision : Int} {found : Bool}
    (answered : st.checkParent parent child revision = some (found, st')) : OnlyRepo st st' := by
  obtain ⟨answer, -, same⟩ := Option.map_eq_some_iff.mp answered
  cases same
  rfl

theorem checkedParent_frame (parent child : CString) (revision : Int) (st : DeltaState sys) :
    Post (fun result => OnlyRepo st result.2) (fun _ => True) (checkedParent parent child revision st) :=
  post_orError (fun _ answered => onlyRepo_checkParent answered) trivial

theorem checkParents_frame (node : DeNode) (above : List DeNode) (st : DeltaState sys) :
    Post (fun result => OnlyAction node result.2.1 ∧ OnlyRepo st result.2.2) (fun _ => True)
      (checkParents baton node above st) := by
  induction above with
  | nil => exact ⟨rfl, rfl⟩
  | cons parent above ih =>
    rw [checkParents]
    split
    · exact ⟨rfl, rfl⟩
    · split
      · exact ih
      · split
        · exact ih
        · exact Post.bind (checkedParent_frame _ _ _ _) fun answer same => ⟨onlyAction_toAdd _ _, same⟩

theorem checkFailedReplace_frame (node : DeNode) (st : DeltaState sys) :
    Post (fun result => OnlyAction node result.1 ∧ OnlyRepo st result.2) (fun _ => True)
      (checkFailedReplace baton node st) := by
  unfold checkFailedReplace
  split
  · exact Post.bind (checkedParent_frame _ _ _ _) fun answer same => ⟨onlyAction_toAdd _ _, same⟩
  · exact ⟨rfl, rfl⟩

theorem checkModify_frame (node : DeNode) (st : DeltaState sys) :
    Post (fun result => OnlyAction node result.1 ∧ OnlyRepo st result.2) (fun _ => True)
      (checkModify baton node st) := by
  unfold checkModify
  split
  · exact Post.bind (post_orError (fun _ answered => onlyRepo_pathExists answered) trivial)
      fun answer same => ⟨onlyAction_toAdd _ _, same⟩
  · exact ⟨rfl, rfl⟩

theorem deltaCheckAction_frame (above : List DeNode) (node : DeNode) (st : DeltaState sys) :
    Post (fun result => OnlyAction node result.1 ∧ OnlyRepo st result.2) (fun _ => True)
      (deltaCheckAction baton above node st) := by
  unfold deltaCheckAction
  split
  · exact ⟨rfl, rfl⟩
  · split
    · exact ⟨rfl, rfl⟩
    · refine Post.bind (checkParents_frame node above st) fun settled first => ?_
      obtain ⟨flag, node', st'⟩ := settled
      simp only
      split
      · exact first
      · refine Post.bind (checkFailedReplace_frame node' st') fun replaced second => ?_
        refine Post.bind (checkModify_frame replaced.1 replaced.2) fun modified third => ?_
        have node_same := (first.1.trans second.1).trans third.1
        refine ⟨?_, (first.2.trans second.2).trans third.2⟩
        simp only
        split
        · exact node_same.trans rfl
        · exact node_same

/-! ## Actions -/

/-- The action is kept or becomes an 'add'. -/
def KeepsOrAdds (node node' : DeNode) : Prop := node'.action = node.action ∨ node'.action = .add

theorem KeepsOrAdds.trans {a b c : DeNode} (first : KeepsOrAdds a b) (second : KeepsOrAdds b c) : KeepsOrAdds a c := by
  rcases second with same | added
  · exact first.imp same.trans same.trans
  · exact .inr added

theorem keepsOrAdds_toAdd (node : DeNode) (found : Bool) : KeepsOrAdds node (toAdd node found) := by
  unfold toAdd
  split
  · exact .inl rfl
  · exact .inr rfl

theorem checkParents_action (node : DeNode) (above : List DeNode) (st : DeltaState sys) :
    Post (fun result => KeepsOrAdds node result.2.1) (fun _ => True) (checkParents baton node above st) := by
  induction above with
  | nil => exact .inl rfl
  | cons parent above ih =>
    rw [checkParents]
    split
    · exact .inr rfl
    · split
      · exact ih
      · split
        · exact ih
        · exact Post.bind (checkedParent_frame _ _ _ _) fun _ _ => keepsOrAdds_toAdd _ _

theorem checkFailedReplace_action (node : DeNode) (st : DeltaState sys) :
    Post (fun result => KeepsOrAdds node result.1) (fun _ => True) (checkFailedReplace baton node st) := by
  unfold checkFailedReplace
  split
  · exact Post.bind (checkedParent_frame _ _ _ _) fun _ _ => keepsOrAdds_toAdd _ _
  · exact .inl rfl

theorem checkModify_action (node : DeNode) (st : DeltaState sys) :
    Post (fun result => KeepsOrAdds node result.1) (fun _ => True) (checkModify baton node st) := by
  unfold checkModify
  split
  · exact Post.bind (post_orError_fails trivial) fun _ _ => keepsOrAdds_toAdd _ _
  · exact .inl rfl

/-- A node that is not replaced or deleted does not become so. -/
theorem deltaCheckAction_action (above : List DeNode) (node : DeNode) (st : DeltaState sys) :
    Post (fun result => KeepsOrAdds node result.1 ∨ result.1.action = .modify) (fun _ => True)
      (deltaCheckAction baton above node st) := by
  unfold deltaCheckAction
  split
  · exact .inl (.inl rfl)
  · split
    · exact .inl (.inl rfl)
    · refine Post.bind (checkParents_action node above st) fun settled first => ?_
      obtain ⟨flag, node', st'⟩ := settled
      simp only
      split
      · exact .inl first
      · refine Post.bind (checkFailedReplace_action node' st') fun replaced second => ?_
        refine Post.bind (checkModify_action replaced.1 replaced.2) fun modified third => ?_
        rw [pure_eq_ok, post_ok]
        split
        · exact .inr rfl
        · exact .inl ((first.trans second).trans third)

/-! ## Copy propagation -/

theorem propagateLoop_frame (revision : Int) (stop fuel : Nat) (buffer : Bytes) (base : Nat) (st : DeltaState sys) :
    Post (fun result => OnlyRepo st result.2) (fun _ => True)
      (propagateLoop revision stop fuel buffer base st) := by
  induction fuel generalizing buffer base st with
  | zero => exact rfl
  | succ fuel ih =>
    rw [propagateLoop]
    split
    · exact rfl
    · simp only
      split
      · trivial
      · next answered => exact onlyRepo_checkParent answered
      · next st' answered =>
        exact (ih _ _ st').mono (fun _ _ same => (onlyRepo_checkParent answered).trans same) fun _ => id

theorem deltaPropagateCopy_frame (parent : DeNode) (above : List DeNode) (child : DeNode) (st : DeltaState sys) :
    Post (fun result => OnlyCpInfo child result.1 ∧ OnlyRepo st result.2) (fun _ => True)
      (deltaPropagateCopy baton parent above child st) := by
  unfold deltaPropagateCopy
  split
  · exact ⟨rfl, rfl⟩
  · split
    · exact ⟨rfl, rfl⟩
    · split
      · exact ⟨rfl, rfl⟩
      · split
        · exact ⟨rfl, rfl⟩
        · exact Post.bind (propagateLoop_frame _ _ _ _ _ _) fun answer same => ⟨rfl, same⟩

end Rsvndump
