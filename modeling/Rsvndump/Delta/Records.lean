import Rsvndump.Delta.Frame

/-! The records a node leaves on the stream. -/

set_option autoImplicit false

namespace Rsvndump

open Library

variable {sys : Platform} {baton : DeBaton} {node node' : DeNode} {st st' : DeltaState sys}

@[simp] theorem finish_out (node : DeNode) (st : DeltaState sys) : (finish node st).2.out = st.out := by
  unfold finish deltaMarkNode
  dsimp only
  split <;> rfl

@[simp] theorem emit_out (st : DeltaState sys) (record : NodeRecord) : (emit st record).out = st.out ++ [record] := rfl

/-- A copy without changes has no body. -/
def Unchanged (baton : DeBaton) (st : DeltaState sys) (node : DeNode) : Prop :=
  (copyInfo baton node).isSome ∧ dumpContent baton st node = false ∧ node.propsChanged = false

/-- The record of a node that is not deleted. -/
def presentRecord (baton : DeBaton) (node : DeNode) (body : Option NodeBody) : NodeRecord where
  path := printedPath baton node.path
  kind := some (if node.kind = .file then .file else .dir)
  action := node.action
  copyfrom := (copyInfo baton node).map fun source => (printedPath baton source.1, source.2)
  body := body

def deleteRecord (baton : DeBaton) (path : CString) : NodeRecord := ⟨printedPath baton path, none, .delete, none, none⟩

/-- What `dumpRecord` writes for a node and the state in which it does. -/
inductive Writes (baton : DeBaton) (node : DeNode) (st : DeltaState sys) : NodeRecord → DeltaState sys → Prop where
  | deleted : node.action = .delete → Writes baton node st (deleteRecord baton node.path) st
  | unchanged : node.action ≠ .delete → Unchanged baton st node → Writes baton node st (presentRecord baton node none) st
  | text {content : Bytes} {mid : DeltaState sys} : node.action ≠ .delete → ¬ Unchanged baton st node →
      dumpContent baton st node = true → contentFile baton node st = .ok (content, mid) →
      Writes baton node st (presentRecord baton node (some (nodeBody baton node (some content)))) mid
  | props : node.action ≠ .delete → ¬ Unchanged baton st node →
      (dumpContent baton st node = true → (copyInfo baton node).isSome ∧ node.kind = .dir) →
      Writes baton node st (presentRecord baton node (some (nodeBody baton node none))) st

theorem dumpRecord_cases (ran : dumpRecord baton node st = .ok (node', st')) :
    ∃ record mid, Writes baton node st record mid ∧ (node', st') = finish node (emit mid record) := by
  unfold dumpRecord at ran
  by_cases present : node.action = .delete
  · simp only [if_pos present, Except.ok.injEq] at ran
    refine ⟨_, _, .deleted present, ran.symm.trans ?_⟩
    rw [deleteRecord, present]
  simp only [if_neg present] at ran
  split at ran
  · next same =>
    have unchanged : Unchanged baton st node := ⟨by simpa using same.1, same.2⟩
    exact ⟨_, _, .unchanged present unchanged, (Except.ok.inj ran).symm⟩
  · next other =>
    have changed : ¬ Unchanged baton st node := by
      rintro ⟨copied, same⟩
      exact other ⟨by simpa using copied, same⟩
    split at ran
    · next written =>
      obtain ⟨⟨text, mid⟩, content, ran⟩ := bind_eq_ok.mp ran
      exact ⟨_, _, .text present changed written.1 content, (Except.ok.inj ran).symm⟩
    · next quiet =>
      refine ⟨_, _, .props present changed fun content => ?_, (Except.ok.inj ran).symm⟩
      by_contra other
      exact quiet ⟨content, fun both => other (by simpa using both)⟩

/-- Reading the content does not write to the stream. -/
theorem contentFile_frame {text : Bytes} (ran : contentFile baton node st = .ok (text, st')) :
    st' = { st with files := st'.files } := by
  unfold contentFile at ran
  obtain ⟨name, -, ran⟩ := bind_eq_ok.mp ran
  obtain ⟨target, -, ran⟩ := bind_eq_ok.mp ran
  split at ran
  · obtain ⟨source, -, ran⟩ := bind_eq_ok.mp ran
    cases ran
    rfl
  · cases ran
    rfl

theorem Writes.frame {record : NodeRecord} {mid : DeltaState sys} (writes : Writes baton node st record mid) :
    mid = { st with files := mid.files } := by
  cases writes with
  | deleted => rfl
  | unchanged => rfl
  | props => rfl
  | text _ _ _ read => exact contentFile_frame read

theorem Writes.out {record : NodeRecord} {mid : DeltaState sys} (writes : Writes baton node st record mid) :
    mid.out = st.out := by
  rw [writes.frame]

/-! ## Decisions -/

/-- The nodes differ at most in what is decided while they are dumped. -/
def OnlyDecision (node node' : DeNode) : Prop :=
  node' = { node with action := node'.action, cpInfo := node'.cpInfo, copyfromRevLocal := node'.copyfromRevLocal }

theorem OnlyAction.onlyDecision (same : OnlyAction node node') : OnlyDecision node node' := by
  unfold OnlyDecision
  rw [same]

theorem OnlyDecision.trans {a b c : DeNode} (first : OnlyDecision a b) (second : OnlyDecision b c) :
    OnlyDecision a c := by
  unfold OnlyDecision at *
  rw [second, first]

theorem deltaCheckCopy_decision (baton : DeBaton) (node : DeNode) : OnlyDecision node (deltaCheckCopy baton node) := by
  unfold deltaCheckCopy
  split
  · split <;> rfl
  · split
    · rfl
    split
    · rfl
    split
    · dsimp only
      split <;> rfl
    · rfl

theorem deltaCheckCopy_action (baton : DeBaton) (node : DeNode) : (deltaCheckCopy baton node).action = node.action := by
  unfold deltaCheckCopy
  grind

/-- A node that is not skipped is dumped as it was checked. A replaced one is dumped as being added,
which is not checked again. -/
theorem deltaDumpNode_checked {above : List DeNode} (ran : deltaDumpNode baton above node st = .ok (node', st')) :
    (isSkipped baton node = true ∧ node' = { node with dumpNeeded := false } ∧ st' = st) ∨
      (isSkipped baton node = false ∧ ∃ checked mid,
        deltaCheckAction baton above (deltaCheckCopy baton node) st = .ok (checked, mid) ∧
        ((checked.action ≠ .replace ∧ dumpRecord baton checked mid = .ok (node', st')) ∨
          (checked.action = .replace ∧
            dumpRecord baton (deltaCheckCopy baton { checked with cpInfo := .none, action := .add })
              (emit mid (deleteRecord baton checked.path)) = .ok (node', st')))) := by
  unfold deltaDumpNode dumpNodeWith at ran
  split at ran
  · next skipped =>
    cases ran
    exact .inl ⟨skipped, rfl, rfl⟩
  next dumped =>
    refine .inr ⟨Bool.eq_false_iff.mpr dumped, ?_⟩
    obtain ⟨⟨checked, mid⟩, check, ran⟩ := bind_eq_ok.mp ran
    refine ⟨checked, mid, check, ?_⟩
    simp only at ran
    split at ran
    · next replaced =>
      refine .inr ⟨replaced, ?_⟩
      unfold deltaDumpReplace dumpNodeWith at ran
      rw [if_neg ?_] at ran
      · simp only [deltaCheckAction, deltaCheckCopy_action, ne_eq, reduceCtorEq, not_false_eq_true, and_self, if_true,
          ok_bind, if_false] at ran
        exact ran
      · have decided : OnlyDecision node checked := (deltaCheckCopy_decision baton node).trans
          ((deltaCheckAction_frame above _ st).of_ok check).1.onlyDecision
        have needed : checked.dumpNeeded = node.dumpNeeded := by rw [decided]
        simp only [isSkipped, Bool.or_eq_true, not_or, Bool.not_eq_true] at dumped ⊢
        simp [needed, dumped.1.1]
    · next kept => exact .inl ⟨kept, ran⟩

/-- A node that is not skipped leaves one record, behind a deletion if it is replaced. -/
theorem deltaDumpNode_cases {above : List DeNode} (ran : deltaDumpNode baton above node st = .ok (node', st')) :
    (isSkipped baton node = true ∧ node' = { node with dumpNeeded := false } ∧ st' = st) ∨
      (isSkipped baton node = false ∧ ∃ last mid deleted, OnlyDecision node last ∧
        mid = { st with repo := mid.repo, out := st.out ++ deleted } ∧
        (deleted = [] ∧ deltaCheckAction baton above (deltaCheckCopy baton node) st = .ok (last, mid) ∨
          node.action = .replace ∧ deleted = [deleteRecord baton node.path]) ∧
        (last.action = .delete → node.action = .delete) ∧ dumpRecord baton last mid = .ok (node', st')) := by
  obtain skipped | ⟨dumped, checked, mid, check, ran⟩ := deltaDumpNode_checked ran
  · exact .inl skipped
  refine .inr ⟨dumped, ?_⟩
  obtain ⟨action, repo⟩ := (deltaCheckAction_frame above _ st).of_ok check
  have decided := (deltaCheckCopy_decision baton node).trans action.onlyDecision
  have kept : ∀ final, final ≠ .add → final ≠ .modify → checked.action = final → node.action = final := by
    intro final notAdd notModify same
    have acts := (deltaCheckAction_action above (deltaCheckCopy baton node) st).of_ok check
    rw [KeepsOrAdds, deltaCheckCopy_action, same] at acts
    exact ((acts.resolve_right notModify).resolve_right notAdd).symm
  simp only at action repo decided
  rcases ran with ⟨-, ran⟩ | ⟨replaced, ran⟩
  · refine ⟨checked, mid, [], decided, ?_, .inl ⟨rfl, check⟩, kept .delete (by decide) (by decide), ran⟩
    rw [repo, List.append_nil]
  · have path : checked.path = node.path := by rw [decided]
    refine ⟨_, _, [deleteRecord baton node.path], ?_, ?_,
      .inr ⟨kept .replace (by decide) (by decide) replaced, rfl⟩, ?_, ran⟩
    · have reset : OnlyDecision checked { checked with cpInfo := .none, action := .add } := rfl
      exact (decided.trans reset).trans (deltaCheckCopy_decision baton _)
    · rw [repo, ← path]
      rfl
    · rw [deltaCheckCopy_action]
      exact fun wrong => nomatch wrong

/-- An added node is dumped as it is, apart from the decision on its copy source. -/
theorem dumpNodeWith_add {replaceNode : DeNode → DeltaState sys → Result sys (DeNode × DeltaState sys)}
    {above : List DeNode} (added : node.action = .add) (dumped : isSkipped baton node = false) :
    dumpNodeWith baton replaceNode above node st = dumpRecord baton (deltaCheckCopy baton node) st := by
  have same := (deltaCheckCopy_action baton node).trans added
  unfold dumpNodeWith
  rw [if_neg (by simp [dumped])]
  simp only [deltaCheckAction, same, ne_eq, reduceCtorEq, not_false_eq_true, and_self, if_true, ok_bind, if_false]

end Rsvndump
