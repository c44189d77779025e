import Rsvndump.Delta.Dumping

/-! The bases of the text deltas.

A delta is made from the old local copy of a file, while a loader applies it to
the text it has for the record.
-/

set_option autoImplicit false

namespace Rsvndump

open Library

variable {sys : Platform} {baton : DeBaton}

/-! ## Loading -/

/-- What is assumed of deltas: they give their target on the source they were made from, and on any
text if that was empty. -/
structure DeltaLaws (sys : Platform) (apply : Bytes → Bytes → Bytes) : Prop where
  source : ∀ source target, apply (sys.svndiff source target) source = target
  empty : ∀ target base, apply (sys.svndiff [] target) base = target

/-- The text a loader applies the delta of a record to. -/
def loaderBase (loaded : Int → Texts) (before : Texts) (record : NodeRecord) : Bytes :=
  match record.copyfrom with
  | some (path, revision) => (loaded revision path).getD []
  | none => if record.action = .modify then (before record.path).getD [] else []

/-- The text delta of a record, if it has one, gives the text of the file. -/
def Based (apply : Bytes → Bytes → Bytes) (baton : DeBaton) (loaded : Int → Texts) (before after : Texts)
    (record : NodeRecord) : Prop :=
  ∀ body, record.body = some body → body.textDelta = true →
    ∃ path text, record.path = printedPath baton path ∧ body.text = some text ∧
      after path = some (apply text (loaderBase loaded (before.printed baton) record))

/-! ## Opened files -/

/-- The path storage does not deny that these files were there in the previous revision; it is not
asked if the log is trusted. -/
def Known (baton : DeBaton) (files : List CString) (t : TracedRepo sys) : Prop :=
  ¬ trustsLog baton.session baton.opts → 0 < baton.localRevnum → ∀ path ∈ files, ∀ t' found t'', Later t t' →
    t'.pathExists path (baton.localRevnum - 1) = some (found, t'') → found = true

theorem rootAction_modify {node : DeNode} (action : node.action = .modify) :
    (if node.path = [slash] ∧ node.action = .add then { node with action := .modify } else node).action = .modify := by
  split
  · rfl
  · exact action

/-- The walk over the parents finds nothing if none of them is copied. -/
theorem checkParents_plain {node : DeNode} {above : List DeNode} (plain : ∀ parent ∈ above, isPlain parent = true)
    (st : DeltaState sys) : checkParents baton node above st = .ok (false, node, st) := by
  induction above with
  | nil => rfl
  | cons parent above ih =>
    rw [List.forall_mem_cons] at plain
    obtain ⟨copyfrom, cpInfo⟩ := of_decide_eq_true plain.1
    simp only [checkParents, cpInfo, copyfrom, reduceCtorEq, if_false]
    exact ih plain.2

/-- A file that was opened outside of all copies stays one that is modified. -/
theorem deltaCheckAction_modify {node checked : DeNode} {above : List DeNode} {st st' : DeltaState sys}
    (plain : ∀ parent ∈ above, isPlain parent = true) (action : node.action = .modify) {opened : List CString}
    (member : node.path ∈ opened) {t : TracedRepo sys} (known : Known baton opened t) (later : Later t st.repo)
    (ran : deltaCheckAction baton above node st = .ok (checked, st')) : checked.action = .modify := by
  unfold deltaCheckAction at ran
  rw [if_neg (by simp [action])] at ran
  split at ran
  · cases ran
    exact action
  next untrusted =>
    simp only [checkParents_plain plain, ok_bind, checkFailedReplace, action, reduceCtorEq, and_false, if_false,
      Bool.false_eq_true, checkModify, true_and] at ran
    split at ran
    · next positive =>
      obtain ⟨⟨modified, st₁⟩, ran, done⟩ := bind_eq_ok.mp ran
      obtain ⟨⟨found, st₂⟩, answered, ran⟩ := bind_eq_ok.mp ran
      rw [orError_eq_ok] at answered
      obtain ⟨⟨found', repo⟩, asked, same⟩ := Option.map_eq_some_iff.mp answered
      cases same
      have there := known untrusted positive node.path member _ _ _ later asked
      subst there
      cases ran
      cases done
      exact rootAction_modify action
    · cases ran
      exact rootAction_modify action

/-! ## Records -/

/-- The text of a record is a delta between the texts of its node. -/
theorem contentFile_delta {node : DeNode} {st st' : DeltaState sys} {text source target : Bytes}
    (deltas : baton.opts.useDeltas = true) (old : oldText st.files node = some source)
    (new : newText st.files node = some target) (ran : contentFile baton node st = .ok (text, st')) :
    text = sys.svndiff source target := by
  unfold contentFile at ran
  obtain ⟨name, filename, ran⟩ := bind_eq_ok.mp ran
  obtain ⟨target', read, ran⟩ := bind_eq_ok.mp ran
  rw [orError_eq_ok] at filename read
  rw [newText, filename, Option.bind_some, read, Option.some.injEq] at new
  subst new
  rw [if_pos deltas] at ran
  obtain ⟨source', opened, ran⟩ := bind_eq_ok.mp ran
  cases ran
  congr 1
  unfold oldText at old
  split at old
  · next none =>
    rw [none] at opened
    exact (Except.ok.inj opened).symm.trans (Option.some.inj old)
  · next some =>
    rw [some, localText, orError_eq_ok, old, Option.some.injEq] at opened
    exact opened.symm

variable {apply : Bytes → Bytes → Bytes} {loaded : Int → Texts} {texts after : Texts}

theorem based_of_body {before : Texts} {record : NodeRecord} (none : record.body = none) :
    Based apply baton loaded before after record := by
  intro body found
  rw [none] at found
  cases found

/-- The delta of a record fits its base, which is any text if the source is empty. -/
theorem Writes.based (laws : DeltaLaws sys apply) {node : DeNode} {st mid : DeltaState sys} {record : NodeRecord}
    (writes : Writes baton node st record mid) (text : node.filename.isSome → ∃ source target,
      oldText st.files node = some source ∧ newText st.files node = some target ∧ after node.path = some target ∧
      (source = [] ∨ node.action = .modify ∧ node.copyfrom = none ∧ texts node.path = some source)) :
    Based apply baton loaded texts after record := by
  cases writes with
  | deleted => exact based_of_body rfl
  | unchanged => exact based_of_body rfl
  | props =>
    rintro body ⟨⟩ delta
    simp [nodeBody] at delta
  | @text content mid _ _ _ read =>
    rintro body ⟨⟩ delta
    have deltas : baton.opts.useDeltas = true := by simpa [nodeBody] using delta
    have named : node.filename.isSome := by
      obtain ⟨name, filename, -⟩ := bind_eq_ok.mp read
      rw [orError_eq_ok] at filename
      rw [filename]
      rfl
    obtain ⟨source, target, old, new, result, base⟩ := text named
    refine ⟨node.path, content, rfl, rfl, ?_⟩
    rw [result, contentFile_delta deltas old new read]
    congr 1
    rcases base with rfl | ⟨action, copyfrom, before⟩
    · exact (laws.empty target _).symm
    · have own : copyInfo baton node = none := by simp [copyInfo, copyfrom]
      have fits : ∀ body, loaderBase loaded (texts.printed baton) (presentRecord baton node body) = source := by
        simp [loaderBase, presentRecord, own, action, Texts.printed_apply, before]
      rw [fits, laws.source]

/-- The records that are appended fit the texts. -/
def AppendsBased (apply : Bytes → Bytes → Bytes) (baton : DeBaton) (loaded : Int → Texts) (texts after : Texts)
    (st st' : DeltaState sys) : Prop :=
  ∃ records, st'.out = st.out ++ records ∧ ∀ record ∈ records, Based apply baton loaded texts after record

theorem AppendsBased.of_eq {st st' : DeltaState sys} (same : st'.out = st.out) :
    AppendsBased apply baton loaded texts after st st' :=
  ⟨[], by rw [same, List.append_nil], by simp⟩

theorem AppendsBased.trans {a b c : DeltaState sys} (before : AppendsBased apply baton loaded texts after a b)
    (later : AppendsBased apply baton loaded texts after b c) : AppendsBased apply baton loaded texts after a c := by
  obtain ⟨some, out, all⟩ := before
  obtain ⟨more, out', all'⟩ := later
  refine ⟨some ++ more, by rw [out', out, List.append_assoc], fun record member => ?_⟩
  exact (List.mem_append.mp member).elim (all record) (all' record)

/-- A deletion has no text. -/
theorem deltaDumpNode_deletes {node node' : DeNode} {above : List DeNode} {st st' : DeltaState sys}
    (deletes : node.action = .delete) (ran : deltaDumpNode baton above node st = .ok (node', st')) :
    AppendsBased apply baton loaded texts after st st' := by
  obtain rfl | ⟨last, -, rfl⟩ := deltaDumpNode_delete deletes ran
  · exact .of_eq rfl
  · refine ⟨[deleteRecord baton node.path], by rw [finish_out, emit_out], fun record member => ?_⟩
    rw [List.mem_singleton.mp member]
    exact based_of_body rfl

/-- The records a node leaves fit the texts. -/
theorem deltaDumpNode_based (laws : DeltaLaws sys apply) {edition : Edition} (fresh : edition.fresh) {plain : Bool}
    {node node' : DeNode} {above : List DeNode} {st st' : DeltaState sys} (text : TextNode sys edition st.files plain node)
    (parents : plain = true → ∀ parent ∈ above, isPlain parent = true) {t : TracedRepo sys}
    (known : Known baton edition.opened t) (later : Later t st.repo)
    (ran : deltaDumpNode baton above node st = .ok (node', st')) :
    AppendsBased apply baton loaded edition.before edition.after st st' := by
  obtain ⟨-, -, rfl⟩ | ⟨-, last, mid, deleted, decided, frame, deletes, -, ran⟩ := deltaDumpNode_cases ran
  · exact .of_eq rfl
  obtain ⟨record, written, writes, done⟩ := dumpRecord_cases ran
  refine ⟨deleted ++ [record], ?_, fun other member => ?_⟩
  · rw [show st' = _ from congrArg Prod.snd done, finish_out, emit_out, writes.out, frame, List.append_assoc]
  rcases List.mem_append.mp member with member | member
  · rcases deletes with ⟨rfl, -⟩ | ⟨-, rfl⟩
    · cases member
    · rw [List.mem_singleton.mp member]
      exact based_of_body rfl
  rw [List.mem_singleton.mp member]
  refine writes.based laws fun named => ?_
  have files : mid.files = st.files := by rw [frame]
  have path : last.path = node.path := by rw [decided]
  have filename : last.filename = node.filename := by rw [decided]
  have oldFilename : last.oldFilename = node.oldFilename := by rw [decided]
  have copyfrom : last.copyfrom = node.copyfrom := by rw [decided]
  rw [filename] at named
  obtain ⟨-, source, target, old, new, result, -, base⟩ := text.text named
  unfold oldText newText at *
  rw [files, path, filename, oldFilename, copyfrom]
  refine ⟨source, target, old, new, result, (base fresh).imp_right ?_⟩
  rintro ⟨outside, action, uncopied, opens, before⟩
  refine ⟨?_, uncopied, before⟩
  have checkedPath : (deltaCheckCopy baton node).path ∈ edition.opened := by
    rw [deltaCheckCopy_decision baton node]
    exact opens
  rcases deletes with ⟨-, check⟩ | ⟨replaced, -⟩
  · exact deltaCheckAction_modify (parents outside) ((deltaCheckCopy_action baton node).trans action) checkedPath known
      later check
  · rw [action] at replaced
    cases replaced

/-! ## Edits -/

/-- What the deltas of an edit need besides. -/
structure BasesKept (baton : DeBaton) (edit : Edit) (copies : Texts) (t : TracedRepo sys) : Prop where
  fresh : edit.children.Fresh copies
  known : Known baton edit.children.opened t

theorem appendsBased_relates (laws : DeltaLaws sys apply) {edition : Edition} (fresh : edition.fresh)
    {t : TracedRepo sys} (known : Known baton edition.opened t) :
    Relates baton t edition (AppendsBased apply baton loaded edition.before edition.after) where
  trans := AppendsBased.trans
  repo same := .of_eq same.out
  unlink st path := .of_eq (unlinkLocal_out st path)
  dumped text parents later ran := deltaDumpNode_based laws fresh text parents known later ran
  deleted gone _ ran := deltaDumpNode_deletes gone ran

/-- The deltas of an edit fit the texts a loader has, and the local copies are kept. -/
theorem runEdit_based (laws : DeltaLaws sys apply) {edit : Edit} {st st' : DeltaState sys} {copies : Texts}
    (named : Named st) (stores : Stores st copies) (agree : Agree texts copies)
    (promised : Promised baton edit texts) (kept : BasesKept baton edit copies st.repo) (ran : runEdit baton edit st = .ok st') :
    (∀ record ∈ st'.out, Based apply baton loaded texts (edit.children.texts texts) record) ∧ Named st' ∧
      Stores st' (copiesAfter baton.logRevision edit copies) ∧
      Agree (edit.children.texts texts) (copiesAfter baton.logRevision edit copies) := by
  obtain ⟨⟨children, driven, drives, records, same, all⟩, rest⟩ := runEdit_relates named stores agree promised
    (@appendsBased_relates _ _ _ loaded laws (edit.children.edition texts copies) kept.fresh _ kept.known) ran
  have out : driven.out = [] := ((@runDrive_creates _ _ (fun _ => True) _ (fun _ _ => trivial) _ _).of_ok drives).2
  refine ⟨fun record member => ?_, rest⟩
  rw [same, show (closeNode _ driven).out = [] from out, List.nil_append] at member
  exact all record member

end Rsvndump
