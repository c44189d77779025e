import Rsvndump.Delta.Dumping

/-! The checksums kept for later copies.

The checksum of a file is stored when its record is written, under its path and
without a revision. A copied file is written without its text if the checksum
stored for the source is its own.
-/

set_option autoImplicit false

namespace Rsvndump

open Library

variable {sys : Platform} {baton : DeBaton}

/-! ## Recorded texts -/

/-- What is assumed of checksums. -/
structure CollisionFree (md5 : Bytes → Digest) : Prop where
  injective : ∀ text text', md5 text = md5 text' → text = text'
  nonzero : ∀ text, md5 text ≠ zeroDigest

def NodeRecord.text (record : NodeRecord) : Option Bytes := record.body.bind NodeBody.text

/-- The text of a file after its record was written. It is unknown if only the properties were. -/
def recordText (baton : DeBaton) (after recorded : Texts) (record : NodeRecord) : Texts := fun path =>
  if record.kind = some .file ∧ record.path = printedPath baton path then
    if record.copyfrom.isSome ∨ record.text.isSome then after path else none
  else recorded path

def recordTexts (baton : DeBaton) (after recorded : Texts) (records : List NodeRecord) : Texts :=
  records.foldl (recordText baton after) recorded

/-- The checksums belong to the texts recorded. -/
def Checksums (recorded : Texts) (st : DeltaState sys) : Prop :=
  ∀ path text, recorded path = some text ↔ st.md5Hash.lookup path = some (sys.md5 text)

/-- A file that is added as a copy has no text in its record if and only if it is the one recorded
for the source. -/
def Compared (baton : DeBaton) (after recorded : Texts) (record : NodeRecord) : Prop :=
  record.kind = some .file → record.action = .add → ∀ source revision, record.copyfrom = some (source, revision) →
    ∃ path, record.path = printedPath baton path ∧ (after path).isSome ∧
      (record.text = none ↔ recorded.printed baton source = after path)

/-- Each record is compared with those before it. -/
def AllCompared (baton : DeBaton) (after : Texts) : Texts → List NodeRecord → Prop
  | _, [] => True
  | recorded, record :: rest =>
      Compared baton after recorded record ∧ AllCompared baton after (recordText baton after recorded record) rest

variable {after recorded : Texts}

theorem allCompared_append (first second : List NodeRecord) :
    AllCompared baton after recorded (first ++ second) ↔
      AllCompared baton after recorded first ∧ AllCompared baton after (recordTexts baton after recorded first) second := by
  induction first generalizing recorded with
  | nil => simp [AllCompared, recordTexts]
  | cons record rest ih => simp [AllCompared, recordTexts, ih, and_assoc]

theorem recordText_other {record : NodeRecord} (other : record.kind ≠ some .file) :
    recordText baton after recorded record = recorded := by
  funext path
  exact if_neg fun both => other both.1

theorem compared_other {record : NodeRecord} (other : record.kind ≠ some .file) : Compared baton after recorded record :=
  fun file => absurd file other

theorem Checksums.of_eq {st st' : DeltaState sys} (sums : Checksums recorded st) (same : st'.md5Hash = st.md5Hash) :
    Checksums recorded st' := by
  intro path text
  rw [same]
  exact sums path text

/-! ## Records -/

/-- A file with a new text has its checksum, one without has none and is no copy. -/
def Summed (sys : Platform) (after : Texts) (node : DeNode) : Prop :=
  (node.filename = none ∧ node.md5sum = zeroDigest ∧ node.copyfrom = none) ∨
    ∃ text, after node.path = some text ∧ node.md5sum = sys.md5 text ∧ node.appliedDelta = true

theorem TextNode.summed {edition : Edition} {files : TempFiles} {plain : Bool} {node : DeNode}
    (text : TextNode sys edition files plain node) (file : node.kind = .file) : Summed sys edition.after node := by
  cases filename : node.filename with
  | none =>
    obtain ⟨digest, copyfrom⟩ := text.unread filename
    exact .inl ⟨filename, digest, copyfrom file⟩
  | some name =>
    have named : node.filename.isSome := by
      rw [filename]
      rfl
    obtain ⟨-, source, target, -, -, result, digest, -⟩ := text.text named
    exact .inr ⟨target, result, digest, text.applied named⟩

variable {node : DeNode} {st mid : DeltaState sys} {record : NodeRecord}

/-- The record of a file has a text if and only if that is to be dumped. -/
theorem Writes.text_isSome (writes : Writes baton node st record mid) (file : node.kind = .file)
    (present : node.action ≠ .delete) : record.text.isSome ↔ dumpContent baton st node = true := by
  cases writes with
  | deleted gone => exact absurd gone present
  | unchanged _ same => simp [NodeRecord.text, presentRecord, same.2.1]
  | text _ _ content => simp [NodeRecord.text, presentRecord, nodeBody, content]
  | props _ _ content =>
    have quiet : dumpContent baton st node = false := by
      by_contra dumped
      have dir := (content (eq_true_of_ne_false dumped)).2
      rw [file] at dir
      cases dir
    simp [NodeRecord.text, presentRecord, nodeBody, quiet]

theorem Writes.present (writes : Writes baton node st record mid) (present : node.action ≠ .delete) :
    ∃ body, record = presentRecord baton node body := by
  cases writes with
  | deleted gone => exact absurd gone present
  | unchanged => exact ⟨_, rfl⟩
  | text => exact ⟨_, rfl⟩
  | props => exact ⟨_, rfl⟩

/-- A text is written only if there is one. -/
theorem Writes.unread (writes : Writes baton node st record mid) (unread : node.filename = none) : record.text = none := by
  cases writes with
  | deleted => rfl
  | unchanged => rfl
  | props => rfl
  | text _ _ _ read =>
    obtain ⟨name, filename, -⟩ := bind_eq_ok.mp read
    rw [orError_eq_ok, unread] at filename
    cases filename

theorem copyInfo_copyfrom {source : CString × Int} (copied : copyInfo baton node = some source) : node.copyfrom ≠ none := by
  intro uncopied
  rw [copyInfo, uncopied] at copied
  split at copied <;> cases copied

/-- A file with a new text is written with it or as a copy. -/
theorem Writes.known (writes : Writes baton node st record mid) (file : node.kind = .file)
    (present : node.action ≠ .delete) (applied : node.appliedDelta = true) :
    record.copyfrom.isSome ∨ record.text.isSome := by
  obtain ⟨body, same⟩ := writes.present present
  rw [writes.text_isSome file present, same]
  cases copied : copyInfo baton node with
  | none =>
    right
    simp [dumpContent, copied, file, applied]
  | some source =>
    left
    simp [presentRecord, copied]

theorem finish_md5Hash (node : DeNode) (st : DeltaState sys) :
    (finish node st).2.md5Hash = if node.kind = .file then st.md5Hash.insert node.path node.md5sum else st.md5Hash := by
  unfold finish deltaMarkNode
  dsimp only
  split <;> rfl

theorem printedPath_inj {path path' : CString} : printedPath baton path = printedPath baton path' ↔ path = path' := by
  unfold printedPath
  exact List.append_right_inj _

/-- The checksum stored is that of the text recorded. -/
theorem Checksums.written (free : CollisionFree sys.md5) (sums : Checksums recorded st)
    (writes : Writes baton node st record mid) (file : node.kind = .file) (present : node.action ≠ .delete)
    (summed : Summed sys after node) :
    Checksums (recordText baton after recorded record) (finish node (emit mid record)).2 := by
  have hash : (emit mid record).md5Hash = st.md5Hash := by
    rw [emit, writes.frame]
  obtain ⟨body, same⟩ := writes.present present
  have path : record.path = printedPath baton node.path := by rw [same, presentRecord]
  have kind : record.kind = some .file := by simp [same, presentRecord, file]
  intro q text
  rw [finish_md5Hash, if_pos file, hash]
  by_cases here : q = node.path
  · subst here
    rw [AList.lookup_insert, Option.some.injEq, recordText, if_pos ⟨kind, path⟩]
    rcases summed with ⟨unread, digest, copyfrom⟩ | ⟨target, result, digest, applied⟩
    · have uncopied : record.copyfrom = none := by
        rw [same, presentRecord, Option.map_eq_none_iff, Option.eq_none_iff_forall_ne_some]
        exact fun source copied => copyInfo_copyfrom copied copyfrom
      rw [if_neg (by simp [uncopied, writes.unread unread]), digest]
      exact iff_of_false (by simp) fun zero => free.nonzero text zero.symm
    · rw [if_pos (writes.known file present applied), result, digest, Option.some.injEq]
      exact ⟨congrArg sys.md5, free.injective target text⟩
  · rw [AList.lookup_insert_ne here, recordText, if_neg ?_]
    · exact sums q text
    · rintro ⟨-, printed⟩
      rw [path, printedPath_inj] at printed
      exact here printed.symm

/-- The text of a copy is left out if and only if it is the one recorded for the source. -/
theorem Writes.compared (sums : Checksums recorded st)
    (writes : Writes baton node st record mid) (file : node.kind = .file) (present : node.action ≠ .delete)
    (summed : Summed sys after node) : Compared baton after recorded record := by
  obtain ⟨body, same⟩ := writes.present present
  intro _ added source revision copyfrom
  rw [same] at added copyfrom
  replace added : node.action = .add := added
  obtain ⟨⟨source', revision'⟩, copied, printed⟩ := Option.map_eq_some_iff.mp copyfrom
  cases printed
  obtain ⟨-, -, uncopied⟩ | ⟨target, result, digest, -⟩ := summed
  · exact absurd uncopied (copyInfo_copyfrom copied)
  refine ⟨node.path, by rw [same, presentRecord], by rw [result]; rfl, ?_⟩
  rw [Texts.printed_apply, result, sums source' target, ← digest, ← Option.not_isSome_iff_eq_none,
    writes.text_isSome file present]
  simp [dumpContent, copied, added, file]

/-! ## Edits -/

/-- Records are appended whose copies are compared with the texts recorded before them. -/
def AppendsCompared (baton : DeBaton) (after : Texts) (st st' : DeltaState sys) : Prop :=
  ∀ recorded, Checksums recorded st → ∃ records, st'.out = st.out ++ records ∧
    Checksums (recordTexts baton after recorded records) st' ∧ AllCompared baton after recorded records

variable {st' : DeltaState sys}

theorem AppendsCompared.of_eq (out : st'.out = st.out) (hash : st'.md5Hash = st.md5Hash) :
    AppendsCompared baton after st st' :=
  fun _ sums => ⟨[], by rw [out, List.append_nil], sums.of_eq hash, trivial⟩

theorem AppendsCompared.trans {a b c : DeltaState sys} (before : AppendsCompared baton after a b)
    (later : AppendsCompared baton after b c) : AppendsCompared baton after a c := by
  intro recorded sums
  obtain ⟨first, out, sums₁, all⟩ := before recorded sums
  obtain ⟨second, out', sums₂, all'⟩ := later _ sums₁
  refine ⟨first ++ second, by rw [out', out, List.append_assoc], ?_, (allCompared_append first second).mpr ⟨all, all'⟩⟩
  rw [recordTexts, List.foldl_append]
  exact sums₂

/-- A record for something else than a file. -/
theorem appendsCompared_other (record : NodeRecord) (other : record.kind ≠ some .file) (out : st'.out = st.out ++ [record])
    (hash : st'.md5Hash = st.md5Hash) : AppendsCompared baton after st st' := by
  intro recorded sums
  refine ⟨[record], out, ?_, compared_other other, trivial⟩
  rw [recordTexts, List.foldl_cons, List.foldl_nil, recordText_other other]
  exact sums.of_eq hash

theorem deltaDumpNode_deletes_compared {node' : DeNode} {above : List DeNode} (deletes : node.action = .delete)
    (other : node.kind ≠ .file) (ran : deltaDumpNode baton above node st = .ok (node', st')) :
    AppendsCompared baton after st st' := by
  obtain rfl | ⟨last, decided, rfl⟩ := deltaDumpNode_delete deletes ran
  · exact .of_eq rfl rfl
  have kind : last.kind ≠ .file := by
    rw [decided]
    exact other
  refine appendsCompared_other (deleteRecord baton node.path) ?_ ?_ ?_
  · exact fun wrong => by cases wrong
  · rw [finish_out, emit_out]
  · rw [finish_md5Hash, if_neg kind]
    rfl

/-- The record of a node and its checksum. -/
theorem dumpRecord_compared (free : CollisionFree sys.md5) {node' : DeNode}
    (text : node.kind = .file → node.action ≠ .delete ∧ Summed sys after node)
    (ran : dumpRecord baton node st = .ok (node', st')) : AppendsCompared baton after st st' := by
  obtain ⟨record, written, writes, done⟩ := dumpRecord_cases ran
  have final : st' = (finish node (emit written record)).2 := congrArg Prod.snd done
  have out : st'.out = st.out ++ [record] := by rw [final, finish_out, emit_out, writes.out]
  by_cases file : node.kind = .file
  · obtain ⟨present, summed⟩ := text file
    intro recorded sums
    refine ⟨[record], out, ?_, writes.compared sums file present summed, trivial⟩
    rw [final]
    exact sums.written free writes file present summed
  · refine appendsCompared_other record ?_ out ?_
    · cases writes with
      | deleted => exact fun wrong => by cases wrong
      | unchanged => simp [presentRecord, file]
      | text => simp [presentRecord, file]
      | props => simp [presentRecord, file]
    · rw [final, finish_md5Hash, if_neg file, emit, writes.frame]

theorem deltaDumpNode_compared (free : CollisionFree sys.md5) {edition : Edition} {plain : Bool} {node' : DeNode}
    {above : List DeNode} (text : TextNode sys edition st.files plain node)
    (ran : deltaDumpNode baton above node st = .ok (node', st')) : AppendsCompared baton edition.after st st' := by
  obtain ⟨-, -, rfl⟩ | ⟨-, last, mid, deleted, decided, frame, deletes, gone, ran⟩ := deltaDumpNode_cases ran
  · exact .of_eq rfl rfl
  have hash : mid.md5Hash = st.md5Hash := by rw [frame]
  have out : mid.out = st.out ++ deleted := by rw [frame]
  have start : AppendsCompared baton edition.after st mid := by
    rcases deletes with ⟨rfl, -⟩ | ⟨-, rfl⟩
    · exact .of_eq (by rw [out, List.append_nil]) hash
    · exact appendsCompared_other _ (fun wrong => by cases wrong) out hash
  refine start.trans (dumpRecord_compared free (fun file => ?_) ran)
  have kind : node.kind = .file := by
    rw [decided] at file
    exact file
  refine ⟨fun wrong => text.present kind (gone wrong), ?_⟩
  rw [decided]
  exact text.summed kind

theorem unlinkLocal_md5Hash (st : DeltaState sys) (path : CString) : (unlinkLocal st path).md5Hash = st.md5Hash := by
  unfold unlinkLocal
  split <;> rfl

theorem appendsCompared_relates (free : CollisionFree sys.md5) (edition : Edition) (t : TracedRepo sys) :
    Relates baton t edition (AppendsCompared baton edition.after) where
  trans := AppendsCompared.trans
  repo same := .of_eq same.out same.md5Hash
  unlink st path := .of_eq (unlinkLocal_out st path) (unlinkLocal_md5Hash st path)
  dumped text _ _ ran := deltaDumpNode_compared free text ran
  deleted gone other ran := deltaDumpNode_deletes_compared gone other ran

/-- The texts recorded that are left by the callbacks: nothing is known below a deleted path. -/
def Drive.leaves : Drive → Texts → Texts
  | .done, recorded => recorded
  | .deleteEntry path rest, recorded => rest.leaves (recorded.pruned path)
  | .addDirectory _ _ children rest, recorded => rest.leaves (children.leaves recorded)
  | .openDirectory _ _ children rest, recorded => rest.leaves (children.leaves recorded)
  | .addFile _ _ _ rest, recorded => rest.leaves recorded
  | .openFile _ _ _ rest, recorded => rest.leaves recorded

theorem Checksums.pruned (sums : Checksums recorded st) {path : CString}
    (hash : st'.md5Hash = eraseChildren st.md5Hash path) : Checksums (recorded.pruned path) st' := by
  intro q text
  rw [hash, lookup_eraseChildren, Texts.pruned]
  split
  · simp
  · exact sums q text

theorem deDeleteEntry_md5Hash (parent : DeNode) (path : CString) (st : DeltaState sys) :
    Post (fun result => result.2.md5Hash = eraseChildren st.md5Hash path) (fun _ => True)
      (deDeleteEntry baton parent path st) := by
  refine Post.bind (post_orError_fails trivial) fun children _ => ?_
  refine Post.bind (post_orError_fails trivial) fun store _ => ?_
  rw [pure_eq_ok, post_ok]
  split <;> rfl

theorem openNode_md5Hash (kind : NodeKind) (parent : DeNode) (path : CString) (st : DeltaState sys) :
    Post (fun result => result.2.md5Hash = st.md5Hash) (fun _ => True) (openNode kind parent path st) :=
  Post.bind (post_orError_fails trivial) fun _ _ => rfl

theorem applyText_md5Hash (node : DeNode) (st : DeltaState sys) (text : Option TextDelta) :
    Post (fun result => result.2.md5Hash = st.md5Hash) (fun _ => True) (applyText node st text) := by
  cases ran : applyText node st text with
  | error e => trivial
  | ok result =>
    obtain ⟨node', st'⟩ := result
    obtain ⟨-, -, rfl⟩ | ⟨delta, source, -, -, -, rfl⟩ := applyText_cases ran
    · exact rfl
    · exact rfl

/-- The callbacks forget the checksums below the deleted paths and nothing else. -/
theorem runDrive_checksums (drive : Drive) {parent : DeNode} (sums : Checksums recorded st) :
    Post (fun result => Checksums (drive.leaves recorded) result.2) (fun _ => True) (runDrive baton parent drive st) := by
  induction drive generalizing parent st recorded with
  | done => exact sums
  | deleteEntry path rest ih =>
    refine Post.bind (deDeleteEntry_md5Hash parent path st) fun created hash => ?_
    exact Post.bind (ih (sums.pruned hash)) fun later tail => tail
  | addDirectory path props children rest ihChildren ihRest =>
    refine Post.bind (deAddDirectory_frame parent path st) fun created same => ?_
    refine Post.bind (ihChildren (sums.of_eq same.md5Hash)) fun inner kept => ?_
    exact Post.bind (ihRest (kept.of_eq rfl)) fun later tail => tail
  | openDirectory path props children rest ihChildren ihRest =>
    refine Post.bind (openNode_md5Hash .dir parent path st) fun created same => ?_
    refine Post.bind (ihChildren (sums.of_eq same)) fun inner kept => ?_
    exact Post.bind (ihRest (kept.of_eq rfl)) fun later tail => tail
  | addFile path props text rest ih =>
    refine Post.bind (deAddFile_frame parent path st) fun created same => ?_
    refine Post.bind (applyText_md5Hash _ created.2 text) fun written same' => ?_
    exact Post.bind (ih (sums.of_eq (same'.trans same.md5Hash))) fun later tail => tail
  | openFile path props text rest ih =>
    refine Post.bind (openNode_md5Hash .file parent path st) fun created same => ?_
    refine Post.bind (applyText_md5Hash _ created.2 text) fun written same' => ?_
    exact Post.bind (ih (sums.of_eq (same'.trans same))) fun later tail => tail

/-- The copies of an edit are compared with the texts recorded, and its own texts are recorded. -/
theorem runEdit_compared (free : CollisionFree sys.md5) {edit : Edit} {texts copies : Texts}
    (named : Named st) (stores : Stores st copies) (agree : Agree texts copies)
    (promised : Promised baton edit texts) (sums : Checksums recorded st) (ran : runEdit baton edit st = .ok st') :
    AllCompared baton (edit.children.texts texts) (edit.children.leaves recorded) st'.out ∧
      Checksums (recordTexts baton (edit.children.texts texts) (edit.children.leaves recorded) st'.out) st' := by
  obtain ⟨⟨children, driven, drives, compared⟩, -⟩ := runEdit_relates named stores agree promised
    (appendsCompared_relates free (edit.children.edition texts copies) st.repo) ran
  have start : Checksums recorded { st with dumpedEntries := ∅, out := [] } := sums.of_eq rfl
  have left := (runDrive_checksums edit.children start).of_ok drives
  obtain ⟨records, same, kept, all⟩ := compared _ (left.of_eq rfl)
  have out : driven.out = [] := ((@runDrive_creates _ _ (fun _ => True) _ (fun _ _ => trivial) _ _).of_ok drives).2
  rw [show (closeNode _ driven).out = [] from out, List.nil_append] at same
  rw [same]
  exact ⟨all, kept⟩

end Rsvndump
