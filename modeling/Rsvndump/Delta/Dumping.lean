import Rsvndump.Delta.Received

/-! Dumping the nodes of an edit one after another.

When a node is dumped, the old copy of its file is removed. The nodes that are
still to come have other files, so that each of them is dumped with its texts.
What holds between the states before and after each node holds for the edit.
-/

set_option autoImplicit false

namespace Rsvndump

open Library

variable {sys : Platform} {baton : DeBaton}

/-! ## Nodes outside of copies -/

theorem deltaCheckCopy_plain {node : DeNode} (plain : isPlain node = true) : deltaCheckCopy baton node = node := by
  obtain ⟨copyfrom, cpInfo⟩ := of_decide_eq_true plain
  obtain ⟨path, filename, oldFilename, action, kind, properties, delProperties, md5sum, _, revision, _, applied, needed,
    changed⟩ := node
  subst copyfrom
  subst cpInfo
  rfl

theorem isPlain_congr {node node' : DeNode} (copyfrom : node'.copyfrom = node.copyfrom) (cpInfo : node'.cpInfo = node.cpInfo) :
    isPlain node' = isPlain node := by
  unfold isPlain
  rw [copyfrom, cpInfo]

theorem finish_plain (node : DeNode) (st : DeltaState sys) : isPlain (finish node st).1 = isPlain node := rfl

/-- A node outside of all copies stays outside. -/
theorem deltaDumpNode_plain {node node' : DeNode} {above : List DeNode} {st st' : DeltaState sys}
    (plain : isPlain node = true) (ran : deltaDumpNode baton above node st = .ok (node', st')) : isPlain node' = true := by
  obtain ⟨-, rfl, -⟩ | ⟨-, checked, mid, check, ran⟩ := deltaDumpNode_checked ran
  · exact plain
  rw [deltaCheckCopy_plain plain] at check
  have same : OnlyAction node checked := ((deltaCheckAction_frame above _ st).of_ok check).1
  have kept : isPlain checked = true := (isPlain_congr same.copyfrom same.cpInfo).trans plain
  rcases ran with ⟨-, ran⟩ | ⟨-, ran⟩
  · obtain ⟨record, written, -, done⟩ := dumpRecord_cases ran
    rw [show node' = _ from congrArg Prod.fst done, finish_plain]
    exact kept
  · obtain ⟨record, written, -, done⟩ := dumpRecord_cases ran
    have reset : isPlain { checked with cpInfo := .none, action := .add } = true :=
      decide_eq_true ⟨(of_decide_eq_true kept).1, rfl⟩
    rw [show node' = _ from congrArg Prod.fst done, finish_plain, deltaCheckCopy_plain reset]
    exact reset

/-- A deletion is dumped as it is. -/
theorem deltaDumpNode_delete {node node' : DeNode} {above : List DeNode} {st st' : DeltaState sys}
    (deletes : node.action = .delete) (ran : deltaDumpNode baton above node st = .ok (node', st')) :
    st' = st ∨ ∃ last, OnlyDecision node last ∧ st' = (finish last (emit st (deleteRecord baton node.path))).2 := by
  have action := (deltaCheckCopy_action baton node).trans deletes
  have decided := deltaCheckCopy_decision baton node
  obtain ⟨-, -, rfl⟩ | ⟨-, checked, mid, check, ran⟩ := deltaDumpNode_checked ran
  · exact .inl rfl
  rw [deltaCheckAction, if_pos (by simp [action])] at check
  cases check
  obtain ⟨-, ran⟩ | ⟨replaced, -⟩ := ran
  · obtain ⟨record, written, writes, done⟩ := dumpRecord_cases ran
    refine .inr ⟨_, decided, ?_⟩
    have path : (deltaCheckCopy baton node).path = node.path := by rw [decided]
    cases writes with
    | deleted =>
      rw [← path]
      exact congrArg Prod.snd done
    | unchanged present => exact absurd action present
    | text present => exact absurd action present
    | props present => exact absurd action present
  · rw [action] at replaced
    cases replaced

/-! ## Removed files -/

/-- At most these files are removed. -/
structure Drops (old : Nat → Prop) (st st' : DeltaState sys) : Prop where
  hash : st'.deltaHash = st.deltaHash
  next : st.files.next ≤ st'.files.next
  content : ∀ name, st'.files.content name = st.files.content name ∨ (old name ∧ st'.files.content name = none)

def DeNode.isOld (node : DeNode) (name : Nat) : Prop := node.oldFilename = some name

variable {old : Nat → Prop}

theorem Drops.of_eq {st st' : DeltaState sys} (files : st'.files = st.files) (hash : st'.deltaHash = st.deltaHash) :
    Drops old st st' := by
  refine ⟨hash, ?_, fun name => .inl ?_⟩
  · rw [files]
  · rw [files]

theorem Drops.mono {old old' : Nat → Prop} {st st' : DeltaState sys} (drops : Drops old st st')
    (more : ∀ name, old name → old' name) : Drops old' st st' :=
  ⟨drops.hash, drops.next, fun name => (drops.content name).imp_right fun gone => ⟨more name gone.1, gone.2⟩⟩

theorem Drops.trans {a b c : DeltaState sys} (first : Drops old a b) (second : Drops old b c) : Drops old a c := by
  refine ⟨second.hash.trans first.hash, Nat.le_trans first.next second.next, fun name => ?_⟩
  rcases second.content name with same | gone
  · rw [same]
    exact first.content name
  · exact .inr gone

theorem Drops.kept {st st' : DeltaState sys} (drops : Drops old st st') {name : Nat} (other : ¬ old name) :
    st'.files.content name = st.files.content name :=
  (drops.content name).resolve_right fun gone => other gone.1

theorem finish_drops (node : DeNode) (st : DeltaState sys) : Drops node.isOld st (finish node st).2 := by
  unfold finish deltaMarkNode
  dsimp only
  split
  · next name old =>
    refine ⟨rfl, le_rfl, fun name' => ?_⟩
    by_cases same : name' = name
    · subst same
      exact .inr ⟨old, Function.update_self _ _ _⟩
    · exact .inl (Function.update_of_ne same _ _)
  · exact .of_eq rfl rfl

theorem Writes.drops {node : DeNode} {record : NodeRecord} {st mid : DeltaState sys} (writes : Writes baton node st record mid) :
    Drops old st mid := by
  cases writes with
  | deleted => exact .of_eq rfl rfl
  | unchanged => exact .of_eq rfl rfl
  | props => exact .of_eq rfl rfl
  | text _ _ _ read =>
    unfold contentFile at read
    obtain ⟨name, -, read⟩ := bind_eq_ok.mp read
    obtain ⟨target, -, read⟩ := bind_eq_ok.mp read
    split at read
    · obtain ⟨source, -, read⟩ := bind_eq_ok.mp read
      cases read
      exact ⟨rfl, Nat.le_succ _, fun _ => .inl rfl⟩
    · cases read
      exact .of_eq rfl rfl

theorem deltaDumpNode_drops {node node' : DeNode} {above : List DeNode} {st st' : DeltaState sys}
    (ran : deltaDumpNode baton above node st = .ok (node', st')) :
    Drops node.isOld st st' ∧ node'.oldFilename = node.oldFilename := by
  obtain ⟨-, rfl, rfl⟩ | ⟨-, last, mid, deleted, decided, frame, -, -, ran⟩ := deltaDumpNode_cases ran
  · exact ⟨.of_eq rfl rfl, rfl⟩
  have same : last.oldFilename = node.oldFilename := by rw [decided]
  obtain ⟨record, written, writes, done⟩ := dumpRecord_cases ran
  rw [show node' = _ from congrArg Prod.fst done, show st' = _ from congrArg Prod.snd done]
  refine ⟨?_, same⟩
  have start : Drops node.isOld st mid := by
    rw [frame]
    exact .of_eq rfl rfl
  have last' : Drops node.isOld (emit written record) (finish last (emit written record)).2 :=
    (finish_drops last _).mono fun name found => same.symm.trans found
  have printed : Drops node.isOld written (emit written record) := .of_eq rfl rfl
  exact ((start.trans writes.drops).trans printed).trans last'

/-- A node keeps its texts if its files are others. -/
theorem TextNode.drops {edition : Edition} {plain : Bool} {node : DeNode} {st st' : DeltaState sys}
    (text : TextNode sys edition st.files plain node) (drops : Drops old st st')
    (apart : ∀ name, old name → node.filename ≠ some name ∧ node.oldFilename ≠ some name) :
    TextNode sys edition st'.files plain node where
  unread := text.unread
  present := text.present
  applied := text.applied
  text named := by
    obtain ⟨member, source, target, oldText', newText', rest⟩ := text.text named
    refine ⟨member, source, target, ?_, ?_, rest⟩
    · unfold oldText at oldText' ⊢
      split at oldText'
      · exact oldText'
      · next name found => exact (drops.kept fun gone => (apart name gone).2 found).trans oldText'
    · obtain ⟨name, filename, content⟩ := Option.bind_eq_some_iff.mp newText'
      refine Option.bind_eq_some_iff.mpr ⟨name, filename, ?_⟩
      exact (drops.kept fun gone => (apart name gone).1 filename).trans content

/-- Local copies that are still in use are not removed. -/
theorem Stores.drops {st st' : DeltaState sys} {copies : Texts} (stores : Stores st copies) (drops : Drops old st st')
    (detached : ∀ name, old name → Detached st name) : Stores st' copies := by
  have kept : ∀ path name, st.deltaHash.lookup path = some name →
      st'.files.content name = st.files.content name :=
    fun path name found => drops.kept fun gone => (detached name gone).2 path found
  refine ⟨fun path => ?_, fun path name found => ?_⟩
  · rw [drops.hash, ← stores.held path]
    cases found : st.deltaHash.lookup path with
    | none => rfl
    | some name => exact kept path name found
  · rw [drops.hash] at found
    rw [kept path name found]
    exact stores.there path name found

theorem Named.drops {st st' : DeltaState sys} (named : Named st) (drops : Drops old st st') : Named st' := by
  refine ⟨fun path name found => ?_, ?_, fun name above => ?_⟩
  · rw [drops.hash] at found
    exact Nat.lt_of_lt_of_le (named.old path name found) drops.next
  · rw [drops.hash]
    exact named.distinct
  · have unused := named.unused name (Nat.le_trans drops.next above)
    rcases drops.content name with same | ⟨-, gone⟩
    · exact same.trans unused
    · exact gone

/-! ## Visits -/

/-- The path storage after further queries and scheduled paths. -/
inductive Later (t : TracedRepo sys) : TracedRepo sys → Prop
  | refl : Later t t
  | add {t' : TracedRepo sys} (path : CString) : Later t t' → Later t (t'.add path).1
  | delete {t' : TracedRepo sys} (path : CString) : Later t t' → Later t (t'.delete path)
  | tree {t' t'' : TracedRepo sys} {r : Int} {found : CbSet} : Later t t' → t'.tree r = some (found, t'') → Later t t''

/-- The storage `t` and what comes after it. -/
theorem closed_later (t : TracedRepo sys) (asked : Int → Prop) : Closed (Later t) asked where
  add _ path later := later.add path
  delete _ path later := later.delete path
  query _ _ _ _ _ later reached := later.tree reached

/-- A node after its first visit, in the state `st'`. -/
structure Visited (t : TracedRepo sys) (baton : DeBaton) (child : DeNode) (st : DeltaState sys) (top : DeNode)
    (st' : DeltaState sys) : Prop where
  drops : Drops child.isOld st st'
  old : top.oldFilename = child.oldFilename
  kind : top.kind = child.kind
  gone : top.action = .delete → child.action = .delete
  fromLog : FromLog baton top
  later : Later t st'.repo

variable {t : TracedRepo sys} {edition : Edition} {plain : Bool}

/-- What a node inherits does not change its texts. -/
theorem TextNode.propagated {files : TempFiles} {node node' : DeNode} (text : TextNode sys edition files plain node)
    (same : OnlyCpInfo node node') : TextNode sys edition files plain node' := by
  rw [same]
  exact ⟨text.unread, text.present, text.applied, text.text⟩

theorem deltaPropagateCopy_plain {parent child child' : DeNode} {above : List DeNode} {st st' : DeltaState sys}
    (outside : isPlain parent = true) (plain : isPlain child = true)
    (ran : deltaPropagateCopy baton parent above child st = .ok (child', st')) : isPlain child' = true := by
  have none := (of_decide_eq_true outside).2
  rw [deltaPropagateCopy, if_pos (by simp [none]), none] at ran
  cases ran
  exact decide_eq_true ⟨(of_decide_eq_true plain).1, rfl⟩

theorem deltaDumpNodeIf_visits {now : Bool} {node node' : DeNode} {above : List DeNode} {st st' : DeltaState sys}
    (fromLog : FromLog baton node) (parents : ∀ parent ∈ above, FromLog baton parent) (later : Later t st.repo)
    (ran : deltaDumpNodeIf baton now above node st = .ok (node', st')) : Visited t baton node st node' st' := by
  obtain ⟨fromLog', later'⟩ := (deltaDumpNodeIf_post (closed_later t (AsksFor baton)).queries fromLog parents later).of_ok ran
  unfold deltaDumpNodeIf at ran
  split at ran
  · obtain ⟨drops, old⟩ := deltaDumpNode_drops ran
    obtain ⟨-, rfl, -⟩ | ⟨-, last, mid, deleted, decided, -, -, kept, ran⟩ := deltaDumpNode_cases ran
    · exact ⟨drops, rfl, rfl, id, fromLog', later'⟩
    · obtain ⟨record, written, writes, done⟩ := dumpRecord_cases ran
      have same : node' = { last with dumpNeeded := false } := congrArg Prod.fst done
      refine ⟨drops, old, ?_, ?_, fromLog', later'⟩
      · rw [same, decided]
      · rw [same]
        exact kept
  · cases ran
    exact ⟨.of_eq rfl rfl, rfl, rfl, id, fromLog', later'⟩

/-! ## Relations over an edit -/

/-- A relation between states that is kept up by all that happens while an edit is closed. -/
structure Relates (baton : DeBaton) (t : TracedRepo sys) (edition : Edition) (rel : DeltaState sys → DeltaState sys → Prop) :
    Prop where
  trans : ∀ {a b c : DeltaState sys}, rel a b → rel b c → rel a c
  repo : ∀ {st st' : DeltaState sys}, OnlyRepo st st' → rel st st'
  unlink : ∀ (st : DeltaState sys) (path : CString), rel st (unlinkLocal st path)
  dumped : ∀ {above : List DeNode} {node node' : DeNode} {plain : Bool} {st st' : DeltaState sys},
    TextNode sys edition st.files plain node → (plain = true → ∀ parent ∈ above, isPlain parent = true) →
    Later t st.repo → deltaDumpNode baton above node st = .ok (node', st') → rel st st'
  deleted : ∀ {above : List DeNode} {node node' : DeNode} {st st' : DeltaState sys},
    node.action = .delete → node.kind ≠ .file → deltaDumpNode baton above node st = .ok (node', st') → rel st st'

variable {rel : DeltaState sys → DeltaState sys → Prop}

/-- The first visit of a child. -/
theorem dumpChild_relates (relates : Relates baton t edition rel) {parent child propagated top : DeNode} {above : List DeNode}
    {st st₁ st₂ : DeltaState sys} (text : TextNode sys edition st.files plain child)
    (fromLog : FromLog baton child) (parents : ∀ node ∈ parent :: above, FromLog baton node)
    (outside : plain = true → ∀ node ∈ parent :: above, isPlain node = true)
    (later : Later t st.repo) (inherits : deltaPropagateCopy baton parent above child st = .ok (propagated, st₁))
    (dumps : deltaDumpNodeIf baton (propagated.action ≠ .delete) (parent :: above) propagated st₁ = .ok (top, st₂)) :
    rel st st₂ ∧ Visited t baton child st top st₂ ∧ ((plain && isPlain child) = true → isPlain top = true) := by
  obtain ⟨same, repo⟩ := (deltaPropagateCopy_frame parent above child st).of_ok inherits
  obtain ⟨fromLog₁, later₁⟩ :=
    (deltaPropagateCopy_post (closed_later t (AsksFor baton)).queries fromLog parents later).of_ok inherits
  have visits := deltaDumpNodeIf_visits fromLog₁ parents later₁ dumps
  have files : st₁.files = st.files := by rw [show st₁ = _ from repo]
  have hash : st₁.deltaHash = st.deltaHash := by rw [show st₁ = _ from repo]
  have old : propagated.oldFilename = child.oldFilename := by rw [show propagated = _ from same]
  have kind : propagated.kind = child.kind := by rw [show propagated = _ from same]
  have action : propagated.action = child.action := by rw [show propagated = _ from same]
  have kept : (plain && isPlain child) = true → isPlain propagated = true := by
    intro both
    rw [Bool.and_eq_true] at both
    exact deltaPropagateCopy_plain (outside both.1 parent List.mem_cons_self) both.2 inherits
  have text₁ : TextNode sys edition st₁.files plain propagated := by
    rw [files]
    exact text.propagated same
  have drops : Drops child.isOld st st₂ := by
    refine (Drops.of_eq files hash).trans (visits.drops.mono fun name found => ?_)
    exact old.symm.trans found
  refine ⟨?_, ⟨drops, visits.old.trans old, visits.kind.trans kind, fun gone => action ▸ visits.gone gone, visits.fromLog,
    visits.later⟩, fun both => ?_⟩
  · unfold deltaDumpNodeIf at dumps
    split at dumps
    · exact relates.trans (relates.repo repo) (relates.dumped text₁ outside later₁ dumps)
    · cases dumps
      exact relates.repo repo
  · unfold deltaDumpNodeIf at dumps
    split at dumps
    · exact deltaDumpNode_plain (kept both) dumps
    · cases dumps
      exact kept both

theorem dumpChildren_relates (relates : Relates baton t edition rel) {nodes : NodeTree} {parent : DeNode}
    {above : List DeNode} {st st' : DeltaState sys} (tree : nodes.Along (TextNode sys edition st.files) plain)
    (apart : nodes.nodes.Pairwise Apart) (logged : nodes.All (FromLog baton))
    (parents : ∀ node ∈ parent :: above, FromLog baton node)
    (outside : plain = true → ∀ node ∈ parent :: above, isPlain node = true) (later : Later t st.repo)
    (ran : dumpChildren baton parent above nodes st = .ok st') :
    rel st st' ∧ Drops (fun name => ∃ node ∈ nodes.nodes, node.isOld name) st st' := by
  induction nodes generalizing parent above st st' plain with
  | nil =>
    cases ran
    exact ⟨relates.repo (.refl _), .of_eq rfl rfl⟩
  | cons child children rest ihChildren ihRest =>
    obtain ⟨text, inner, behind⟩ := tree
    obtain ⟨fromLog, innerLogged, behindLogged⟩ := logged
    rw [NodeTree.nodes, List.pairwise_cons, List.pairwise_append] at apart
    obtain ⟨first, innerApart, behindApart, crossing⟩ := apart
    rw [dumpChildren] at ran
    obtain ⟨⟨propagated, st₁⟩, inherits, ran⟩ := bind_eq_ok.mp ran
    obtain ⟨⟨top, st₂⟩, dumps, ran⟩ := bind_eq_ok.mp ran
    obtain ⟨st₃, below, ran⟩ := bind_eq_ok.mp ran
    obtain ⟨⟨bottom, st₄⟩, closes, ran⟩ := bind_eq_ok.mp ran
    obtain ⟨related, visits, plainTop⟩ := dumpChild_relates relates text fromLog parents outside later inherits dumps
    have parents₂ : ∀ node ∈ top :: parent :: above, FromLog baton node := List.forall_mem_cons.mpr ⟨visits.fromLog, parents⟩
    have later₃ := (dumpChildren_post (closed_later t (AsksFor baton)).queries innerLogged parents₂ visits.later).of_ok below
    have closing := deltaDumpNodeIf_visits visits.fromLog parents later₃ closes
    -- the files of a child are removed before its own children and its siblings are dumped
    have inner₂ := inner.mono_mem fun plain node member text =>
      text.drops visits.drops (first node (List.mem_append_left _ member))
    have outside₂ : (plain && isPlain child) = true → ∀ node ∈ top :: parent :: above, isPlain node = true := by
      intro both
      exact List.forall_mem_cons.mpr ⟨plainTop both, outside (Bool.and_eq_true _ _ ▸ both).1⟩
    obtain ⟨relatedBelow, dropsBelow⟩ := ihChildren inner₂ innerApart innerLogged parents₂ outside₂ visits.later below
    have relatedClosing : rel st₃ st₄ := by
      unfold deltaDumpNodeIf at closes
      split at closes
      · next deletes =>
        have gone : top.action = .delete := of_decide_eq_true deletes
        refine relates.deleted gone (fun file => ?_) closes
        rw [visits.kind] at file
        exact text.present file (visits.gone gone)
      · cases closes
        exact relates.repo (.refl _)
    have dropsClosing : Drops child.isOld st₃ st₄ := closing.drops.mono fun name found => visits.old.symm.trans found
    have behind₄ := behind.mono_mem fun plain node member text => by
      have own := first node (List.mem_append_right _ member)
      have text₂ := text.drops visits.drops own
      have text₃ := text₂.drops dropsBelow fun name gone => by
        obtain ⟨other, within, found⟩ := gone
        exact crossing other within node member name found
      exact text₃.drops dropsClosing own
    obtain ⟨relatedBehind, dropsBehind⟩ := ihRest behind₄ behindApart behindLogged parents outside closing.later ran
    refine ⟨relates.trans (relates.trans (relates.trans related relatedBelow) relatedClosing) relatedBehind, ?_⟩
    have own : ∀ name, child.isOld name → ∃ node ∈ (NodeTree.cons child children rest).nodes, node.isOld name :=
      fun name found => ⟨child, List.mem_cons_self, found⟩
    refine (((visits.drops.mono own).trans (dropsBelow.mono ?_)).trans (dropsClosing.mono own)).trans (dropsBehind.mono ?_)
    · rintro name ⟨node, member, found⟩
      exact ⟨node, List.mem_cons_of_mem _ (List.mem_append_left _ member), found⟩
    · rintro name ⟨node, member, found⟩
      exact ⟨node, List.mem_cons_of_mem _ (List.mem_append_right _ member), found⟩

theorem rootNode_plain (edit : Edit) : isPlain (rootNode edit) = true := by
  unfold rootNode deChangeDirProp
  rw [onlyProps_changeProps edit.rootProps deOpenRoot]
  rfl

theorem rootNode_bare (edit : Edit) : Bare (rootNode edit) := Bare.changeProps ⟨rfl, rfl, rfl⟩ edit.rootProps

theorem rootNode_kind (edit : Edit) : (rootNode edit).kind = .none := by
  unfold rootNode deChangeDirProp
  exact changeProps_kind edit.rootProps deOpenRoot

/-- The tree of nodes is dumped with all its texts. -/
theorem deltaDumpNodeRecursive_relates (relates : Relates baton t edition rel) {edit : Edit} {nodes : NodeTree}
    {st st' : DeltaState sys} {copies : Texts} (named : Named st) (stores : Stores st copies)
    (detached : ∀ node ∈ nodes.nodes, ∀ name, node.oldFilename = some name → Detached st name)
    (tree : nodes.Along (TextNode sys edition st.files) true) (apart : nodes.nodes.Pairwise Apart)
    (logged : nodes.All (FromLog baton)) (later : Later t st.repo)
    (ran : deltaDumpNodeRecursive baton (rootNode edit) nodes st = .ok st') :
    rel st st' ∧ Named st' ∧ Stores st' copies := by
  obtain ⟨⟨root, mid⟩, top, ran⟩ := bind_eq_ok.mp ran
  have fromLog : FromLog baton (rootNode edit) := fromLog_root.changeProps edit.rootProps
  obtain ⟨fromLog', later'⟩ :=
    (deltaDumpNode_post (closed_later t (AsksFor baton)).queries fromLog (by simp) later).of_ok top
  have rootText : TextNode sys edition st.files true (rootNode edit) := by
    refine (rootNode_bare edit).textNode (fun file => ?_) _ _ _
    rw [rootNode_kind] at file
    cases file
  have unread : ∀ name, ¬ (rootNode edit).isOld name := by
    intro name found
    rw [DeNode.isOld, (rootNode_bare edit).oldFilename] at found
    cases found
  have topDrops := (deltaDumpNode_drops top).1
  have tree' := tree.mono fun plain node text => text.drops topDrops fun name gone => absurd gone (unread name)
  have parents : ∀ node ∈ [root], FromLog baton node := by simpa using fromLog'
  have outside : true = true → ∀ node ∈ [root], isPlain node = true := by
    intro _ node member
    rw [List.mem_singleton.mp member]
    exact deltaDumpNode_plain (rootNode_plain edit) top
  obtain ⟨related, drops⟩ := dumpChildren_relates relates tree' apart logged parents outside later' ran
  have all := (topDrops.mono fun name gone => absurd gone (unread name)).trans drops
  refine ⟨relates.trans (relates.dumped rootText (by simp) later top) related, named.drops all, stores.drops all ?_⟩
  rintro name ⟨node, member, found⟩
  exact detached node member name found

/-! ## Closing an edit -/

/-- Without the copies of the paths logged as deleted. -/
def Texts.unlinked (copies : Texts) (entries : List ((_ : CString) × ChangedPath)) : Texts :=
  entries.foldl (fun copies entry => if entry.2.action = .delete then copies.erased entry.1 else copies) copies

theorem Agree.unlinked {texts copies : Texts} (agree : Agree texts copies) {entries : List ((_ : CString) × ChangedPath)}
    (gone : ∀ entry ∈ entries, entry.2.action = .delete → texts entry.1 = none) : Agree texts (copies.unlinked entries) := by
  unfold Texts.unlinked
  induction entries generalizing copies with
  | nil => exact agree
  | cons entry entries ih =>
    rw [List.forall_mem_cons] at gone
    refine ih ?_ gone.2
    dsimp only
    split
    · next deleted =>
      intro path text found
      have other : path ≠ entry.1 := by
        rintro rfl
        rw [gone.1 deleted] at found
        cases found
      exact (Function.update_of_ne other _ _).trans (agree path text found)
    · exact agree

theorem unlinkLocal_stores {st : DeltaState sys} {copies : Texts} (named : Named st) (stores : Stores st copies)
    (path : CString) : Named (unlinkLocal st path) ∧ Stores (unlinkLocal st path) (copies.erased path) := by
  unfold unlinkLocal
  split
  · next unheld =>
    have same : copies.erased path = copies := by
      funext q
      by_cases here : q = path
      · rw [here, Texts.erased, Function.update_self, ← stores.held path, unheld, Option.bind_none]
      · exact Function.update_of_ne here _ _
    rw [same]
    exact ⟨named, stores⟩
  · next name held =>
    have lookup : ∀ q name', (st.deltaHash.erase path).lookup q = some name' →
        q ≠ path ∧ st.deltaHash.lookup q = some name' ∧ name' ≠ name := by
      intro q name' found
      by_cases here : q = path
      · rw [here, AList.lookup_erase] at found
        cases found
      · rw [AList.lookup_erase_ne here] at found
        refine ⟨here, found, fun same => ?_⟩
        exact here (named.distinct q path name (same ▸ found) held)
    refine ⟨⟨fun q name' found => ?_, fun q q' name' first second => ?_, fun name' above => ?_⟩,
      ⟨fun q => ?_, fun q name' found => ?_⟩⟩
    · exact named.old q name' (lookup q name' found).2.1
    · exact named.distinct q q' name' (lookup q name' first).2.1 (lookup q' name' second).2.1
    · by_cases here : name' = name
      · rw [here]
        exact Function.update_self _ _ _
      · exact (Function.update_of_ne here _ _).trans (named.unused name' above)
    · by_cases here : q = path
      · rw [here, Texts.erased, Function.update_self, AList.lookup_erase]
        rfl
      · rw [Texts.erased, Function.update_of_ne here, ← stores.held q]
        cases found : (st.deltaHash.erase path).lookup q with
        | none =>
          rw [AList.lookup_erase_ne here] at found
          rw [found]
          rfl
        | some name' =>
          obtain ⟨-, before, other⟩ := lookup q name' found
          rw [before]
          exact Function.update_of_ne other _ _
    · obtain ⟨-, before, other⟩ := lookup q name' found
      have there := stores.there q name' before
      rwa [← show (st.files.remove name).content name' = _ from Function.update_of_ne other _ _] at there

theorem closeEntry_relates (relates : Relates baton t edition rel) {entry : (_ : CString) × ChangedPath}
    {st st' : DeltaState sys} {copies : Texts} (named : Named st) (stores : Stores st copies)
    (ran : closeEntry baton st entry = .ok st') :
    rel st st' ∧ Named st' ∧ Stores st' (if entry.2.action = .delete then copies.erased entry.1 else copies) := by
  obtain ⟨other, rfl⟩ | ⟨deleted, mid, same, ran⟩ := closeEntry_cases ran
  · rw [if_neg other]
    exact ⟨relates.repo (.refl _), named, stores⟩
  rw [if_pos deleted]
  obtain ⟨named₁, stores₁⟩ := unlinkLocal_stores named stores entry.1
  have files : mid.files = (unlinkLocal st entry.1).files := by rw [show mid = _ from same]
  have hash : mid.deltaHash = (unlinkLocal st entry.1).deltaHash := by rw [show mid = _ from same]
  have start := relates.trans (relates.unlink st entry.1) (relates.repo same)
  rcases ran with rfl | ⟨node, ran⟩
  · exact ⟨start, named₁.of_eq files hash, stores₁.of_eq files hash⟩
  · have drops := (deltaDumpNode_drops ran).1
    refine ⟨relates.trans start (relates.deleted rfl NodeKind.noConfusion ran), (named₁.of_eq files hash).drops drops, ?_⟩
    refine (stores₁.of_eq files hash).drops drops fun name found => ?_
    cases found

theorem closeEntries_relates (relates : Relates baton t edition rel) {entries : List ((_ : CString) × ChangedPath)}
    {st st' : DeltaState sys} {copies : Texts} (named : Named st) (stores : Stores st copies)
    (ran : entries.foldlM (closeEntry baton) st = .ok st') :
    rel st st' ∧ Named st' ∧ Stores st' (copies.unlinked entries) := by
  induction entries generalizing st copies with
  | nil =>
    cases ran
    exact ⟨relates.repo (.refl _), named, stores⟩
  | cons entry entries ih =>
    rw [List.foldlM_cons] at ran
    obtain ⟨mid, first, ran⟩ := bind_eq_ok.mp ran
    obtain ⟨related, named₁, stores₁⟩ := closeEntry_relates relates named stores first
    obtain ⟨related₂, named₂, stores₂⟩ := ih named₁ stores₁ ran
    exact ⟨relates.trans related related₂, named₂, stores₂⟩

/-- The local copies after an edit and the deletions in its log entry. -/
def copiesAfter (log : LogRevision) (edit : Edit) (copies : Texts) : Texts :=
  match log.changedPaths with
  | none => edit.children.copies copies
  | some table => (edit.children.copies copies).unlinked table.entries

/-- What Subversion promises: a sound drive, and no file that the log entry reports as deleted. -/
structure Promised (baton : DeBaton) (edit : Edit) (texts : Texts) : Prop where
  sound : edit.children.Sound texts []
  deleted : ∀ path, baton.logRevision.deletes path → edit.children.texts texts path = none

/-- The local copies are kept by an edit, and the state in which its calls have been received is
related to the one in which it is closed. -/
theorem runEdit_relates {edit : Edit} {st st' : DeltaState sys} {texts copies : Texts} (named : Named st)
    (stores : Stores st copies) (agree : Agree texts copies) (promised : Promised baton edit texts)
    (relates : Relates baton st.repo (edit.children.edition texts copies) rel) (ran : runEdit baton edit st = .ok st') :
    (∃ children driven, runDrive baton (rootNode edit) edit.children { st with dumpedEntries := ∅, out := [] } =
        .ok (children, driven) ∧ rel (closeNode (rootNode edit) driven) st') ∧
      Named st' ∧ Stores st' (copiesAfter baton.logRevision edit copies) ∧
      Agree (edit.children.texts texts) (copiesAfter baton.logRevision edit copies) := by
  unfold runEdit at ran
  obtain ⟨⟨children, driven⟩, drives, ran⟩ := bind_eq_ok.mp ran
  unfold deCloseEdit at ran
  obtain ⟨dumped, dumps, ran⟩ := bind_eq_ok.mp ran
  obtain ⟨table, found, ran⟩ := bind_eq_ok.mp ran
  have named₀ : Named { st with dumpedEntries := ∅, out := [] } := named.of_eq rfl rfl
  have stores₀ : Stores { st with dumpedEntries := ∅, out := [] } copies := stores.of_eq rfl rfl
  have fromLog : FromLog baton (rootNode edit) := fromLog_root.changeProps edit.rootProps
  have later₀ : Later st.repo { st with dumpedEntries := ∅, out := [] }.repo := .refl
  have plain := (of_decide_eq_true (rootNode_plain edit)).2
  have absent : ∀ path, baton.logRevision.deletes path → path ∉ edit.children.files := by
    intro path deletes file
    have there := promised.sound.texts_isSome file
    rw [promised.deleted path deletes] at there
    cases there
  -- the callbacks
  have received := (runDrive_received promised.sound absent agree named₀ stores₀ (.inr ⟨rfl, plain⟩)).of_ok drives
  have grown := (runDrive_grown edit.children named₀).of_ok drives
  obtain ⟨logged, later⟩ := (runDrive_post (closed_later st.repo (AsksFor baton)) edit.children fromLog later₀).of_ok drives
  -- the records of the tree and those of the logged deletions
  have closed := grown.close (rootNode edit)
  obtain ⟨related, named₁, stores₁⟩ := deltaDumpNodeRecursive_relates relates closed.named
    (received.stores.of_eq rfl rfl) closed.detached received.nodes closed.apart logged later dumps
  obtain ⟨related', named₂, stores₂⟩ := closeEntries_relates relates named₁ stores₁ ran
  rw [orError_eq_ok] at found
  refine ⟨⟨children, driven, drives, relates.trans related related'⟩, named₂, ?_⟩
  unfold copiesAfter
  rw [found]
  refine ⟨stores₂, received.agree.unlinked fun entry member deletes => ?_⟩
  exact promised.deleted entry.1 ⟨table, entry.2, found, AList.mem_lookup_iff.mpr member, deletes⟩

end Rsvndump
