import Rsvndump.Delta.Stream

/-! The temporary files of an edit.

Each text that is received gets a file with a new name. A node knows the name of
its new text and that of the copy it replaces, which no other node refers to.
-/

set_option autoImplicit false

namespace Rsvndump

open Library

variable {sys : Platform}

/-- The names in use are not new, and each of them belongs to one path. -/
structure Named (st : DeltaState sys) : Prop where
  old : ∀ path name, st.deltaHash.lookup path = some name → name < st.files.next
  distinct : ∀ path path' name, st.deltaHash.lookup path = some name → st.deltaHash.lookup path' = some name →
    path = path'
  unused : ∀ name, st.files.next ≤ name → st.files.content name = none

/-- Files are only added, with new names. -/
structure Grows (st st' : DeltaState sys) : Prop where
  next : st.files.next ≤ st'.files.next
  kept : ∀ name < st.files.next, st'.files.content name = st.files.content name
  names : ∀ path name, st'.deltaHash.lookup path = some name →
    st.deltaHash.lookup path = some name ∨ st.files.next ≤ name

theorem Grows.refl (st : DeltaState sys) : Grows st st := ⟨le_rfl, fun _ _ => rfl, fun _ _ => .inl⟩

theorem Grows.trans {a b c : DeltaState sys} (first : Grows a b) (second : Grows b c) : Grows a c where
  next := Nat.le_trans first.next second.next
  kept name below := (second.kept name (Nat.lt_of_lt_of_le below first.next)).trans (first.kept name below)
  names path name found := by
    rcases second.names path name found with before | new
    · exact first.names path name before
    · exact .inr (Nat.le_trans first.next new)

theorem Grows.of_eq {st st' : DeltaState sys} (files : st'.files = st.files) (hash : st'.deltaHash = st.deltaHash) :
    Grows st st' := by
  rw [show Grows st st' ↔ Grows st { st with files := st'.files, deltaHash := st'.deltaHash } from
    ⟨fun g => ⟨g.next, g.kept, g.names⟩, fun g => ⟨g.next, g.kept, g.names⟩⟩, files, hash]
  exact .refl st

/-- A name that no path uses any more. -/
def Detached (st : DeltaState sys) (name : Nat) : Prop :=
  name < st.files.next ∧ ∀ path, st.deltaHash.lookup path ≠ some name

theorem Detached.grows {st st' : DeltaState sys} {name : Nat} (detached : Detached st name) (grows : Grows st st') :
    Detached st' name := by
  refine ⟨Nat.lt_of_lt_of_le detached.1 grows.next, fun path found => ?_⟩
  rcases grows.names path name found with before | new
  · exact detached.2 path before
  · exact absurd detached.1 (Nat.not_lt.mpr new)

/-- The names of a node that was made after `st`. -/
structure NodeFrom (st : DeltaState sys) (node : DeNode) : Prop where
  filename : ∀ name, node.filename = some name → st.files.next ≤ name
  oldFilename : ∀ name, node.oldFilename = some name →
    (∃ path, st.deltaHash.lookup path = some name) ∨ st.files.next ≤ name

theorem NodeFrom.earlier {st st' : DeltaState sys} {node : DeNode} (later : NodeFrom st' node) (grows : Grows st st') :
    NodeFrom st node where
  filename name found := Nat.le_trans grows.next (later.filename name found)
  oldFilename name found := by
    rcases later.oldFilename name found with ⟨path, held⟩ | new
    · exact (grows.names path name held).imp_left fun before => ⟨path, before⟩
    · exact .inr (Nat.le_trans grows.next new)

/-- The old file of `first` is none of the files of `second`. -/
def Apart (first second : DeNode) : Prop :=
  ∀ name, first.oldFilename = some name → second.filename ≠ some name ∧ second.oldFilename ≠ some name

theorem NodeFrom.apart {st : DeltaState sys} {first second : DeNode} (later : NodeFrom st second)
    (detached : ∀ name, first.oldFilename = some name → Detached st name) : Apart first second := by
  intro name found
  obtain ⟨below, unused⟩ := detached name found
  refine ⟨fun same => absurd below (Nat.not_lt.mpr (later.filename name same)), fun same => ?_⟩
  rcases later.oldFilename name same with ⟨path, held⟩ | new
  · exact unused path held
  · exact absurd below (Nat.not_lt.mpr new)

/-- A node without a text. -/
structure Bare (node : DeNode) : Prop where
  filename : node.filename = none
  oldFilename : node.oldFilename = none
  md5sum : node.md5sum = zeroDigest

theorem Bare.from {node : DeNode} (bare : Bare node) (st : DeltaState sys) : NodeFrom st node where
  filename name found := by
    rw [bare.filename] at found
    cases found
  oldFilename name found := by
    rw [bare.oldFilename] at found
    cases found

theorem Bare.changeProps {node : DeNode} (bare : Bare node) (changes : List PropChange) :
    Bare (changes.foldl changeProp node) := by
  rw [onlyProps_changeProps changes node]
  exact ⟨bare.filename, bare.oldFilename, bare.md5sum⟩

theorem Bare.addFromLog {node : DeNode} (bare : Bare node) (entry : Option ChangedPath) :
    Bare (addFromLog node entry) := by
  cases entry with
  | none => exact bare
  | some change => exact ⟨bare.filename, bare.oldFilename, bare.md5sum⟩

/-- A callback makes a node without a text and leaves the local copies alone. -/
def MakesBare (st : DeltaState sys) (result : DeNode × DeltaState sys) : Prop :=
  Bare result.1 ∧ result.2.files = st.files ∧ result.2.deltaHash = st.deltaHash

variable {baton : DeBaton}

theorem deAddDirectory_bare (parent : DeNode) (path : CString) (st : DeltaState sys) :
    Post (MakesBare st) (fun _ => True) (deAddDirectory baton parent path st) := by
  refine Post.bind (logEntry_any path st) fun entry _ => ?_
  refine Post.bind (schedulePath_frame path st) fun scheduled same => ⟨?_, same.files, same.deltaHash⟩
  exact Bare.addFromLog ⟨rfl, rfl, rfl⟩ entry

theorem deAddFile_bare (parent : DeNode) (path : CString) (st : DeltaState sys) :
    Post (MakesBare st) (fun _ => True) (deAddFile baton parent path st) := by
  refine Post.bind (logEntry_any path st) fun entry _ => ?_
  refine Post.bind (schedulePath_frame path st) fun scheduled same => ⟨?_, same.files, same.deltaHash⟩
  have bare : Bare (addFromLog { deltaCreateNode path parent .file .add with dumpNeeded := true } entry) :=
    Bare.addFromLog ⟨rfl, rfl, rfl⟩ entry
  dsimp only
  split
  · exact ⟨bare.filename, bare.oldFilename, bare.md5sum⟩
  · exact bare

theorem openNode_bare (kind : NodeKind) (parent : DeNode) (path : CString) (st : DeltaState sys) :
    Post (MakesBare st) (fun _ => True) (openNode kind parent path st) :=
  Post.bind (post_orError_fails trivial) fun _ _ => ⟨⟨rfl, rfl, rfl⟩, rfl, rfl⟩

theorem lookup_eraseChildren {V : Type} (hash : AprHash V) (path q : CString) :
    (eraseChildren hash path).lookup q = if isChild path q then none else hash.lookup q := by
  rw [eraseChildren, lookup_foldl_erase]
  by_cases child : isChild path q = true
  · rw [if_pos child]
    split
    · rfl
    · next unlisted =>
      rw [AList.lookup_eq_none]
      exact fun member => unlisted (List.mem_filter.mpr ⟨AList.mem_keys.mp member, child⟩)
  · rw [if_neg child, if_neg]
    exact fun listed => child (List.mem_filter.mp listed).2

theorem deDeleteEntry_bare (parent : DeNode) (path : CString) (st : DeltaState sys) :
    Post (fun result => Bare result.1 ∧ result.2.files = st.files ∧
      result.2.deltaHash = eraseChildren st.deltaHash path) (fun _ => True) (deDeleteEntry baton parent path st) := by
  refine Post.bind (post_orError_fails trivial) fun children _ => ?_
  refine Post.bind (post_orError_fails trivial) fun store _ => ?_
  have none : (st.deltaHash.keys.filter (isChild path)).filterMap (fun _ => (Option.none : Option Nat)) = [] :=
    List.filterMap_eq_nil_iff.mpr fun _ _ => rfl
  refine ⟨⟨rfl, rfl, rfl⟩, ?_, ?_⟩
  · dsimp only
    rw [none]
    split <;> rfl
  · dsimp only
    split <;> rfl

theorem Named.of_eq {st st' : DeltaState sys} (named : Named st) (files : st'.files = st.files)
    (hash : st'.deltaHash = st.deltaHash) : Named st' := by
  refine ⟨?_, ?_, ?_⟩
  · rw [files, hash]
    exact named.old
  · rw [hash]
    exact named.distinct
  · rw [files]
    exact named.unused

theorem Named.erased {st st' : DeltaState sys} (named : Named st) (files : st'.files = st.files) {path : CString}
    (hash : st'.deltaHash = eraseChildren st.deltaHash path) : Named st' ∧ Grows st st' := by
  have held : ∀ q name, st'.deltaHash.lookup q = some name → st.deltaHash.lookup q = some name := by
    intro q name found
    rw [hash, lookup_eraseChildren] at found
    split at found
    · cases found
    · exact found
  refine ⟨⟨fun q name found => ?_, fun q q' name first second => ?_, by rw [files]; exact named.unused⟩,
    ⟨by rw [files], fun name _ => by rw [files], ?_⟩⟩
  · rw [files]
    exact named.old q name (held q name found)
  · exact named.distinct q q' name (held q name first) (held q' name second)
  · exact fun q name found => .inl (held q name found)

theorem applyText_cases {node node' : DeNode} {st st' : DeltaState sys} {text : Option TextDelta}
    (ran : applyText node st text = .ok (node', st')) :
    (text = none ∧ node' = node ∧ st' = st) ∨
      ∃ delta source, text = some delta ∧ localText st (st.deltaHash.lookup node.path) = .ok source ∧
        node' = { node with
          filename := some st.files.next
          oldFilename := st.deltaHash.lookup node.path
          md5sum := sys.md5 (delta source)
          appliedDelta := true
          dumpNeeded := true } ∧
        st' = { st with
          files := ⟨Function.update st.files.content st.files.next (some (delta source)), st.files.next + 1⟩
          deltaHash := st.deltaHash.insert node.path st.files.next } := by
  cases text with
  | none =>
    cases ran
    exact .inl ⟨rfl, rfl, rfl⟩
  | some delta =>
    obtain ⟨source, read, ran⟩ := bind_eq_ok.mp ran
    cases ran
    exact .inr ⟨delta, source, rfl, read, rfl, rfl⟩

/-- Files made by some callbacks, for the nodes made with them. -/
structure Grown (st : DeltaState sys) (nodes : List DeNode) (st' : DeltaState sys) : Prop where
  named : Named st'
  grows : Grows st st'
  made : ∀ node ∈ nodes, NodeFrom st node
  detached : ∀ node ∈ nodes, ∀ name, node.oldFilename = some name → Detached st' name
  apart : nodes.Pairwise Apart

theorem Grown.append {a b c : DeltaState sys} {first second : List DeNode} (before : Grown a first b)
    (after : Grown b second c) : Grown a (first ++ second) c where
  named := after.named
  grows := before.grows.trans after.grows
  made node member := by
    rcases List.mem_append.mp member with member | member
    · exact before.made node member
    · exact (after.made node member).earlier before.grows
  detached node member name found := by
    rcases List.mem_append.mp member with member | member
    · exact (before.detached node member name found).grows after.grows
    · exact after.detached node member name found
  apart := by
    rw [List.pairwise_append]
    exact ⟨before.apart, after.apart, fun node member other later =>
      (after.made other later).apart (before.detached node member)⟩

theorem grown_bare {st st' : DeltaState sys} {node : DeNode} (named : Named st) (made : MakesBare st (node, st'))
    {node' : DeNode} (bare : Bare node → Bare node') : Grown st [node'] st' where
  named := named.of_eq made.2.1 made.2.2
  grows := .of_eq made.2.1 made.2.2
  made other member := by
    rw [List.mem_singleton.mp member]
    exact (bare made.1).from st
  detached other member name found := by
    rw [List.mem_singleton.mp member, (bare made.1).oldFilename] at found
    cases found
  apart := List.pairwise_singleton _ _

theorem grown_applyText {node node' : DeNode} {st st' : DeltaState sys} {text : Option TextDelta} (named : Named st)
    (bare : Bare node) (ran : applyText node st text = .ok (node', st')) : Grown st [node'] st' := by
  obtain ⟨-, rfl, rfl⟩ | ⟨delta, source, -, -, rfl, rfl⟩ := applyText_cases ran
  · exact grown_bare named ⟨bare, rfl, rfl⟩ id
  have lookup : ∀ path name, (st.deltaHash.insert node.path st.files.next).lookup path = some name →
      (path = node.path ∧ name = st.files.next) ∨ (path ≠ node.path ∧ st.deltaHash.lookup path = some name) := by
    intro path name found
    by_cases same : path = node.path
    · rw [same, AList.lookup_insert] at found
      exact .inl ⟨same, (Option.some.inj found).symm⟩
    · rw [AList.lookup_insert_ne same] at found
      exact .inr ⟨same, found⟩
  refine ⟨⟨fun path name found => ?_, fun path path' name first second => ?_, fun name new => ?_⟩,
    ⟨Nat.le_succ _, fun name below => Function.update_of_ne (Nat.ne_of_lt below) _ _, fun path name found => ?_⟩,
    fun other member => ?_, fun other member name found => ?_, List.pairwise_singleton _ _⟩
  · rcases lookup path name found with ⟨-, rfl⟩ | ⟨-, held⟩
    · exact Nat.lt_succ_self _
    · exact Nat.lt_succ_of_lt (named.old path name held)
  · rcases lookup path name first with ⟨rfl, new⟩ | ⟨-, held⟩
    · rcases lookup path' name second with ⟨same, -⟩ | ⟨-, held⟩
      · exact same.symm
      · exact absurd (named.old path' name held) (by omega)
    · rcases lookup path' name second with ⟨-, new⟩ | ⟨-, held'⟩
      · exact absurd (named.old path name held) (by omega)
      · exact named.distinct path path' name held held'
  · have above : st.files.next < name := new
    exact (Function.update_of_ne (Nat.ne_of_gt above) _ _).trans (named.unused name (Nat.le_of_lt above))
  · rcases lookup path name found with ⟨-, rfl⟩ | ⟨-, held⟩
    · exact .inr le_rfl
    · exact .inl held
  · rw [List.mem_singleton.mp member]
    refine ⟨fun name found => ?_, fun name found => .inl ⟨node.path, found⟩⟩
    rw [← Option.some.inj found]
  · rw [List.mem_singleton.mp member] at found
    have below := named.old node.path name found
    refine ⟨Nat.lt_succ_of_lt below, fun path held => ?_⟩
    rcases lookup path name held with ⟨-, rfl⟩ | ⟨other', held⟩
    · exact absurd below (Nat.lt_irrefl _)
    · exact other' (named.distinct path node.path name held found)

theorem applyText_grown {node : DeNode} {st : DeltaState sys} (named : Named st) (bare : Bare node)
    (text : Option TextDelta) :
    Post (fun result => Grown st [result.1] result.2) (fun _ => True) (applyText node st text) := by
  cases ran : applyText node st text with
  | error e => trivial
  | ok result => exact grown_applyText named bare ran

theorem Grown.earlier {st st₁ st' : DeltaState sys} {nodes : List DeNode} (grown : Grown st₁ nodes st')
    (grows : Grows st st₁) : Grown st nodes st' :=
  ⟨grown.named, grows.trans grown.grows, fun node member => (grown.made node member).earlier grows, grown.detached,
    grown.apart⟩

def NodeTree.nodes : NodeTree → List DeNode
  | .nil => []
  | .cons node children rest => node :: (children.nodes ++ rest.nodes)

theorem Grown.close {st st' : DeltaState sys} {nodes : List DeNode} (grown : Grown st nodes st') (node : DeNode) :
    Grown st nodes (closeNode node st') :=
  ⟨⟨grown.named.old, grown.named.distinct, grown.named.unused⟩, ⟨grown.grows.next, grown.grows.kept, grown.grows.names⟩, grown.made,
    fun other member name found => grown.detached other member name found, grown.apart⟩

/-- The nodes of an edit have files of their own. -/
theorem runDrive_grown (drive : Drive) {parent : DeNode} {st : DeltaState sys} (named : Named st) :
    Post (fun result => Grown st result.1.nodes result.2) (fun _ => True) (runDrive baton parent drive st) := by
  induction drive generalizing parent st with
  | done => exact ⟨named, .refl st, by simp [NodeTree.nodes], by simp [NodeTree.nodes], List.Pairwise.nil⟩
  | deleteEntry path rest ih =>
    refine Post.bind (deDeleteEntry_bare parent path st) fun created first => ?_
    obtain ⟨node, st₁⟩ := created
    obtain ⟨bare, files, hash⟩ := first
    obtain ⟨named₁, grows⟩ := named.erased files hash
    have top : Grown st [node] st₁ := by
      refine ⟨named₁, grows, fun other member => ?_, fun other member name found => ?_, List.pairwise_singleton _ _⟩
      · rw [List.mem_singleton.mp member]
        exact bare.from st
      · rw [List.mem_singleton.mp member, bare.oldFilename] at found
        cases found
    exact Post.bind (ih named₁) fun later tail => top.append tail
  | addDirectory path props children rest ihChildren ihRest =>
    refine Post.bind (deAddDirectory_bare parent path st) fun created first => ?_
    obtain ⟨node, st₁⟩ := created
    have top : Grown st [props.foldl deChangeDirProp node] st₁ := grown_bare named first fun bare => bare.changeProps props
    refine Post.bind (ihChildren top.named) fun inner second => ?_
    have closed := second.close (props.foldl deChangeDirProp node)
    exact Post.bind (ihRest closed.named) fun later tail => top.append (closed.append tail)
  | openDirectory path props children rest ihChildren ihRest =>
    refine Post.bind (openNode_bare .dir parent path st) fun created first => ?_
    obtain ⟨node, st₁⟩ := created
    have top : Grown st [props.foldl deChangeDirProp node] st₁ := grown_bare named first fun bare => bare.changeProps props
    refine Post.bind (ihChildren top.named) fun inner second => ?_
    have closed := second.close (props.foldl deChangeDirProp node)
    exact Post.bind (ihRest closed.named) fun later tail => top.append (closed.append tail)
  | addFile path props text rest ih =>
    refine Post.bind (deAddFile_bare parent path st) fun created first => ?_
    obtain ⟨node, st₁⟩ := created
    refine Post.bind (applyText_grown (named.of_eq first.2.1 first.2.2) (first.1.changeProps props) text) fun written second => ?_
    have closed := (second.earlier (Grows.of_eq first.2.1 first.2.2)).close written.1
    exact Post.bind (ih closed.named) fun later tail => closed.append tail
  | openFile path props text rest ih =>
    refine Post.bind (openNode_bare .file parent path st) fun created first => ?_
    obtain ⟨node, st₁⟩ := created
    refine Post.bind (applyText_grown (named.of_eq first.2.1 first.2.2) (first.1.changeProps props) text) fun written second => ?_
    have closed := (second.earlier (Grows.of_eq first.2.1 first.2.2)).close written.1
    exact Post.bind (ih closed.named) fun later tail => closed.append tail

theorem Grows.content {st st' : DeltaState sys} (grows : Grows st st') (named : Named st) {name : Nat} {text : Bytes}
    (found : st.files.content name = some text) : st'.files.content name = some text := by
  refine (grows.kept name (Nat.lt_of_not_le fun new => ?_)).trans found
  rw [named.unused name new] at found
  cases found

end Rsvndump
