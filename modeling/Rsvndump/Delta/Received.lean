import Rsvndump.Delta.TempFiles
import Rsvndump.Delta.Texts

/-! What the callbacks have received when an edit is closed.

Every file of the repository has a local copy with its text. The nodes know the
new text of their file and its checksum, and the old text if the file was opened.
-/

set_option autoImplicit false

namespace Rsvndump

open Library

variable {sys : Platform} {baton : DeBaton}

/-! ## Local copies -/

/-- The local copies of a state. -/
structure Stores (st : DeltaState sys) (copies : Texts) : Prop where
  held : ∀ path, (st.deltaHash.lookup path).bind st.files.content = copies path
  there : ∀ path name, st.deltaHash.lookup path = some name → (st.files.content name).isSome

theorem Stores.of_eq {st st' : DeltaState sys} {copies : Texts} (stores : Stores st copies)
    (files : st'.files = st.files) (hash : st'.deltaHash = st.deltaHash) : Stores st' copies := by
  refine ⟨?_, ?_⟩
  · rw [files, hash]
    exact stores.held
  · rw [files, hash]
    exact stores.there

theorem Stores.pruned {st st' : DeltaState sys} {copies : Texts} (stores : Stores st copies)
    (files : st'.files = st.files) {path : CString} (hash : st'.deltaHash = eraseChildren st.deltaHash path) :
    Stores st' (copies.pruned path) := by
  refine ⟨fun q => ?_, fun q name found => ?_⟩
  · rw [files, hash, lookup_eraseChildren, Texts.pruned]
    split
    · rfl
    · exact stores.held q
  · rw [hash, lookup_eraseChildren] at found
    rw [files]
    split at found
    · cases found
    · exact stores.there q name found

/-- The source of a delta is the local copy. -/
theorem Stores.source {st : DeltaState sys} {copies : Texts} (stores : Stores st copies) {path : CString} {source : Bytes}
    (read : localText st (st.deltaHash.lookup path) = .ok source) : source = (copies path).getD [] := by
  rw [← stores.held path]
  cases found : st.deltaHash.lookup path with
  | none =>
    rw [found] at read
    exact (Except.ok.inj read).symm
  | some name =>
    rw [found, localText, orError_eq_ok] at read
    rw [Option.bind_some, read, Option.getD_some]

/-- The text a delta is made from; without an old file it is empty. -/
def oldText (files : TempFiles) (node : DeNode) : Option Bytes :=
  match node.oldFilename with
  | none => some []
  | some name => files.content name

def newText (files : TempFiles) (node : DeNode) : Option Bytes := node.filename.bind files.content

theorem Grows.oldText {st st' : DeltaState sys} (grows : Grows st st') (named : Named st) {node : DeNode} {text : Bytes}
    (found : oldText st.files node = some text) : oldText st'.files node = some text := by
  unfold Rsvndump.oldText at *
  split at found
  · exact found
  · exact grows.content named found

theorem Grows.newText {st st' : DeltaState sys} (grows : Grows st st') (named : Named st) {node : DeNode} {text : Bytes}
    (found : newText st.files node = some text) : newText st'.files node = some text := by
  obtain ⟨name, filename, content⟩ := Option.bind_eq_some_iff.mp found
  exact Option.bind_eq_some_iff.mpr ⟨name, filename, grows.content named content⟩

/-! ## Texts of the nodes -/

/-- The texts before and after an edit, the files it visits and those of them it opens. `fresh` says
that no copy is left where a file is added. -/
structure Edition where
  before : Texts
  after : Texts
  visited : List CString
  opened : List CString
  fresh : Prop

def Drive.edition (drive : Drive) (texts copies : Texts) : Edition :=
  ⟨texts, drive.texts texts, drive.files, drive.opened, drive.Fresh copies⟩

/-- A part of an edit, which other parts do not disturb. -/
structure Edition.Within (part whole : Edition) : Prop where
  before : ∀ path ∈ part.visited, ∀ source, part.before path = some source → whole.before path = some source
  after : ∀ path ∈ part.visited, whole.after path = part.after path
  visited : part.visited ⊆ whole.visited
  opened : part.opened ⊆ whole.opened
  fresh : whole.fresh → part.fresh

/-- A node without a text has no checksum, and it is neither a copied nor a deleted file. With a
text it has the one its file has afterwards, and its old text is empty unless the file was opened,
with the text it had before. -/
structure TextNode (sys : Platform) (edition : Edition) (files : TempFiles) (plain : Bool) (node : DeNode) : Prop where
  unread : node.filename = none → node.md5sum = zeroDigest ∧ (node.kind = .file → node.copyfrom = none)
  present : node.kind = .file → node.action ≠ .delete
  applied : node.filename.isSome → node.appliedDelta = true
  text : node.filename.isSome → node.path ∈ edition.visited ∧ ∃ source target, oldText files node = some source ∧
    newText files node = some target ∧ edition.after node.path = some target ∧ node.md5sum = sys.md5 target ∧
    (edition.fresh → source = [] ∨ (plain = true ∧ node.action = .modify ∧ node.copyfrom = none ∧
      node.path ∈ edition.opened ∧ edition.before node.path = some source))

variable {edition part whole : Edition} {plain : Bool}

theorem Bare.textNode {node : DeNode} (bare : Bare node) (file : node.kind = .file → node.copyfrom = none ∧ node.action ≠ .delete)
    (edition : Edition) (files : TempFiles) (plain : Bool) : TextNode sys edition files plain node where
  unread _ := ⟨bare.md5sum, fun kind => (file kind).1⟩
  present kind := (file kind).2
  applied named := by
    rw [bare.filename] at named
    cases named
  text named := by
    rw [bare.filename] at named
    cases named

theorem TextNode.grows {st st' : DeltaState sys} {node : DeNode} (text : TextNode sys edition st.files plain node)
    (named : Named st) (grows : Grows st st') : TextNode sys edition st'.files plain node where
  unread := text.unread
  present := text.present
  applied := text.applied
  text applied := by
    obtain ⟨member, source, target, old, new, rest⟩ := text.text applied
    exact ⟨member, source, target, grows.oldText named old, grows.newText named new, rest⟩

theorem TextNode.widen {files : TempFiles} {node : DeNode} (text : TextNode sys part files plain node)
    (within : part.Within whole) : TextNode sys whole files plain node where
  unread := text.unread
  present := text.present
  applied := text.applied
  text applied := by
    obtain ⟨member, source, target, old, new, result, digest, base⟩ := text.text applied
    refine ⟨within.visited member, source, target, old, new, (within.after _ member).trans result, digest, fun fresh => ?_⟩
    refine (base (within.fresh fresh)).imp_right ?_
    rintro ⟨above, action, copyfrom, opens, source⟩
    exact ⟨above, action, copyfrom, within.opened opens, within.before _ member _ source⟩

/-- A node that is not copied in any way. -/
def isPlain (node : DeNode) : Bool := decide (node.copyfrom = none ∧ node.cpInfo = .none)

/-- `holds` of every node, with a flag for the nodes above all being plain. -/
def NodeTree.Along (holds : Bool → DeNode → Prop) : Bool → NodeTree → Prop
  | _, .nil => True
  | plain, .cons node children rest =>
      holds plain node ∧ children.Along holds (plain && isPlain node) ∧ rest.Along holds plain

theorem NodeTree.Along.mono_mem {holds holds' : Bool → DeNode → Prop} {tree : NodeTree} {plain : Bool}
    (all : tree.Along holds plain) (weaker : ∀ plain, ∀ node ∈ tree.nodes, holds plain node → holds' plain node) :
    tree.Along holds' plain := by
  induction tree generalizing plain with
  | nil => trivial
  | cons node children rest ihChildren ihRest =>
    simp only [NodeTree.nodes, List.forall_mem_cons, List.forall_mem_append] at weaker
    refine ⟨(weaker plain).1 all.1, ihChildren all.2.1 fun plain => ?_, ihRest all.2.2 fun plain => ?_⟩
    · exact (weaker plain).2.1
    · exact (weaker plain).2.2

theorem NodeTree.Along.mono {holds holds' : Bool → DeNode → Prop} {tree : NodeTree} {plain : Bool}
    (all : tree.Along holds plain) (weaker : ∀ plain node, holds plain node → holds' plain node) :
    tree.Along holds' plain :=
  all.mono_mem fun plain node _ => weaker plain node

theorem Stores.applied {st st' : DeltaState sys} {copies : Texts} (stores : Stores st copies) (named : Named st)
    {node node' : DeNode} {text : Option TextDelta} (ran : applyText node st text = .ok (node', st')) :
    Stores st' (copies.applied node.path text) := by
  obtain ⟨rfl, -, rfl⟩ | ⟨delta, source, rfl, read, -, rfl⟩ := applyText_cases ran
  · exact stores
  have earlier : ∀ path name, st.deltaHash.lookup path = some name →
      Function.update st.files.content st.files.next (some (delta source)) name = st.files.content name :=
    fun path name found => Function.update_of_ne (Nat.ne_of_lt (named.old path name found)) _ _
  refine ⟨fun path => ?_, fun path name found => ?_⟩
  · by_cases here : path = node.path
    · subst here
      simp only [AList.lookup_insert, Option.bind_some, Function.update_self, Texts.applied_self, stores.source read]
    · simp only [AList.lookup_insert_ne here, Texts.applied_ne _ here, ← stores.held path]
      cases found : st.deltaHash.lookup path with
      | none => rfl
      | some name => exact earlier path name found
  · by_cases here : path = node.path
    · subst here
      rw [AList.lookup_insert, Option.some.injEq] at found
      subst found
      simp
    · rw [AList.lookup_insert_ne here] at found
      simp only [earlier path name found]
      exact stores.there path name found

/-- The texts of a node for which a delta was received. -/
theorem applyText_texts {st st' : DeltaState sys} {copies : Texts} (stores : Stores st copies) (named : Named st)
    {node node' : DeNode} {delta : TextDelta} (ran : applyText node st (some delta) = .ok (node', st')) :
    node' = { node with
        filename := node'.filename
        oldFilename := node'.oldFilename
        md5sum := sys.md5 (delta ((copies node.path).getD []))
        appliedDelta := true
        dumpNeeded := true } ∧
      oldText st'.files node' = some ((copies node.path).getD []) ∧
      newText st'.files node' = some (delta ((copies node.path).getD [])) := by
  obtain ⟨wrong, -⟩ | ⟨delta', source, same, read, rfl, rfl⟩ := applyText_cases ran
  · cases wrong
  cases same
  rw [← stores.source read]
  refine ⟨rfl, ?_, ?_⟩
  · unfold oldText
    cases found : st.deltaHash.lookup node.path with
    | none =>
      rw [found] at read
      exact congrArg some (Except.ok.inj read)
    | some name =>
      rw [found, localText, orError_eq_ok] at read
      exact (Function.update_of_ne (Nat.ne_of_lt (named.old _ name found)) _ _).trans read
  · simp [newText]

theorem textNode_added {st st' : DeltaState sys} {texts copies : Texts} (stores : Stores st copies) (named : Named st)
    {node node' : DeNode} {delta : TextDelta} (constant : ∀ source, delta source = delta [])
    (present : node.action ≠ .delete) (ran : applyText node st (some delta) = .ok (node', st')) (plain : Bool) :
    TextNode sys ⟨texts, texts.added node.path (some delta), [node.path], [], (copies node.path).getD [] = []⟩ st'.files
      plain node' := by
  obtain ⟨same, old, new⟩ := applyText_texts stores named ran
  have path : node'.path = node.path := by rw [same]
  have action : node'.action = node.action := by rw [same]
  have digest : node'.md5sum = sys.md5 (delta ((copies node.path).getD [])) := by rw [same]
  have applied : node'.appliedDelta = true := by rw [same]
  refine ⟨fun none => ?_, fun _ => ?_, fun _ => applied, fun _ => ?_⟩
  · rw [newText, none] at new
    cases new
  · rw [action]
    exact present
  · rw [path]
    refine ⟨List.mem_singleton_self _, _, _, old, new, ?_, digest, .inl⟩
    exact (Texts.added_self _ _ _).trans (congrArg some (constant _).symm)

theorem textNode_opened {st st' : DeltaState sys} {texts copies : Texts} (stores : Stores st copies) (named : Named st)
    (agree : Agree texts copies) {node node' : DeNode} {text : Option TextDelta} (there : (texts node.path).isSome)
    (bare : Bare node) (action : node.action = .modify) (copyfrom : node.copyfrom = none)
    (ran : applyText node st text = .ok (node', st')) :
    TextNode sys ⟨texts, texts.applied node.path text, [node.path], [node.path], True⟩ st'.files true node' := by
  have modified : node.action ≠ .delete := by
    rw [action]
    decide
  cases text with
  | none =>
    cases ran
    exact bare.textNode (fun _ => ⟨copyfrom, modified⟩) _ _ _
  | some delta =>
    obtain ⟨same, old, new⟩ := applyText_texts stores named ran
    obtain ⟨source, found⟩ := Option.isSome_iff_exists.mp there
    have path : node'.path = node.path := by rw [same]
    have action' : node'.action = node.action := by rw [same]
    have copyfrom' : node'.copyfrom = node.copyfrom := by rw [same]
    have digest : node'.md5sum = sys.md5 (delta ((copies node.path).getD [])) := by rw [same]
    have applied : node'.appliedDelta = true := by rw [same]
    rw [agree _ _ found, Option.getD_some] at old new digest
    refine ⟨fun none => ?_, fun _ => ?_, fun _ => applied, fun _ => ?_⟩
    · rw [newText, none] at new
      cases new
    · rw [action']
      exact modified
    · rw [path, action', copyfrom']
      refine ⟨List.mem_singleton_self _, source, _, old, new, ?_, digest, fun _ =>
        .inr ⟨rfl, action, copyfrom, List.mem_singleton_self _, found⟩⟩
      exact (Texts.applied_self _ _ _).trans (by rw [found, Option.getD_some])

/-- A node that was opened. -/
structure Opened (kind : NodeKind) (parent node : DeNode) : Prop where
  kind : node.kind = kind
  action : node.action = .modify
  copyfrom : node.copyfrom = none
  cpInfo : node.cpInfo = parent.cpInfo

theorem openNode_opened (kind : NodeKind) (parent : DeNode) (path : CString) (st : DeltaState sys) :
    Post (fun result => Opened kind parent result.1) (fun _ => True) (openNode kind parent path st) :=
  Post.bind (post_orError_fails trivial) fun _ _ => ⟨rfl, rfl, rfl, rfl⟩

theorem Opened.changeProps {kind : NodeKind} {parent node : DeNode} (opened : Opened kind parent node)
    (changes : List PropChange) : Opened kind parent (changes.foldl changeProp node) := by
  rw [onlyProps_changeProps changes node]
  exact ⟨opened.kind, opened.action, opened.copyfrom, opened.cpInfo⟩

/-! ## Edits -/

theorem deAddDirectory_kind (parent : DeNode) (path : CString) (st : DeltaState sys) :
    Post (fun result => result.1.kind = .dir) (fun _ => True) (deAddDirectory baton parent path st) := by
  refine Post.bind (logEntry_any path st) fun entry _ => ?_
  refine Post.bind (schedulePath_frame path st) fun scheduled _ => ?_
  cases entry <;> rfl

/-- A file is added as it was logged. -/
theorem deAddFile_logged (parent : DeNode) (path : CString) (st : DeltaState sys) :
    Post (fun result => result.1.action = .delete → baton.logRevision.deletes path) (fun _ => True)
      (deAddFile baton parent path st) := by
  have entry : Post (fun entry => ∀ info, entry = some info → info.action = .delete → baton.logRevision.deletes path)
      (fun _ => True) (logEntry baton path st) := by
    refine Post.bind (post_orError (fun table found => found) trivial) fun table found => ?_
    exact fun info logged deleted => ⟨table, info, found, logged, deleted⟩
  refine Post.bind entry fun entry logged => ?_
  refine Post.bind (schedulePath_frame path st) fun scheduled _ => ?_
  rw [pure_eq_ok, post_ok]
  intro deleted
  dsimp only at deleted
  split at deleted
  · cases deleted
  · cases entry with
    | none => cases deleted
    | some info => exact logged info rfl deleted

theorem deDeleteEntry_kind (parent : DeNode) (path : CString) (st : DeltaState sys) :
    Post (fun result => result.1.kind = .none) (fun _ => True) (deDeleteEntry baton parent path st) := by
  refine Post.bind (post_orError_fails trivial) fun children _ => ?_
  exact Post.bind (post_orError_fails trivial) fun store _ => rfl

theorem changeProps_kind (changes : List PropChange) (node : DeNode) : (changes.foldl changeProp node).kind = node.kind := by
  rw [onlyProps_changeProps changes node]

/-- What the callbacks for an edit leave. -/
structure Received (drive : Drive) (texts copies : Texts) (plain : Bool) (tree : NodeTree) (st' : DeltaState sys) : Prop where
  stores : Stores st' (drive.copies copies)
  agree : Agree (drive.texts texts) (drive.copies copies)
  nodes : tree.Along (TextNode sys (drive.edition texts copies) st'.files) plain

/-- A directory between the calls below it and those behind it. -/
theorem received_directory {path : CString} {props : List PropChange} {children rest : Drive} {texts copies : Texts}
    {visited : List CString} (sound : rest.Sound (children.texts texts) (children.files ++ visited))
    {node : DeNode} (bare : Bare node) (dir : node.kind = .dir) {inner later : NodeTree} {st st' : DeltaState sys}
    (named : Named st) (grows : Grows st st') (below : Received children texts copies (plain && isPlain node) inner st)
    (behind : Received rest (children.texts texts) (children.copies copies) plain later st') :
    Received (.openDirectory path props children rest) texts copies plain (.cons node inner later) st' where
  stores := behind.stores
  agree := behind.agree
  nodes := by
    refine ⟨bare.textNode (fun kind => ?_) _ _ _, below.nodes.mono fun _ other text => ?_,
      behind.nodes.mono fun _ other text => ?_⟩
    · rw [dir] at kind
      cases kind
    · refine (text.grows named grows).widen ⟨fun _ _ _ => id, fun q member => ?_, List.subset_append_left _ _,
        List.subset_append_left _ _, And.left⟩
      exact Drive.texts_visited sound (List.mem_append_left _ member)
    · refine text.widen ⟨fun q member source found => ?_, fun _ _ => rfl, List.subset_append_right _ _,
        List.subset_append_right _ _, And.right⟩
      exact Drive.texts_unvisited (fun seen => sound.unseen member (List.mem_append_left _ seen)) found

/-- The calls below a directory, its end and the calls behind it. -/
theorem receives_directory (path : CString) (props : List PropChange) {children rest : Drive} {texts copies : Texts}
    {visited : List CString} (sound : rest.Sound (children.texts texts) (children.files ++ visited))
    {parent node : DeNode} (bare : Bare node) (dir : node.kind = .dir) {st : DeltaState sys} (named : Named st)
    (below : Post (fun result => Received children texts copies (plain && isPlain node) result.1 result.2) (fun _ => True)
      (runDrive baton node children st))
    (behind : ∀ mid : DeltaState sys, Named mid → Stores mid (children.copies copies) →
      Agree (children.texts texts) (children.copies copies) →
      Post (fun result => Received rest (children.texts texts) (children.copies copies) plain result.1 result.2)
        (fun _ => True) (runDrive baton parent rest mid)) :
    Post (fun result => Received (.openDirectory path props children rest) texts copies plain result.1 result.2)
      (fun _ => True) (do
        let (inner, st) ← runDrive baton node children st
        let (nodes, st) ← runDrive baton parent rest (closeNode node st)
        return (.cons node inner nodes, st)) := by
  refine Post.bind ((runDrive_grown children named).both below) fun inner second => ?_
  have closed := (second.1.close node).named
  have stores : Stores (closeNode node inner.2) (children.copies copies) := second.2.stores.of_eq rfl rfl
  refine Post.bind ((runDrive_grown rest closed).both (behind _ closed stores second.2.agree)) fun later tail => ?_
  have inside : Received children texts copies (plain && isPlain node) inner.1 (closeNode node inner.2) :=
    ⟨stores, second.2.agree, second.2.nodes⟩
  exact received_directory sound bare dir closed tail.1.grows inside tail.2

/-- A file with its text, and the calls behind it; `after` has its new text. -/
theorem receives_file {path : CString} {text : Option TextDelta} {rest : Drive} {texts after copies : Texts}
    {visited opened : List CString} {fresh : Prop} (sound : rest.Sound after (path :: visited))
    (others : ∀ q, q ≠ path → after q = texts q) {parent node : DeNode} (bare : Bare node) (place : node.path = path)
    {st : DeltaState sys} (named : Named st) (stores : Stores st copies)
    (written : ∀ node' st', applyText node st text = .ok (node', st') →
      TextNode sys ⟨texts, after, [path], opened, fresh⟩ st'.files plain node')
    (behind : ∀ mid : DeltaState sys, Named mid → Stores mid (copies.applied path text) →
      Post (fun result => Received rest after (copies.applied path text) plain result.1 result.2) (fun _ => True)
        (runDrive baton parent rest mid)) :
    Post (fun result : NodeTree × DeltaState sys => Stores result.2 (rest.copies (copies.applied path text)) ∧
        Agree (rest.texts after) (rest.copies (copies.applied path text)) ∧
        result.1.Along (TextNode sys ⟨texts, rest.texts after, path :: rest.files, opened ++ rest.opened,
          fresh ∧ rest.Fresh (copies.applied path text)⟩ result.2.files) plain)
      (fun _ => True) (do
        let (node, st) ← applyText node st text
        let (nodes, st) ← runDrive baton parent rest (closeNode node st)
        return (.cons node .nil nodes, st)) := by
  cases ran : applyText node st text with
  | error e => trivial
  | ok result =>
    obtain ⟨node', st'⟩ := result
    have closed := ((grown_applyText named bare ran).close node').named
    have kept : Stores (closeNode node' st') (copies.applied path text) := by
      rw [← place]
      exact (stores.applied named ran).of_eq rfl rfl
    rw [ok_bind]
    refine Post.bind ((runDrive_grown rest closed).both (behind _ closed kept)) fun later tail => ?_
    have here : TextNode sys ⟨texts, after, [path], opened, fresh⟩ (closeNode node' st').files plain node' :=
      written node' st' ran
    refine ⟨tail.2.stores, tail.2.agree, ?_, trivial, tail.2.nodes.mono fun _ other text => ?_⟩
    · refine (here.grows closed tail.1.grows).widen ⟨fun _ _ _ => id, fun q member => ?_,
        List.cons_subset_cons path (List.nil_subset _), List.subset_append_left _ _, And.left⟩
      rw [List.mem_singleton.mp member]
      exact Drive.texts_visited sound List.mem_cons_self
    · refine text.widen ⟨fun q member source found => ?_, fun _ _ => rfl, List.subset_cons_self _ _,
        List.subset_append_right _ _, And.right⟩
      have other : q ≠ path := fun same => sound.unseen member (same ▸ List.mem_cons_self)
      exact (others q other).symm.trans found

/-- The callbacks keep a copy of every text, and the nodes they make know their old and new texts. -/
theorem runDrive_received {drive : Drive} {texts copies : Texts} {visited : List CString} (sound : drive.Sound texts visited)
    (deleted : ∀ path, baton.logRevision.deletes path → path ∉ drive.files) (agree : Agree texts copies) {parent : DeNode}
    {st : DeltaState sys} (named : Named st) (stores : Stores st copies)
    (opens : drive.AddsOnly ∨ plain = true ∧ parent.cpInfo = .none) :
    Post (fun result => Received drive texts copies plain result.1 result.2) (fun _ => True)
      (runDrive baton parent drive st) := by
  induction drive generalizing parent st texts copies visited plain with
  | done => exact ⟨stores, agree, trivial⟩
  | deleteEntry path rest ih =>
    refine Post.bind ((deDeleteEntry_bare parent path st).both (deDeleteEntry_kind parent path st)) fun created first => ?_
    obtain ⟨⟨bare, files, hash⟩, kind⟩ := first
    obtain ⟨named₁, -⟩ := named.erased files hash
    have opens' : rest.AddsOnly ∨ plain = true ∧ parent.cpInfo = .none := opens.imp_left fun wrong => wrong.elim
    refine Post.bind (ih sound.2 deleted (agree.deleted path) named₁ (stores.pruned files hash) opens') fun later tail => ?_
    have none : created.1.kind = .file → created.1.copyfrom = none ∧ created.1.action ≠ .delete := by
      intro file
      rw [kind] at file
      cases file
    refine ⟨tail.stores, tail.agree, bare.textNode none _ _ _, trivial, tail.nodes.mono fun _ other text => ?_⟩
    refine text.widen ⟨fun q member source found => ?_, fun _ _ => rfl, List.Subset.refl _, List.Subset.refl _, id⟩
    have before : ((texts.erased path).pruned path) q = some source := found
    rw [Texts.deleted_eq] at before
    split at before
    · cases before
    · exact before
  | addDirectory path props children rest ihChildren ihRest =>
    refine Post.bind ((deAddDirectory_bare parent path st).both (deAddDirectory_kind parent path st)) fun created first => ?_
    obtain ⟨first, kind⟩ := first
    have named₁ : Named created.2 := named.of_eq first.2.1 first.2.2
    have opens' : rest.AddsOnly ∨ plain = true ∧ parent.cpInfo = .none := opens.imp_left fun adds => adds.2
    have inside : ∀ path, baton.logRevision.deletes path → path ∉ children.files :=
      fun path deletes file => deleted path deletes (List.mem_append_left _ file)
    have behind : ∀ path, baton.logRevision.deletes path → path ∉ rest.files :=
      fun path deletes file => deleted path deletes (List.mem_append_right _ file)
    have both := receives_directory path props sound.2.2 (first.1.changeProps props) ((changeProps_kind props _).trans kind)
      named₁ (ihChildren sound.2.1 inside agree named₁ (stores.of_eq first.2.1 first.2.2) (.inl sound.1))
      fun mid named' stores' agree' => ihRest sound.2.2 behind agree' named' stores' opens'
    exact both.mono (fun _ _ all => ⟨all.stores, all.agree, all.nodes⟩) fun _ => id
  | openDirectory path props children rest ihChildren ihRest =>
    refine Post.bind ((openNode_bare .dir parent path st).both (openNode_opened .dir parent path st)) fun created first => ?_
    obtain ⟨first, opened⟩ := first
    have named₁ : Named created.2 := named.of_eq first.2.1 first.2.2
    obtain ⟨above, uncopied⟩ := opens.resolve_left fun wrong => wrong
    have opened' := opened.changeProps props
    have cpInfo := opened'.cpInfo.trans uncopied
    have below : (plain && isPlain (props.foldl changeProp created.1)) = true := by
      rw [above, isPlain, opened'.copyfrom, cpInfo]
      rfl
    have inside : ∀ path, baton.logRevision.deletes path → path ∉ children.files :=
      fun path deletes file => deleted path deletes (List.mem_append_left _ file)
    have behind : ∀ path, baton.logRevision.deletes path → path ∉ rest.files :=
      fun path deletes file => deleted path deletes (List.mem_append_right _ file)
    exact receives_directory path props sound.2 (first.1.changeProps props) opened'.kind named₁
      (ihChildren sound.1 inside agree named₁ (stores.of_eq first.2.1 first.2.2) (.inr ⟨below, cpInfo⟩))
      fun mid named' stores' agree' => ihRest sound.2 behind agree' named' stores' (.inr ⟨above, uncopied⟩)
  | addFile path props text rest ih =>
    obtain ⟨-, ⟨delta, rfl, constant⟩, sound'⟩ := sound
    refine Post.bind (((deAddFile_bare parent path st).both (deAddFile_creates parent path st)).both
      (deAddFile_logged parent path st)) fun created first => ?_
    obtain ⟨⟨first, place, -⟩, logged⟩ := first
    have named₁ : Named created.2 := named.of_eq first.2.1 first.2.2
    have stores₁ : Stores created.2 copies := stores.of_eq first.2.1 first.2.2
    have same := onlyProps_changeProps props created.1
    have place' : (props.foldl changeProp created.1).path = path := by
      rw [same]
      exact place
    have present : (props.foldl changeProp created.1).action ≠ .delete := by
      rw [same]
      exact fun gone => deleted path (logged gone) List.mem_cons_self
    have opens' : rest.AddsOnly ∨ plain = true ∧ parent.cpInfo = .none := opens.imp_left fun adds => adds
    have written : ∀ node' st', applyText (props.foldl changeProp created.1) created.2 (some delta) = .ok (node', st') →
        TextNode sys ⟨texts, texts.added path (some delta), [path], [], (copies path).getD [] = []⟩ st'.files plain
          node' := by
      intro node' st' ran
      rw [← place']
      exact textNode_added stores₁ named₁ constant present ran plain
    have both := receives_file sound' (fun q other => Texts.added_ne texts other _) (first.1.changeProps props) place' named₁
      stores₁ written fun mid named' stores' => ih sound' (fun path deletes file => deleted path deletes
        (List.mem_cons_of_mem _ file)) (agree.added constant) named' stores' opens'
    exact both.mono (fun _ _ all => ⟨all.1, all.2.1, all.2.2⟩) fun _ => id
  | openFile path props text rest ih =>
    obtain ⟨-, there, sound'⟩ := sound
    have bare := openNode_bare .file parent path st
    have creates := openNode_creates .file parent path st
    refine Post.bind ((bare.both creates).both (openNode_opened .file parent path st)) fun created first => ?_
    obtain ⟨⟨first, place, -⟩, opened⟩ := first
    have named₁ : Named created.2 := named.of_eq first.2.1 first.2.2
    have stores₁ : Stores created.2 copies := stores.of_eq first.2.1 first.2.2
    obtain ⟨above, uncopied⟩ := opens.resolve_left fun wrong => wrong
    have opened' := opened.changeProps props
    have place' : (props.foldl changeProp created.1).path = path := by
      rw [onlyProps_changeProps props created.1]
      exact place
    have written : ∀ node' st', applyText (props.foldl changeProp created.1) created.2 text = .ok (node', st') →
        TextNode sys ⟨texts, texts.applied path text, [path], [path], True⟩ st'.files plain node' := by
      intro node' st' ran
      rw [above, ← place']
      exact textNode_opened stores₁ named₁ agree (place'.symm ▸ there) (first.1.changeProps props) opened'.action
        opened'.copyfrom ran
    have both := receives_file sound' (fun q other => Texts.applied_ne texts other _) (first.1.changeProps props) place'
      named₁ stores₁ written fun mid named' stores' => ih sound' (fun path deletes file => deleted path deletes
        (List.mem_cons_of_mem _ file)) (agree.applied there text) named' stores' (.inr ⟨above, uncopied⟩)
    refine both.mono (fun _ _ all => ⟨all.1, all.2.1, ?_⟩) fun _ => id
    exact all.2.2.mono fun _ _ text => text.widen ⟨fun _ _ _ => id, fun _ _ => rfl, List.Subset.refl _,
      List.Subset.refl _, fun fresh => ⟨trivial, fresh⟩⟩

end Rsvndump
