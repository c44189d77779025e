import Mathlib.Algebra.GroupWithZero.Nat
import Rsvndump.Delta.Editor
import Rsvndump.Library.Frames

/-! Dumping the nodes of a closed edit (delta.c).

A node is dumped before its children. What becomes of it is decided by its own
action, by the log and by what happened to the nodes above it, which are given
as a list with the parent first.
-/

set_option autoImplicit false

namespace Rsvndump

open Library

/-! ## Properties on the stream -/

/-- `property_dump` -/
def propertyDump (key value : CString) : Bytes :=
  CString.bytes (cstr "K ") ++ decimal key.length ++ [lineEnd] ++ CString.bytes key ++ [lineEnd] ++
    CString.bytes (cstr "V ") ++ decimal value.length ++ [lineEnd] ++ CString.bytes value ++ [lineEnd]

/-- `property_del_dump` -/
def propertyDelDump (key : CString) : Bytes :=
  CString.bytes (cstr "D ") ++ decimal key.length ++ [lineEnd] ++ CString.bytes key ++ [lineEnd]

def propertyStrlen (key value : CString) : Nat := (propertyDump key value).length
def propertyDelStrlen (key : CString) : Nat := (propertyDelDump key).length

/-- `PROPS_END_LEN` -/
def propsEndLen : Nat := 10

variable {sys : Platform} (baton : DeBaton)

def DeltaState.checkParent (st : DeltaState sys) (parent child : CString) (revision : Int) :
    Option (Bool × DeltaState sys) :=
  (st.repo.checkParent parent child revision).map fun (found, repo) => (found, { st with repo := repo })

def DeltaState.pathExists (st : DeltaState sys) (path : CString) (revision : Int) :
    Option (Bool × DeltaState sys) :=
  (st.repo.pathExists path revision).map fun (found, repo) => (found, { st with repo := repo })

/-! ## Decisions -/

/-- Checks if a node can be dumped as a copy. -/
def deltaCheckCopy (node : DeNode) : DeNode :=
  match node.copyfrom with
  | none => if node.cpInfo = .copy ∨ node.cpInfo.isFailed then node else { node with cpInfo := .none }
  | some (path, revision) =>
      if node.cpInfo.isFailed then node
      else if trustsLog baton.session baton.opts then
        -- the numbers of the log are the ones that are printed
        { node with copyfromRevLocal := revision, cpInfo := .copy }
      else if (baton.opts.incremental ∨ baton.opts.start ≤ revision) ∧ baton.session.prefixPath <+: path then
        -- only the front of the source is compared, so that a sibling of the session root passes
        let rev := deltaGetLocalCopyfromRev revision baton.opts baton.logs
        if rev > 0 then { node with copyfromRevLocal := rev, cpInfo := .copy }
        else { node with cpInfo := .failed }
      else { node with cpInfo := .failedOutside }

/-- `printf("%s")` of a path that may be null. -/
def orNull (path : Option CString) : CString := path.getD (cstr "(null)")

def toAdd (node : DeNode) (found : Bool) : DeNode := if found then node else { node with action := .add }

def checkedParent (parent child : CString) (revision : Int) (st : DeltaState sys) :
    Result sys (Bool × DeltaState sys) :=
  orError (st.fail (.previousRevision revision)) (st.checkParent parent child revision)

/-- The walk over the node's parents in `delta_check_action`. It settles the action when it meets
a copied parent and is left early at a manual copy. -/
def checkParents (node : DeNode) : List DeNode → DeltaState sys → Result sys (Bool × DeNode × DeltaState sys)
  | [], st => .ok (false, node, st)
  | parent :: above, st =>
      -- `break` goes on with the checks behind the loop, `return` does not
      if parent.cpInfo = .failedOutside then .ok (false, { node with action := .add }, st)
      else
        match parent.copyfrom with
        | none => checkParents node above st
        | some (source, _) =>
            if parent.cpInfo ≠ .copy then checkParents node above st
            else do
              let path := orNull (deltaGetLocalCopyfromPath baton.session.prefixPath source)
              let relpath := skipSlashes (node.path.drop parent.path.length)
              let (found, st) ← checkedParent path relpath parent.copyfromRevLocal st
              -- what is not part of the copy is new
              return (true, toAdd node found, st)

/-- `svn_path_dirname` -/
def svnPathDirname (path : CString) : CString := ((path.reverse.dropWhile (· ≠ slash)).drop 1).reverse

/-- Part of a failed copy and not present in the previous revision. -/
def checkFailedReplace (node : DeNode) (st : DeltaState sys) : Result sys (DeNode × DeltaState sys) :=
  if node.cpInfo.isFailed ∧ node.action = .replace then do
    let ppath := svnPathDirname node.path
    let relpath := skipSlashes (node.path.drop ppath.length)
    let (found, st) ← checkedParent ppath relpath (baton.localRevnum - 1) st
    return (toAdd node found, st)
  else .ok (node, st)

/-- Modifications on previously non-existent items. -/
def checkModify (node : DeNode) (st : DeltaState sys) : Result sys (DeNode × DeltaState sys) :=
  if node.action = .modify ∧ baton.localRevnum > 0 then do
    let (found, st) ← orError (st.fail (.previousRevision (baton.localRevnum - 1)))
      (st.pathExists node.path (baton.localRevnum - 1))
    return (toAdd node found, st)
  else .ok (node, st)

/-- Checks if a 'modify' or 'replace' action should be replaced by an 'add' action. -/
def deltaCheckAction (above : List DeNode) (node : DeNode) (st : DeltaState sys) :
    Result sys (DeNode × DeltaState sys) :=
  if node.action ≠ .replace ∧ node.action ≠ .modify then .ok (node, st)
  else if trustsLog baton.session baton.opts then .ok (node, st)
  else do
    let (settled, node, st) ← checkParents baton node above st
    if settled then return (node, st)
    let (node, st) ← checkFailedReplace baton node st
    let (node, st) ← checkModify baton node st
    -- the root node is reported as added when a sub-directory is dumped
    return (if node.path = [slash] ∧ node.action = .add then { node with action := .modify } else node, st)

/-! ## Copy propagation -/

/-- `strchr`, as an index into the buffer that is searched from `base` on. -/
def strchr (buffer : Bytes) (base : Nat) : Option Nat :=
  let text := CString.ofBytes (buffer.drop base)
  if slash ∈ text then some (base + text.idxOf slash) else none

/-- The walk over the levels of `check_path`, which is split and restored in place. -/
def propagateLoop (revision : Int) (stop : Nat) :
    Nat → Bytes → Nat → DeltaState sys → Result sys (Bool × DeltaState sys)
  | 0, _, _, st => .ok (true, st)
  | fuel + 1, buffer, base, st =>
      match strchr buffer base with
      | none => .ok (true, st)
      | some split => do
          -- the level is the text before the slash and the name behind it
          let buffer := buffer.set split 0
          let base := split + 1
          let tmp := (strchr buffer base).getD (base + (CString.ofBytes (buffer.drop base)).length)
          let buffer := buffer.set tmp 0
          match st.checkParent (CString.ofBytes buffer) (CString.ofBytes (buffer.drop base))
              revision with
          | none => .error (st.fail .propagateCopy)
          | some (false, st) => return (false, st)
          | some (true, st) =>
              -- the terminator at the end of the path is not replaced
              let buffer := buffer.set split slash.byte
              let buffer := if tmp < stop then buffer.set tmp slash.byte else buffer
              propagateLoop revision stop fuel buffer base st

/-- The parent or the nearest node above it that has a copy source of its own. -/
def copiedParent : List DeNode → Option (DeNode × CString × Int)
  | [] => none
  | node :: above =>
      match node.copyfrom with
      | some (path, revision) => some (node, path, revision)
      | none => copiedParent above

/-- Propagates copy information from a parent (the first of the nodes above) to a child node. -/
def deltaPropagateCopy (parent : DeNode) (above : List DeNode) (child : DeNode) (st : DeltaState sys) :
    Result sys (DeNode × DeltaState sys) :=
  if parent.cpInfo ≠ .copy then .ok ({ child with cpInfo := parent.cpInfo }, st)
  else if ¬ parent.path <+: child.path then .ok (child, st)
  else
    -- the node whose source is taken may lie above the parent; the path is relative to it
    match copiedParent (parent :: above) with
    | none => .ok ({ child with cpInfo := parent.cpInfo }, st)
    | some (copied, source, original) =>
        match deltaGetLocalCopyfromPath baton.session.prefixPath source with
        | none => .ok ({ child with cpInfo := .none }, st)
        | some path => do
            let revision := deltaGetLocalCopyfromRev original baton.opts baton.logs
            let relpath := skipSlashes (child.path.drop copied.path.length)
            let checkPath := CString.bytes (path ++ slash :: relpath)
            let (found, st) ←
              propagateLoop revision checkPath.length checkPath.length (checkPath ++ [0]) 0 st
            return ({ child with cpInfo := if found then .copy else .none }, st)

/-! ## Records -/

def emit (st : DeltaState sys) (record : NodeRecord) : DeltaState sys := { st with out := st.out ++ [record] }

def printedPath (path : CString) : CString := baton.opts.userPrefix.getD [] ++ path

/-- Marks a node as being dumped; files leave their checksum for later copies. -/
def deltaMarkNode (node : DeNode) (st : DeltaState sys) : DeNode × DeltaState sys :=
  ({ node with dumpNeeded := false },
    { st with
        dumpedEntries := st.dumpedEntries.insert node.path { node with dumpNeeded := false }
        md5Hash := if node.kind = .file then st.md5Hash.insert node.path node.md5sum else st.md5Hash })

/-- The label `finish` of `delta_dump_node`. -/
def finish (node : DeNode) (st : DeltaState sys) : DeNode × DeltaState sys :=
  let (node, st) := deltaMarkNode node st
  (node, match node.oldFilename with
    | some name => { st with files := st.files.remove name }
    | none => st)

/-- The copy source printed for a node. -/
def copyInfo (node : DeNode) : Option (CString × Int) :=
  if node.cpInfo = .copy then
    node.copyfrom.map fun (path, _) =>
      (orNull (deltaGetLocalCopyfromPath baton.session.prefixPath path), node.copyfromRevLocal)
  else none

/-- Whether the text is dumped: that of an added copy is not if the checksum is the one the copy
source had when it was last dumped. -/
def dumpContent (st : DeltaState sys) (node : DeNode) : Bool :=
  let applied := decide (node.kind = .file) && node.appliedDelta
  match copyInfo baton node with
  | none => applied
  | some (source, _) =>
      -- the text is dumped, too, when no checksum of the source is known
      if node.action = .add ∧ node.kind = .file then decide (st.md5Hash.lookup source ≠ some node.md5sum)
      else applied

/-- The properties printed for a node; values are printed as C strings. -/
def printedProps (node : DeNode) : List (CString × CString) :=
  (node.properties.entries.filter fun e => e.1 ∉ node.delProperties).map fun e => (e.1, CString.ofBytes e.2)

/-- In dump format version 3, deleted properties are dumped, too. -/
def printedDelProps (node : DeNode) : List CString :=
  if baton.opts.dumpFormat = 3 then node.delProperties.keys else []

def propLength (node : DeNode) : Nat :=
  ((printedProps node).map fun e => propertyStrlen e.1 e.2).sum +
    ((printedDelProps baton node).map propertyDelStrlen).sum

/-- The file the content is read from. A delta file is made for the purpose and removed at once. -/
def contentFile (node : DeNode) (st : DeltaState sys) : Result sys (Bytes × DeltaState sys) := do
  let name ← orError (st.fail .statFile) node.filename
  let target ← orError (st.fail (.openFile name)) (st.files.content name)
  if baton.opts.useDeltas then
    let source ← localText st node.oldFilename
    -- only the name of the delta file is used up
    return (sys.svndiff source target, { st with files := { st.files with next := st.files.next + 1 } })
  else return (target, st)

/-- The lengths, properties and text of a record. -/
def nodeBody (node : DeNode) (content : Option Bytes) : NodeBody :=
  let dumpProps := node.propsChanged ∨ node.action = .add ∨ propLength baton node > 0
  -- an added node has a property block even when it is empty
  let propLen := if dumpProps then propLength baton node + propsEndLen else propLength baton node
  { propDelta := dumpProps ∧ baton.opts.dumpFormat = 3
    propContentLength := if dumpProps then some propLen else none
    textDelta := content.isSome ∧ baton.opts.useDeltas
    textContentLength := content.map List.length
    -- only the first byte of the checksum is tested
    textContentMd5 := if content.isSome ∧ node.md5sum.head? ≠ some 0 then some node.md5sum else none
    contentLength := propLen + (content.map List.length).getD 0
    props := if dumpProps then printedProps node else []
    delProps := if dumpProps then printedDelProps baton node else []
    text := content }

/-- `delta_dump_node` from the line that prints the node's path. -/
def dumpRecord (node : DeNode) (st : DeltaState sys) : Result sys (DeNode × DeltaState sys) :=
  let header : NodeRecord :=
    { path := printedPath baton node.path
      kind := if node.action = .delete then none else some (if node.kind = .file then .file else .dir)
      action := node.action
      copyfrom := none
      body := none }
  if node.action = .delete then .ok (finish node (emit st header))
  else
    let copyfrom := (copyInfo baton node).map fun (path, revision) => (printedPath baton path, revision)
    let content := dumpContent baton st node
    if copyfrom.isSome ∧ content = false ∧ node.propsChanged = false then
      .ok (finish node (emit st { header with copyfrom := copyfrom }))
    -- only files have a text
    else if content ∧ ¬ (copyfrom.isSome ∧ node.kind = .dir) then do
      let (text, st) ← contentFile baton node st
      return finish node (emit st
        { header with copyfrom := copyfrom, body := some (nodeBody baton node (some text)) })
    else
      .ok (finish node (emit st { header with copyfrom := copyfrom, body := some (nodeBody baton node none) }))

/-- The reasons for which a node is not dumped. -/
def isSkipped (node : DeNode) : Bool :=
  !node.dumpNeeded || baton.opts.initialDryRun ||
    decide (node.action = .modify ∧ node.kind = .dir ∧ node.propsChanged = false) ||
    decide (node.cpInfo = .copy ∧ node.action = .add ∧ node.copyfrom = none)

def dumpNodeWith (replaceNode : DeNode → DeltaState sys → Result sys (DeNode × DeltaState sys))
    (above : List DeNode) (node : DeNode) (st : DeltaState sys) : Result sys (DeNode × DeltaState sys) :=
  if isSkipped baton node then .ok ({ node with dumpNeeded := false }, st)
  else do
    -- a replacement may have become an addition after the two checks
    let node := deltaCheckCopy baton node
    let (node, st) ← deltaCheckAction baton above node st
    if node.action = .replace then replaceNode node st else dumpRecord baton node st

/-- Dumps the deletion and then the node as being added, which is never replaced again. -/
def deltaDumpReplace (above : List DeNode) (node : DeNode) (st : DeltaState sys) :
    Result sys (DeNode × DeltaState sys) :=
  let st := emit st ⟨printedPath baton node.path, none, .delete, none, none⟩
  dumpNodeWith baton (dumpRecord baton) above { node with cpInfo := .none, action := .add } st

def deltaDumpNode (above : List DeNode) (node : DeNode) (st : DeltaState sys) :
    Result sys (DeNode × DeltaState sys) :=
  dumpNodeWith baton (deltaDumpReplace baton above) above node st

def deltaDumpNodeIf (now : Bool) (above : List DeNode) (node : DeNode) (st : DeltaState sys) :
    Result sys (DeNode × DeltaState sys) :=
  if now then deltaDumpNode baton above node st else .ok (node, st)

/-- Dumps the nodes created under `parent`, each with its own children. Deletions are handled
bottom-up. -/
def dumpChildren (parent : DeNode) (above : List DeNode) :
    NodeTree → DeltaState sys → Result sys (DeltaState sys)
  | .nil, st => .ok st
  | .cons child children rest, st => do
      let (child, st) ← deltaPropagateCopy baton parent above child st
      let (child, st) ← deltaDumpNodeIf baton (child.action ≠ .delete) (parent :: above) child st
      let st ← dumpChildren child (parent :: above) children st
      let (_, st) ← deltaDumpNodeIf baton (child.action = .delete) (parent :: above) child st
      dumpChildren parent above rest st

/-- `delta_dump_node_recursive` on the root node, which is never deleted. -/
def deltaDumpNodeRecursive (root : DeNode) (children : NodeTree) (st : DeltaState sys) :
    Result sys (DeltaState sys) := do
  let (root, st) ← deltaDumpNode baton [] root st
  dumpChildren baton root [] children st

/-! ## Closing the edit -/

/-- The parents visited by `while (parent && *parent)`. -/
def parentChain : Nat → CString → List CString
  | 0, _ => []
  | fuel + 1, path =>
      let parent := svnPathDirname path
      if parent = [] then [] else parent :: parentChain fuel parent

/-- Part of a deleted tree or of a manually copied one. -/
def isCovered (st : DeltaState sys) (path : CString) : Bool :=
  (parentChain path.length path).any fun parent =>
    match st.dumpedEntries.lookup parent with
    | some pnode => decide (pnode.action = .delete) || pnode.cpInfo.isFailed
    | none => false

/-- Without the local file of a deleted path. -/
def unlinkLocal (st : DeltaState sys) (path : CString) : DeltaState sys :=
  match st.deltaHash.lookup path with
  | none => st
  | some name => { st with files := st.files.remove name, deltaHash := st.deltaHash.erase path }

/-- One round of the loop in `de_close_edit`. A failed query does not skip the node. -/
def closeEntry (st : DeltaState sys) (entry : (_ : CString) × ChangedPath) : Result sys (DeltaState sys) :=
  let path := entry.1
  if entry.2.action ≠ .delete then .ok st
  else
    -- the local file goes even when nothing is dumped for the path
    let st := unlinkLocal st path
    if (st.dumpedEntries.lookup path).isSome then .ok st
    else
      let (skip, st) :=
        if isCovered st path then (true, st)
        -- the first dumped revision cannot delete what has never been added to the dump
        else if baton.opts.start > 1 ∧ baton.logRevision.revision = baton.opts.start then
          match st.pathExists path baton.localRevnum with
          | some (found, st) => (!found, st)
          | none => (false, st)
        else (false, st)
      if skip then .ok st
      else do
        let node := { deltaCreateNodeNoParent path .none .delete with dumpNeeded := true }
        let (_, st) ← deltaDumpNode baton [] node st
        return st

/-- Dumps all nodes touched by the revision, then the deletions the editor did not report. -/
def deCloseEdit (root : DeNode) (children : NodeTree) (st : DeltaState sys) : Result sys (DeltaState sys) := do
  let st ← deltaDumpNodeRecursive baton root children st
  let table ← orError (st.fail .nullTable) baton.logRevision.changedPaths
  table.entries.foldlM (closeEntry baton) st

/-- `delta_setup_editor` and the drive of the editor: all that is done for one revision. -/
def runEdit (edit : Edit) (st : DeltaState sys) : Result sys (DeltaState sys) := do
  let st := { st with dumpedEntries := ∅, out := [] }
  let root := edit.rootProps.foldl deChangeDirProp deOpenRoot
  let (children, st) ← runDrive baton root edit.children st
  let st := deCloseDirectory root st
  deCloseEdit baton root children st

end Rsvndump
