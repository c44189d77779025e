import Rsvndump.PathRepo.Traced
import Rsvndump.Property.Storage

/-! The editor callbacks of delta.c.

`Drive` holds the calls Subversion makes below an open directory. The callbacks
build the tree of node batons and update the stores; nothing is dumped before
the edit is closed.
-/

set_option autoImplicit false

namespace Rsvndump

open Library

/-! ## Editor calls -/

/-- A property change of the editor; a deleted property has no value. -/
structure PropChange where
  name : CString
  value : Option Bytes
  deriving DecidableEq

/-- The windows sent to `apply_textdelta`, as the function from source to target text. -/
abbrev TextDelta := Bytes → Bytes

/-- The calls on one directory baton, in their order. -/
inductive Drive where
  | done
  | deleteEntry (path : CString) (rest : Drive)
  | addDirectory (path : CString) (props : List PropChange) (children rest : Drive)
  | openDirectory (path : CString) (props : List PropChange) (children rest : Drive)
  | addFile (path : CString) (props : List PropChange) (text : Option TextDelta) (rest : Drive)
  | openFile (path : CString) (props : List PropChange) (text : Option TextDelta) (rest : Drive)

/-- A whole edit: the properties of the root and the calls below it. -/
structure Edit where
  rootProps : List PropChange
  children : Drive

/-! ## Batons -/

/-- `cp_info_t` -/
inductive CpInfo where | none | copy | failed | failedOutside
  deriving DecidableEq, Repr

/-- `cp_info & CPI_FAILED`, which is also `cp_info & CPI_FAILED_OUTSIDE`. -/
def CpInfo.isFailed : CpInfo → Bool
  | .failed | .failedOutside => true
  | .none | .copy => false

/-- `de_baton_t` without the parts that change during an edit. -/
structure DeBaton where
  session : Session
  opts : DumpOptions
  logs : List LogRevision
  logRevision : LogRevision
  localRevnum : Int

/-- `de_node_baton_t`. The node's parent and children are given by its place in a `NodeTree`. -/
structure DeNode where
  path : CString
  filename : Option Nat
  oldFilename : Option Nat
  action : Action
  kind : NodeKind
  properties : PropMap
  delProperties : AprHash Unit
  md5sum : Digest
  copyfrom : Option (CString × Int)
  copyfromRevLocal : Int
  cpInfo : CpInfo
  appliedDelta : Bool
  dumpNeeded : Bool
  propsChanged : Bool

/-- The nodes created under one parent, each with its own children. -/
inductive NodeTree where
  | nil
  | cons (node : DeNode) (children rest : NodeTree)

/-- The temporary files; names are numbered as they are made. -/
structure TempFiles where
  content : Nat → Option Bytes
  next : Nat

/-- `utils_mkstemp`, with the text written to the new file. -/
def TempFiles.create (files : TempFiles) (text : Bytes) : Nat × TempFiles :=
  (files.next, ⟨Function.update files.content files.next (some text), files.next + 1⟩)

def TempFiles.remove (files : TempFiles) (name : Nat) : TempFiles :=
  { files with content := Function.update files.content name none }

/-! ## Records -/

/-- What follows the copy information of a node record. -/
structure NodeBody where
  propDelta : Bool
  propContentLength : Option Nat
  textDelta : Bool
  textContentLength : Option Nat
  textContentMd5 : Option Digest
  contentLength : Nat
  props : List (CString × CString)
  delProps : List CString
  text : Option Bytes
  deriving DecidableEq

/-- A node record of the dump. Deletions and copies without changes have no body. -/
structure NodeRecord where
  path : CString
  kind : Option NodeKind
  action : Action
  copyfrom : Option (CString × Int)
  body : Option NodeBody
  deriving DecidableEq

/-- What an edit changes. -/
structure DeltaState (sys : Platform) where
  repo : TracedRepo sys
  propStore : PropertyStorage
  deltaHash : AprHash Nat
  md5Hash : AprHash Digest
  files : TempFiles
  dumpedEntries : AprHash DeNode
  out : List NodeRecord

variable {sys : Platform}

def emptyDelta : DeltaState sys where
  repo := .create
  propStore := propertyStorageCreate
  deltaHash := ∅
  md5Hash := ∅
  files := ⟨fun _ => none, 0⟩
  dumpedEntries := ∅
  out := []

def DeltaState.fail (st : DeltaState sys) (error : DumpError) : Failure sys := ⟨error, st.repo⟩

/-! ## Callbacks -/

/-- `delta_create_node_no_parent` -/
def deltaCreateNodeNoParent (path : CString) (kind : NodeKind) (action : Action) : DeNode where
  path := path
  filename := none
  oldFilename := none
  action := action
  kind := kind
  properties := ∅
  delProperties := ∅
  md5sum := zeroDigest
  copyfrom := none
  copyfromRevLocal := 0
  cpInfo := .none
  appliedDelta := false
  dumpNeeded := false
  propsChanged := false

/-- `delta_create_node` -/
def deltaCreateNode (path : CString) (parent : DeNode) (kind : NodeKind) (action : Action) : DeNode :=
  { deltaCreateNodeNoParent path kind action with cpInfo := parent.cpInfo }

/-- The kind of the root node is never set. -/
def deOpenRoot : DeNode := deltaCreateNodeNoParent [slash] .none .modify

/-- `!strncmp(path, npath, pathlen) && (npath[pathlen] == '/')` -/
def isChild (path npath : CString) : Bool := (path ++ [slash]).isPrefixOf npath

/-- Removes every key below a path. -/
def eraseChildren {V : Type} (hash : AprHash V) (path : CString) : AprHash V :=
  (hash.keys.filter (isChild path)).foldl (fun h npath => h.erase npath) hash

/-- `rhash_this` does not hand out the value, so for each child the file is removed whose name happens to be in the
variable: `unset` tells which one it is. -/
def deDeleteEntryWith (unset : CString → Option Nat) (baton : DeBaton) (parent : DeNode) (path : CString) (st : DeltaState sys) :
    Result sys (DeNode × DeltaState sys) := do
  let node := { deltaCreateNode path parent .none .delete with dumpNeeded := true }
  let children := st.deltaHash.keys.filter (isChild path)
  let propStore ← orError (st.fail (.loadProperties path)) (children.foldlM propertyDelete st.propStore)
  let propStore ← orError (st.fail (.loadProperties path)) (propertyDelete propStore path)
  -- only keys strictly below the path are searched for; its own entries stay in both hashes
  let st := { st with
    propStore := propStore
    deltaHash := eraseChildren st.deltaHash path
    md5Hash := eraseChildren st.md5Hash path
    files := (children.filterMap unset).foldl TempFiles.remove st.files }
  -- in the dry run, the tree is the one that the log has filled
  return (node, if baton.opts.initialDryRun then st else { st with repo := st.repo.delete path })

/-- The variable names no file. -/
def deDeleteEntry (baton : DeBaton) (parent : DeNode) (path : CString) (st : DeltaState sys) :
    Result sys (DeNode × DeltaState sys) :=
  deDeleteEntryWith (fun _ => none) baton parent path st

/-- The log entry of a path; the dummy revision has no table to look into. -/
def logEntry (baton : DeBaton) (path : CString) (st : DeltaState sys) : Result sys (Option ChangedPath) := do
  let table ← orError (st.fail .nullTable) baton.logRevision.changedPaths
  return table.lookup path

/-- The part `de_add_directory` and `de_add_file` share: the log decides on the action. -/
def addFromLog (node : DeNode) : Option ChangedPath → DeNode
  | none => node
  | some log =>
      { node with
          action := log.action
          copyfrom := log.copyfrom
          -- a failed copy above stays failed, since the whole tree is dumped then
          cpInfo := if node.cpInfo.isFailed then node.cpInfo else .none }

def schedulePath (baton : DeBaton) (path : CString) (st : DeltaState sys) : Result sys (DeltaState sys) :=
  if baton.opts.initialDryRun then .ok st
  else
    let (repo, status) := st.repo.add path
    if status ≠ 0 then .error (st.fail .updateTree) else .ok { st with repo := repo }

def deAddDirectory (baton : DeBaton) (parent : DeNode) (path : CString) (st : DeltaState sys) :
    Result sys (DeNode × DeltaState sys) := do
  let node := { deltaCreateNode path parent .dir .add with dumpNeeded := true }
  let node := addFromLog node (← logEntry baton path st)
  let st ← schedulePath baton path st
  return (node, st)

/-- A file in a tree that is dumped instead of being copied must be added. -/
def deAddFile (baton : DeBaton) (parent : DeNode) (path : CString) (st : DeltaState sys) :
    Result sys (DeNode × DeltaState sys) := do
  let node := { deltaCreateNode path parent .file .add with dumpNeeded := true }
  let node := addFromLog node (← logEntry baton path st)
  let node := if node.cpInfo.isFailed then { node with action := .add } else node
  let st ← schedulePath baton path st
  return (node, st)

/-- Opens a node of the given kind and loads its properties. -/
def openNode (kind : NodeKind) (parent : DeNode) (path : CString) (st : DeltaState sys) :
    Result sys (DeNode × DeltaState sys) := do
  let node := deltaCreateNode path parent kind .modify
  let (properties, propStore) ← orError (st.fail (.loadProperties path)) (propertyLoad sys st.propStore path node.properties)
  return ({ node with properties := properties }, { st with propStore := propStore })

def deOpenDirectory := @openNode sys .dir
def deOpenFile := @openNode sys .file

/-- `svn_property_kind(NULL, name) == svn_prop_regular_kind` -/
def isRegularProp (name : CString) : Bool :=
  !(cstr "svn:wc:").isPrefixOf name && !(cstr "svn:entry:").isPrefixOf name

def changeProp (node : DeNode) (change : PropChange) : DeNode :=
  if isRegularProp change.name then
    match change.value with
    | some value =>
        -- the value that was loaded stays until it is replaced
        { node with
            properties := node.properties.insert change.name value
            propsChanged := true
            dumpNeeded := true }
    | none =>
        { node with
            -- the deleted value itself stays in `properties`
            delProperties := node.delProperties.insert change.name ()
            propsChanged := true
            dumpNeeded := true }
  else node

def deChangeDirProp := changeProp
def deChangeFileProp := changeProp

/-- Saves the properties of a closed node for the next time. -/
def closeNode (node : DeNode) (st : DeltaState sys) : DeltaState sys :=
  { st with propStore := propertyStore sys st.propStore node.path node.properties }

def deCloseDirectory := @closeNode sys
def deCloseFile := @closeNode sys

/-- The text of the local copy, if there is one. -/
def localText (st : DeltaState sys) : Option Nat → Result sys Bytes
  | none => .ok []
  | some name => orError (st.fail (.openFile name)) (st.files.content name)

/-- The new text is written to a temporary file of its own, which becomes the local copy. -/
def deApplyTextdelta (node : DeNode) (delta : TextDelta) (st : DeltaState sys) :
    Result sys (DeNode × DeltaState sys) := do
  let old := st.deltaHash.lookup node.path
  let source ← localText st old
  let target := delta source
  -- the old file is kept until the node has been dumped: deltas are made against it
  let (name, files) := st.files.create target
  return ({ node with
      filename := some name
      oldFilename := old
      md5sum := sys.md5 target
      appliedDelta := true
      dumpNeeded := true },
    { st with files := files, deltaHash := st.deltaHash.insert node.path name })

def applyText (node : DeNode) (st : DeltaState sys) : Option TextDelta → Result sys (DeNode × DeltaState sys)
  | none => .ok (node, st)
  | some delta => deApplyTextdelta node delta st

/-! ## Edits -/

/-- Runs the callbacks for the calls below `parent`. -/
def runDrive (baton : DeBaton) (parent : DeNode) :
    Drive → DeltaState sys → Result sys (NodeTree × DeltaState sys)
  | .done, st => .ok (.nil, st)
  | .deleteEntry path rest, st => do
      let (node, st) ← deDeleteEntry baton parent path st
      let (nodes, st) ← runDrive baton parent rest st
      return (.cons node .nil nodes, st)
  | .addDirectory path props children rest, st => do
      let (node, st) ← deAddDirectory baton parent path st
      let node := props.foldl deChangeDirProp node
      let (inner, st) ← runDrive baton node children st
      let st := deCloseDirectory node st
      let (nodes, st) ← runDrive baton parent rest st
      return (.cons node inner nodes, st)
  | .openDirectory path props children rest, st => do
      let (node, st) ← deOpenDirectory parent path st
      let node := props.foldl deChangeDirProp node
      let (inner, st) ← runDrive baton node children st
      let st := deCloseDirectory node st
      let (nodes, st) ← runDrive baton parent rest st
      return (.cons node inner nodes, st)
  | .addFile path props text rest, st => do
      let (node, st) ← deAddFile baton parent path st
      let node := props.foldl deChangeFileProp node
      let (node, st) ← applyText node st text
      let st := deCloseFile node st
      let (nodes, st) ← runDrive baton parent rest st
      return (.cons node .nil nodes, st)
  | .openFile path props text rest, st => do
      let (node, st) ← deOpenFile parent path st
      let node := props.foldl deChangeFileProp node
      let (node, st) ← applyText node st text
      let st := deCloseFile node st
      let (nodes, st) ← runDrive baton parent rest st
      return (.cons node .nil nodes, st)

end Rsvndump
