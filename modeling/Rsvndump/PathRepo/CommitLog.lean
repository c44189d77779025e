import Mathlib.Data.List.Sort
import Rsvndump.PathRepo.Traced
import Rsvndump.Session

/-! Filling the path storage from the log (`path_repo_commit_log`).

The changed paths of a revision are applied in the order of their names. Copies
from inside the session root are taken from the stored trees, all others from a
listing of the server.
-/

set_option autoImplicit false

namespace Rsvndump

open Library

/-! ## Server listings -/

/-- The entries of a remote directory; `listed` tells whether `svn_ra_get_dir2` succeeds. -/
inductive RemoteTree where
  | nil
  | file (name : CString) (rest : RemoteTree)
  | dir (name : CString) (listed : Bool) (children rest : RemoteTree)

/-- What `svn_ra_stat` answers for a path. -/
inductive RemoteNode where
  | failed
  | missing
  | file
  | dir (listed : Bool) (children : RemoteTree)

/-- The full path of an entry. -/
def subpath (path entry : CString) : CString :=
  if path.length > 0 then path ++ slash :: entry else entry

/-- The result of the recursive call is not looked at: a directory that cannot be listed
contributes only itself. -/
def prFetchPathsRec : CString → RemoteTree → List CString
  | _, .nil => []
  | path, .file name rest => subpath path name :: prFetchPathsRec path rest
  | path, .dir name listed children rest =>
      subpath path name :: ((if listed then prFetchPathsRec (subpath path name) children else []) ++
        prFetchPathsRec path rest)

def prFetchPaths (path : CString) : RemoteNode → Option (List CString)
  | .failed => none
  -- not an error: nothing is added
  | .missing => some []
  | .file => some [path]
  | .dir listed children => if listed then some (path :: prFetchPathsRec path children) else none

/-! ## Sorting -/

/-- `strcmp(a, b) <= 0` -/
def strcmpLe : CString → CString → Bool
  | [], _ => true
  | _ :: _, [] => false
  | a :: s, b :: t => if a.byte < b.byte then true else if b.byte < a.byte then false else strcmpLe s t

def utilsSort (paths : List CString) : List CString := paths.insertionSort (strcmpLe · ·)

/-! ## Commits -/

variable {sys : Platform}

/-- Schedules paths for addition; the status is not looked at. -/
def addAll (t : TracedRepo sys) (paths : List CString) : TracedRepo sys :=
  paths.foldl (fun t path => (t.add path).1) t

/-- The paths a copy adds, from the strings found below its source. A source with a single
element is taken for a file. -/
def copiedPaths (path copyfromPath : CString) (cpaths : List CString) : List CString :=
  if cpaths.length = 1 then [path] else cpaths.map fun relpath => path ++ relpath.drop copyfromPath.length

variable (listing : CString → Int → RemoteNode) (session : Session) (opts : DumpOptions)

/-- Adds the target of a copy. An assertion that does not hold is an abort, as with --enable-debug. The default build has
-DNDEBUG: it then adds nothing for an empty list, and reads behind a path that is too short. -/
def commitCopy (revision : Int) (logs : List LogRevision) (t : TracedRepo sys) (path source : CString)
    (sourceRev : Int) : Result sys (TracedRepo sys) :=
  match deltaGetLocalCopyfromPath session.prefixPath source with
  | none => do
      -- the source cannot be reached, but the target can be listed
      let cpaths ← orError ⟨.fetchPaths, t⟩ (prFetchPaths path (listing path revision))
      return addAll t cpaths
  | some copyfromPath => do
      let (tree, t) ← orError ⟨.pathRepo, t⟩ (t.tree (deltaGetLocalCopyfromRev sourceRev opts logs))
      let cpaths := prTreeToArray sys tree copyfromPath
      if cpaths.length > 0 ∧ (cpaths.length = 1 ∨ ∀ relpath ∈ cpaths, relpath.length ≥ copyfromPath.length) then
        return addAll t (copiedPaths path copyfromPath cpaths)
      else .error ⟨.assertion, t⟩

/-- One round of the loop in `path_repo_commit_log`. -/
def commitPath (revision : Int) (logs : List LogRevision) (t : TracedRepo sys) (path : CString)
    (info : ChangedPath) : Result sys (TracedRepo sys) :=
  let t := if info.action = .delete ∨ info.action = .replace then t.delete path else t
  -- a replacement deletes and adds
  if info.action ≠ .add ∧ info.action ≠ .replace then .ok t
  else
    match info.copyfrom with
    | none => .ok (t.add path).1
    | some (source, sourceRev) => commitCopy listing session opts revision logs t path source sourceRev

def commitPaths (revision : Int) (logs : List LogRevision) (table : AprHash ChangedPath)
    (paths : List CString) (t : TracedRepo sys) : Result sys (TracedRepo sys) :=
  paths.foldlM (fun t path =>
    match table.lookup path with
    | none => .ok t
    | some info => commitPath listing session opts revision logs t path info) t

/-- Commits a log entry, using the given revision number. -/
def pathRepoCommitLog (log : LogRevision) (revision : Int) (logs : List LogRevision) (t : TracedRepo sys) :
    Result sys (TracedRepo sys) :=
  match log.changedPaths with
  -- the dummy entry
  | none => .ok (t.commit revision)
  | some table => do
      let t ← commitPaths listing session opts log.revision logs table (utilsSort table.keys) t
      return t.commit revision

end Rsvndump
