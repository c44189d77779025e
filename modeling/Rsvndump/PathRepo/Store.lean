import Rsvndump.Critbit.Correctness
import Rsvndump.Library.FifoCache
import Rsvndump.Library.Replay
import Rsvndump.Platform

/-! The versioned path storage of path_repo.c.

A revision is stored as the list of its tree changes, every 1024th one as the
whole tree. The database is a map from revision numbers to records; its keys
are the decimal renderings of these numbers.
-/

set_option autoImplicit false

namespace Rsvndump

open Library

def snapshotInterval : Int := 1024
def cacheSize : Nat := 4

/-- `pr_delta_entry_t.action`, '+' or '-'. -/
inductive PrAction where | plus | minus
  deriving DecidableEq, Repr

def PrAction.byte : PrAction → UInt8
  | .plus => 43
  | .minus => 45

structure PrDeltaEntry where
  action : PrAction
  path : CString
  deriving DecidableEq

structure PathRepo where
  db : Int → Option Bytes
  delta : List PrDeltaEntry
  deltaLen : Nat
  tree : CbSet
  head : Int
  cache : Fifo Int CbSet

variable (sys : Platform)

/-- The strings `pr_tree_to_array_cb` keeps of a walk. The index may lie behind
the terminator of a visited string. -/
def prTreeToArray (tree : CbSet) (path : CString) : List CString :=
  (cbTreeWalkPrefixed tree.tree path).filter fun elem =>
    path.length = 0 ∨ sys.charAt elem path.length = 0 ∨ sys.charAt elem path.length = slash.byte

def encodeEntry (e : PrDeltaEntry) : Bytes := e.action.byte :: (CString.bytes e.path ++ [0])

/-- Encodes a whole tree to a series of add operations. -/
def prEncode (tree : CbSet) : Bytes :=
  (prTreeToArray sys tree []).flatMap fun path => encodeEntry ⟨.plus, path⟩

/-- Each round consumes an entry, so as many rounds as bytes are enough. -/
def prDeltaApplyLoop : Nat → CbSet → Bytes → CbSet
  | 0, tree, _ => tree
  | _ + 1, tree, [] => tree
  | fuel + 1, tree, action :: rest =>
      let path := CString.ofBytes rest
      -- whatever is not a plus deletes
      let tree := if action = PrAction.plus.byte then tree.insert path else tree.delete path
      prDeltaApplyLoop fuel tree (rest.drop (path.length + 1))

def prDeltaApply (tree : CbSet) (data : Bytes) : CbSet := prDeltaApplyLoop data.length tree data

/-- One round of the loop in `pr_reconstruct`. -/
def prReconstructStep (repo : PathRepo) (tree : CbSet) (r : Int) : Option CbSet :=
  match repo.db r with
  -- an empty revision
  | none => some tree
  | some val => (sys.uncompress val).map (prDeltaApply tree)

/-- `revision & ~(SNAPSHOT_INTERVAL-1)` -/
def snapshotBase (revision : Int) : Int := revision - revision % snapshotInterval

def prReconstruct (repo : PathRepo) (tree : CbSet) (revision : Int) : Option CbSet :=
  replay (prReconstructStep sys repo) ((revision % snapshotInterval).toNat + 1) (snapshotBase revision) tree

/-- Returns a tree for the given revision and the repository with its updated cache. -/
def prTree (repo : PathRepo) (revision : Int) : Option (CbSet × PathRepo) :=
  match repo.cache.find? revision with
  | some tree => some (tree, repo)
  | none => do
      -- the tree of a number that has not been committed yet is cached like any other
      let tree ← prReconstruct sys repo .empty revision
      return (tree, { repo with cache := repo.cache.put revision tree })

def pathRepoCreate : PathRepo where
  db _ := none
  delta := []
  deltaLen := 0
  tree := .empty
  head := 0
  cache := .init cacheSize (-1) .empty

/-- Schedules the given path for addition. The entry stays scheduled when the
path is already present, which the status -1 reports. -/
def pathRepoAdd (repo : PathRepo) (path : CString) : PathRepo × Int :=
  ({ repo with
      delta := repo.delta ++ [⟨.plus, path⟩]
      deltaLen := repo.deltaLen + (2 + path.length)
      tree := repo.tree.insert path },
    if (cbTreeInsert repo.tree.tree path).2 ≠ 0 then -1 else 0)

/-- One round of the loop in `path_repo_delete`. -/
def deleteOne (repo : PathRepo) (path : CString) : PathRepo :=
  { repo with
      delta := repo.delta ++ [⟨.minus, path⟩]
      deltaLen := repo.deltaLen + (2 + path.length)
      tree := repo.tree.delete path }

/-- Schedules the given path and its children for deletion. -/
def pathRepoDelete (repo : PathRepo) (path : CString) : PathRepo :=
  (prTreeToArray sys repo.tree path).foldl deleteOne repo

def isSnapshot (revision : Int) : Prop := revision > 0 ∧ revision % snapshotInterval = 0

instance (revision : Int) : Decidable (isSnapshot revision) :=
  inferInstanceAs (Decidable (revision > 0 ∧ revision % snapshotInterval = 0))

/-- What a commit compresses: the whole tree for a snapshot, else the scheduled actions. -/
def commitData (repo : PathRepo) (revision : Int) : Bytes :=
  if isSnapshot revision then prEncode sys repo.tree else repo.delta.flatMap encodeEntry

/-- Commits all scheduled actions. An empty revision stores nothing unless a snapshot is due. -/
def pathRepoCommit (repo : PathRepo) (revision : Int) : PathRepo :=
  if repo.deltaLen = 0 ∧ ¬ isSnapshot revision then { repo with head := revision }
  else
    -- the record takes the place of one that an earlier run of the number has left
    { repo with
        db := Function.update repo.db revision (some (sys.compress (commitData sys repo revision)))
        head := revision
        deltaLen := 0
        delta := [] }

/-- Discards all scheduled actions and reverts to the previous head. -/
def pathRepoDiscard (repo : PathRepo) : Option PathRepo := do
  let tree ← prReconstruct sys repo .empty repo.head
  return { repo with deltaLen := 0, delta := [], tree := tree }

/-- Checks if a path exists at a given revision; `none` is the result -1. -/
def pathRepoExists (repo : PathRepo) (path : CString) (revision : Int) : Option (Bool × PathRepo) :=
  if revision < 0 then some (false, repo)
  else do
    let (tree, repo) ← prTree sys repo revision
    return (cbTreeContains tree.tree path, repo)

/-- Checks the parent relation of two paths at a given revision. -/
def pathRepoCheckParent (repo : PathRepo) (parent child : CString) (revision : Int) :
    Option (Bool × PathRepo) :=
  if revision < 0 then some (false, repo)
  else do
    let (tree, repo) ← prTree sys repo revision
    return (cbTreeContains tree.tree (parent ++ slash :: child), repo)

/-! ## Calls -/

/-- The calls other modules make; `tree` is a query that reaches `pr_tree`. -/
inductive PathCall where
  | add (path : CString)
  | delete (path : CString)
  | commit (revision : Int)
  | discard
  | tree (revision : Int)
  deriving DecidableEq

def pathRepoStep (repo : PathRepo) : PathCall → Option PathRepo
  | .add path => some (pathRepoAdd repo path).1
  | .delete path => some (pathRepoDelete sys repo path)
  | .commit revision => some (pathRepoCommit sys repo revision)
  | .discard => pathRepoDiscard sys repo
  | .tree revision => (prTree sys repo revision).map Prod.snd

def pathRepoRun (calls : List PathCall) : Option PathRepo :=
  runCalls (pathRepoStep sys) pathRepoCreate calls

end Rsvndump
