import Mathlib.Data.List.AList
import Rsvndump.Platform

/-! Sessions, options and log entries (session.h, dump.h, log.h).

An `apr_hash_t` is an association list with distinct keys; its list order is the
order in which the hash is iterated.
-/

set_option autoImplicit false

namespace Rsvndump

open Library

abbrev AprHash (V : Type) := AList fun _ : CString => V

theorem lookup_foldl_erase {V : Type} (keys : List CString) (hash : AprHash V) (key : CString) :
    (keys.foldl (fun h key => h.erase key) hash).lookup key = if key ∈ keys then none else hash.lookup key := by
  induction keys generalizing hash with
  | nil => simp
  | cons first keys ih =>
    rw [List.foldl_cons, ih]
    by_cases same : key = first
    · subst same
      rw [AList.lookup_erase]
      simp
    · rw [AList.lookup_erase_ne same]
      simp [same]

/-- `svn_node_kind_t` -/
inductive NodeKind where | none | file | dir
  deriving DecidableEq, Repr

/-- The action characters 'A', 'D', 'R' and 'M'. -/
inductive Action where | add | delete | replace | modify
  deriving DecidableEq, Repr

/-- `svn_log_changed_path_t` -/
structure ChangedPath where
  action : Action
  copyfrom : Option (CString × Int)
  deriving DecidableEq

/-- `log_revision_t`. Only the dummy revision of `dump` has no table of changed paths. -/
structure LogRevision where
  revision : Int
  author : Option CString
  date : Option CString
  message : Option CString
  changedPaths : Option (AprHash ChangedPath)

def LogRevision.dummy : LogRevision := ⟨0, .none, .none, .none, .none⟩

/-- `session_t`; `prefixPath` is the path of the session root inside the repository. -/
structure Session where
  prefixPath : CString

/-- `dump_options_t` with its flags; `userPrefix` is the argument of --prefix. -/
structure DumpOptions where
  userPrefix : Option CString
  start : Int
  stop : Int
  useDeltas : Bool
  keepRevnums : Bool
  incremental : Bool
  initialDryRun : Bool
  noIncrementalHeader : Bool
  dumpFormat : Nat
  deriving DecidableEq

/-- `dump_options_create` -/
def DumpOptions.create : DumpOptions where
  userPrefix := none
  start := 0
  stop := -1
  useDeltas := false
  keepRevnums := false
  incremental := false
  initialDryRun := false
  noIncrementalHeader := false
  dumpFormat := 2

/-- The early out of `delta_check_copy` and `delta_check_action`: the log can be used as it is. -/
def trustsLog (session : Session) (opts : DumpOptions) : Prop :=
  session.prefixPath.length = 0 ∧ (opts.start = 0 ∨ opts.incremental)

instance (session : Session) (opts : DumpOptions) : Decidable (trustsLog session opts) :=
  inferInstanceAs (Decidable (_ ∧ _))

/-- The ways in which a dump can fail. -/
inductive DumpError where
  | updateTree
  | loadProperties (path : CString)
  | storeProperties (path : CString)
  | previousRevision (revision : Int)
  | propagateCopy
  | openFile (name : Nat)
  | statFile
  | nullTable
  | urlNotFound
  | pathRepo
  | fetchPaths
  | assertion
  | cleanup
  | noLog
  deriving DecidableEq

/-! ## Copy sources -/

/-- Drops the slashes at the front of a string. -/
def skipSlashes (s : CString) : CString := s.dropWhile (· = slash)

/-- Determines the local copyfrom_path (`none` if it can't be reached). -/
def deltaGetLocalCopyfromPath (prefixPath path : CString) : Option CString :=
  if prefixPath <+: path then some (skipSlashes (path.drop prefixPath.length)) else none

/-- The backwards loop over the list indices below `rev`; -1 when it runs through. -/
def copyfromLoop (original : Int) (logs : List LogRevision) : Nat → Int
  | 0 => -1
  | rev + 1 =>
      match logs[rev]? with
      -- an exact match, or the next older revision
      | some log => if log.revision ≤ original then rev else copyfromLoop original logs rev
      | none => copyfromLoop original logs rev

/-- Determines the local copyfrom_revision number. The search starts at the last but one entry. -/
def deltaGetLocalCopyfromRev (original : Int) (opts : DumpOptions) (logs : List LogRevision) : Int :=
  if opts.keepRevnums then original else copyfromLoop original logs (logs.length - 1)

end Rsvndump
