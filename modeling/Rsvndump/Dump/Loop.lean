import Rsvndump.Delta.Node
import Rsvndump.PathRepo.CommitLog

/-! The dump itself (dump.c).

The remote repository is given by what it answers. Its log list is the history
of the session root as `log_receiver` stores it.
-/

set_option autoImplicit false

namespace Rsvndump

open Library

/-- `diff src dest start_empty` is the edit `svn_ra_do_diff2` drives. -/
structure Server where
  uuid : CString
  createdRev : Int → Option Int
  checkPath : Int → NodeKind
  logs : List LogRevision
  diff : Int → Int → Bool → Edit
  listing : CString → Int → RemoteNode

/-- `svn_ra_get_log` of the session root; the direction is that of the range, and a start of -1
stands for HEAD. -/
def svnRaGetLog (logs : List LogRevision) (start stop : Int) : List LogRevision :=
  if start = -1 then (logs.filter fun log => stop ≤ log.revision).reverse
  else if start ≤ stop then logs.filter fun log => start ≤ log.revision ∧ log.revision ≤ stop
  else (logs.filter fun log => stop ≤ log.revision ∧ log.revision ≤ start).reverse

/-- Fetches a single revision log. -/
def logFetchSingle (logs : List LogRevision) (rev stop : Int) : Except DumpError LogRevision :=
  orError .noLog (svnRaGetLog logs rev stop).head?

/-- Determines the first and last revision of the session root. -/
def logGetRange (logs : List LogRevision) (start stop : Int) : Except DumpError (Int × Int) := do
  let first ← logFetchSingle logs start stop
  -- backwards from the end
  let last ← logFetchSingle logs stop first.revision
  return (first.revision, last.revision)

/-- Everything `dump` prints. -/
inductive Output where
  | magic (format : Nat)
  | uuid (id : CString)
  | revision (log : LogRevision) (number : Int)
  | padding (number : Int)
  | prefixDir (path : CString)
  | node (record : NodeRecord)

structure DumpState (sys : Platform) where
  delta : DeltaState sys
  opts : DumpOptions
  logs : List LogRevision
  logsFetched : Bool
  globalRev : Int
  localRev : Int
  listIdx : Int
  out : List Output

/-- `APR_ARRAY_IDX(logs, i, log_revision_t)` -/
def logAt (logs : List LogRevision) (i : Int) : Except DumpError LogRevision :=
  if i < 0 then .error .noLog else orError .noLog logs[i.toNat]?

/-! ## User prefix -/

/-- The loop of `dump_create_user_prefix`: the directories printed and the new prefix. -/
def userPrefixLoop : Nat → CString → CString → List CString × CString
  | 0, new, s => ([], new ++ s)
  | fuel + 1, new, s =>
      if slash ∈ s then
        let component := s.takeWhile (· ≠ slash)
        -- a slash that follows another one
        if component.length < 1 then userPrefixLoop fuel new (s.drop 1)
        else
          let dir := new ++ component
          let (dirs, final) := userPrefixLoop fuel (dir ++ [slash]) (s.drop (component.length + 1))
          (dir :: dirs, final)
      else ([], new ++ s)

variable {sys : Platform}

def dumpCreateUserPrefix (st : DumpState sys) : DumpState sys :=
  match st.opts.userPrefix with
  | none => st
  | some path =>
      let (dirs, final) := userPrefixLoop path.length [] path
      { st with
          opts := { st.opts with userPrefix := some final }
          out := st.out ++ dirs.map .prefixDir }

/-- The first revision sets up the user prefix. -/
def setupPrefix (st : DumpState sys) : DumpState sys :=
  if st.localRev = 1 then dumpCreateUserPrefix st else st

/-! ## Preparation -/

/-- Fills the path storage with the logged revisions before `start`; the result counts them. -/
def prepareHistory (server : Server) (session : Session) (opts : DumpOptions) (logs : List LogRevision) :
    List LogRevision → Int → TracedRepo sys → Result sys (Int × TracedRepo sys)
  | [], localRev, t => .ok (localRev, t)
  | log :: rest, localRev, t =>
      -- the loop stops at the first entry that is to be dumped
      if log.revision < opts.start then
        let phrev := if opts.keepRevnums then log.revision else localRev
        do
          let t ← pathRepoCommitLog server.listing session opts log phrev logs t
          prepareHistory server session opts logs rest (localRev + 1) t
      else .ok (localRev, t)

/-- Determines the correct end revision. -/
def dumpDetermineEnd (server : Server) (rev : Int) : Except DumpError Int :=
  orError .urlNotFound (server.createdRev rev)

/-- The range to dump, adjusted to the history of the session root. -/
def adjustRange (server : Server) (session : Session) (opts : DumpOptions) : Except DumpError DumpOptions := do
  let stop ← dumpDetermineEnd server opts.stop
  if opts.start = 0 ∧ session.prefixPath.length > 0 then
    let (start, stop) ← logGetRange server.logs opts.start stop
    return { opts with start := start, stop := stop }
  else if server.checkPath opts.start = .none then .error .urlNotFound
  else return { opts with stop := stop }

/-- Single files cannot be dumped. -/
def sessionCheckReparent (server : Server) (rev : Int) : Except DumpError Unit :=
  if server.checkPath rev = .file then .error .urlNotFound else .ok ()

/-- The dummy revision that keeps list indexes and local revisions equal. -/
def initialLogs (session : Session) : List LogRevision :=
  if session.prefixPath.length > 0 then [.dummy] else []

/-- Whether the dump starts somewhere in the middle of the history. -/
def startMid (opts : DumpOptions) : Bool := opts.incremental && decide (opts.start ≠ 0)

def fileHeader (server : Server) (session : Session) (opts : DumpOptions) (mid : Bool) : List Output :=
  if !opts.noIncrementalHeader || !mid then
    .magic opts.dumpFormat ::
      (if opts.userPrefix = none ∧ session.prefixPath.length = 0 then [.uuid server.uuid] else [])
  else []

/-- An incremental dump: the log is fetched at once, and the revision before the first one is
fetched in a dry run. -/
def setupIncremental (server : Server) (session : Session) (opts : DumpOptions) :
    Result sys (DumpState sys) := do
  let logs := initialLogs session ++ svnRaGetLog server.logs 0 opts.stop
  let (localRev, repo) ← prepareHistory server session opts logs logs 0 .create
  -- with nothing but the dummy before it, the first revision itself becomes the base
  let localRev := if localRev > 1 ∨ session.prefixPath.length = 0 then localRev - 1 else localRev
  let base ← repo.lift (logAt logs localRev)
  let last ← repo.lift (logAt logs (logs.length - 1))
  let opts := { opts with initialDryRun := true, start := base.revision, stop := last.revision }
  return {
    delta := { (emptyDelta : DeltaState sys) with repo := repo }
    opts := opts
    logs := logs
    logsFetched := true
    globalRev := opts.start
    localRev := if opts.keepRevnums then opts.start else localRev
    -- a round moves on in the list before it reads the entry
    listIdx := localRev - 1
    out := fileHeader server session opts true }

def setupFull (server : Server) (session : Session) (opts : DumpOptions) : DumpState sys :=
  -- there aren't any subdirectories at revision 0
  let opts := if session.prefixPath.length > 0 ∧ opts.start = 0 then { opts with start := 1 } else opts
  { delta := emptyDelta
    opts := opts
    logs := initialLogs session
    logsFetched := false
    globalRev := opts.start
    localRev := if opts.start = 0 then 0 else 1
    listIdx := 0
    out := fileHeader server session opts false }

/-- Dumping with deltas requires dump format version 3. -/
def DumpOptions.formatted (opts : DumpOptions) : DumpOptions :=
  if opts.useDeltas then { opts with dumpFormat := 3 } else opts

def dumpSetup (server : Server) (session : Session) (opts : DumpOptions) :
    Result sys (DumpState sys) := do
  let mid := startMid opts
  let opts ← (TracedRepo.create : TracedRepo sys).lift (adjustRange server session opts.formatted)
  (TracedRepo.create : TracedRepo sys).lift (sessionCheckReparent server opts.start)
  if mid then setupIncremental server session opts else return setupFull server session opts

/-! ## Main loop -/

/-- Appends the log of the next revision to the list, or moves on in the list. -/
def nextLog (server : Server) (st : DumpState sys) : Result sys (DumpState sys) :=
  if st.logsFetched then .ok { st with listIdx := st.listIdx + 1 }
  else do
    let log ← st.delta.repo.lift (logFetchSingle server.logs st.globalRev st.opts.stop)
    let logs := st.logs ++ [log]
    return { st with logs := logs, listIdx := logs.length - 1 }

/-- One round of the padding loop. -/
def padRevision (st : DumpState sys) : DumpState sys :=
  let st := setupPrefix { st with
    out := st.out ++ [.padding st.localRev]
    delta := { st.delta with repo := st.delta.repo.commit st.localRev } }
  { st with localRev := st.localRev + 1 }

/-- Pads with empty revisions. -/
def padRevisions : Nat → DumpState sys → DumpState sys
  | 0, st => st
  | n + 1, st => padRevisions n (padRevision st)

/-- Padding happens only with --keep-revnums and never in a dry run. -/
def padTo (revision : Int) (st : DumpState sys) : DumpState sys :=
  if st.opts.keepRevnums ∧ st.opts.initialDryRun = false then
    padRevisions (revision - st.localRev).toNat st
  else st

/-- `dump_revision_header` and the set-up of the user prefix. -/
def printHeader (log : LogRevision) (st : DumpState sys) : DumpState sys :=
  if st.opts.initialDryRun then st
  else setupPrefix { st with out := st.out ++ [.revision log st.localRev] }

/-- The revision the new one is compared with. -/
def diffBase (st : DumpState sys) : Int :=
  let diffRev := if st.globalRev - 1 < 0 then 0 else st.globalRev - 1
  if diffRev < st.opts.start then st.opts.start else diffRev

/-- Commits the actions scheduled by the editor; a dry run has been committed from the log. -/
def commitRevision (st : DumpState sys) : Result sys (DumpState sys) :=
  if st.opts.initialDryRun then do
    let repo ← orError (st.delta.fail .pathRepo) st.delta.repo.discard
    return { st with delta := { st.delta with repo := repo } }
  else .ok { st with delta := { st.delta with repo := st.delta.repo.commit st.localRev } }

def editorBaton (session : Session) (st : DumpState sys) (log : LogRevision) : DeBaton :=
  ⟨session, st.opts, st.logs, log, st.localRev⟩

/-- Sets up the delta editor and runs a diff. -/
def dumpDoDiff (server : Server) (session : Session) (log : LogRevision) (st : DumpState sys) :
    Result sys (DumpState sys) := do
  let edit := server.diff (diffBase st) log.revision (st.globalRev = st.opts.start)
  -- the records printed by an edit come behind those of the earlier revisions
  let delta ← runEdit (editorBaton session st log) edit st.delta
  return { st with delta := delta, out := st.out ++ delta.out.map .node }

/-- The part of a round before the editor is set up. -/
def openRevision (server : Server) (st : DumpState sys) : Result sys (LogRevision × DumpState sys) := do
  let st ← nextLog server st
  let log ← st.delta.repo.lift (logAt st.logs st.listIdx)
  return (log, printHeader log (padTo log.revision st))

/-- One round of the loop in `dump`. -/
def dumpStep (server : Server) (session : Session) (st : DumpState sys) :
    Result sys (DumpState sys) := do
  let (log, st) ← openRevision server st
  let st ← dumpDoDiff server session log st
  let st ← commitRevision st
  let propStore ← orError (st.delta.fail .cleanup) (propertyStorageCleanup st.delta.propStore)
  -- revisions that the log does not mention are passed over
  return { st with
    delta := { st.delta with propStore := propStore }
    globalRev := log.revision + 1
    localRev := st.localRev + 1
    opts := { st.opts with initialDryRun := false } }

/-- The rounds of the loop, `none` when they are used up. It is left when the end revision has
been passed or a round fails. -/
def dumpLoop (server : Server) (session : Session) :
    Nat → DumpState sys → Option (Result sys (DumpState sys))
  | 0, _ => none
  | fuel + 1, st =>
      match dumpStep server session st with
      | .error e => some (.error e)
      | .ok st => if st.globalRev ≤ st.opts.stop then dumpLoop server session fuel st else some (.ok st)

/-- Start the dumping process. A round dumps one log entry, so that the loop ends before the
rounds are used up. -/
def dump (server : Server) (session : Session) (opts : DumpOptions) :
    Option (Result sys (DumpState sys)) :=
  match dumpSetup server session opts with
  | .error e => some (.error e)
  | .ok st => dumpLoop server session (server.logs.length + 1) st

end Rsvndump
