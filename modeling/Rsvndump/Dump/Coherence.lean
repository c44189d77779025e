import Rsvndump.Dump.History

/-! Cached trees and snapshots over whole dumps.

The cache is stale only after a look at the tree that is being edited, which is
made for the deletions in the first revision of a range. Snapshots are missing
only when an incremental dump keeps the original numbers.
-/

set_option autoImplicit false

namespace Rsvndump

open Library

variable {sys : Platform} {server : Server} {session : Session}

/-- A range decides the plan of its dump, and there is one for a range that is refused too. -/
theorem exists_plan (server : Server) (session : Session) (opts : DumpOptions) :
    ∃ plan : Plan, (∀ range, adjustRange server session opts.formatted = .ok range →
        plan = planOf server session range (startMid opts)) ∧
      ∀ e, adjustRange server session opts.formatted = .error e → plan = planOf server session opts false := by
  cases adjusted : adjustRange server session opts.formatted with
  | ok range =>
    refine ⟨planOf server session range (startMid opts), fun range' same => ?_, fun e failed => ?_⟩
    · cases same
      rfl
    · cases failed
  | error e =>
    refine ⟨planOf server session opts false, fun range failed => ?_, fun _ _ => rfl⟩
    cases failed

/-- Every answer of the cache is what the database holds, unless a deletion in the first revision of
the range is looked up. -/
theorem tree_cache_coherent (increasing : Increasing session server) (changed : LastChanged server)
    (earlier : SourcesEarlier server) (adds : ∀ source target, (server.diff source target true).children.AddsOnly)
    {opts : DumpOptions} (wet : opts.initialDryRun = false) (valid : 0 ≤ opts.start)
    (covered : startMid opts = true ∨ ∀ range, adjustRange server session opts.formatted = .ok range →
      StartCovered server range) :
    ∃ result : Result sys (DumpState sys), dump server session opts = some result ∧
      Post (fun st => CacheCoherent sys st.delta.repo.calls) (fun e => CacheCoherent sys e.repo.calls) result := by
  obtain ⟨result, ran⟩ := @dump_ends sys _ _ _ increasing changed wet valid
  refine ⟨result, ran, ?_⟩
  have covers : ∀ range, adjustRange server session opts.formatted = .ok range → startMid opts = false →
      False ∨ StartCovered server range ∧ ∀ source target, (server.diff source target true).children.AddsOnly := by
    intro range adjusted full
    refine .inr ⟨?_, adds⟩
    rcases covered with mid | cover
    · simp [mid] at full
    · exact cover range adjusted
  obtain ⟨plan, same, -⟩ := exists_plan server session opts
  have course := dump_course increasing changed earlier wet valid covers ran plan same
  refine course.mono (fun st _ follows => ?_) fun e follows => ?_
  · obtain ⟨n, follows⟩ := follows
    exact (follows.cached id).calls
  · obtain ⟨n, follows⟩ := follows
    exact (follows.cached id).calls

/-! A file that is deleted in revision 2, and a range that starts there. -/

def lastLogged (logs : List LogRevision) (rev : Int) : Option Int :=
  ((logs.filter fun log => log.revision ≤ rev ∨ rev = -1).getLast?).map LogRevision.revision

/-- A server that answers from a list of log entries. -/
def historyServer (logs : List LogRevision) (diff : Int → Int → Bool → Drive) : Server where
  uuid := []
  createdRev := lastLogged logs
  checkPath _ := .dir
  logs := logs
  diff source dest empty := ⟨[], diff source dest empty⟩
  listing _ _ := .missing

theorem historyServer_lastChanged {logs : List LogRevision} {diff : Int → Int → Bool → Drive}
    (sorted : logs.Pairwise fun a b => a.revision < b.revision) : LastChanged (historyServer logs diff) := by
  have answer : ∀ {rev r : Int}, (historyServer logs diff).createdRev rev = some r →
      ∃ log, (logs.filter fun log => log.revision ≤ rev ∨ rev = -1).getLast? = some log ∧ log.revision = r := by
    intro rev r found
    exact Option.map_eq_some_iff.mp found
  refine ⟨fun rev r found => ?_, fun rev r found => ?_, fun rev r found log member before => ?_⟩
  · obtain ⟨log, last, same⟩ := answer found
    exact ⟨log, (List.mem_filter.mp (List.mem_of_getLast? last)).1, same⟩
  · obtain ⟨log, last, same⟩ := answer found
    have bound := (List.mem_filter.mp (List.mem_of_getLast? last)).2
    simp only [decide_eq_true_eq] at bound
    rw [← same]
    exact bound
  · obtain ⟨final, last, same⟩ := answer found
    rw [← same]
    exact le_getLast (sorted.sublist List.filter_sublist) last (List.mem_filter.mpr ⟨member, by simpa using before⟩)

theorem plainLog_copy {revision original : Int} {changes : List ((_ : CString) × ChangedPath)} {source : CString}
    (logged : LoggedSource (plainLog revision changes) source original) :
    ∃ entry ∈ changes, entry.2.copyfrom = some (source, original) := by
  obtain ⟨table, path, info, changed, found, copied⟩ := logged
  cases changed
  rw [AList.lookup_to_alist] at found
  exact ⟨⟨path, info⟩, List.of_mem_dlookup found, copied⟩

def staleServer : Server := historyServer
  [plainLog 0 [], plainLog 1 [⟨cstr "a", .add, none⟩, ⟨cstr "b", .add, none⟩],
    plainLog 2 [⟨cstr "a", .delete, none⟩], plainLog 3 [⟨cstr "b", .modify, none⟩]]
  fun _ dest empty =>
    if dest < 1 then .done
    else if dest = 1 then addFiles [cstr "a", cstr "b"]
    else if empty then addFiles [cstr "b"]
    else if dest = 2 then .deleteEntry (cstr "a") .done
    else if dest = 3 then .openFile (cstr "b") [] (some fun _ => [2]) .done
    else .done

/-- The calls of a dump that succeeds. -/
def dumpCalls : Option (Result sys (DumpState sys)) → Option (List PathCall)
  | some (.ok st) => some st.delta.repo.calls
  | _ => none

theorem dumpCalls_eq_some {result : Option (Result sys (DumpState sys))} {calls : List PathCall}
    (found : dumpCalls result = some calls) : ∃ st, result = some (.ok st) ∧ st.delta.repo.calls = calls := by
  unfold dumpCalls at found
  split at found
  · next st => exact ⟨st, rfl, Option.some.inj found⟩
  · cases found

/-- The look at `a` leaves an empty tree for number 1 in the cache; when `b` is modified, the
committed tree of number 1 is not seen. -/
theorem tree_cache_stale :
    ∃ st : DumpState .plain, dump staleServer rootSession (startingAt 2) = some (.ok st) ∧
      st.delta.repo.calls = [.add (cstr "b"), .tree 1, .commit 1, .tree 1, .commit 2] ∧
      ¬ CacheCoherent .plain st.delta.repo.calls := by
  obtain ⟨st, ran, calls⟩ := dumpCalls_eq_some (show dumpCalls
    (dump staleServer rootSession (startingAt 2) : Option (Result .plain (DumpState .plain))) =
      some [.add (cstr "b"), .tree 1, .commit 1, .tree 1, .commit 2] by decide)
  refine ⟨st, ran, calls, fun coherent => ?_⟩
  rw [calls] at coherent
  obtain ⟨repo, before, facts⟩ := Option.map_eq_some_iff.mp (show
    (pathRepoRun .plain [.add (cstr "b"), .tree 1, .commit 1]).map (fun repo => (repo.head,
      ((prTree .plain repo 1).map fun answer => cbTreeContains answer.1.tree (cstr "b")),
      ((prReconstruct .plain repo .empty 1).map fun tree => cbTreeContains tree.tree (cstr "b")))) =
      some (1, some false, some true) by decide)
  simp only [Prod.mk.injEq] at facts
  obtain ⟨head, answered, rebuilt⟩ := facts
  obtain ⟨⟨tree, repo'⟩, reached, missing⟩ := Option.map_eq_some_iff.mp answered
  have fresh := coherent.fresh _ 1 [.commit 2] repo tree repo' rfl before (by omega) reached
  rw [fresh] at rebuilt
  simp only [Option.map_some, Option.some.injEq] at rebuilt missing
  rw [rebuilt] at missing
  cases missing

theorem staleServer_increasing : Increasing rootSession staleServer := by
  refine ⟨?_, ?_⟩
  · rw [show initialLogs rootSession = [] from rfl]
    simp [staleServer, historyServer, plainLog]
  · simp [staleServer, historyServer, plainLog]

theorem staleServer_lastChanged : LastChanged staleServer :=
  historyServer_lastChanged (by simp [plainLog])

theorem staleServer_sourcesEarlier : SourcesEarlier staleServer := by
  intro log member source original logged
  simp only [staleServer, historyServer, List.mem_cons, List.not_mem_nil, or_false] at member
  rcases member with rfl | rfl | rfl | rfl <;> simpa using plainLog_copy logged

theorem staleServer_addsOnly (source target : Int) : (staleServer.diff source target true).children.AddsOnly := by
  simp only [staleServer, historyServer, if_true]
  split_ifs <;> simp [addFiles, Drive.AddsOnly]

theorem staleServer_covered {range : DumpOptions}
    (adjusted : adjustRange staleServer rootSession (startingAt 1).formatted = .ok range) : StartCovered staleServer range := by
  cases adjusted
  exact fun log _ _ late => absurd late (by decide)

/-- One revision earlier nothing is looked up before it is committed. -/
theorem tree_cache_coherent_from_one :
    ∃ st : DumpState .plain, dump staleServer rootSession (startingAt 1) = some (.ok st) ∧
      st.delta.repo.calls = [.add (cstr "a"), .add (cstr "b"), .commit 1, .delete (cstr "a"), .commit 2, .tree 2, .commit 3] ∧
      CacheCoherent .plain st.delta.repo.calls := by
  obtain ⟨st, ran, calls⟩ := dumpCalls_eq_some (show dumpCalls
    (dump staleServer rootSession (startingAt 1) : Option (Result .plain (DumpState .plain))) =
      some [.add (cstr "a"), .add (cstr "b"), .commit 1, .delete (cstr "a"), .commit 2, .tree 2, .commit 3] by decide)
  obtain ⟨result, same, coherent⟩ := @tree_cache_coherent .plain _ _ staleServer_increasing staleServer_lastChanged
    staleServer_sourcesEarlier staleServer_addsOnly (startingAt 1) rfl (by decide) (.inr fun _ => staleServer_covered)
  cases Option.some.inj (same.symm.trans ran)
  exact ⟨st, ran, calls, coherent⟩

/-! ## Snapshots -/

/-- With original numbers, an incremental dump needs the snapshots of its base and of its copy sources
among the revisions it prepares, as far as they are not written later. -/
def SnapshotsLogged (server : Server) (session : Session) (range : DumpOptions) : Prop :=
  range.keepRevnums = true → ∀ r, snapshotInterval ≤ r →
    r = baseRevision server session range ∨ CopySource session (logList server session range.stop) r →
    baseRevision server session range < snapshotBase r ∨
      ∃ log ∈ logList server session range.stop, log.revision = snapshotBase r ∧ log.revision < range.start

theorem snapshotBase_between {base r : Int} (le : base ≤ r) (below : snapshotBase r ≤ base) :
    snapshotBase r = snapshotBase base := by
  simp only [snapshotBase, snapshotInterval] at *
  omega

/-- Every tree that is rebuilt starts from a stored snapshot and loses nothing. -/
theorem snapshot_bases_stored (increasing : Increasing session server) (changed : LastChanged server)
    (earlier : SourcesEarlier server) {opts : DumpOptions} (wet : opts.initialDryRun = false)
    (valid : 0 ≤ opts.start)
    (logged : startMid opts = true → ∀ range, adjustRange server session opts.formatted = .ok range →
      SnapshotsLogged server session range) :
    ∃ result : Result sys (DumpState sys), dump server session opts = some result ∧
      Post (fun st => BasesStored sys st.delta.repo.calls) (fun e => BasesStored sys e.repo.calls) result := by
  obtain ⟨result, ran⟩ := @dump_ends sys _ _ _ increasing changed wet valid
  refine ⟨result, ran, ?_⟩
  obtain ⟨plan, same, refused⟩ := exists_plan server session opts
  have course := dump_course increasing changed earlier wet valid (fun _ _ _ => .inl trivial) ran plan same
  have kept : ∀ r, plan.asked r → snapshotInterval ≤ r → ¬ plan.left (snapshotBase r) := by
    cases adjusted : adjustRange server session opts.formatted with
    | ok range =>
      rw [same range adjusted]
      rintro r asks large ⟨mid, keep, below, absent⟩
      have needed : baseRevision server session range < snapshotBase r ∨
          ∃ log ∈ logList server session range.stop, log.revision = snapshotBase r ∧ log.revision < range.start := by
        have condition := logged mid range adjusted keep
        rcases asks large mid keep with above | source
        · have above : baseRevision server session range ≤ r := above
          have interval := snapshotBase_between above below
          rw [interval]
          refine condition _ ?_ (.inl rfl)
          have le := snapshotBase_le (baseRevision server session range)
          have := isSnapshot_snapshotBase large
          have positive := this.1
          have multiple := this.2
          rw [interval] at positive multiple
          simp only [snapshotInterval] at *
          omega
        · exact condition r large (.inr source)
      rcases needed with above | ⟨log, member, number, before⟩
      · have below : snapshotBase r ≤ baseRevision server session range := below
        omega
      · have := absent log member number
        have : range.start ≤ snapshotBase r := this
        omega
    | error e =>
      rw [refused e adjusted]
      rintro r - - ⟨mid, -⟩
      cases mid
  refine course.mono (fun st _ follows => ?_) fun e follows => ?_
  · obtain ⟨n, follows⟩ := follows
    exact follows.basesStored kept
  · obtain ⟨n, follows⟩ := follows
    exact follows.basesStored kept

/-! A directory that is changed in the revisions 5, 1025 and 1026. -/

def sparseServer : Server := historyServer
  [plainLog 5 [⟨[], .add, none⟩, ⟨cstr "a", .add, none⟩], plainLog 1025 [⟨cstr "b", .add, none⟩],
    plainLog 1026 [⟨cstr "c", .add, none⟩]]
  fun _ dest empty =>
    if empty then addFiles [cstr "a", cstr "b"] else if dest = 1026 then addFiles [cstr "c"] else .done

def keeping (opts : DumpOptions) : DumpOptions := { opts with keepRevnums := true }

/-- The tree of the base 1025 is rebuilt without a snapshot, and the file `a` of revision 5 is lost. -/
theorem snapshot_base_missing :
    ∃ st : DumpState .plain, dump sparseServer trunkSession (keeping (incrementalFrom 1026)) = some (.ok st) ∧
      st.delta.repo.calls = [.commit 0, .add [], .add (cstr "a"), .commit 5, .add (cstr "b"), .commit 1025,
        .discard, .add (cstr "c"), .commit 1026] ∧
      ¬ BasesStored .plain st.delta.repo.calls := by
  obtain ⟨st, ran, calls⟩ := dumpCalls_eq_some (show dumpCalls
    (dump sparseServer trunkSession (keeping (incrementalFrom 1026)) : Option (Result .plain (DumpState .plain))) =
      some [.commit 0, .add [], .add (cstr "a"), .commit 5, .add (cstr "b"), .commit 1025, .discard,
        .add (cstr "c"), .commit 1026] by decide)
  refine ⟨st, ran, calls, fun stored => ?_⟩
  rw [calls] at stored
  obtain ⟨repo, before, facts⟩ := Option.map_eq_some_iff.mp (show
    (pathRepoRun .plain [.commit 0, .add [], .add (cstr "a"), .commit 5, .add (cstr "b"), .commit 1025]).map
      (fun repo => (repo.head, (repo.db 1024).isSome)) = some (1025, false) by decide)
  obtain ⟨mid, filled, contains⟩ := Option.map_eq_some_iff.mp (show
    (pathRepoRun .plain [.commit 0, .add [], .add (cstr "a")]).map
      (fun repo => cbTreeContains repo.tree.tree (cstr "a")) = some true by decide)
  simp only [Prod.mk.injEq] at facts
  have present := stored [.commit 0, .add [], .add (cstr "a"), .commit 5, .add (cstr "b"), .commit 1025] .discard
    [.add (cstr "c"), .commit 1026] repo 1025 rfl before facts.1 (by decide)
    ⟨[.commit 0, .add [], .add (cstr "a")], 5, [.add (cstr "b"), .commit 1025], mid, cstr "a", rfl, by decide, filled,
      (CbSet.contains_iff _ _).mp contains⟩
  have base : snapshotBase 1025 = 1024 := by decide
  rw [base, facts.2] at present
  cases present.1

/-! The same directory with a file that is added in revision 1024. -/

def denseFiles : List (Int × CString) :=
  [(5, cstr "a"), (1024, cstr "b"), (1025, cstr "c"), (1026, cstr "d")]

/-- The files that are added behind one revision and up to another. -/
def filesBetween (source dest : Int) : List CString :=
  (denseFiles.filter fun file => source < file.1 ∧ file.1 ≤ dest).map Prod.snd

def denseServer : Server := historyServer
  [plainLog 5 [⟨[], .add, none⟩, ⟨cstr "a", .add, none⟩], plainLog 1024 [⟨cstr "b", .add, none⟩],
    plainLog 1025 [⟨cstr "c", .add, none⟩], plainLog 1026 [⟨cstr "d", .add, none⟩]]
  fun source dest empty => addFiles (filesBetween (if empty then 0 else source) dest)

theorem denseServer_increasing : Increasing trunkSession denseServer := by
  refine ⟨?_, ?_⟩
  · rw [show initialLogs trunkSession = [LogRevision.dummy] from rfl]
    simp [denseServer, historyServer, plainLog, LogRevision.dummy]
  · simp [denseServer, historyServer, plainLog]

theorem denseServer_lastChanged : LastChanged denseServer :=
  historyServer_lastChanged (by simp [plainLog])

theorem denseServer_no_copies {log : LogRevision} (member : log ∈ denseServer.logs) {source : CString}
    {original : Int} : ¬ LoggedSource log source original := by
  intro logged
  simp only [denseServer, historyServer, List.mem_cons, List.not_mem_nil, or_false] at member
  rcases member with rfl | rfl | rfl | rfl <;> simpa using plainLog_copy logged

theorem denseServer_logged {range : DumpOptions}
    (adjusted : adjustRange denseServer trunkSession (keeping (incrementalFrom 1026)).formatted = .ok range) :
    SnapshotsLogged denseServer trunkSession range := by
  cases adjusted
  rintro - r large (base | ⟨log, member, source, logged, -⟩)
  · rw [base]
    exact .inr ⟨plainLog 1024 [⟨cstr "b", .add, none⟩], @List.mem_of_getElem? _ _ 2 _ rfl, rfl, by decide⟩
  · rcases logList_listed _ _ _ log member with dummy | known
    · rw [dummy] at logged
      exact absurd logged LoggedSource.not_dummy
    · exact absurd logged (denseServer_no_copies known)

/-- The tree of the base 1025 is rebuilt from the snapshot that is written with revision 1024. -/
theorem snapshot_bases_stored_at_base :
    ∃ st : DumpState .plain, dump denseServer trunkSession (keeping (incrementalFrom 1026)) = some (.ok st) ∧
      st.delta.repo.calls = [.commit 0, .add [], .add (cstr "a"), .commit 5, .add (cstr "b"), .commit 1024, .add (cstr "c"),
        .commit 1025, .discard, .add (cstr "d"), .commit 1026] ∧
      BasesStored .plain st.delta.repo.calls ∧ EncodedFits .plain st.delta.repo.calls := by
  obtain ⟨st, ran, calls⟩ := dumpCalls_eq_some (show dumpCalls
    (dump denseServer trunkSession (keeping (incrementalFrom 1026)) : Option (Result .plain (DumpState .plain))) =
      some [.commit 0, .add [], .add (cstr "a"), .commit 5, .add (cstr "b"), .commit 1024, .add (cstr "c"), .commit 1025,
        .discard, .add (cstr "d"), .commit 1026] by decide)
  obtain ⟨result, same, stored⟩ := @snapshot_bases_stored .plain _ _ denseServer_increasing denseServer_lastChanged
    (fun log member source original logged => absurd logged (denseServer_no_copies member)) (keeping (incrementalFrom 1026))
    rfl (by decide) fun _ _ => denseServer_logged
  cases Option.some.inj (same.symm.trans ran)
  exact ⟨st, ran, calls, stored, by rw [calls]; decide⟩

end Rsvndump
