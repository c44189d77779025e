import Rsvndump.Arguments
import Rsvndump.Dump.CopySource

/-! Indexes into the log list.

The base of an incremental dump is found by counting entries and stepping back.
With a range that starts at HEAD nothing is counted, so the step leads out of
the list or the dummy revision is taken for a revision to dump.
-/

set_option autoImplicit false

namespace Rsvndump

open Library

variable {sys : Platform} {server : Server} {session : Session} {opts : DumpOptions}

/-- `0 <= i < logs->nelts` -/
def InList (logs : List LogRevision) (i : Int) : Prop := 0 ≤ i ∧ i < logs.length

/-- The entry at `i` is one that was received from the server. -/
def HandsOut (server : Server) (logs : List LogRevision) (i : Int) : Prop :=
  InList logs i ∧ ∃ log ∈ server.logs, logs[i.toNat]? = some log ∧ log.changedPaths.isSome

/-- The accesses to the log list before the loop and in each round. -/
structure IndexSafe (sys : Platform) (server : Server) (session : Session) (opts : DumpOptions) : Prop where
  setup : ∀ range, adjustRange server session opts.formatted = .ok range → startMid opts = true →
    ∀ localRev (repo : TracedRepo sys), prepareHistory server session range (logList server session range.stop)
        (logList server session range.stop) 0 .create = .ok (localRev, repo) →
      InList (logList server session range.stop)
          (if localRev > 1 ∨ session.prefixPath.length = 0 then localRev - 1 else localRev) ∧
        InList (logList server session range.stop) ((logList server session range.stop).length - 1)
  rounds : ∀ st : DumpState sys, Reached server session opts st →
    ∃ mid, nextLog server st = .ok mid ∧ HandsOut server mid.logs mid.listIdx

/-! ## Single entries -/

theorem logFetchSingle_found {logs : List LogRevision} {stop : Int} (rev : Int)
    (logged : ∃ log ∈ logs, log.revision = stop) : ∃ log, logFetchSingle logs rev stop = .ok log := by
  obtain ⟨log, member, rfl⟩ := logged
  have inside : log ∈ svnRaGetLog logs rev log.revision := by
    unfold svnRaGetLog
    split
    · exact List.mem_reverse.mpr (List.mem_filter.mpr ⟨member, by simp⟩)
    split
    · next le => exact List.mem_filter.mpr ⟨member, by simpa using le⟩
    · exact List.mem_reverse.mpr (List.mem_filter.mpr ⟨member, by simp; omega⟩)
  have nonempty := List.ne_nil_of_mem inside
  refine ⟨(svnRaGetLog logs rev log.revision).head nonempty, ?_⟩
  rw [logFetchSingle, orError_eq_ok, List.head?_eq_some_head]

theorem nextLog_single {st : DumpState sys} (single : st.logsFetched = false)
    (tables : ∀ log ∈ server.logs, log.changedPaths.isSome)
    (logged : ∃ log ∈ server.logs, log.revision = st.opts.stop) :
    ∃ mid, nextLog server st = .ok mid ∧ HandsOut server mid.logs mid.listIdx := by
  obtain ⟨log, fetched⟩ := logFetchSingle_found st.globalRev logged
  have member := logFetchSingle_mem fetched
  refine ⟨{ st with logs := st.logs ++ [log], listIdx := (st.logs ++ [log]).length - 1 }, ?_, ?_⟩
  · simp [nextLog, single, fetched, TracedRepo.lift]
  · refine ⟨?_, log, member, ?_, tables log member⟩
    · simp only [InList, List.length_append, List.length_singleton]
      omega
    · simp

/-- The end of the range and the way of fetching stay as they were set up. -/
theorem Reached.control (mid : startMid opts = false) {st : DumpState sys}
    (reached : Reached server session opts st) {range : DumpOptions}
    (adjusted : adjustRange server session opts.formatted = .ok range) :
    st.logsFetched = false ∧ st.opts.stop = range.stop := by
  induction reached with
  | setup ran =>
    obtain ⟨range', adjusted', -, whole⟩ := dumpSetup_ok ran
    cases Except.ok.inj (adjusted'.symm.trans adjusted)
    rw [whole mid]
    unfold setupFull
    refine ⟨rfl, ?_⟩
    dsimp only
    split <;> rfl
  | round reached ran continues ih =>
    obtain ⟨log, opened, -, control, -, fetched, -⟩ := dumpStep_control ran
    have stop := control_field control DumpOptions.stop fun _ => rfl
    exact ⟨fetched.trans ih.1, stop.trans ih.2⟩

/-! ## Whole lists -/

theorem mem_drop_logList {stop : Int} {k : Nat} {log : LogRevision} (behind : (initialLogs session).length ≤ k)
    (member : log ∈ (logList server session stop).drop k) : log ∈ server.logs := by
  rw [logList, List.drop_append, List.drop_eq_nil_of_le behind, List.nil_append] at member
  exact mem_of_svnRaGetLog (List.mem_of_mem_drop member)

theorem handsOut_of_logAt {logs : List LogRevision} {i : Int} {log : LogRevision} (found : logAt logs i = .ok log)
    (member : log ∈ server.logs) (tables : ∀ log ∈ server.logs, log.changedPaths.isSome) : HandsOut server logs i := by
  obtain ⟨valid, listed⟩ := logAt_eq_ok found
  have bound := (List.getElem?_eq_some_iff.mp listed).1
  exact ⟨⟨valid, by omega⟩, log, member, listed, tables log member⟩

section Incremental

variable (increasing : Increasing session server) (changed : LastChanged server)
  (rooted : session.prefixPath = [] → ∃ log ∈ server.logs, log.revision = 0)
  {created : Int} (last : server.createdRev opts.stop = some created) (started : 1 ≤ opts.start)

include increasing changed rooted last started

/-- The base is an entry behind the dummy revision. -/
theorem baseIndex_inside :
    ∃ i : Nat, baseIndex session (logList server session created) opts.start = i ∧
      (initialLogs session).length ≤ i ∧ i < (logList server session created).length := by
  have valid := created_nonneg increasing changed last
  have fetched : 0 < (svnRaGetLog server.logs 0 created).length := by
    obtain ⟨log, member, same⟩ := changed.logged _ _ last
    rw [svnRaGetLog_zero increasing valid]
    exact List.length_pos_of_mem (List.mem_filter.mpr ⟨member, by simp [same]⟩)
  have bound : preparedCount (logList server session created) opts.start ≤ (logList server session created).length :=
    (List.takeWhile_sublist _).length_le
  have size : (logList server session created).length =
      (initialLogs session).length + (svnRaGetLog server.logs 0 created).length := List.length_append
  -- revision 0 comes before every start that is not HEAD
  have first : 0 < preparedCount (logList server session created) opts.start := by
    obtain ⟨log, rest, list, zero⟩ : ∃ log rest, logList server session created = log :: rest ∧ log.revision = 0 := by
      by_cases sub : session.prefixPath.length > 0
      · exact ⟨.dummy, svnRaGetLog server.logs 0 created, by simp [logList, initialLogs, sub], rfl⟩
      · obtain ⟨zero, member, same⟩ := rooted (by simpa using sub)
        have inside : zero ∈ logList server session created := by
          rw [logList, svnRaGetLog_zero increasing valid]
          exact List.mem_append_right _ (List.mem_filter.mpr ⟨member, by simpa [same] using valid⟩)
        obtain ⟨log, rest, list⟩ := List.exists_cons_of_ne_nil (List.ne_nil_of_mem inside)
        refine ⟨log, rest, list, ?_⟩
        have low := head_le (increasing.logList valid) (by rw [list]; rfl) inside
        have listed : log ∈ server.logs := by
          have : log ∈ logList server session created := by simp [list]
          rw [logList, initialLogs, if_neg sub, List.nil_append] at this
          exact mem_of_svnRaGetLog this
        have := increasing.2 log listed
        omega
    rw [preparedCount, list, List.takeWhile_cons_of_pos (by simp; omega)]
    simp
  have dummies := initialLogs_length session
  unfold baseIndex
  split
  · next several =>
    refine ⟨preparedCount (logList server session created) opts.start - 1, by omega, ?_, by omega⟩
    rw [dummies]
    split <;> omega
  · next one =>
    refine ⟨preparedCount (logList server session created) opts.start, rfl, ?_, ?_⟩
    · rw [dummies]
      split <;> omega
    · rw [size, dummies]
      split <;> omega

theorem rounds_incremental (mid : startMid opts = true) (tables : ∀ log ∈ server.logs, log.changedPaths.isSome)
    {st : DumpState sys} (reached : Reached server session opts st) :
    ∃ next, nextLog server st = .ok next ∧ HandsOut server next.logs next.listIdx := by
  obtain ⟨i, index, behind, bound⟩ := baseIndex_inside increasing changed rooted last started
  rcases reached.incremental increasing changed last mid with
    ⟨setup, -⟩ | ⟨j, base, done, rest, index', -, -, progress, split, more⟩
  · obtain ⟨range, adjusted, whole, -⟩ := dumpSetup_ok setup
    obtain ⟨created', -, -, root⟩ := adjustRange_ok increasing changed adjusted
    rw [formatted_stop, last] at created'
    rw [formatted_start] at root
    have start_eq := root fun both => by omega
    have stop_eq : range.stop = created := (Option.some.inj created').symm
    obtain ⟨base, final, repo, -, found, -, -, -, logs, fetched, -, -, listIdx, -⟩ := setupIncremental_ok (whole mid)
    rw [stop_eq, start_eq] at found listIdx
    rw [stop_eq] at logs
    refine ⟨{ st with listIdx := st.listIdx + 1 }, by simp [nextLog, fetched], ?_⟩
    have place : st.listIdx + 1 = baseIndex session (logList server session created) opts.start := by omega
    dsimp only
    rw [logs, place]
    refine handsOut_of_logAt found ?_ tables
    obtain ⟨-, listed⟩ := logAt_eq_ok found
    rw [index, Int.toNat_natCast] at listed
    apply mem_drop_logList behind
    rw [List.drop_eq_getElem_cons bound, (List.getElem?_eq_some_iff.mp listed).2]
    exact List.mem_cons_self
  · cases rest with
    | nil => exact absurd rfl more
    | cons log rest =>
      obtain ⟨next, ran, found, -⟩ := progress.pending.next
      have pending : log ∈ (logList server session created).drop (j + 1) := by
        rw [← split]
        simp
      exact ⟨next, ran, handsOut_of_logAt found (mem_drop_logList (by omega) pending) tables⟩

end Incremental

/-- A range that starts at HEAD has nothing before it. -/
theorem prepareHistory_head (increasing : Increasing session server) {range : DumpOptions}
    (head : range.start = -1) (stop : Int) :
    prepareHistory server session range (logList server session stop) (logList server session stop) 0
      (.create : TracedRepo sys) = .ok (0, .create) := by
  cases list : logList server session stop with
  | nil => rfl
  | cons log rest =>
    have member : log ∈ logList server session stop := by simp [list]
    have low : 0 ≤ log.revision := by
      rcases List.mem_append.mp member with dummy | fetched
      · rw [(mem_initialLogs.mp dummy).1]
        decide
      · exact increasing.2 log (mem_of_svnRaGetLog fetched)
    rw [prepareHistory, if_neg (by omega)]

/-- The dummy revision becomes the base of a subdirectory. -/
theorem setupIncremental_head (increasing : Increasing session server) {range : DumpOptions}
    (head : range.start = -1) (sub : session.prefixPath.length > 0) :
    ∃ st : DumpState sys, setupIncremental server session range = .ok st ∧ st.logsFetched = true ∧
      st.listIdx = -1 ∧ ∃ rest, st.logs = .dummy :: rest := by
  have list : initialLogs session ++ svnRaGetLog server.logs 0 range.stop =
      .dummy :: svnRaGetLog server.logs 0 range.stop := by simp [initialLogs, sub]
  have prepared := @prepareHistory_head sys _ _ increasing _ head range.stop
  unfold logList at prepared
  obtain ⟨final, found⟩ : ∃ final, logAt (initialLogs session ++ svnRaGetLog server.logs 0 range.stop)
      ((initialLogs session ++ svnRaGetLog server.logs 0 range.stop).length - 1) = .ok final := by
    rw [list, logAt, if_neg (by simp)]
    exact ⟨_, orError_eq_ok.mpr (List.getElem?_eq_getElem (by simp))⟩
  have base : logAt (initialLogs session ++ svnRaGetLog server.logs 0 range.stop) 0 = .ok .dummy := by
    rw [list]
    rfl
  have stays : ¬ ((0 : Int) > 1 ∨ session.prefixPath.length = 0) := by omega
  unfold setupIncremental
  simp only [prepared, ok_bind, if_neg stays, base, found, TracedRepo.lift, pure_eq_ok]
  exact ⟨_, rfl, rfl, rfl, _, list⟩

/-- All accesses are in range, and only fetched entries are dumped, unless an incremental dump
starts at HEAD. -/
theorem log_indexes_iff (increasing : Increasing session server) (changed : LastChanged server)
    (rooted : session.prefixPath = [] → ∃ log ∈ server.logs, log.revision = 0)
    (tables : ∀ log ∈ server.logs, log.changedPaths.isSome) {str : CString}
    (parsed : parseRevnum str = some (opts.start, opts.stop)) {range : DumpOptions}
    (adjusted : adjustRange server session opts.formatted = .ok range)
    (directory : sessionCheckReparent server range.start = .ok ()) :
    IndexSafe sys server session opts ↔ ¬ (opts.incremental = true ∧ opts.start = -1) := by
  obtain ⟨created, -, -, root⟩ := adjustRange_ok increasing changed adjusted
  rw [formatted_stop] at created
  rw [formatted_start] at root
  constructor
  · rintro safe ⟨incremental, head⟩
    have mid : startMid opts = true := by simp [startMid, incremental, head]
    have head' : range.start = -1 := (root fun both => by omega).trans head
    have inside := (safe.setup range adjusted mid _ _ (prepareHistory_head increasing head' range.stop)).1
    by_cases sub : session.prefixPath.length > 0
    · obtain ⟨st, ran, fetched, listIdx, rest, logs⟩ := @setupIncremental_head sys _ _ increasing _ head' sub
      have setup : dumpSetup server session opts = .ok st := by
        unfold dumpSetup
        simp only [adjusted, directory, TracedRepo.lift, ok_bind, mid, if_true]
        exact ran
      obtain ⟨next, stepped, -, log, -, listed, table⟩ := safe.rounds st (.setup setup)
      rw [nextLog, if_pos fetched, Except.ok.injEq] at stepped
      subst stepped
      simp only [listIdx, logs] at listed
      cases listed
      simp [LogRevision.dummy] at table
    · rw [if_pos (.inr (by omega))] at inside
      exact absurd inside.1 (by decide)
  · intro unlike
    have valid : opts.incremental = true → 0 ≤ opts.start := by
      intro incremental
      rcases parseRevnum_range parsed with ⟨head, -⟩ | ⟨valid, -⟩
      · exact absurd ⟨incremental, head⟩ unlike
      · exact valid
    have started : startMid opts = true → 1 ≤ opts.start := by
      intro mid
      simp only [startMid, Bool.and_eq_true, decide_eq_true_eq] at mid
      have := valid mid.1
      omega
    refine ⟨fun range' adjusted' mid localRev repo prepared => ?_, fun st reached => ?_⟩
    · cases Except.ok.inj (adjusted'.symm.trans adjusted)
      obtain ⟨i, index, behind, bound⟩ := baseIndex_inside increasing changed rooted created (started mid)
      have counted := prepareHistory_count prepared
      have start := root fun both => by have := started mid; omega
      rw [start, Int.zero_add] at counted
      unfold baseIndex at index
      rw [counted, index]
      exact ⟨⟨by omega, by omega⟩, ⟨by omega, by omega⟩⟩
    · cases mid : startMid opts with
      | true => exact rounds_incremental increasing changed rooted created (started mid) mid tables reached
      | false =>
        obtain ⟨single, stop⟩ := reached.control mid adjusted
        refine nextLog_single single tables ?_
        rw [stop]
        exact changed.logged _ _ created

def incrementalRange (start stop : Int) : DumpOptions :=
  { DumpOptions.create with start := start, stop := stop, incremental := true }

theorem log_indexes_safe_range :
    parseRevnum (cstr "2:4") = some (2, 4) ∧ IndexSafe .plain rootServer rootSession (incrementalRange 2 4) := by
  have parsed : parseRevnum (cstr "2:4") = some (2, 4) := by decide
  refine ⟨parsed, (log_indexes_iff rootServer_increasing rootServer_lastChanged (fun _ => ?_) ?_ parsed
    (show adjustRange rootServer rootSession (incrementalRange 2 4).formatted = .ok (incrementalRange 2 4) from rfl)
    rfl).mpr (by decide)⟩
  · exact ⟨_, List.mem_cons_self, rfl⟩
  · simp [rootServer, plainLog]

/-- An incremental dump of HEAD: the base is looked up at index -1. -/
theorem log_index_negative :
    parseRevnum (cstr "HEAD") = some (-1, -1) ∧ ¬ IndexSafe .plain rootServer rootSession (incrementalRange (-1) (-1)) := by
  refine ⟨by decide, fun safe => ?_⟩
  have inside := (safe.setup (incrementalRange (-1) 4) rfl rfl _ _ (prepareHistory_head rootServer_increasing rfl 4)).1
  exact absurd inside.1 (by decide)

end Rsvndump
