import Rsvndump.Delta.Covered
import Rsvndump.Dump.CopySource
import Rsvndump.PathRepo.Course

/-! The calls of a whole dump on the path storage.

A round commits the number it prints, after the numbers of its padding, and its
edit asks for smaller numbers. The exceptions are the first revision of a dump
that starts later, and the snapshots that the preparation of an incremental
dump with original numbers leaves out.
-/

set_option autoImplicit false

namespace Rsvndump

open Library

variable {sys : Platform}

/-! ## Copy sources -/

/-- Copies are made from earlier revisions. -/
def SourcesEarlier (server : Server) : Prop :=
  ∀ log ∈ server.logs, ∀ source original, LoggedSource log source original → original < log.revision

theorem copyfromLoop_cases (original : Int) (logs : List LogRevision) (n : Nat) :
    copyfromLoop original logs n = -1 ∨
      ∃ i log, i < n ∧ copyfromLoop original logs n = (i : Int) ∧ logs[i]? = some log ∧ log.revision ≤ original := by
  induction n with
  | zero => exact .inl rfl
  | succ n ih =>
    have earlier : copyfromLoop original logs n = -1 ∨
        ∃ i log, i < n + 1 ∧ copyfromLoop original logs n = (i : Int) ∧ logs[i]? = some log ∧ log.revision ≤ original := by
      rcases ih with none | ⟨i, log, below, rest⟩
      · exact .inl none
      · exact .inr ⟨i, log, by omega, rest⟩
    rw [copyfromLoop]
    split
    · next log found =>
      split
      · next le => exact .inr ⟨n, log, by omega, rfl, found, le⟩
      · exact earlier
    · exact earlier

/-! ## Opening a round -/

theorem openRevision_logs {server : Server} {st opened : DumpState sys} {log : LogRevision}
    (opens : openRevision server st = .ok (log, opened)) :
    (st.logsFetched = true → opened.logs = st.logs ∧ opened.listIdx = st.listIdx + 1 ∧ 0 ≤ st.listIdx + 1 ∧
        st.logs[(st.listIdx + 1).toNat]? = some log) ∧
      (st.logsFetched = false → opened.logs = st.logs ++ [log] ∧
        logFetchSingle server.logs st.globalRev st.opts.stop = .ok log) := by
  obtain ⟨mid, next, found, same, -⟩ := openRevision_control opens
  rw [same.logs, same.listIdx]
  unfold nextLog at next
  obtain ⟨valid, found⟩ := logAt_eq_ok found
  constructor
  · intro mode
    rw [mode] at next
    cases next
    exact ⟨rfl, rfl, valid, found⟩
  · intro mode
    rw [mode] at next
    obtain ⟨log', fetched, returned⟩ := bind_eq_ok.mp next
    cases returned
    rw [TracedRepo.lift_eq_ok] at fetched
    have same : log' = log := by simpa using found
    subst same
    exact ⟨rfl, fetched⟩

theorem setupPrefix_delta (st : DumpState sys) :
    (setupPrefix st).delta = st.delta ∧ (setupPrefix st).localRev = st.localRev := by
  unfold setupPrefix dumpCreateUserPrefix
  split
  · split <;> exact ⟨rfl, rfl⟩
  · exact ⟨rfl, rfl⟩

/-- Padding commits the numbers it passes. -/
theorem padRevisions_repo {kept : Int → TracedRepo sys → Prop}
    (commit : ∀ n t, kept n t → kept (n + 1) (t.commit n)) (k : Nat) {st : DumpState sys}
    (holds : kept st.localRev st.delta.repo) :
    kept (padRevisions k st).localRev (padRevisions k st).delta.repo := by
  induction k generalizing st with
  | zero => exact holds
  | succ k ih =>
    apply ih
    obtain ⟨delta, number⟩ := setupPrefix_delta { st with
      out := st.out ++ [.padding st.localRev]
      delta := { st.delta with repo := st.delta.repo.commit st.localRev } }
    simp only [padRevision, delta, number]
    exact commit _ _ holds

theorem openRevision_repo {server : Server} {st opened : DumpState sys} {log : LogRevision}
    {kept : Int → TracedRepo sys → Prop} (commit : ∀ n t, kept n t → kept (n + 1) (t.commit n))
    (opens : openRevision server st = .ok (log, opened)) (holds : kept st.localRev st.delta.repo) :
    kept opened.localRev opened.delta.repo := by
  obtain ⟨mid, next, opens⟩ := bind_eq_ok.mp opens
  obtain ⟨log', -, opens⟩ := bind_eq_ok.mp opens
  cases opens
  obtain ⟨-, number, -, delta, -⟩ := nextLog_control next
  have padded : kept (padTo log.revision mid).localRev (padTo log.revision mid).delta.repo := by
    rw [← number, ← delta] at holds
    unfold padTo
    split
    · exact padRevisions_repo commit _ holds
    · exact holds
  unfold printHeader
  split
  · exact padded
  · obtain ⟨delta, number⟩ := setupPrefix_delta { padTo log.revision mid with
      out := (padTo log.revision mid).out ++ [.revision log (padTo log.revision mid).localRev] }
    rw [delta, number]
    exact padded

theorem openRevision_dry {server : Server} {st opened : DumpState sys} {log : LogRevision}
    (dry : st.opts.initialDryRun = true) (opens : openRevision server st = .ok (log, opened)) :
    opened.delta = st.delta ∧ opened.localRev = st.localRev := by
  obtain ⟨mid, next, opens⟩ := bind_eq_ok.mp opens
  obtain ⟨log', -, opens⟩ := bind_eq_ok.mp opens
  cases opens
  obtain ⟨opts, number, -, delta, -⟩ := nextLog_control next
  have same : padTo log.revision mid = mid := by
    unfold padTo
    rw [opts, dry]
    simp
  rw [same]
  unfold printHeader
  rw [opts, dry]
  exact ⟨delta, number⟩

/-! ## Numbers -/

/-- How the log list, the numbers and the base of a dump that starts in the middle fit together. -/
structure Numbered (session : Session) (st : DumpState sys) : Prop where
  growing : st.logsFetched = false → (st.logs.length : Int) ≤ st.localRev ∧ st.opts.initialDryRun = false
  sorted : st.logsFetched = true → st.logs.Pairwise fun a b => a.revision < b.revision
  place : st.logsFetched = true → st.opts.keepRevnums = false → st.localRev = st.listIdx + 1
  base : st.logsFetched = true → ∃ (i : Nat) (base : LogRevision), st.logs[i]? = some base ∧
    base.revision = st.opts.start ∧ (if st.opts.initialDryRun then (i : Int) = st.listIdx + 1 else (i : Int) ≤ st.listIdx)
  number : st.logsFetched = true → st.opts.keepRevnums = true →
    if st.opts.initialDryRun then st.localRev = st.opts.start else st.opts.start < st.localRev
  positive : ¬ trustsLog session st.opts → 1 ≤ st.localRev

theorem trustsLog_congr {session : Session} {opts opts' : DumpOptions} (start : opts'.start = opts.start)
    (incremental : opts'.incremental = opts.incremental) : trustsLog session opts' ↔ trustsLog session opts := by
  unfold trustsLog
  rw [start, incremental]

theorem roundNumber_ge (st : DumpState sys) (revision : Int) : st.localRev ≤ roundNumber st revision := by
  unfold roundNumber printedNumber
  split
  · exact Int.le_refl _
  · split <;> omega

theorem Numbered.step {server : Server} {session : Session} {st st' : DumpState sys}
    (numbered : Numbered session st) (ran : dumpStep server session st = .ok st') : Numbered session st' := by
  obtain ⟨log, opened, opens, control, logs, fetched, listIdx, -, localRev, -⟩ := dumpStep_control ran
  obtain ⟨whole, growing⟩ := openRevision_logs opens
  have ge := roundNumber_ge st log.revision
  have keep : st'.opts.keepRevnums = st.opts.keepRevnums := control_field control DumpOptions.keepRevnums fun _ => rfl
  have start : st'.opts.start = st.opts.start := control_field control DumpOptions.start fun _ => rfl
  have wet : st'.opts.initialDryRun = false := control_field control DumpOptions.initialDryRun fun _ => rfl
  have incremental : st'.opts.incremental = st.opts.incremental :=
    control_field control DumpOptions.incremental fun _ => rfl
  refine ⟨?_, ?_, ?_, ?_, ?_, ?_⟩
  · intro mode
    rw [fetched] at mode
    have length := (numbered.growing mode).1
    refine ⟨?_, wet⟩
    rw [logs, (growing mode).1, localRev, List.length_append, List.length_singleton]
    push_cast
    omega
  · intro mode
    rw [fetched] at mode
    rw [logs, (whole mode).1]
    exact numbered.sorted mode
  · intro mode plain
    rw [fetched] at mode
    rw [keep] at plain
    rw [localRev, listIdx, (whole mode).2.1, ← numbered.place mode plain]
    unfold roundNumber printedNumber
    rw [plain]
    simp
  · intro mode
    rw [fetched] at mode
    obtain ⟨i, base, found, revision, position⟩ := numbered.base mode
    refine ⟨i, base, ?_, by rw [start]; exact revision, ?_⟩
    · rw [logs, (whole mode).1]
      exact found
    · rw [wet, listIdx, (whole mode).2.1]
      simp only [Bool.false_eq_true, if_false]
      split at position
      · omega
      · omega
  · intro mode kept
    rw [fetched] at mode
    rw [keep] at kept
    have before := numbered.number mode kept
    rw [wet, start, localRev]
    simp only [Bool.false_eq_true, if_false]
    split at before
    · omega
    · omega
  · intro untrusted
    rw [trustsLog_congr start incremental] at untrusted
    have := numbered.positive untrusted
    omega

/-- With `--keep-revnums` the number of a round is not below its revision. -/
theorem Numbered.kept_ge {server : Server} {session : Session} {st opened : DumpState sys} {log : LogRevision}
    (numbered : Numbered session st) (opens : openRevision server st = .ok (log, opened))
    (kept : st.opts.keepRevnums = true) : log.revision ≤ opened.localRev := by
  obtain ⟨mid, -, -, -, localRev, -⟩ := openRevision_control opens
  obtain ⟨whole, -⟩ := openRevision_logs opens
  have ge := roundNumber_ge st log.revision
  rw [← localRev] at ge
  cases dry : st.opts.initialDryRun with
  | true =>
    -- only a list fetched at once has a dry round, which is that of the base
    have mode : st.logsFetched = true := by
      by_contra single
      have := (numbered.growing (Bool.eq_false_of_not_eq_true single)).2
      simp [dry] at this
    have number := numbered.number mode kept
    obtain ⟨i, base, found, revision, position⟩ := numbered.base mode
    rw [dry] at number position
    simp only [if_true] at number position
    have same : base = log := by
      have listed := (whole mode).2.2.2
      rw [← position, Int.toNat_natCast, found] at listed
      exact Option.some.inj listed
    subst same
    omega
  | false =>
    rw [localRev, roundNumber, dry, printedNumber, kept]
    simp only [Bool.false_eq_true, if_false, if_true]
    omega

/-- With plain numbers, an earlier entry stands before the place of the round. -/
theorem Numbered.place_lt {server : Server} {session : Session} {st opened : DumpState sys} {log log' : LogRevision}
    (numbered : Numbered session st) (opens : openRevision server st = .ok (log, opened))
    (plain : st.opts.keepRevnums = false) {i : Nat} (below : i + 1 < opened.logs.length)
    (found : opened.logs[i]? = some log') (before : log'.revision < log.revision) : (i : Int) < opened.localRev := by
  obtain ⟨mid, -, -, -, localRev, -⟩ := openRevision_control opens
  obtain ⟨whole, growing⟩ := openRevision_logs opens
  have ge := roundNumber_ge st log.revision
  rw [← localRev] at ge
  cases mode : st.logsFetched with
  | true =>
    obtain ⟨logs, -, valid, listed⟩ := whole mode
    rw [logs] at found
    have place := numbered.place mode plain
    -- entries from the place of the round on are not earlier
    by_contra behind
    have sorted := List.pairwise_iff_getElem.mp (numbered.sorted mode)
    obtain ⟨low, low_eq⟩ := List.getElem?_eq_some_iff.mp listed
    obtain ⟨high, high_eq⟩ := List.getElem?_eq_some_iff.mp found
    by_cases same : (st.listIdx + 1).toNat = i
    · subst same
      rw [low_eq] at high_eq
      subst high_eq
      omega
    · have := sorted _ _ low high (by omega)
      rw [low_eq, high_eq] at this
      omega
  | false =>
    have length := (numbered.growing mode).1
    rw [(growing mode).1, List.length_append, List.length_singleton] at below
    omega

theorem Numbered.nonneg {server : Server} {session : Session} {st opened : DumpState sys} {log : LogRevision}
    (numbered : Numbered session st) (opens : openRevision server st = .ok (log, opened))
    (plain : st.opts.keepRevnums = false) : 0 ≤ opened.localRev := by
  obtain ⟨mid, -, -, -, localRev, -⟩ := openRevision_control opens
  have ge := roundNumber_ge st log.revision
  rw [← localRev] at ge
  cases mode : st.logsFetched with
  | true =>
    have := numbered.place mode plain
    have := ((openRevision_logs opens).1 mode).2.2.1
    omega
  | false =>
    have := (numbered.growing mode).1
    omega

/-- The number of a copy source lies below that of the round. -/
theorem Numbered.source_lt {server : Server} {session : Session} {st opened : DumpState sys} {log : LogRevision}
    {original : Int} (numbered : Numbered session st) (opens : openRevision server st = .ok (log, opened))
    (earlier : original < log.revision) :
    deltaGetLocalCopyfromRev original opened.opts opened.logs < opened.localRev := by
  have keep : opened.opts.keepRevnums = st.opts.keepRevnums :=
    control_field (openRevision_opts opens) DumpOptions.keepRevnums fun _ => rfl
  unfold deltaGetLocalCopyfromRev
  cases kept : st.opts.keepRevnums with
  | true =>
    have := numbered.kept_ge opens kept
    rw [keep, kept, if_pos rfl]
    omega
  | false =>
    have := numbered.nonneg opens kept
    rw [keep, kept]
    simp only [Bool.false_eq_true, if_false]
    rcases copyfromLoop_cases original opened.logs (opened.logs.length - 1) with none | ⟨i, log', below, value, found, le⟩
    · omega
    · rw [value]
      exact numbered.place_lt opens kept (by omega) found (by omega)

/-! ## Rounds -/

/-- A copy source inside the session root that a list of log entries names. -/
def CopySource (session : Session) (logs : List LogRevision) (r : Int) : Prop :=
  ∃ log ∈ logs, ∃ source, LoggedSource log source r ∧ session.prefixPath <+: source

/-- The parameters of a dump: whether it starts in the middle, with which numbers, from which base,
and the whole log list in that case. -/
structure Plan where
  session : Session
  mid : Bool
  keep : Bool
  base : Int
  logs : List LogRevision
  start : Int

/-- The numbers that may be asked for; it matters with original numbers only. -/
def Plan.asked (plan : Plan) (r : Int) : Prop :=
  snapshotInterval ≤ r → plan.mid = true → plan.keep = true → plan.base ≤ r ∨ CopySource plan.session plan.logs r

/-- The snapshots that are not written, because they were passed during the preparation. -/
def Plan.left (plan : Plan) (s : Int) : Prop :=
  plan.mid = true ∧ plan.keep = true ∧ s ≤ plan.base ∧ ∀ log ∈ plan.logs, log.revision = s → plan.start ≤ s

/-- The deletions of the first revision lie below copies that are dumped in full. -/
def StartCovered (server : Server) (opts : DumpOptions) : Prop :=
  ∀ log ∈ server.logs, log.revision = opts.start → 1 < opts.start → ∀ table path info,
    log.changedPaths = some table → table.lookup path = some info → info.action = .delete →
    ¬ (opts.incremental = true ∧ opts.keepRevnums = true) ∧ ∃ parent ∈ parentChain path.length path,
      CopiedPath log parent ∧ parent ∈ (server.diff opts.start opts.start true).children.added

/-- The state before the first round of a dump that does not start in the middle. -/
structure First (server : Server) (plan : Plan) (early : Prop) (st : DumpState sys) : Prop where
  growing : plan.mid = false
  fresh : st.delta.repo.calls = []
  wet : st.opts.initialDryRun = false
  valid : 0 ≤ st.opts.start
  place : st.globalRev = st.opts.start
  logs : st.logs = initialLogs plan.session
  untrusted : 1 < st.opts.start → ¬ trustsLog plan.session st.opts
  covered : early ∨ StartCovered server st.opts ∧ ∀ source target, (server.diff source target true).children.AddsOnly

/-- The state before a round. -/
structure Round (server : Server) (plan : Plan) (early : Prop) (st : DumpState sys) : Prop where
  numbered : Numbered plan.session st
  mode : st.logsFetched = plan.mid
  keep : st.opts.keepRevnums = plan.keep
  base : plan.mid = true → st.opts.start = plan.base ∧ st.logs = plan.logs
  course : Course plan.left plan.asked early (if st.opts.initialDryRun then st.localRev + 1 else st.localRev) st.delta.repo
  head : st.opts.initialDryRun = true → plan.asked st.delta.repo.repo.head ∧ st.delta.repo.repo.head < st.localRev + 1
  position : plan.mid = true ∨ First server plan early st ∨
    (plan.mid = false ∧ 0 ≤ st.opts.start ∧ st.opts.start < st.globalRev ∧ st.globalRev ≤ st.opts.stop)

theorem logFetchSingle_ge {logs : List LogRevision} {start stop : Int} {log : LogRevision}
    (fetched : logFetchSingle logs start stop = .ok log) :
    log ∈ logs ∧ (start = -1 ∨ start ≤ log.revision ∨ stop < start ∧ stop ≤ log.revision) := by
  rw [logFetchSingle, orError_eq_ok] at fetched
  have member := List.mem_of_head? fetched
  unfold svnRaGetLog at member
  split at member
  · next head => exact ⟨(List.mem_filter.mp (List.mem_reverse.mp member)).1, .inl head⟩
  split at member
  · obtain ⟨inside, bounds⟩ := List.mem_filter.mp member
    simp only [decide_eq_true_eq] at bounds
    exact ⟨inside, .inr (.inl bounds.1)⟩
  · next backwards =>
    obtain ⟨inside, bounds⟩ := List.mem_filter.mp (List.mem_reverse.mp member)
    simp only [decide_eq_true_eq] at bounds
    exact ⟨inside, .inr (.inr ⟨by omega, bounds.1⟩)⟩

variable {server : Server} {plan : Plan} {early : Prop} {st opened : DumpState sys} {log : LogRevision}

/-- Copies in the log entry of a round are earlier. -/
theorem Round.source_earlier (round : Round server plan early st) (earlier : SourcesEarlier server)
    (listed : ∀ log ∈ plan.logs, log = .dummy ∨ log ∈ server.logs)
    (opens : openRevision server st = .ok (log, opened)) {source : CString} {original : Int}
    (logged : LoggedSource log source original) :
    original < log.revision ∧ (plan.mid = true → log ∈ plan.logs) := by
  obtain ⟨whole, growing⟩ := openRevision_logs opens
  cases mode : plan.mid with
  | true =>
    have found := (whole (round.mode.trans mode)).2.2.2
    rw [(round.base mode).2] at found
    have member := List.mem_of_getElem? found
    refine ⟨?_, fun _ => member⟩
    rcases listed log member with dummy | inside
    · obtain ⟨table, path, info, changed, -⟩ := logged
      rw [dummy] at changed
      cases changed
    · exact earlier log inside source original logged
  | false =>
    obtain ⟨inside, -⟩ := logFetchSingle_ge (growing (round.mode.trans mode)).2
    exact ⟨earlier log inside source original logged, fun wrong => absurd wrong Bool.false_ne_true⟩

/-- The queries of the nodes are allowed by the course of the dump. -/
theorem Round.closed (round : Round server plan early st) (earlier : SourcesEarlier server)
    (listed : ∀ log ∈ plan.logs, log = .dummy ∨ log ∈ server.logs)
    (opens : openRevision server st = .ok (log, opened)) {n : Int} (low : opened.localRev ≤ n)
    {kept : TracedRepo sys → Prop} (adds : ∀ t path, kept t → kept (t.add path).1)
    (deletes : ∀ t path, kept t → kept (t.delete path))
    (queries : ∀ t t' r found, plan.asked r → r < n → kept t → t.tree r = some (found, t') → kept t') :
    Closed kept (AsksFor (editorBaton plan.session opened log)) := by
  refine ⟨adds, deletes, fun t t' r found asks holds reached => ?_⟩
  obtain ⟨mid, -, -, -, localRev, -⟩ := openRevision_control opens
  have control := openRevision_opts opens
  have keep : opened.opts.keepRevnums = plan.keep :=
    (control_field control DumpOptions.keepRevnums fun _ => rfl).trans round.keep
  have start : opened.opts.start = st.opts.start := control_field control DumpOptions.start fun _ => rfl
  have incremental : opened.opts.incremental = st.opts.incremental :=
    control_field control DumpOptions.incremental fun _ => rfl
  have dry : opened.opts.initialDryRun = st.opts.initialDryRun :=
    control_field control DumpOptions.initialDryRun fun _ => rfl
  have ge := roundNumber_ge st log.revision
  rw [← localRev] at ge
  cases asks with
  | @source source original wet logged inside =>
    obtain ⟨before, member⟩ := round.source_earlier earlier listed opens logged
    have below : deltaGetLocalCopyfromRev original opened.opts opened.logs < opened.localRev :=
      round.numbered.source_lt opens before
    refine queries t t' _ found (fun _ isMid isKeep => ?_) (Int.lt_of_lt_of_le below low) holds reached
    have value : deltaGetLocalCopyfromRev original opened.opts opened.logs = original := by
      rw [deltaGetLocalCopyfromRev, keep, isKeep, if_pos rfl]
    refine .inr ⟨log, member isMid, source, ?_, inside⟩
    simp only [value]
    exact logged
  | unset wet untrusted =>
    refine queries t t' 0 found (fun large => absurd large (by decide)) ?_ holds reached
    have := round.numbered.positive fun trusted =>
      untrusted ((trustsLog_congr start incremental).mpr trusted)
    omega
  | previous wet untrusted =>
    refine queries t t' _ found (fun _ isMid isKeep => ?_) ?_ holds reached
    · have number := round.numbered.number (round.mode.trans isMid) (round.keep.trans isKeep)
      rw [← dry, show opened.opts.initialDryRun = false from wet] at number
      simp only [Bool.false_eq_true, if_false] at number
      rw [(round.base isMid).1] at number
      left
      simp only [editorBaton]
      omega
    · simp only [editorBaton]
      omega

/-- The copies of the first revision are from before it. -/
theorem Round.outside (round : Round server plan early st) (earlier : SourcesEarlier server)
    (opens : openRevision server st = .ok (log, opened)) (first : First server plan early st)
    (late : 1 < st.opts.start) (same : log.revision = st.opts.start)
    (flags : ¬ (st.opts.incremental = true ∧ st.opts.keepRevnums = true)) : Outside (editorBaton plan.session opened log) := by
  have control := openRevision_opts opens
  have start : opened.opts.start = st.opts.start := control_field control DumpOptions.start fun _ => rfl
  have keep : opened.opts.keepRevnums = st.opts.keepRevnums := control_field control DumpOptions.keepRevnums fun _ => rfl
  have incremental : opened.opts.incremental = st.opts.incremental :=
    control_field control DumpOptions.incremental fun _ => rfl
  have dry : opened.opts.initialDryRun = st.opts.initialDryRun :=
    control_field control DumpOptions.initialDryRun fun _ => rfl
  refine ⟨dry.trans first.wet, fun trusted => first.untrusted late ((trustsLog_congr start incremental).mp trusted), ?_⟩
  intro source original logged range
  obtain ⟨logs, fetched⟩ := (openRevision_logs opens).2 (round.mode.trans first.growing)
  have before := earlier log (logFetchSingle_ge fetched).1 source original logged
  simp only [editorBaton, incremental, start] at range ⊢
  unfold deltaGetLocalCopyfromRev
  cases kept : st.opts.keepRevnums with
  | true =>
    -- without --incremental the source would have to lie in the range
    rcases range with flag | inside
    · exact absurd ⟨flag, kept⟩ flags
    · omega
  | false =>
    rw [keep, kept]
    simp only [Bool.false_eq_true, if_false]
    have short : opened.logs.length - 1 ≤ 1 := by
      rw [logs, first.logs, initialLogs, List.length_append, List.length_singleton]
      split <;> simp
    rcases copyfromLoop_cases original opened.logs (opened.logs.length - 1) with none | ⟨i, log', below, value, -⟩
    · omega
    · omega

theorem Unfilled.snoc {calls : List PathCall} {call : PathCall} (unfilled : Unfilled calls)
    (other : ∀ r, call ≠ .commit r) : Unfilled (calls ++ [call]) := by
  obtain ⟨pads, tail, parts, only, quiet⟩ := unfilled
  refine ⟨pads, tail ++ [call], by rw [parts, List.append_assoc], only, ?_⟩
  rw [commits_snoc_other tail other]
  exact quiet

/-- The first revision: nothing but padding has been committed. -/
theorem Round.edit_first (round : Round server plan early st) (earlier : SourcesEarlier server)
    (listed : ∀ log ∈ plan.logs, log = .dummy ∨ log ∈ server.logs)
    (opens : openRevision server st = .ok (log, opened)) (first : First server plan early st) :
    Post (fun delta => Course plan.left plan.asked early opened.localRev delta.repo)
      (fun e => Course plan.left plan.asked early opened.localRev e.repo)
      (runEdit (editorBaton plan.session opened log)
        (server.diff (diffBase opened) log.revision (opened.globalRev = opened.opts.start)) opened.delta) := by
  have control := openRevision_opts opens
  have start : opened.opts.start = st.opts.start := control_field control DumpOptions.start fun _ => rfl
  have course := round.course
  simp only [first.wet, Bool.false_eq_true, if_false] at course
  -- opening the revision may pad, and does nothing else to the storage
  have opening : Course plan.left plan.asked early opened.localRev opened.delta.repo ∧
      ∀ call ∈ opened.delta.repo.calls, ∃ r, call = .commit r := by
    refine @openRevision_repo _ _ _ _ _ (fun n t => Course plan.left plan.asked early n t ∧
      ∀ call ∈ t.calls, ∃ r, call = .commit r) ?_ opens ⟨course, by simp [first.fresh]⟩
    intro n t holds
    refine ⟨holds.1.commit, fun call member => ?_⟩
    rcases List.mem_append.mp member with old | last
    · exact holds.2 call old
    · exact ⟨n, List.mem_singleton.mp last⟩
  have unfilled : Unfilled opened.delta.repo.calls :=
    ⟨_, [], (List.append_nil _).symm, opening.2, rfl⟩
  have queried : ∀ {t t' : TracedRepo sys} {r : Int} {found : CbSet}, Unfilled t.calls →
      t.tree r = some (found, t') → Unfilled t'.calls := by
    intro t t' r found holds reached
    rw [(TracedRepo.tree_eq_some.mp reached).2]
    exact holds.snoc (by simp)
  have closed : Closed (fun t : TracedRepo sys => Course plan.left plan.asked early opened.localRev t ∧ Unfilled t.calls)
      (AsksFor (editorBaton plan.session opened log)) := by
    refine round.closed earlier listed opens (Int.le_refl _) ?_ ?_ ?_
    · exact fun t path holds => ⟨holds.1.add path, holds.2.snoc (by simp)⟩
    · exact fun t path holds => ⟨holds.1.delete path, holds.2.snoc (by simp)⟩
    · exact fun t t' r found asks below holds reached => ⟨holds.1.query asks below reached, queried holds.2 reached⟩
  have done : Post (fun delta => Course plan.left plan.asked early opened.localRev delta.repo ∧ Unfilled delta.repo.calls)
      (fun e => Course plan.left plan.asked early opened.localRev e.repo ∧ Unfilled e.repo.calls)
      (runEdit (editorBaton plan.session opened log)
        (server.diff (diffBase opened) log.revision (opened.globalRev = opened.opts.start)) opened.delta) := by
    by_cases now : early
    -- the list keeps the numbers below: a deletion may look up any tree
    · refine runEdit_post ⟨closed.add, closed.delete, ?_⟩ _ ⟨opening.1, unfilled⟩
      rintro t t' r found (asks | ⟨rfl, -⟩) holds reached
      · exact closed.query t t' r found asks holds reached
      · exact ⟨holds.1.ahead now holds.2 reached, queried holds.2 reached⟩
    · obtain ⟨cover, adds⟩ := first.covered.resolve_left now
      by_cases any : ∃ r, AsksCurrent (editorBaton plan.session opened log) r
      -- a deletion that the log lists is looked up: the edit covers it before anything is filled
      · obtain ⟨r, -, late, same, table, path, info, changed, looked, deleted⟩ := any
        simp only [editorBaton, start] at late same changed
        obtain ⟨inside, -⟩ := logFetchSingle_ge ((openRevision_logs opens).2 (round.mode.trans first.growing)).2
        obtain ⟨mid, next, -, control', -⟩ := openRevision_control opens
        have globalRev : opened.globalRev = st.opts.start := by
          rw [control'.globalRev, (nextLog_control next).2.2.2.2.1, first.place]
        have base : diffBase opened = st.opts.start := by
          have positive : ¬ st.opts.start - 1 < 0 := by omega
          have below : st.opts.start - 1 < st.opts.start := by omega
          simp only [diffBase, globalRev, start, if_neg positive, if_pos below]
        have cover' := cover log inside same late
        have outside := round.outside earlier opens first late same
          (cover' table path info changed looked deleted).1
        rw [base, same, globalRev, start]
        simp only [decide_true]
        refine runEdit_covered closed outside (adds _ _) ?_ ⟨opening.1, unfilled⟩
        intro table' path' info' changed' looked' deleted'
        exact (cover' table' path' info' changed' looked' deleted').2
      · refine runEdit_post (closed.mono_or fun r current => any ⟨r, current⟩) _ ⟨opening.1, unfilled⟩
  exact done.mono (fun _ _ both => both.1) fun _ both => both.1

/-- A later revision: its deletions are not looked up. -/
theorem Round.edit_later (round : Round server plan early st) (earlier : SourcesEarlier server)
    (listed : ∀ log ∈ plan.logs, log = .dummy ∨ log ∈ server.logs)
    (opens : openRevision server st = .ok (log, opened)) (wet : st.opts.initialDryRun = false)
    (other : log.revision ≠ st.opts.start) (edit : Edit) :
    Post (fun delta => Course plan.left plan.asked early opened.localRev delta.repo)
      (fun e => Course plan.left plan.asked early opened.localRev e.repo)
      (runEdit (editorBaton plan.session opened log) edit opened.delta) := by
  have start : opened.opts.start = st.opts.start :=
    control_field (openRevision_opts opens) DumpOptions.start fun _ => rfl
  have course := round.course
  simp only [wet, Bool.false_eq_true, if_false] at course
  have closed := round.closed earlier listed opens (Int.le_refl _) (fun t path => Course.add path)
    (fun t path => Course.delete path)
    (fun t t' r found asks below (course : Course plan.left plan.asked early opened.localRev t) =>
      course.query asks below)
  refine runEdit_post (closed.mono_or fun r current => ?_) edit
    (openRevision_repo (fun n t => Course.commit) opens course)
  exact other (current.2.2.1.trans start)

/-- The dry run: the number of the base has been committed or never will be. -/
theorem Round.edit_dry (round : Round server plan early st) (earlier : SourcesEarlier server)
    (listed : ∀ log ∈ plan.logs, log = .dummy ∨ log ∈ server.logs)
    (opens : openRevision server st = .ok (log, opened)) (dry : st.opts.initialDryRun = true) (edit : Edit) :
    Post (fun delta => Course plan.left plan.asked early (st.localRev + 1) delta.repo ∧
        delta.repo.repo.head = st.delta.repo.repo.head)
      (fun e => Course plan.left plan.asked early (st.localRev + 1) e.repo)
      (runEdit (editorBaton plan.session opened log) edit opened.delta) := by
  obtain ⟨delta, number⟩ := openRevision_dry dry opens
  have course := round.course
  rw [dry, if_pos rfl] at course
  have headed : ∀ {t t' : TracedRepo sys} {r : Int} {found : CbSet}, t.tree r = some (found, t') →
      t'.repo.head = t.repo.head := by
    intro t t' r found reached
    rcases prTree_cases (TracedRepo.tree_eq_some.mp reached).1 with ⟨-, same⟩ | ⟨-, -, same⟩ <;> rw [same]
  have closed : Closed (fun t : TracedRepo sys => Course plan.left plan.asked early (st.localRev + 1) t ∧
      t.repo.head = st.delta.repo.repo.head) (AsksFor (editorBaton plan.session opened log)) := by
    have low : opened.localRev ≤ st.localRev + 1 := by omega
    refine round.closed earlier listed opens low ?_ ?_ ?_
    · exact fun t path holds => ⟨holds.1.add path, holds.2⟩
    · refine fun t path holds => ⟨holds.1.delete path, ?_⟩
      rw [← holds.2]
      simp only [TracedRepo.delete, pathRepoDelete, foldl_deleteOne]
    · exact fun t t' r found asks below holds reached =>
        ⟨holds.1.query asks below reached, (headed reached).trans holds.2⟩
  have done : Post (fun delta => Course plan.left plan.asked early (st.localRev + 1) delta.repo ∧
        delta.repo.repo.head = st.delta.repo.repo.head)
      (fun e => Course plan.left plan.asked early (st.localRev + 1) e.repo ∧
        e.repo.repo.head = st.delta.repo.repo.head)
      (runEdit (editorBaton plan.session opened log) edit opened.delta) := by
    refine runEdit_post ⟨closed.add, closed.delete, ?_⟩ edit ⟨by rw [delta]; exact course, by rw [delta]⟩
    rintro t t' r found (asks | ⟨current, -⟩) holds reached
    · exact closed.query t t' r found asks holds reached
    -- a deletion of the dry run asks for the number of the base
    · have here : r = st.localRev := current.trans number
      refine ⟨holds.1.query (fun _ isMid isKeep => ?_) (by omega) reached, (headed reached).trans holds.2⟩
      have base := round.numbered.number (round.mode.trans isMid) (round.keep.trans isKeep)
      rw [dry, if_pos rfl, (round.base isMid).1] at base
      exact .inl (by omega)
  exact done.mono (fun _ _ both => both) fun _ both => both.1

/-- After the first revision, the entries of the loop lie behind the start of the range. -/
theorem Round.other_revision (round : Round server plan early st) (wet : st.opts.initialDryRun = false)
    (later : ¬ First server plan early st) (opens : openRevision server st = .ok (log, opened)) :
    log.revision ≠ st.opts.start := by
  obtain ⟨whole, growing⟩ := openRevision_logs opens
  rcases round.position with isMid | first | ⟨isFull, valid, passed, range⟩
  -- in a list fetched at once the loop is behind the entry of the base
  · have mode := round.mode.trans isMid
    obtain ⟨i, base, found, revision, position⟩ := round.numbered.base mode
    obtain ⟨-, -, valid, listed⟩ := whole mode
    simp only [wet, Bool.false_eq_true, if_false] at position
    have sorted := List.pairwise_iff_getElem.mp (round.numbered.sorted mode)
    obtain ⟨low, low_eq⟩ := List.getElem?_eq_some_iff.mp found
    obtain ⟨high, high_eq⟩ := List.getElem?_eq_some_iff.mp listed
    have := sorted _ _ low high (by omega)
    rw [low_eq, high_eq] at this
    omega
  · exact absurd first later
  -- fetched one by one, the entries lie at or behind the place of the loop
  · obtain ⟨-, head | low | ⟨backwards, -⟩⟩ := logFetchSingle_ge (growing (round.mode.trans isFull)).2
    · omega
    · omega
    · omega

theorem post_lift {A : Type} (repo : TracedRepo sys) (x : Except DumpError A) :
    Post (fun a => x = .ok a) (fun e => e.repo = repo) (repo.lift x) := by
  cases x with
  | error e => rfl
  | ok a => rfl

theorem openRevision_fails (server : Server) (st : DumpState sys) :
    Post (fun _ => True) (fun e => e.repo = st.delta.repo) (openRevision server st) := by
  have next : Post (fun mid => mid.delta = st.delta) (fun e => e.repo = st.delta.repo) (nextLog server st) := by
    unfold nextLog
    split
    · rfl
    · exact Post.bind (post_lift st.delta.repo _) fun log _ => rfl
  unfold openRevision
  refine Post.bind next fun mid same => ?_
  have found := post_lift mid.delta.repo (logAt mid.logs mid.listIdx)
  rw [same] at found ⊢
  exact Post.bind found fun log _ => trivial

theorem Round.diff (round : Round server plan early st) (earlier : SourcesEarlier server)
    (listed : ∀ log ∈ plan.logs, log = .dummy ∨ log ∈ server.logs)
    (opens : openRevision server st = .ok (log, opened)) :
    Post (fun edited => edited.opts = opened.opts ∧ edited.localRev = opened.localRev ∧
        Course plan.left plan.asked early (if st.opts.initialDryRun then st.localRev + 1 else opened.localRev) edited.delta.repo ∧
        (st.opts.initialDryRun = true → edited.delta.repo.repo.head = st.delta.repo.repo.head))
      (fun e => ∃ n, Course plan.left plan.asked early n e.repo) (dumpDoDiff server plan.session log opened) := by
  unfold dumpDoDiff
  cases dry : st.opts.initialDryRun with
  | true =>
    refine Post.bind ((round.edit_dry earlier listed opens dry _).mono (fun _ _ => id) fun e kept => ⟨_, kept⟩) ?_
    exact fun delta kept => ⟨rfl, rfl, kept.1, fun _ => kept.2⟩
  | false =>
    have edit : Post (fun delta => Course plan.left plan.asked early opened.localRev delta.repo)
        (fun e => Course plan.left plan.asked early opened.localRev e.repo)
        (runEdit (editorBaton plan.session opened log)
          (server.diff (diffBase opened) log.revision (opened.globalRev = opened.opts.start)) opened.delta) := by
      by_cases first : First server plan early st
      · exact round.edit_first earlier listed opens first
      · exact round.edit_later earlier listed opens dry (round.other_revision dry first opens) _
    refine Post.bind (edit.mono (fun _ _ => id) fun e kept => ⟨_, kept⟩) ?_
    exact fun delta kept => ⟨rfl, rfl, kept, fun wrong => absurd wrong Bool.false_ne_true⟩

theorem Round.commits (round : Round server plan early st) {edited : DumpState sys}
    (opens : openRevision server st = .ok (log, opened))
    (edits : edited.opts = opened.opts ∧ edited.localRev = opened.localRev ∧
      Course plan.left plan.asked early (if st.opts.initialDryRun then st.localRev + 1 else opened.localRev) edited.delta.repo ∧
      (st.opts.initialDryRun = true → edited.delta.repo.repo.head = st.delta.repo.repo.head)) :
    Post (fun committed => Course plan.left plan.asked early (committed.localRev + 1) committed.delta.repo)
      (fun e => ∃ n, Course plan.left plan.asked early n e.repo) (commitRevision edited) := by
  obtain ⟨opts, number, course, head⟩ := edits
  have dry : opened.opts.initialDryRun = st.opts.initialDryRun :=
    control_field (openRevision_opts opens) DumpOptions.initialDryRun fun _ => rfl
  unfold commitRevision
  rw [opts, dry]
  cases mode : st.opts.initialDryRun with
  | true =>
    rw [mode, if_pos rfl] at course
    have same : edited.localRev = st.localRev := number.trans (openRevision_dry mode opens).2
    obtain ⟨asks, below⟩ := round.head mode
    rw [← head mode] at asks below
    simp only [if_true]
    refine Post.bind (post_orError (fun repo reverted => course.discard asks below reverted) ⟨_, course⟩) ?_
    intro repo kept
    rw [← same] at kept
    exact kept
  | false =>
    simp only [mode, Bool.false_eq_true, if_false] at course ⊢
    rw [← number] at course
    exact course.commit

theorem Round.step (round : Round server plan early st) (earlier : SourcesEarlier server)
    (listed : ∀ log ∈ plan.logs, log = .dummy ∨ log ∈ server.logs) :
    Post (fun st' => (∃ n, Course plan.left plan.asked early n st'.delta.repo) ∧
        (st'.globalRev ≤ st'.opts.stop → Round server plan early st'))
      (fun e => ∃ n, Course plan.left plan.asked early n e.repo) (dumpStep server plan.session st) := by
  have whole : Post (fun st' => Course plan.left plan.asked early st'.localRev st'.delta.repo)
      (fun e => ∃ n, Course plan.left plan.asked early n e.repo) (dumpStep server plan.session st) := by
    have opening : Post (fun result => openRevision server st = .ok result)
        (fun e => ∃ n, Course plan.left plan.asked early n e.repo) (openRevision server st) :=
      (openRevision_fails server st).mono (fun result ran _ => ran) fun e same => ⟨_, same ▸ round.course⟩
    refine Post.bind opening fun result opens => ?_
    obtain ⟨log, opened⟩ := result
    refine Post.bind (round.diff earlier listed opens) fun edited edits => ?_
    refine Post.bind (round.commits opens edits) fun committed commits => ?_
    refine Post.bind (post_orError_fails ⟨_, commits⟩) fun _ _ => ?_
    exact commits
  refine whole.mono (fun st' ran course => ⟨⟨_, course⟩, fun continues => ?_⟩) fun _ => id
  obtain ⟨log, opened, opens, control, logs, fetched, -, globalRev, -⟩ := dumpStep_control ran
  have keep : st'.opts.keepRevnums = st.opts.keepRevnums := control_field control DumpOptions.keepRevnums fun _ => rfl
  have start : st'.opts.start = st.opts.start := control_field control DumpOptions.start fun _ => rfl
  have stop : st'.opts.stop = st.opts.stop := control_field control DumpOptions.stop fun _ => rfl
  have wet : st'.opts.initialDryRun = false := control_field control DumpOptions.initialDryRun fun _ => rfl
  obtain ⟨list, growing⟩ := openRevision_logs opens
  refine ⟨round.numbered.step ran, fetched.trans round.mode, keep.trans round.keep, ?_, ?_, ?_, ?_⟩
  · intro isMid
    rw [start, logs, (list (round.mode.trans isMid)).1]
    exact round.base isMid
  · simp only [wet, Bool.false_eq_true, if_false]
    exact course
  · intro dry
    simp [wet] at dry
  · cases isMid : plan.mid with
    | true => exact .inl rfl
    | false =>
      have started : 0 ≤ st.opts.start ∧ st.opts.start ≤ st.globalRev := by
        rcases round.position with wrong | first | ⟨-, valid, passed, -⟩
        · simp [isMid] at wrong
        · exact ⟨first.valid, Int.le_of_eq first.place.symm⟩
        · exact ⟨valid, Int.le_of_lt passed⟩
      refine .inr (.inr ⟨rfl, by rw [start]; exact started.1, ?_, continues⟩)
      rw [start, globalRev]
      rw [globalRev, stop] at continues
      obtain ⟨-, head | low | ⟨backwards, le⟩⟩ := logFetchSingle_ge (growing (round.mode.trans isMid)).2
      · omega
      · omega
      · omega

theorem Round.loop {fuel : Nat} {result : Result sys (DumpState sys)} (round : Round server plan early st)
    (earlier : SourcesEarlier server) (listed : ∀ log ∈ plan.logs, log = .dummy ∨ log ∈ server.logs)
    (looped : dumpLoop server plan.session fuel st = some result) :
    Post (fun st' => ∃ n, Course plan.left plan.asked early n st'.delta.repo)
      (fun e => ∃ n, Course plan.left plan.asked early n e.repo) result := by
  induction fuel generalizing st with
  | zero => cases looped
  | succ fuel ih =>
    have step := round.step earlier listed
    rw [dumpLoop] at looped
    cases ran : dumpStep server plan.session st with
    | error e =>
      rw [ran] at looped step
      cases looped
      exact step
    | ok st' =>
      rw [ran] at looped step
      simp only at looped
      split at looped
      · next continues => exact ih (step.2 continues) looped
      · cases looped
        exact step.1

end Rsvndump
