import Rsvndump.Delta.Records
import Rsvndump.Dump.Calls
import Rsvndump.Log

/-! Which copies are kept.

`delta_check_copy` compares the copy source with the session prefix and looks
for a revision in the log list. A copy should be kept exactly if its source is
in the dump.
-/

set_option autoImplicit false

namespace Rsvndump

open Library

variable {sys : Platform} {server : Server} {session : Session} {opts : DumpOptions}

/-! ## The search -/

theorem copyfromLoop_pos {original : Int} {logs : List LogRevision} {n : Nat} :
    0 < copyfromLoop original logs n ↔
      ∃ i, 1 ≤ i ∧ i < n ∧ ∃ log, logs[i]? = some log ∧ log.revision ≤ original := by
  induction n with
  | zero => simp [copyfromLoop]
  | succ n ih =>
    have wider : (∃ i, 1 ≤ i ∧ i < n ∧ ∃ log, logs[i]? = some log ∧ log.revision ≤ original) →
        ∃ i, 1 ≤ i ∧ i < n + 1 ∧ ∃ log, logs[i]? = some log ∧ log.revision ≤ original := by
      rintro ⟨i, low, high, found⟩
      exact ⟨i, low, by omega, found⟩
    have narrower : (¬ ∃ log, logs[n]? = some log ∧ log.revision ≤ original) →
        (∃ i, 1 ≤ i ∧ i < n + 1 ∧ ∃ log, logs[i]? = some log ∧ log.revision ≤ original) →
        ∃ i, 1 ≤ i ∧ i < n ∧ ∃ log, logs[i]? = some log ∧ log.revision ≤ original := by
      rintro last ⟨i, low, high, found⟩
      have differs : i ≠ n := fun same => last (same ▸ found)
      exact ⟨i, low, by omega, found⟩
    rw [copyfromLoop]
    cases found : logs[n]? with
    | none => exact ⟨fun positive => wider (ih.mp positive), fun some => ih.mpr (narrower (by simp [found]) some)⟩
    | some log =>
      simp only
      split
      · next le =>
        refine ⟨fun positive => ⟨n, by omega, by omega, log, found, le⟩, ?_⟩
        rintro ⟨i, low, high, -⟩
        omega
      · next greater =>
        refine ⟨fun positive => wider (ih.mp positive), fun some => ih.mpr (narrower ?_ some)⟩
        rintro ⟨log', found', le⟩
        rw [found, Option.some.injEq] at found'
        exact greater (found' ▸ le)

/-! ## The list while a revision is dumped -/

/-- How the list of a round was made. -/
structure Listed (server : Server) (session : Session) (st : DumpState sys) : Prop where
  shape : ∃ fetched, st.logs = initialLogs session ++ fetched ∧ ∀ log ∈ fetched, log ∈ server.logs
  whole : st.logsFetched = true → ∃ stop, 0 ≤ stop ∧ st.logs = logList server session stop
  first : st.logsFetched = false → trustsLog session st.opts →
    st.globalRev = 0 ∧ 0 ≤ st.opts.stop ∨ ∃ log ∈ st.logs, log.revision = 0

/-- The list when the editor is set up. The log of the repository root begins with revision 0. -/
theorem Listed.opens {st opened : DumpState sys} {log : LogRevision} (listed : Listed server session st)
    (increasing : Increasing session server)
    (rooted : session.prefixPath = [] → ∃ log ∈ server.logs, log.revision = 0)
    (opens : openRevision server st = .ok (log, opened)) :
    (∃ fetched, opened.logs = initialLogs session ++ fetched ∧ ∀ log ∈ fetched, log ∈ server.logs) ∧
      (st.logsFetched = true → ∃ stop, 0 ≤ stop ∧ opened.logs = logList server session stop) ∧
      (trustsLog session st.opts → ∃ log ∈ opened.logs, log.revision = 0) := by
  obtain ⟨list, growing⟩ := openRevision_logs opens
  cases mode : st.logsFetched with
  | true =>
    obtain ⟨logs, -⟩ := list mode
    rw [logs]
    refine ⟨listed.shape, fun _ => listed.whole mode, fun trusted => ?_⟩
    obtain ⟨stop, valid, whole⟩ := listed.whole mode
    obtain ⟨zero, member, same⟩ := rooted (List.length_eq_zero_iff.mp trusted.1)
    refine ⟨zero, ?_, same⟩
    rw [whole, logList, svnRaGetLog_zero increasing valid]
    exact List.mem_append_right _ (List.mem_filter.mpr ⟨member, by simpa [same] using valid⟩)
  | false =>
    obtain ⟨logs, fetched⟩ := growing mode
    rw [logs]
    refine ⟨?_, (fun wrong => absurd wrong Bool.false_ne_true), fun trusted => ?_⟩
    · obtain ⟨before, shape, inside⟩ := listed.shape
      refine ⟨before ++ [log], by rw [shape, List.append_assoc], fun log' member => ?_⟩
      rcases List.mem_append.mp member with early | same
      · exact inside log' early
      · rw [List.mem_singleton.mp same]
        exact logFetchSingle_mem fetched
    · rcases listed.first mode trusted with ⟨begin, valid⟩ | ⟨zero, member, same⟩
      · obtain ⟨zero, member, same⟩ := rooted (List.length_eq_zero_iff.mp trusted.1)
        rw [begin, logFetchSingle, orError_eq_ok, svnRaGetLog_zero increasing valid] at fetched
        have low := head_le (increasing.logs.sublist List.filter_sublist) fetched
          (List.mem_filter.mpr ⟨member, by simpa [same] using valid⟩)
        have := increasing.2 log (List.mem_filter.mp (List.mem_of_head? fetched)).1
        exact ⟨log, by simp, by omega⟩
      · exact ⟨zero, List.mem_append_left _ member, same⟩

theorem Reached.listed (increasing : Increasing session server) (changed : LastChanged server)
    (rooted : session.prefixPath = [] → ∃ log ∈ server.logs, log.revision = 0) {st : DumpState sys}
    (reached : Reached server session opts st) : Listed server session st := by
  induction reached with
  | setup ran =>
    obtain ⟨range, adjusted, incremental, full⟩ := dumpSetup_ok ran
    obtain ⟨created, shape, -, root⟩ := adjustRange_ok increasing changed adjusted
    have valid := created_nonneg increasing changed created
    cases mid : startMid opts with
    | true =>
      obtain ⟨base, final, repo, -, -, -, -, -, logs, fetched, -⟩ := setupIncremental_ok (incremental mid)
      refine ⟨⟨_, logs, fun log member => mem_of_svnRaGetLog member⟩, fun _ => ⟨range.stop, valid, logs⟩, fun single => ?_⟩
      rw [fetched] at single
      cases single
    | false =>
      have fields := @setupFull_fields sys server session _ (adjustRange_positive increasing adjusted)
      rw [full mid, fields]
      refine ⟨⟨[], by simp, by simp⟩, (fun wrong => absurd wrong Bool.false_ne_true), fun _ trusted => .inl ⟨?_, valid⟩⟩
      obtain ⟨top, zero | flag⟩ := trusted
      · exact zero
      · have same := root fun both => by have := both.2; omega
        have flag : opts.incremental = true := by
          rw [← formatted_incremental opts, ← flag]
          simp only
          rw [shape]
        simp only [startMid, flag, Bool.true_and, decide_eq_false_iff_not, not_not] at mid
        simp only
        rw [same, formatted_start, mid]
  | @round st st' reached ran continues ih =>
    obtain ⟨log, opened, opens, control, logs, fetched, -⟩ := dumpStep_control ran
    obtain ⟨shape, whole, first⟩ := ih.opens increasing rooted opens
    have start : st'.opts.start = st.opts.start := control_field control DumpOptions.start fun _ => rfl
    have incremental : st'.opts.incremental = st.opts.incremental :=
      control_field control DumpOptions.incremental fun _ => rfl
    rw [← logs] at shape whole first
    refine ⟨shape, fun mode => whole (fetched ▸ mode), fun _ trusted => .inr (first ?_)⟩
    exact (trustsLog_congr start incremental).mp trusted

/-- No entry of the list is behind its last one. -/
theorem Listed.last {st opened : DumpState sys} {log final : LogRevision} (listed : Listed server session st)
    (increasing : Increasing session server) (opens : openRevision server st = .ok (log, opened))
    (last : opened.logs.getLast? = some final) : log.revision ≤ final.revision := by
  obtain ⟨list, growing⟩ := openRevision_logs opens
  cases mode : st.logsFetched with
  | true =>
    obtain ⟨logs, -, -, found⟩ := list mode
    obtain ⟨stop, valid, whole⟩ := listed.whole mode
    rw [logs, whole] at last
    rw [whole] at found
    exact le_getLast (increasing.logList valid) last (List.mem_of_getElem? found)
  | false =>
    obtain ⟨logs, -⟩ := growing mode
    rw [logs, List.getLast?_concat, Option.some.injEq] at last
    rw [last]

/-- The search finds a revision if an entry behind the first one is old enough. -/
theorem copyfromLoop_pos_iff {original : Int} {logs : List LogRevision}
    (above : ∀ final, logs.getLast? = some final → original < final.revision) :
    0 < copyfromLoop original logs (logs.length - 1) ↔ ∃ log ∈ logs.tail, log.revision ≤ original := by
  rw [copyfromLoop_pos]
  constructor
  · rintro ⟨i, low, -, log, found, le⟩
    refine ⟨log, List.mem_of_getElem? (i := i - 1) ?_, le⟩
    rw [List.getElem?_tail, Nat.sub_add_cancel low]
    exact found
  · rintro ⟨log, member, le⟩
    obtain ⟨i, found⟩ := List.getElem?_of_mem member
    rw [List.getElem?_tail] at found
    have bound := (List.getElem?_eq_some_iff.mp found).1
    refine ⟨i + 1, by omega, ?_, log, found, le⟩
    -- the last entry is too new
    by_contra outside
    have same : i + 1 = logs.length - 1 := by omega
    have := above log (by rw [List.getLast?_eq_getElem?, ← same, found])
    omega

/-! ## Copies -/

/-- A revision that is in the dump and not later than the source. -/
def Referable (logs : List LogRevision) (original : Int) : Prop :=
  ∃ log ∈ logs, log.changedPaths.isSome ∧ log.revision ≤ original

/-- `--incremental, or start <= R` -/
def InRange (opts : DumpOptions) (original : Int) : Prop := opts.incremental = true ∨ opts.start ≤ original

/-- A record that adds a node with its contents and without a copy source. -/
def PlainAdd (record : NodeRecord) : Prop := record.action = .add ∧ record.copyfrom = none ∧ record.body.isSome

/-- A copy of `source@original` is kept exactly if its source is in the dump, and then it names the
path of the source in the session; else the node is added. -/
structure KeepsCopy (sys : Platform) (baton : DeBaton) (node : DeNode) (source : CString) (original : Int) : Prop where
  copied : (deltaCheckCopy baton node).cpInfo = .copy ↔
    Below baton.session.prefixPath source ∧ InRange baton.opts original ∧ Referable baton.logs original
  named : (deltaCheckCopy baton node).cpInfo = .copy →
    ∃ rel, deltaGetLocalCopyfromPath baton.session.prefixPath source = some rel ∧
      absolutePath baton.session.prefixPath rel = slash :: source
  added : (deltaCheckCopy baton node).cpInfo ≠ .copy → node.action = .add → isSkipped baton node = false →
    ∀ replaceNode above (st st' : DeltaState sys) node', dumpNodeWith baton replaceNode above node st = .ok (node', st') →
      ∃ record, st'.out = st.out ++ [record] ∧ PlainAdd record

/-- What the search for a revision comes down to. -/
def Matched (baton : DeBaton) (original : Int) : Prop :=
  if baton.opts.keepRevnums then 0 < original else ∃ log ∈ baton.logs.tail, log.revision ≤ original

/-- The source does not merely share the characters of the prefix, and for a source inside the
session root the search finds a revision exactly if there is one. -/
structure SourceClear (baton : DeBaton) (source : CString) (original : Int) : Prop where
  sibling : baton.session.prefixPath <+: source → ¬ Below baton.session.prefixPath source → ¬ Matched baton original
  inside : Below baton.session.prefixPath source → (Matched baton original ↔ Referable baton.logs original)

section Decision

variable {baton : DeBaton} {node : DeNode} {source : CString} {original : Int}

/-- What `delta_check_copy` decides. -/
theorem deltaCheckCopy_copy_iff (copies : node.copyfrom = some (source, original))
    (clear : node.cpInfo.isFailed = false)
    (above : ∀ final, baton.logs.getLast? = some final → original < final.revision) :
    (deltaCheckCopy baton node).cpInfo = .copy ↔ trustsLog baton.session baton.opts ∨
      InRange baton.opts original ∧ baton.session.prefixPath <+: source ∧ Matched baton original := by
  have found : 0 < deltaGetLocalCopyfromRev original baton.opts baton.logs ↔ Matched baton original := by
    unfold deltaGetLocalCopyfromRev Matched
    split
    · rfl
    · exact copyfromLoop_pos_iff above
  unfold deltaCheckCopy
  simp only [copies, clear, Bool.false_eq_true, if_false, gt_iff_lt]
  by_cases trusted : trustsLog baton.session baton.opts
  · simp [trusted]
  · simp only [trusted, if_false, false_or]
    by_cases reachable : (baton.opts.incremental = true ∨ baton.opts.start ≤ original) ∧
        baton.session.prefixPath <+: source
    · rw [if_pos reachable, ← found]
      by_cases positive : 0 < deltaGetLocalCopyfromRev original baton.opts baton.logs
      · simp [InRange, reachable, positive]
      · simp [positive]
    · rw [if_neg reachable]
      simp only [reduceCtorEq, false_iff]
      exact fun all => reachable ⟨all.1, all.2.1⟩

theorem dumpNodeWith_added (added : node.action = .add)
    (plain : (deltaCheckCopy baton node).cpInfo ≠ .copy) (dumped : isSkipped baton node = false)
    {replaceNode : DeNode → DeltaState sys → Result sys (DeNode × DeltaState sys)} {above : List DeNode}
    {st st' : DeltaState sys} {node' : DeNode} (ran : dumpNodeWith baton replaceNode above node st = .ok (node', st')) :
    ∃ record, st'.out = st.out ++ [record] ∧ PlainAdd record := by
  have action := deltaCheckCopy_action baton node
  rw [dumpNodeWith_add added dumped] at ran
  have uncopied : copyInfo baton (deltaCheckCopy baton node) = none := if_neg plain
  obtain ⟨record, mid, writes, done⟩ := dumpRecord_cases ran
  have out : st'.out = st.out ++ [record] := by
    rw [show st' = _ from congrArg Prod.snd done, finish_out, emit_out, writes.out]
  refine ⟨record, out, ?_⟩
  cases writes with
  | deleted gone => rw [action, added] at gone; cases gone
  | unchanged _ same =>
    have := same.1
    simp [uncopied] at this
  | text => exact ⟨action.trans added, by simp [presentRecord, uncopied], rfl⟩
  | props => exact ⟨action.trans added, by simp [presentRecord, uncopied], rfl⟩

/-- The names of the copies that are kept and the records of the others follow from the decision. -/
theorem keepsCopy_iff (canonical : CanonicalPath source) :
    KeepsCopy sys baton node source original ↔ ((deltaCheckCopy baton node).cpInfo = .copy ↔
      Below baton.session.prefixPath source ∧ InRange baton.opts original ∧ Referable baton.logs original) := by
  refine ⟨KeepsCopy.copied, fun copied => ⟨copied, fun copy => ?_, ?_⟩⟩
  · exact localPath_inside canonical (copied.mp copy).1
  · intro plain added dumped replaceNode above st st' node' ran
    exact dumpNodeWith_added added plain dumped ran

end Decision

/-- While a revision is dumped, a copy is kept as it should be exactly if the log can be used as it
is, or the source is out of range, or it is clear. -/
theorem copy_kept_iff (increasing : Increasing session server) (changed : LastChanged server)
    (rooted : session.prefixPath = [] → ∃ log ∈ server.logs, log.revision = 0)
    (tables : ∀ log ∈ server.logs, log.changedPaths.isSome) {st opened : DumpState sys} {log : LogRevision}
    (reached : Reached server session opts st) (opens : openRevision server st = .ok (log, opened)) {node : DeNode}
    {source : CString} {original : Int} (copies : node.copyfrom = some (source, original))
    (clear : node.cpInfo.isFailed = false) (canonical : CanonicalPath source) (valid : 0 ≤ original)
    (earlier : original < log.revision) :
    KeepsCopy sys (editorBaton session opened log) node source original ↔
      trustsLog session opened.opts ∨ ¬ InRange opened.opts original ∨
        SourceClear (editorBaton session opened log) source original := by
  have listed := reached.listed increasing changed rooted
  obtain ⟨⟨fetched, shape, inside⟩, -, zero⟩ := listed.opens increasing rooted opens
  have above : ∀ final, (editorBaton session opened log).logs.getLast? = some final → original < final.revision := by
    intro final last
    have := listed.last increasing opens last
    omega
  have decides := deltaCheckCopy_copy_iff copies clear above
  rw [keepsCopy_iff canonical, decides]
  by_cases trusted : trustsLog session opened.opts
  · have root : session.prefixPath = [] := List.length_eq_zero_iff.mp trusted.1
    have range : InRange opened.opts original := by
      rcases trusted.2 with start | flag
      · exact .inr (by omega)
      · exact .inl flag
    have referable : Referable opened.logs original := by
      have control := openRevision_opts opens
      have start : opened.opts.start = st.opts.start := control_field control DumpOptions.start fun _ => rfl
      have incremental : opened.opts.incremental = st.opts.incremental :=
        control_field control DumpOptions.incremental fun _ => rfl
      obtain ⟨log, member, same⟩ := zero ((trustsLog_congr start incremental).mp trusted)
      refine ⟨log, member, ?_, by omega⟩
      rw [shape, initialLogs, if_neg (by simp [root]), List.nil_append] at member
      exact tables log (inside log member)
    simp only [editorBaton, trusted, true_or, true_iff, iff_true]
    exact ⟨.inl root, range, referable⟩
  · simp only [editorBaton, trusted, false_or]
    constructor
    · intro copied
      by_cases range : InRange opened.opts original
      · refine .inr ⟨fun front beside matched => ?_, fun below => ?_⟩
        · exact beside (copied.mp ⟨range, front, matched⟩).1
        · exact ⟨fun matched => (copied.mp ⟨range, below.isPrefix, matched⟩).2.2,
            fun referable => (copied.mpr ⟨below, range, referable⟩).2.2⟩
      · exact .inl range
    · rintro (outside | source_clear)
      · exact ⟨fun all => absurd all.1 outside, fun all => absurd all.2.1 outside⟩
      · constructor
        · rintro ⟨range, front, matched⟩
          by_cases below : Below session.prefixPath source
          · exact ⟨below, range, (source_clear.inside below).mp matched⟩
          · exact absurd matched (source_clear.sibling front below)
        · rintro ⟨below, range, referable⟩
          exact ⟨range, below.isPrefix, (source_clear.inside below).mpr referable⟩

/-! A copy in revision 2 of the directory `trunk`, from inside of it and from its sibling `trunk2`. -/

def copyOf (source : CString) : DeNode :=
  { deltaCreateNodeNoParent (cstr "b") .file .add with copyfrom := some (source, 1), dumpNeeded := true }

/-- The revision dumped after `n` rounds, what becomes of a node and the list by then. -/
def decisionAfter (server : Server) (session : Session) (opts : DumpOptions) (n : Nat) (node : DeNode) :
    Option (Int × CpInfo × Bool × List (Int × Bool)) := do
  let st ← (afterRounds server session opts n : Option (DumpState .plain))
  let (log, opened) ← (openRevision server st).toOption
  return (log.revision, (deltaCheckCopy (editorBaton session opened log) node).cpInfo, opened.opts.keepRevnums,
    opened.logs.map fun log => (log.revision, log.changedPaths.isSome))

theorem decisionAfter_eq_some {n : Nat} {node : DeNode} {c : Int} {decision : CpInfo} {keep : Bool}
    {list : List (Int × Bool)} (found : decisionAfter server session opts n node = some (c, decision, keep, list)) :
    ∃ (st opened : DumpState .plain) (log : LogRevision), Reached server session opts st ∧
      openRevision server st = .ok (log, opened) ∧ log.revision = c ∧
      (deltaCheckCopy (editorBaton session opened log) node).cpInfo = decision ∧ opened.opts.keepRevnums = keep ∧
      (opened.logs.map fun log => (log.revision, log.changedPaths.isSome)) = list := by
  rw [decisionAfter, Option.bind_eq_bind, Option.bind_eq_some_iff] at found
  obtain ⟨st, reached, found⟩ := found
  rw [Option.bind_eq_bind, Option.bind_eq_some_iff] at found
  obtain ⟨⟨log, opened⟩, opens, found⟩ := found
  cases found
  exact ⟨st, opened, log, reached_afterRounds reached, toOption_eq_some.mp opens, rfl, rfl, rfl, rfl⟩

theorem copy_kept_inside :
    ∃ (st opened : DumpState .plain) (log : LogRevision), Reached trunkServer trunkSession DumpOptions.create st ∧
      openRevision trunkServer st = .ok (log, opened) ∧ log.revision = 2 ∧
      KeepsCopy .plain (editorBaton trunkSession opened log) (copyOf (cstr "trunk/a")) (cstr "trunk/a") 1 := by
  obtain ⟨st, opened, log, reached, opens, revision, -, keep, list⟩ := decisionAfter_eq_some
    (show decisionAfter trunkServer trunkSession DumpOptions.create 1 (copyOf (cstr "trunk/a")) =
      some (2, .copy, false, [(0, false), (1, true), (2, true)]) by decide)
  refine ⟨st, opened, log, reached, opens, revision, ?_⟩
  have canonical : CanonicalPath (cstr "trunk/a") := ⟨by decide, by decide, by decide⟩
  have tables : ∀ log ∈ trunkServer.logs, log.changedPaths.isSome := by simp [trunkServer, plainLog]
  have copies : (copyOf (cstr "trunk/a")).copyfrom = some (cstr "trunk/a", 1) := rfl
  have clear : (copyOf (cstr "trunk/a")).cpInfo.isFailed = false := rfl
  have earlier : 1 < log.revision := by omega
  have iff := copy_kept_iff trunkServer_increasing trunkServer_lastChanged (fun root => absurd root (by decide)) tables
    reached opens copies clear canonical (by decide) earlier
  refine iff.mpr (.inr (.inr ⟨fun _ beside => ?_, fun _ => ?_⟩))
  · exact absurd (show Below trunkSession.prefixPath (cstr "trunk/a") by decide) beside
  · have tail : (1, true) ∈ opened.logs.tail.map fun log => (log.revision, log.changedPaths.isSome) := by
      rw [List.map_tail, list]
      simp
    obtain ⟨first, member, same⟩ := List.mem_map.mp tail
    rw [Prod.mk.injEq] at same
    have matched : Matched (editorBaton trunkSession opened log) 1 := by
      simp only [Matched, editorBaton, keep, Bool.false_eq_true, if_false]
      exact ⟨first, member, by omega⟩
    exact ⟨fun _ => ⟨first, List.mem_of_mem_tail member, same.2, by omega⟩, fun _ => matched⟩

/-- A copy from `trunk2` is kept, and its source is printed as the path `2/a` of the session. -/
theorem copy_of_sibling_kept :
    ∃ (st opened : DumpState .plain) (log : LogRevision), Reached trunkServer trunkSession DumpOptions.create st ∧
      openRevision trunkServer st = .ok (log, opened) ∧ log.revision = 2 ∧
      (deltaCheckCopy (editorBaton trunkSession opened log) (copyOf (cstr "trunk2/a"))).cpInfo = .copy ∧
      deltaGetLocalCopyfromPath trunkSession.prefixPath (cstr "trunk2/a") = some (cstr "2/a") ∧
      ¬ KeepsCopy .plain (editorBaton trunkSession opened log) (copyOf (cstr "trunk2/a")) (cstr "trunk2/a") 1 := by
  obtain ⟨st, opened, log, reached, opens, revision, copied, -⟩ := decisionAfter_eq_some
    (show decisionAfter trunkServer trunkSession DumpOptions.create 1 (copyOf (cstr "trunk2/a")) =
      some (2, .copy, false, [(0, false), (1, true), (2, true)]) by decide)
  refine ⟨st, opened, log, reached, opens, revision, copied, by decide, fun keeps => ?_⟩
  exact absurd (keeps.copied.mp copied).1 (show ¬ Below trunkSession.prefixPath (cstr "trunk2/a") by decide)

end Rsvndump
